import Hrx.Facts.Bitwise
import Hrx.Facts.Equiv.Width

/-!
# Bitwise operations, rotations, minima and maxima of described integers

Only a power of two in the divisor survives an operation on bits (`bitwiseDivisor_spec`); a
conjunction keeps the larger of two, a disjunction the smaller.  Bounds come from the highest bit of
nonnegative operands and are rounded down to a multiple of the divisor.
-/

namespace Hrx.Facts

open BitVec TwosComplement

namespace IntegerFacts

variable {lhs rhs : IntegerFacts} {l r : ℤ}

/-! ### Divisors -/

lemma ofNat_toU64 (v : ℤ) : BitVec.ofNat 64 (toU64 v) = BitVec.ofInt 64 v := by
  apply eq_of_toNat_eq
  rw [toNat_ofNat, toNat_ofInt, Nat.mod_eq_of_lt (toU64_lt v)]
  rfl

/-- The divisor made of the lowest bit of a word; zero and the least word get the greatest one. -/
lemma lowestBitU64_spec {v : ℤ} (hv : IsI64 v) : ∃ k ≤ 62,
    (if lowestBitU64 (toU64 v) = 0 ∨ lowestBitU64 (toU64 v) > 2 ^ 63 - 1 then (2 : ℤ) ^ 62
      else toI64 (lowestBitU64 (toU64 v))) = 2 ^ k ∧ (2 : ℤ) ^ k ∣ v := by
  unfold lowestBitU64
  rw [ofNat_toU64]
  by_cases hzero : BitVec.ofInt 64 v = 0#64
  · have hv0 := toInt_ofInt_of_isI64 hv
    rw [hzero] at hv0
    refine ⟨62, le_rfl, by rw [hzero]; rfl, ?_⟩
    rw [← hv0]
    exact Int.dvd_zero _
  obtain ⟨k, hk, heq, hdvd⟩ := exists_and_neg_eq_twoPow hzero
  rw [toInt_ofInt_of_isI64 hv] at hdvd
  rw [heq, toNat_twoPow_of_lt hk]
  have hpos := Nat.two_pow_pos k
  by_cases hk63 : k = 63
  · refine ⟨62, le_rfl, by rw [if_pos (by rw [hk63]; omega)], ?_⟩
    exact (pow_dvd_pow 2 (by omega)).trans hdvd
  · have hlt : 2 ^ k < 2 ^ 63 := Nat.pow_lt_pow_right (by decide) (by omega)
    refine ⟨k, by omega, ?_, hdvd⟩
    rw [if_neg (by omega), toI64_of_lt hlt, cast_two_pow]

/-- The divisor that bitwise operations use is a power of two that divides every described
integer. -/
theorem bitwiseDivisor_spec {facts : IntegerFacts} (hf : facts.WellFormed) :
    ∃ k ≤ 62, facts.bitwiseDivisor = 2 ^ k ∧ ∀ v, facts.Admits v → (2 : ℤ) ^ k ∣ v := by
  unfold bitwiseDivisor
  by_cases hexact : facts.isExact = true
  · obtain ⟨k, hk, heq, hdvd⟩ := lowestBitU64_spec hf.rangeLo
    rw [if_pos hexact]
    refine ⟨k, hk, heq, fun v h => ?_⟩
    rwa [hf.eq_rangeLo_of_exact hexact h]
  · obtain ⟨k, hk, heq, hdvd⟩ := lowestBitU64_spec hf.knownDivisor
    rw [if_neg hexact]
    exact ⟨k, hk, heq, fun v h => hdvd.trans h.dvd⟩

/-- Bounds and a power of two, as bitwise operations make facts of them. -/
lemma make_rounded_admits {lo hi v : ℤ} {k : ℕ} (hk : k ≤ 62) (hlo64 : IsI64 lo) (hhi64 : IsI64 hi)
    (hlo : lo ≤ v) (hhi : v ≤ hi) (hdvd : (2 : ℤ) ^ k ∣ v) :
    (make lo (andI64 hi (-2 ^ k)) (2 ^ k)).Admits v := by
  refine make_admits hlo64 hlo ?_ hdvd
  rw [andI64_neg_two_pow hhi64 hk]
  exact le_sub_emod (two_pow_pos k) hdvd hhi

lemma isI64_min : IsI64 (-2 ^ 63) := by decide

lemma isI64_max : IsI64 (2 ^ 63 - 1) := by decide

/-- Two exact ranges. -/
lemma eq_of_ends {facts : IntegerFacts} {v : ℤ} (hends : facts.rangeLo = facts.rangeHi)
    (hv : IsI64 v) (h : facts.Admits v) : v = facts.rangeLo := by
  have hbounds := h.bounds hv
  omega

/-! ### Conjunction -/

lemma two_pow_dvd_andI64_left {k : ℕ} (hk : k ≤ 62) (hl : IsI64 l) (h : (2 : ℤ) ^ k ∣ l) (r : ℤ) :
    (2 : ℤ) ^ k ∣ andI64 l r := by
  apply two_pow_dvd_toInt_and_left (by omega)
  rwa [toInt_ofInt_of_isI64 hl]

lemma andi_admits (hL : lhs.WellFormed) (hR : rhs.WellFormed) (hl : IsI64 l) (hr : IsI64 r)
    (hlhs : lhs.Admits l) (hrhs : rhs.Admits r) : (andi lhs rhs).Admits (andI64 l r) := by
  unfold andi
  by_cases hends : lhs.rangeLo = lhs.rangeHi ∧ rhs.rangeLo = rhs.rangeHi
  · rw [if_pos hends, eq_of_ends hends.1 hl hlhs, eq_of_ends hends.2 hr hrhs]
    exact exactI64_admits (isI64_toInt _)
  rw [if_neg hends]
  obtain ⟨i, hi, heqi, hdvdi⟩ := bitwiseDivisor_spec hL
  obtain ⟨j, hj, heqj, hdvdj⟩ := bitwiseDivisor_spec hR
  have hdvd : (2 : ℤ) ^ max i j ∣ andI64 l r := by
    rcases max_choice i j with hmax | hmax <;> rw [hmax]
    · exact two_pow_dvd_andI64_left hi hl (hdvdi l hlhs) r
    · rw [andI64_comm]
      exact two_pow_dvd_andI64_left hj hr (hdvdj r hrhs) l
  obtain ⟨hlle, hlge⟩ := hlhs.bounds hl
  obtain ⟨hrle, hrge⟩ := hrhs.bounds hr
  have hword : IsI64 (andI64 l r) := isI64_toInt _
  -- what a nonnegative operand says of the result
  have hleft : lhs.rangeLo ≥ 0 → 0 ≤ andI64 l r ∧ andI64 l r ≤ lhs.rangeHi := fun h0 => by
    have := andI64_le_left (by omega) hl r
    omega
  have hright : rhs.rangeLo ≥ 0 → 0 ≤ andI64 l r ∧ andI64 l r ≤ rhs.rangeHi := fun h0 => by
    have := andI64_le_left (by omega) hr l
    rw [andI64_comm] at this
    omega
  rw [heqi, heqj, ← (pow_right_mono₀ one_le_two).map_max]
  apply make_rounded_admits (by omega) _ _ _ _ hdvd
  · split_ifs <;> first | exact isI64_zero | exact isI64_min
  · split_ifs
    exacts [min_rec' IsI64 hL.rangeHi hR.rangeHi, min_rec' IsI64 isI64_max hR.rangeHi, hL.rangeHi,
      isI64_max]
  · unfold IsI64 at hword
    split_ifs <;> omega
  · unfold IsI64 at hword
    split_ifs <;> omega

/-! ### Disjunction -/

/-- The operands fit the bits that the upper bound fills. -/
lemma nonNegativeBitwiseUpperBound_spec {lhsHi rhsHi : ℤ} (hl0 : 0 ≤ lhsHi) (hr0 : 0 ≤ rhsHi)
    (hl : IsI64 lhsHi) (hr : IsI64 rhsHi) : ∃ n ≤ 63,
    nonNegativeBitwiseUpperBound lhsHi rhsHi = 2 ^ n - 1 ∧ lhsHi < 2 ^ n ∧ rhsHi < 2 ^ n := by
  have hmax : IsI64 (max lhsHi rhsHi) := max_rec' IsI64 hl hr
  have hword := cast_toU64_of_nonneg (by omega) hmax
  have hlt := hmax.2
  unfold nonNegativeBitwiseUpperBound
  dsimp only
  split_ifs with hzero
  · exact ⟨0, by decide, rfl, by omega, by omega⟩
  have hlog : (toU64 (max lhsHi rhsHi)).log2 < 63 := by
    rw [Nat.log2_lt hzero]
    omega
  have hself := Nat.lt_log2_self (n := toU64 (max lhsHi rhsHi))
  have hcount : 64 - countLeadingZerosU64 (toU64 (max lhsHi rhsHi)) =
      (toU64 (max lhsHi rhsHi)).log2 + 1 := by
    rw [countLeadingZerosU64, if_neg hzero]
    omega
  rw [hcount]
  generalize hn : (toU64 (max lhsHi rhsHi)).log2 + 1 = n at *
  have hcast := cast_two_pow n
  have hpow : 2 ^ n ≤ 2 ^ 63 := Nat.pow_le_pow_right (by decide) (by omega)
  refine ⟨n, by omega, ?_, by omega, by omega⟩
  rw [toI64_of_lt (by omega)]
  omega

lemma orI64_bounds {n : ℕ} (hn : n ≤ 63) (hl0 : 0 ≤ l) (hr0 : 0 ≤ r) (hl : l < 2 ^ n)
    (hr : r < 2 ^ n) : l ≤ orI64 l r ∧ r ≤ orI64 l r ∧ orI64 l r < 2 ^ n := by
  have hcast := cast_two_pow n
  have hpow := Nat.pow_le_pow_right Nat.two_pos hn
  have hlword := toNat_ofInt_of_nonneg hl0 ⟨by omega, by omega⟩
  have hrword := toNat_ofInt_of_nonneg hr0 ⟨by omega, by omega⟩
  have hlt : l.toNat ||| r.toNat < 2 ^ n := Nat.or_lt_two_pow (by omega) (by omega)
  have hleft : l.toNat ≤ l.toNat ||| r.toNat := Nat.left_le_or
  have hright : r.toNat ≤ l.toNat ||| r.toNat := Nat.right_le_or
  have hor : (BitVec.ofInt 64 l ||| BitVec.ofInt 64 r).toNat = l.toNat ||| r.toNat := by
    rw [toNat_or, hlword, hrword]
  unfold orI64
  rw [toInt_eq_of_toNat_lt (by omega), hor]
  omega

lemma xorI64_bounds {n : ℕ} (hn : n ≤ 63) (hl0 : 0 ≤ l) (hr0 : 0 ≤ r) (hl : l < 2 ^ n)
    (hr : r < 2 ^ n) : 0 ≤ xorI64 l r ∧ xorI64 l r < 2 ^ n := by
  have hcast := cast_two_pow n
  have hpow := Nat.pow_le_pow_right Nat.two_pos hn
  have hlword := toNat_ofInt_of_nonneg hl0 ⟨by omega, by omega⟩
  have hrword := toNat_ofInt_of_nonneg hr0 ⟨by omega, by omega⟩
  have hlt : l.toNat ^^^ r.toNat < 2 ^ n := Nat.xor_lt_two_pow (by omega) (by omega)
  have hxor : (BitVec.ofInt 64 l ^^^ BitVec.ofInt 64 r).toNat = l.toNat ^^^ r.toNat := by
    rw [toNat_xor, hlword, hrword]
  unfold xorI64
  rw [toInt_eq_of_toNat_lt (by omega), hxor]
  omega

lemma orI64_eq_zero (hl : IsI64 l) (hr : IsI64 r) (h : orI64 l r = 0) : l = 0 ∧ r = 0 := by
  have hzero : BitVec.ofInt 64 l ||| BitVec.ofInt 64 r = 0#64 := by
    apply eq_of_toInt_eq
    rw [toInt_zero]
    exact h
  have hboth := or_eq_zero_iff.mp hzero
  have hl' := toInt_ofInt_of_isI64 hl
  have hr' := toInt_ofInt_of_isI64 hr
  rw [hboth.1] at hl'
  rw [hboth.2] at hr'
  exact ⟨hl'.symm, hr'.symm⟩

section

variable (hL : lhs.WellFormed) (hR : rhs.WellFormed) (hl : IsI64 l) (hr : IsI64 r)
  (hlhs : lhs.Admits l) (hrhs : rhs.Admits r)
include hL hR hl hr hlhs hrhs

/-- Both operands keep the smaller power of two. -/
lemma min_bitwiseDivisor_spec : ∃ k ≤ 62, min lhs.bitwiseDivisor rhs.bitwiseDivisor = 2 ^ k ∧
    (2 : ℤ) ^ k ∣ (BitVec.ofInt 64 l).toInt ∧ (2 : ℤ) ^ k ∣ (BitVec.ofInt 64 r).toInt := by
  obtain ⟨i, hi, heqi, hdvdi⟩ := bitwiseDivisor_spec hL
  obtain ⟨j, hj, heqj, hdvdj⟩ := bitwiseDivisor_spec hR
  rw [toInt_ofInt_of_isI64 hl, toInt_ofInt_of_isI64 hr]
  refine ⟨min i j, by omega, 
    by rw [heqi, heqj, (pow_right_mono₀ one_le_two).map_min], ?_, ?_⟩
  · exact (pow_dvd_pow 2 (Nat.min_le_left i j)).trans (hdvdi l hlhs)
  · exact (pow_dvd_pow 2 (Nat.min_le_right i j)).trans (hdvdj r hrhs)

lemma ori_admits : (ori lhs rhs).Admits (orI64 l r) := by
  unfold ori
  by_cases hends : lhs.rangeLo = lhs.rangeHi ∧ rhs.rangeLo = rhs.rangeHi
  · rw [if_pos hends, eq_of_ends hends.1 hl hlhs, eq_of_ends hends.2 hr hrhs]
    exact exactI64_admits (isI64_toInt _)
  rw [if_neg hends]
  obtain ⟨k, hk, heq, hdvdl, hdvdr⟩ := min_bitwiseDivisor_spec hL hR hl hr hlhs hrhs
  have hdvd : (2 : ℤ) ^ k ∣ orI64 l r := two_pow_dvd_toInt_or (by omega) hdvdl hdvdr
  obtain ⟨hlle, hlge⟩ := hlhs.bounds hl
  obtain ⟨hrle, hrge⟩ := hrhs.bounds hr
  rw [heq]
  refine Admits.withNonZero ?_ fun hflag hzero => ?_
  · by_cases hnonneg : lhs.rangeLo ≥ 0 ∧ rhs.rangeLo ≥ 0
    · rw [if_pos hnonneg, if_pos hnonneg]
      obtain ⟨n, hn, hbound, hln, hrn⟩ := nonNegativeBitwiseUpperBound_spec (by omega) (by omega)
        hL.rangeHi hR.rangeHi
      have hor := orI64_bounds hn (show 0 ≤ l by omega) (show 0 ≤ r by omega) (by omega) (by omega)
      have hpow : (2 : ℤ) ^ n ≤ 2 ^ 63 := pow_le_pow_right₀ (by decide) hn
      have hlo := hL.rangeLo
      have hlo' := hR.rangeLo
      rw [hbound]
      exact make_rounded_admits hk ⟨by omega, by omega⟩ ⟨by omega, by omega⟩ (by omega)
          (by omega) hdvd
    · rw [if_neg hnonneg, if_neg hnonneg]
      have hword : IsI64 (orI64 l r) := isI64_toInt _
      exact make_rounded_admits hk isI64_min isI64_max hword.1 (Int.le_sub_one_of_lt hword.2) hdvd
  · obtain ⟨hl0, hr0⟩ := orI64_eq_zero hl hr hzero
    rcases (Bool.or_eq_true _ _ ▸ hflag : _ ∨ _) with hflag | hflag
    · exact hlhs.flags.nonZero hflag hl0
    · exact hrhs.flags.nonZero hflag hr0

/-! ### Exclusive disjunction -/

lemma xori_admits : (xori lhs rhs).Admits (xorI64 l r) := by
  unfold xori
  by_cases hends : lhs.rangeLo = lhs.rangeHi ∧ rhs.rangeLo = rhs.rangeHi
  · rw [if_pos hends, eq_of_ends hends.1 hl hlhs, eq_of_ends hends.2 hr hrhs]
    exact exactI64_admits (isI64_toInt _)
  rw [if_neg hends]
  dsimp only
  obtain ⟨k, hk, heq, hdvdl, hdvdr⟩ := min_bitwiseDivisor_spec hL hR hl hr hlhs hrhs
  have hdvd : (2 : ℤ) ^ k ∣ xorI64 l r := two_pow_dvd_toInt_xor (by omega) hdvdl hdvdr
  obtain ⟨hlle, hlge⟩ := hlhs.bounds hl
  obtain ⟨hrle, hrge⟩ := hrhs.bounds hr
  rw [heq]
  by_cases hnonneg : lhs.rangeLo ≥ 0 ∧ rhs.rangeLo ≥ 0
  · rw [if_pos hnonneg, if_pos hnonneg]
    obtain ⟨n, hn, hbound, hln, hrn⟩ := nonNegativeBitwiseUpperBound_spec (by omega) (by omega)
      hL.rangeHi hR.rangeHi
    have hxor := xorI64_bounds hn (show 0 ≤ l by omega) (show 0 ≤ r by omega) (by omega) (by omega)
    have hpow : (2 : ℤ) ^ n ≤ 2 ^ 63 := pow_le_pow_right₀ (by decide) hn
    rw [hbound]
    exact make_rounded_admits hk isI64_zero ⟨by omega, by omega⟩ hxor.1 (by omega) hdvd
  · rw [if_neg hnonneg, if_neg hnonneg]
    have hword : IsI64 (xorI64 l r) := isI64_toInt _
    exact make_rounded_admits hk isI64_min isI64_max hword.1 (Int.le_sub_one_of_lt hword.2) hdvd

end

/-! ### Minima and maxima -/

/-- The smaller value in the signed order of a width, in which one set bit is below zero. -/
def signedMin (bitCount : ℕ) (l r : ℤ) : ℤ :=
  if Int.bmod l (2 ^ bitCount) ≤ Int.bmod r (2 ^ bitCount) then l else r

/-- The greater value in the signed order of a width. -/
def signedMax (bitCount : ℕ) (l r : ℤ) : ℤ :=
  if Int.bmod r (2 ^ bitCount) ≤ Int.bmod l (2 ^ bitCount) then l else r

/-- The smaller value in the order of the raw bits of a width. -/
def unsignedMin (bitCount : ℕ) (l r : ℤ) : ℤ := if l % 2 ^ bitCount ≤ r % 2 ^ bitCount then l else r

/-- The greater value in the order of the raw bits of a width. -/
def unsignedMax (bitCount : ℕ) (l r : ℤ) : ℤ := if r % 2 ^ bitCount ≤ l % 2 ^ bitCount then l else r

variable {bitCount : ℕ}

section

variable (hL : lhs.WellFormed) (hR : rhs.WellFormed) (hl : IsI64 l) (hr : IsI64 r)
  (hlhs : lhs.Admits l) (hrhs : rhs.Admits r)
include hL hR hl hr hlhs hrhs

lemma minimumRange_admits : (minimumRange lhs rhs).Admits (min l r) := by
  obtain ⟨hlle, hlge⟩ := hlhs.bounds hl
  obtain ⟨hrle, hrge⟩ := hrhs.bounds hr
  exact make_admits (min_rec' IsI64 hL.rangeLo hR.rangeLo) (min_le_min hlle hrle)
    (min_le_min hlge hrge)
    (min_rec' (_ ∣ ·) ((Int.gcd_dvd_left ..).trans hlhs.dvd)
      ((Int.gcd_dvd_right ..).trans hrhs.dvd))

lemma maximumRange_admits : (maximumRange lhs rhs).Admits (max l r) := by
  obtain ⟨hlle, hlge⟩ := hlhs.bounds hl
  obtain ⟨hrle, hrge⟩ := hrhs.bounds hr
  exact make_admits (max_rec' IsI64 hL.rangeLo hR.rangeLo) (max_le_max hlle hrle)
    (max_le_max hlge hrge)
    (max_rec' (_ ∣ ·) ((Int.gcd_dvd_left ..).trans hlhs.dvd)
      ((Int.gcd_dvd_right ..).trans hrhs.dvd))

end

/-- The signed value of a representation: a set bit alone is -1. -/
lemma bmod_of_isRepresented (hb : 0 < bitCount) {v : ℤ} (hv : IsRepresented bitCount v) :
    Int.bmod v (2 ^ bitCount) = if bitCount = 1 then -v else v := by
  obtain ⟨hlo, hhi⟩ := hv
  unfold representedLo at hlo
  unfold representedHi at hhi
  split_ifs at hlo hhi ⊢ with h1
  · subst h1
    obtain rfl | rfl : v = 0 ∨ v = 1 := by omega
    · decide
    · decide
  · exact bmod_two_pow_eq_self hb hlo (by omega)

section

variable (hL : lhs.WellFormed) (hR : rhs.WellFormed) (hb : 0 < bitCount) (h64 : bitCount ≤ 64)
  (hl : IsRepresented bitCount l) (hr : IsRepresented bitCount r)
include hL hR hb h64 hl hr

lemma minsi_admits (hlhs : lhs.Admits l) (hrhs : rhs.Admits r) :
    (minsi lhs rhs bitCount).Admits (signedMin bitCount l r) ∧
      (maxsi lhs rhs bitCount).Admits (signedMax bitCount l r) := by
  have hmin := minimumRange_admits hL hR (isI64_represented h64 hl)
      (isI64_represented h64 hr) hlhs hrhs
  have hmax := maximumRange_admits hL hR (isI64_represented h64 hl)
      (isI64_represented h64 hr) hlhs hrhs
  unfold minsi maxsi signedMin signedMax
  rw [bmod_of_isRepresented hb hl, bmod_of_isRepresented hb hr]
  by_cases h1 : bitCount = 1
  · simp only [h1, if_true, neg_le_neg_iff]
    rw [← max_def', ← min_def]
    exact ⟨hmax, hmin⟩
  · simp only [h1, if_false]
    rw [← min_def, ← max_def']
    exact ⟨hmin, hmax⟩

omit hL hR hb h64 hl hr in
/-- Sign extension keeps the order of the raw bits. -/
lemma emod_le_emod_iff_toU64 (hb : 0 < bitCount) (h64 : bitCount ≤ 64)
    (hl : IsRepresented bitCount l)
    (hr : IsRepresented bitCount r) : l % 2 ^ bitCount ≤ r % 2 ^ bitCount ↔ toU64 l ≤ toU64 r := by
  have hword : ∀ v, IsRepresented bitCount v → (toU64 v : ℤ) = if v < 0 then v + 2 ^ 64 else v := by
    intro v hv
    have h := isI64_represented h64 hv
    rw [cast_toU64, emod_of_isRepresented (by decide) ⟨h.1, Int.le_sub_one_of_lt h.2⟩]
  have hwl := hword l hl
  have hwr := hword r hr
  have hl64 := isI64_represented h64 hl
  have hr64 := isI64_represented h64 hr
  rw [emod_of_isRepresented hb hl, emod_of_isRepresented hb hr]
  have hhi := representedHi_eq hb
  unfold IsRepresented at hl hr
  unfold IsI64 at hl64 hr64
  split_ifs at hwl hwr ⊢ <;> omega

lemma minui_admits (hlhs : lhs.Admits l) (hrhs : rhs.Admits r) :
    (minui lhs rhs).Admits (unsignedMin bitCount l r) ∧
      (maxui lhs rhs).Admits (unsignedMax bitCount l r) := by
  have hl64 := isI64_represented h64 hl
  have hr64 := isI64_represented h64 hr
  obtain ⟨hlle, -⟩ := hlhs.bounds hl64
  obtain ⟨hrle, -⟩ := hrhs.bounds hr64
  unfold minui maxui unsignedMin unsignedMax
  by_cases hnonneg : lhs.rangeLo ≥ 0 ∧ rhs.rangeLo ≥ 0
  · have hlraw := emod_of_isRepresented hb hl
    have hrraw := emod_of_isRepresented hb hr
    rw [if_neg (by omega)] at hlraw hrraw
    rw [if_pos hnonneg, if_pos hnonneg, hlraw, hrraw, ← min_def, ← max_def']
    exact ⟨minimumRange_admits hL hR hl64 hr64 hlhs hrhs,
        maximumRange_admits hL hR hl64 hr64 hlhs hrhs⟩
  rw [if_neg hnonneg, if_neg hnonneg]
  by_cases hexact : lhs.isExact = true ∧ rhs.isExact = true
  · -- equal words are equal integers, so the strict and the weak comparison select the same value
    have hinj : toU64 l = toU64 r → l = r := fun heq => by
      have hcl := cast_toU64 l
      have hcr := cast_toU64 r
      unfold IsI64 at hl64 hr64
      omega
    simp only [if_pos hexact, emod_le_emod_iff_toU64 hb h64 hl hr,
        emod_le_emod_iff_toU64 hb h64 hr hl]
    rw [← hL.eq_rangeLo_of_exact hexact.1 hlhs, ← hR.eq_rangeLo_of_exact hexact.2 hrhs]
    rcases Nat.lt_trichotomy (toU64 l) (toU64 r) with hlt | heq | hgt
    · rw [if_pos hlt, if_pos hlt.le, if_neg (by omega), if_neg (by omega)]
      exact ⟨exactI64_admits hl64, exactI64_admits hr64⟩
    · simp only [hinj heq, ite_self]
      exact ⟨exactI64_admits hr64, exactI64_admits hr64⟩
    · rw [if_neg (by omega), if_neg (by omega), if_pos hgt, if_pos hgt.le]
      exact ⟨exactI64_admits hr64, exactI64_admits hl64⟩
  · rw [if_neg hexact, if_neg hexact]
    exact ⟨unknown_admits _, unknown_admits _⟩

end

/-! ### Rotations -/

/-- The amount reduced to the width, for a signed amount. -/
lemma normalizedAmount_eq (hb : 0 < bitCount) (amount : ℤ) :
    (if amount.tmod bitCount < 0 then amount.tmod bitCount + bitCount else amount.tmod bitCount) =
      amount % bitCount := by
  have hpos : (0 : ℤ) < bitCount := by omega
  have hlt := Int.tmod_lt_of_pos amount hpos
  have hgt := Int.lt_tmod_of_pos amount hpos
  have hdvd : (bitCount : ℤ) ∣ amount - amount.tmod bitCount := Int.dvd_self_sub_tmod
  have hdvd' : (bitCount : ℤ) ∣ amount - amount % bitCount := Int.dvd_self_sub_emod
  have hnonneg := Int.emod_nonneg amount hpos.ne'
  have hmod := Int.emod_lt_of_pos amount hpos
  have hsub : (bitCount : ℤ) ∣ amount.tmod bitCount - amount % bitCount := by
    have h := Int.dvd_sub hdvd' hdvd
    rwa [show amount - amount % bitCount - (amount - amount.tmod bitCount) =
      amount.tmod bitCount - amount % bitCount by omega] at h
  split_ifs with hneg
  · apply eq_of_dvd_sub_of_mem (a := 0) (m := bitCount) ⟨by omega, by omega⟩ ⟨hnonneg, by omega⟩
    rw [show amount.tmod bitCount + bitCount - amount % bitCount =
      amount.tmod bitCount - amount % bitCount + bitCount by omega]
    exact Int.dvd_add hsub (Int.dvd_refl _)
  · exact eq_of_dvd_sub_of_mem (a := 0) (m := bitCount) ⟨by omega, by omega⟩
      ⟨hnonneg, by omega⟩ hsub

/-- A rotation inside of a word, masked to the width. -/
lemma rotateBits_mod (h64 : bitCount ≤ 64) {raw left right : ℕ} (hraw : raw < 2 ^ bitCount) :
    rotateBits raw left right % 2 ^ bitCount = raw <<< left % 2 ^ bitCount ||| raw >>> right := by
  have hshift : raw >>> right < 2 ^ bitCount := by
    rw [Nat.shiftRight_eq_div_pow]
    exact (Nat.div_le_self _ _).trans_lt hraw
  rw [rotateBits, Nat.or_mod_two_pow, Nat.mod_mod_of_dvd _ (Nat.pow_dvd_pow 2 h64),
      Nat.mod_eq_of_lt hshift]

/-- The bits of a value at a width, rotated to the left or to the right by a signed amount. -/
def rotation (bitCount : ℕ) (rotateLeft : Bool) (value amount : ℤ) : BitVec bitCount :=
  if rotateLeft then (BitVec.ofInt bitCount value).rotateLeft (amount % bitCount).toNat
  else (BitVec.ofInt bitCount value).rotateRight (amount % bitCount).toNat

lemma toNat_rotation (hb : 0 < bitCount) (rotateLeft : Bool) (value amount : ℤ) :
    (rotation bitCount rotateLeft value amount).toNat =
      let shift := (amount % bitCount).toNat
      let raw := (BitVec.ofInt bitCount value).toNat
      if shift = 0 then raw
      else if rotateLeft then raw <<< shift % 2 ^ bitCount ||| raw >>> (bitCount - shift)
      else raw <<< (bitCount - shift) % 2 ^ bitCount ||| raw >>> shift := by
  have hlt : (amount % bitCount).toNat < bitCount := by
    have hmod := Int.emod_lt_of_pos amount (show (0 : ℤ) < bitCount by omega)
    omega
  have hraw := (BitVec.ofInt bitCount value).isLt
  unfold rotation
  dsimp only
  cases rotateLeft with
  | true =>
    rw [if_pos rfl, rotateLeft_def, Nat.mod_eq_of_lt hlt, toNat_or,
        toNat_shiftLeft,
      toNat_ushiftRight, if_pos rfl]
    by_cases hzero : (amount % bitCount).toNat = 0
    · rw [hzero, if_pos rfl, Nat.sub_zero, Nat.shiftLeft_zero, Nat.mod_eq_of_lt hraw,
        Nat.shiftRight_eq_div_pow, Nat.div_eq_of_lt hraw, Nat.or_zero]
    · rw [if_neg hzero]
  | false =>
    rw [if_neg (by decide), rotateRight_def, Nat.mod_eq_of_lt hlt, toNat_or,
      toNat_shiftLeft, toNat_ushiftRight]
    simp only [Bool.false_eq_true, if_false]
    by_cases hzero : (amount % bitCount).toNat = 0
    · rw [hzero, if_pos rfl, Nat.sub_zero, Nat.shiftRight_zero, Nat.shiftLeft_eq, Nat.mul_mod_left,
        Nat.or_zero]
    · rw [if_neg hzero, Nat.or_comm]

/-- The rotation of exact facts is exact. -/
lemma rotate_eq (hb : 0 < bitCount) (h64 : bitCount ≤ 64) (rotateLeft : Bool) {value amount : ℤ}
    (hlhs : lhs.asExactI64 = some value) (hrhs : rhs.asExactI64 = some amount) :
    rotate lhs rhs bitCount rotateLeft =
      exactI64 (represent bitCount (rotation bitCount rotateLeft value amount).toNat) := by
  have hmask : (if bitCount = 64 then 2 ^ 64 - 1 else 2 ^ bitCount - 1) = 2 ^ bitCount - 1 := by
    split_ifs with h
    · rw [h]
    · rfl
  have hraw : toU64 value % 2 ^ bitCount = (BitVec.ofInt bitCount value).toNat := by
    have hemod := toU64_emod h64 value
    rw [toNat_ofInt, cast_two_pow]
    omega
  have hlt := (BitVec.ofInt bitCount value).isLt
  have hpow := Nat.pow_le_pow_right Nat.two_pos h64
  have hrot := toNat_rotation hb rotateLeft value amount
  unfold rotate
  rw [if_neg (by omega), hlhs, hrhs]
  dsimp only at hrot ⊢
  rw [normalizedAmount_eq hb, hmask, Nat.and_two_pow_sub_one_eq_mod, hraw]
  generalize hshift : (amount % bitCount).toNat = shift at *
  generalize hbits : (if shift = 0 then (BitVec.ofInt bitCount value).toNat
    else if rotateLeft = true then rotateBits (BitVec.ofInt bitCount value).toNat shift
        (bitCount - shift)
    else rotateBits (BitVec.ofInt bitCount value).toNat (bitCount - shift) shift) = bits
  have hmod : bits % 2 ^ bitCount = (rotation bitCount rotateLeft value amount).toNat := by
    rw [hrot, ← hbits]
    split_ifs
    · exact Nat.mod_eq_of_lt hlt
    · exact rotateBits_mod h64 hlt
    · exact rotateBits_mod h64 hlt
  unfold represent
  split_ifs with h1
  · subst h1
    have hand : bits &&& 1 = bits % 2 ^ 1 := Nat.and_two_pow_sub_one_eq_mod _ 1
    rw [hand, hmod, toI64_of_lt (by omega), Int.emod_eq_of_lt (by omega) (by omega)]
  · rw [Nat.and_two_pow_sub_one_eq_mod, hmod, makeSignedRawBits_eq hb h64 (by omega)]

/-- Operations on the bits of described words, minima and maxima in the orders of a width, and
rotations. -/
theorem bitwise_admit {lhs rhs : IntegerFacts} {l r : ℤ} (hL : lhs.WellFormed) (hR : rhs.WellFormed)
    (hl : IsI64 l) (hr : IsI64 r) (hlhs : lhs.Admits l) (hrhs : rhs.Admits r) :
    ((andi lhs rhs).Admits (andI64 l r) ∧ (ori lhs rhs).Admits (orI64 l r) ∧
      (xori lhs rhs).Admits (xorI64 l r)) ∧
    (∀ bitCount : ℕ, 1 ≤ bitCount → bitCount ≤ 64 →
      IsRepresented bitCount l → IsRepresented bitCount r →
      ((minsi lhs rhs bitCount).Admits (signedMin bitCount l r) ∧
        (maxsi lhs rhs bitCount).Admits (signedMax bitCount l r)) ∧
      (minui lhs rhs).Admits (unsignedMin bitCount l r) ∧
        (maxui lhs rhs).Admits (unsignedMax bitCount l r)) ∧
    ∀ bitCount : ℕ, 1 ≤ bitCount → bitCount ≤ 64 → lhs.isExact = true → rhs.isExact = true →
      rotli lhs rhs bitCount = exactI64 (represent bitCount
        ((BitVec.ofInt bitCount l).rotateLeft (r % bitCount).toNat).toNat) ∧
      rotri lhs rhs bitCount = exactI64 (represent bitCount
        ((BitVec.ofInt bitCount l).rotateRight (r % bitCount).toNat).toNat) := by
  refine ⟨⟨?_, ?_, ?_⟩, ?_, ?_⟩
  · exact andi_admits hL hR hl hr hlhs hrhs
  · exact ori_admits hL hR hl hr hlhs hrhs
  · exact xori_admits hL hR hl hr hlhs hrhs
  · intro bitCount hb h64 hlrep hrrep
    exact ⟨minsi_admits hL hR hb h64 hlrep hrrep hlhs hrhs,
        minui_admits hL hR hb h64 hlrep hrrep hlhs hrhs⟩
  · intro bitCount hb h64 hlexact hrexact
    have hlvalue : lhs.asExactI64 = some l := by
      rw [hL.asExactI64_eq, if_pos hlexact, hL.eq_rangeLo_of_exact hlexact hlhs]
    have hrvalue : rhs.asExactI64 = some r := by
      rw [hR.asExactI64_eq, if_pos hrexact, hR.eq_rangeLo_of_exact hrexact hrhs]
    exact ⟨rotate_eq hb h64 true hlvalue hrvalue, rotate_eq hb h64 false hlvalue hrvalue⟩

/-- A mask with a negative operand, an i1 minimum and a rotation by a negative amount. -/
theorem bitwise_admit_negative :
    (andi (make (-8) 5 1) (make 0 12 4)).Admits (andI64 (-3) 12) ∧
      (minsi (exactI64 1) (exactI64 0) 1).Admits 1 ∧
      rotli (exactI64 1) (exactI64 (-1)) 4 = exactI64 (-8) := by
  have hL : (make (-8) 5 1).WellFormed := make_wellFormed (by decide) (by decide) (by decide)
  have hR : (make 0 12 4).WellFormed := make_wellFormed (by decide) (by decide) (by decide)
  have hand := bitwise_admit hL hR (l := -3) (r := 12) (by decide) (by decide)
    (make_admits (by decide) (by decide) (by decide) (by decide))
    (make_admits (by decide) (by decide) (by decide) (by decide))
  have hone : IsI64 1 := by decide
  have hneg : IsI64 (-1) := by decide
  have hmin := bitwise_admit (exactI64_wellFormed hone)
      (exactI64_wellFormed isI64_zero) hone isI64_zero
    (exactI64_admits hone) (exactI64_admits isI64_zero)
  have hrot := bitwise_admit (exactI64_wellFormed hone) (exactI64_wellFormed hneg) hone hneg
    (exactI64_admits hone) (exactI64_admits hneg)
  refine ⟨hand.1.1, (hmin.2.1 1 (by decide) (by decide) (by decide) (by decide)).1.1, ?_⟩
  exact (hrot.2.2 4 (by decide) (by decide) rfl rfl).1

end IntegerFacts

end Hrx.Facts
