import Hrx.Base.Alignment
import Hrx.Facts.Integer
import Hrx.Lib.TwosComplement
import Mathlib.Data.Nat.Bitwise

/-!
# The integers that facts describe

`facts.Admits v` says that the integer `v` is described by the facts: it lies in the range, is a
multiple of the divisor and has every property that a flag asserts.  The whole range is no
information, and so holds every integer.  Facts are well formed when their fields are words, the
divisor is positive and the EXACT flag agrees with the range.
-/

namespace Hrx.Facts

open BitVec TwosComplement

/-! ### Words -/

/-- The integers of a signed word. -/
def IsI64 (v : ℤ) : Prop := -2 ^ 63 ≤ v ∧ v < 2 ^ 63

instance (v : ℤ) : Decidable (IsI64 v) := inferInstanceAs (Decidable (_ ∧ _))

lemma cast_toU64 (v : ℤ) : (toU64 v : ℤ) = v % 2 ^ 64 := by
  unfold toU64
  omega

lemma toU64_lt (v : ℤ) : toU64 v < 2 ^ 64 := by
  unfold toU64
  omega

variable {v lhs : ℤ} {bitCount : ℕ}

lemma cast_toU64_of_nonneg (h : 0 ≤ v) (hv : IsI64 v) : (toU64 v : ℤ) = v := by
  rw [cast_toU64]
  unfold IsI64 at hv
  omega

lemma toI64_of_lt {word : ℕ} (h : word < 2 ^ 63) : toI64 word = word := by
  unfold toI64
  rw [bmod_two_pow_eq_self (by decide)] <;> omega

lemma toU64_emod (h : bitCount ≤ 64) (v : ℤ) :
    ((toU64 v % 2 ^ bitCount : ℕ) : ℤ) = v % 2 ^ bitCount := by
  rw [Int.natCast_emod, cast_toU64, cast_two_pow]
  exact Int.emod_emod_of_dvd v (pow_dvd_pow 2 h)

lemma maskLowBitsU64_eq {value : ℕ} (h : 0 < bitCount) (hvalue : value < 2 ^ 64) :
    maskLowBitsU64 value bitCount = value % 2 ^ bitCount := by
  unfold maskLowBitsU64
  split_ifs with h0 h64
  · omega
  · have hpow : 2 ^ 64 ≤ 2 ^ bitCount := Nat.pow_le_pow_right (by decide) h64
    rw [Nat.mod_eq_of_lt (by omega)]
  · exact Nat.and_two_pow_sub_one_eq_mod _ _

lemma magnitude_eq (v : ℤ) : magnitude v = v.natAbs := by
  unfold magnitude
  split_ifs <;> omega

/-! ### Operations on bits -/

lemma toInt_ofInt_of_isI64 (hv : IsI64 v) : (BitVec.ofInt 64 v).toInt = v :=
  toInt_ofInt_eq_self (by decide) hv.1 hv.2

lemma toNat_ofInt_of_nonneg (h : 0 ≤ v) (hv : IsI64 v) : (BitVec.ofInt 64 v).toNat = v.toNat := by
  rw [toNat_ofInt, Int.emod_eq_of_lt h]
  have := hv.2
  norm_num
  omega

lemma isI64_toInt (x : BitVec 64) : IsI64 x.toInt := by
  have hle := le_toInt x
  have hlt := BitVec.toInt_lt (x := x)
  exact ⟨hle, hlt⟩

lemma toInt_eq_of_toNat_lt {x : BitVec 64} (h : x.toNat < 2 ^ 63) : x.toInt = x.toNat :=
  BitVec.toInt_eq_toNat_of_lt (by omega)

lemma andI64_comm (lhs rhs : ℤ) : andI64 lhs rhs = andI64 rhs lhs := by
  rw [andI64, andI64, BitVec.and_comm]

/-- A nonnegative operand bounds the conjunction. -/
lemma andI64_le_left (h : 0 ≤ lhs) (hl : IsI64 lhs) (rhs : ℤ) :
    0 ≤ andI64 lhs rhs ∧ andI64 lhs rhs ≤ lhs := by
  have hle : (BitVec.ofInt 64 lhs &&& BitVec.ofInt 64 rhs).toNat ≤ lhs.toNat := by
    rw [toNat_and, toNat_ofInt_of_nonneg h hl]
    exact Nat.and_le_left
  have hlt := hl.2
  unfold andI64
  rw [toInt_eq_of_toNat_lt (by omega)]
  omega

lemma andI64_eq_of_nonneg {rhs : ℤ} (hl0 : 0 ≤ lhs) (hl : IsI64 lhs) (hr0 : 0 ≤ rhs)
    (hr : IsI64 rhs) : andI64 lhs rhs = (lhs.toNat &&& rhs.toNat : ℕ) := by
  have hlt := hl.2
  have hle : lhs.toNat &&& rhs.toNat ≤ lhs.toNat := Nat.and_le_left
  unfold andI64
  rw [toInt_eq_of_toNat_lt, toNat_and, toNat_ofInt_of_nonneg hl0 hl,
      toNat_ofInt_of_nonneg hr0 hr]
  rw [toNat_and, toNat_ofInt_of_nonneg hl0 hl, toNat_ofInt_of_nonneg hr0 hr]
  omega

/-- Only a power of two has no bit in common with its predecessor. -/
lemma exists_eq_two_pow_of_andI64 (hv : IsI64 v) (hpos : 0 < v) (h : andI64 v (v - 1) = 0) :
    ∃ k : ℕ, v = 2 ^ k := by
  have hlt := hv.2
  rw [andI64_eq_of_nonneg hpos.le hv (by omega) ⟨by omega, by omega⟩] at h
  have hpred : (v - 1).toNat = v.toNat - 1 := by omega
  rw [hpred] at h
  have hpow : hostSizeIsPowerOfTwo v.toNat = true := by
    rw [hostSizeIsPowerOfTwo, Bool.and_eq_true, decide_eq_true_eq, beq_iff_eq]
    exact ⟨by omega, by exact_mod_cast h⟩
  obtain ⟨k, hk⟩ := exists_eq_two_pow hpow
  refine ⟨k, ?_⟩
  rw [← cast_two_pow, ← hk]
  omega

/-- The lowest bit of a positive word. -/
lemma exists_andI64_neg {d : ℤ} (hpos : 1 ≤ d) (hd : IsI64 d) :
    ∃ k ≤ 62, andI64 d (-d) = 2 ^ k ∧ (2 : ℤ) ^ k ∣ d := by
  have hne : BitVec.ofInt 64 d ≠ 0#64 := by
    intro h
    have hzero := congrArg BitVec.toInt h
    rw [toInt_ofInt_of_isI64 hd] at hzero
    simp at hzero
    omega
  obtain ⟨k, hk, heq, hdvd⟩ := exists_and_neg_eq_twoPow hne
  rw [toInt_ofInt_of_isI64 hd] at hdvd
  have hk62 : k ≤ 62 := by
    by_contra hgt
    have hpow : (2 : ℤ) ^ 63 ≤ 2 ^ k := pow_le_pow_right₀ (by decide) (by omega)
    have hle := Int.le_of_dvd (by omega) hdvd
    have := hd.2
    omega
  refine ⟨k, hk62, ?_, hdvd⟩
  rw [andI64, ofInt_neg, heq, toInt_twoPow, if_neg (by omega), if_neg (by omega)]

/-- Masking rounds down to a multiple of a power of two. -/
lemma andI64_neg_two_pow (hv : IsI64 v) {k : ℕ} (hk : k ≤ 62) :
    andI64 v (-2 ^ k) = v - v % 2 ^ k := by
  have hpow : BitVec.ofInt 64 (2 ^ k) = BitVec.twoPow 64 k := by
    apply eq_of_toInt_eq
    have hlt : (2 : ℤ) ^ k < 2 ^ 63 := pow_lt_pow_right₀ (by decide) (by omega)
    have hpos := two_pow_pos k
    rw [toInt_ofInt_of_isI64 ⟨by omega, hlt⟩, toInt_twoPow, if_neg (by omega),
      if_neg (by omega)]
  have hnat := toNat_and_neg_twoPow (x := BitVec.ofInt 64 v) (show k < 64 by omega)
  have hword : ((BitVec.ofInt 64 v).toNat : ℤ) = v % 2 ^ 64 := by
    rw [toNat_ofInt, Int.toNat_of_nonneg (Int.emod_nonneg _ (by decide)), cast_two_pow]
  -- the word loses its remainder, which is that of the integer
  have hdiv := Nat.div_add_mod (BitVec.ofInt 64 v).toNat (2 ^ k)
  have hmod : (((BitVec.ofInt 64 v).toNat % 2 ^ k : ℕ) : ℤ) = v % 2 ^ k := by
    rw [Int.natCast_emod, hword, cast_two_pow]
    exact Int.emod_emod_of_dvd v (pow_dvd_pow 2 (by omega))
  rw [Nat.mul_comm] at hdiv
  rw [andI64, ofInt_neg, hpow, toInt_eq_toNat_bmod, bmod_two_pow_eq_iff (by decide),
      hnat]
  have hpos := two_pow_pos k
  refine ⟨?_, ?_, ?_⟩
  · apply le_sub_emod hpos _ hv.1
    exact Int.dvd_neg.mpr (pow_dvd_pow 2 (by omega))
  · have := hv.2
    omega
  · have hsub : (2 : ℤ) ^ 64 ∣ v % 2 ^ 64 - v := Int.dvd_emod_sub_self
    rw [← Int.dvd_neg]
    rwa [show -(v - v % 2 ^ k - ((BitVec.ofInt 64 v).toNat / 2 ^ k * 2 ^ k : ℕ)) = v % 2 ^ 64 - v by
        omega]

lemma signExtendRawBits_eq {rawBits : ℕ} (h : 0 < bitCount) (h64 : bitCount ≤ 64)
    (hraw : rawBits < 2 ^ 64) :
    IntegerFacts.signExtendRawBits rawBits bitCount = Int.bmod rawBits (2 ^ bitCount) := by
  obtain ⟨n, rfl⟩ : ∃ n, bitCount = n + 1 := ⟨bitCount - 1, by omega⟩
  have hlt : rawBits % 2 ^ (n + 1) < 2 ^ (n + 1) := Nat.mod_lt _ (Nat.two_pow_pos _)
  have hpow : 2 ^ n ≤ 2 ^ 63 := Nat.pow_le_pow_right (by decide) (by omega)
  have hcast := cast_two_pow n
  -- the representative of the masked bits is that of the raw bits
  rw [← Int.emod_bmod, ← Int.natCast_emod]
  unfold IntegerFacts.signExtendRawBits
  rw [if_neg (by omega), maskLowBitsU64_eq (by omega) hraw, Nat.add_sub_cancel]
  generalize rawBits % 2 ^ (n + 1) = masked at hlt
  simp only [Nat.and_two_pow, Nat.and_two_pow_sub_one_eq_mod]
  symm
  by_cases hbit : masked.testBit n
  · have hge : 2 ^ n ≤ masked := Nat.ge_two_pow_of_testBit hbit
    have hmod : masked % 2 ^ n = masked - 2 ^ n := by
      rw [Nat.mod_eq_sub_mod hge, Nat.mod_eq_of_lt (by omega)]
    rw [if_neg (by simp [hbit]), hmod, toI64_of_lt (show masked - 2 ^ n < 2 ^ 63 by omega)]
    have hsign : (if n + 1 = 64 then (-2 ^ 63 : ℤ) else -toI64 (2 ^ n)) = -2 ^ n := by
      split_ifs with h63
      · rw [show n = 63 by omega]
      · rw [toI64_of_lt (Nat.pow_lt_pow_right (by decide) (by omega)), hcast]
    rw [hsign, bmod_two_pow_eq_iff (Nat.succ_pos n), Nat.succ_sub_one]
    refine ⟨by omega, by omega, ?_⟩
    rw [show (-2 ^ n + ((masked - 2 ^ n : ℕ) : ℤ) - masked : ℤ) = -2 ^ (n + 1) by omega]
    exact Int.dvd_neg.mpr (Int.dvd_refl _)
  · have hlt' : masked < 2 ^ n := by
      by_contra hge
      exact hbit (Nat.testBit_of_two_pow_le_and_two_pow_add_one_gt (by omega) hlt)
    rw [if_pos (by simp [hbit]), toI64_of_lt (by omega)]
    apply bmod_two_pow_eq_self (Nat.succ_pos n) <;> rw [Nat.succ_sub_one] <;> omega

/-! ### Membership -/

structure Flags.Hold (flags : Flags) (v : ℤ) : Prop where
  nonNegative : flags.nonNegative = true → 0 ≤ v
  nonZero : flags.nonZero = true → v ≠ 0
  positive : flags.positive = true → 0 < v
  powerOfTwo : flags.powerOfTwo = true → ∃ k : ℕ, v = 2 ^ k
  boolean : flags.boolean = true → v = 0 ∨ v = 1

lemma computeFlags_hold {lo hi : ℤ} (hlo64 : IsI64 lo) (hlo : lo ≤ v) (hhi : v ≤ hi) :
    (computeFlags lo hi).Hold v := by
  constructor <;> simp only [computeFlags, decide_eq_true_eq]
  · omega
  · omega
  · omega
  · rintro ⟨rfl, hpos, hand⟩
    rw [show v = lo by omega]
    exact exists_eq_two_pow_of_andI64 hlo64 hpos hand
  · omega

namespace IntegerFacts

/-- The whole range, which is no information. -/
def Unbounded (facts : IntegerFacts) : Prop := facts.rangeLo = -2 ^ 63 ∧ facts.rangeHi = 2 ^ 63 - 1

structure Admits (facts : IntegerFacts) (v : ℤ) : Prop where
  inRange : facts.Unbounded ∨ facts.rangeLo ≤ v ∧ v ≤ facts.rangeHi
  dvd : facts.knownDivisor ∣ v
  flags : facts.flags.Hold v

/-- Facts about integers as the operations build and expect them. -/
structure WellFormed (facts : IntegerFacts) : Prop where
  rangeLo : IsI64 facts.rangeLo
  rangeHi : IsI64 facts.rangeHi
  one_le : 1 ≤ facts.knownDivisor
  knownDivisor : IsI64 facts.knownDivisor
  exact_iff : facts.flags.exact = true ↔ facts.rangeLo = facts.rangeHi
  not_float : facts.flags.floating.float = false

variable {facts : IntegerFacts} {v : ℤ}

lemma Admits.bounds (h : facts.Admits v) (hv : IsI64 v) :
    facts.rangeLo ≤ v ∧ v ≤ facts.rangeHi := by
  rcases h.inRange with hwhole | hrange
  · rw [hwhole.1, hwhole.2]
    exact ⟨hv.1, Int.le_sub_one_of_lt hv.2⟩
  · exact hrange

/-- Exact facts describe one integer. -/
lemma WellFormed.eq_rangeLo_of_exact (hf : facts.WellFormed) (hexact : facts.isExact = true)
    (h : facts.Admits v) : v = facts.rangeLo := by
  have hends := hf.exact_iff.mp hexact
  rcases h.inRange with hwhole | hrange
  · rw [hwhole.1, hwhole.2] at hends
    omega
  · omega

lemma WellFormed.asExactI64_eq (hf : facts.WellFormed) :
    facts.asExactI64 = if facts.isExact then some facts.rangeLo else none := by
  unfold asExactI64 isFloat
  rw [hf.not_float]
  cases facts.isExact <;> rfl

/-! ### Constructors -/

lemma unknown_wellFormed : unknown.WellFormed := by
  constructor <;> simp [unknown, IsI64]

lemma unknown_admits (v : ℤ) : unknown.Admits v :=
  ⟨Or.inl ⟨rfl, rfl⟩, Int.one_dvd v, by constructor <;> intro h <;> cases h⟩

lemma exactDivisor_spec {value : ℤ} (hvalue : IsI64 value) :
    1 ≤ exactDivisor value ∧ IsI64 (exactDivisor value) ∧ exactDivisor value ∣ value := by
  obtain ⟨hle, hlt⟩ := hvalue
  unfold exactDivisor IsI64
  split_ifs with h
  · exact ⟨by omega, ⟨by omega, by omega⟩, Int.natAbs_dvd.mpr (Int.dvd_refl _)⟩
  · exact ⟨by omega, ⟨by omega, by omega⟩, Int.one_dvd _⟩

lemma exactI64_wellFormed (hv : IsI64 v) : (exactI64 v).WellFormed where
  rangeLo := hv
  rangeHi := hv
  one_le := (exactDivisor_spec hv).1
  knownDivisor := (exactDivisor_spec hv).2.1
  exact_iff := by simp [exactI64, computeFlags]
  not_float := rfl

lemma exactI64_admits (hv : IsI64 v) : (exactI64 v).Admits v where
  inRange := Or.inr ⟨Int.le_refl v, Int.le_refl v⟩
  dvd := (exactDivisor_spec hv).2.2
  flags := computeFlags_hold hv (Int.le_refl v) (Int.le_refl v)

variable {lo hi d : ℤ} {condition : Bool}

lemma make_wellFormed (hlo : IsI64 lo) (hhi : IsI64 hi) (hd : d < 2 ^ 63) :
    (make lo hi d).WellFormed := by
  unfold make
  dsimp only
  have hone : IsI64 1 := ⟨by decide, by decide⟩
  split_ifs with h1 h2 h3
  · exact unknown_wellFormed
  · exact ⟨hlo, hhi, (exactDivisor_spec hlo).1, (exactDivisor_spec hlo).2.1, by simp [computeFlags],
      rfl⟩
  · exact ⟨hlo, hhi, Int.le_refl 1, hone, by simp [computeFlags], rfl⟩
  · have hd1 : 1 ≤ d := by omega
    exact ⟨hlo, hhi, hd1, ⟨Int.le_trans (by decide) hd1, hd⟩, by simp [computeFlags], rfl⟩

/-- Made facts describe the multiples of the divisor in the range. -/
lemma make_admits (hlo64 : IsI64 lo) (hlo : lo ≤ v) (hhi : v ≤ hi) (hd : d ∣ v) :
    (make lo hi d).Admits v := by
  have hflags := computeFlags_hold hlo64 hlo hhi
  unfold make
  dsimp only
  split_ifs with h1 h2 h3
  · omega
  · refine ⟨Or.inr ⟨hlo, hhi⟩, ?_, hflags⟩
    rw [show v = lo by omega]
    exact (exactDivisor_spec hlo64).2.2
  · exact ⟨Or.inr ⟨hlo, hhi⟩, Int.one_dvd v, hflags⟩
  · exact ⟨Or.inr ⟨hlo, hhi⟩, hd, hflags⟩

lemma make_range (d : ℤ) (h : lo ≤ hi) :
    (make lo hi d).rangeLo = lo ∧ (make lo hi d).rangeHi = hi := by
  unfold make
  rw [if_neg (by omega)]
  exact ⟨rfl, rfl⟩

/-! ### Flags set by hand -/

lemma Admits.withNonZero (h : facts.Admits v) (hv : condition = true → v ≠ 0) :
    (facts.withNonZero condition).Admits v where
  inRange := h.inRange
  dvd := h.dvd
  flags :=
    { h.flags with
      nonZero := fun hflag => (Bool.or_eq_true _ _ ▸ hflag : _ ∨ _).elim h.flags.nonZero hv }

lemma WellFormed.withNonZero (hf : facts.WellFormed) (condition : Bool) :
    (facts.withNonZero condition).WellFormed :=
  { hf with }

lemma Admits.withPowerOfTwo (h : facts.Admits v) (hv : condition = true → ∃ k : ℕ, v = 2 ^ k) :
    (facts.withPowerOfTwo condition).Admits v where
  inRange := h.inRange
  dvd := h.dvd
  flags :=
    { h.flags with
      powerOfTwo := fun hflag => (Bool.or_eq_true _ _ ▸ hflag : _ ∨ _).elim h.flags.powerOfTwo hv }

/-- Clamping to a domain keeps its described integers. -/
lemma clampDomain_admits (hf : facts.WellFormed) (hlo64 : IsI64 lo) (hlo : lo ≤ v) (hhi : v ≤ hi)
    (hv : IsI64 v) (h : facts.Admits v) :
    (facts.clampDomain lo hi).Admits v ∧
      (facts.clampDomain lo hi).rangeLo = max facts.rangeLo lo ∧
      (facts.clampDomain lo hi).rangeHi = min facts.rangeHi hi ∧
      (facts.clampDomain lo hi).knownDivisor ∣ v := by
  obtain ⟨hle, hge⟩ := h.bounds hv
  have hlo' : max facts.rangeLo lo ≤ v := max_le hle hlo
  have hhi' : v ≤ min facts.rangeHi hi := le_min hge hhi
  have hmax : IsI64 (max facts.rangeLo lo) := max_rec' IsI64 hf.rangeLo hlo64
  unfold clampDomain isFloat
  rw [hf.not_float, if_neg (by decide), if_neg (by omega)]
  have hmake := make_admits (d := facts.knownDivisor) hmax hlo' hhi' h.dvd
  have hrange := make_range facts.knownDivisor (hlo'.trans hhi')
  have hpower : (facts.flags.powerOfTwo && min facts.rangeHi hi > 0) = true → ∃ k, v = 2 ^ k :=
    fun hflag => h.flags.powerOfTwo (Bool.and_eq_true _ _ ▸ hflag : _ ∧ _).1
  have hadmits := (hmake.withPowerOfTwo hpower).withNonZero h.flags.nonZero
  exact ⟨hadmits, hrange.1, hrange.2, hadmits.dvd⟩

end IntegerFacts

end Hrx.Facts
