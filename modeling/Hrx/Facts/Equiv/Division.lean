import Hrx.Facts.Division
import Hrx.Facts.Equiv.Shift

/-!
# Quotients and remainders of described integers

A range of represented integers is a range of raw bits, unless it crosses zero
(`unsignedRange_spec`); a range of raw bits is turned back into one of represented integers by
`makeUnsignedResultRange_admits`.  Between the two, unsigned division is division of natural
numbers.
-/

namespace Hrx.Facts

open TwosComplement

variable {bitCount : ℕ}

/-! ### Raw bits -/

lemma maskLowBits_allOnes (hb : 0 < bitCount) (h64 : bitCount ≤ 64) :
    maskLowBitsU64 (2 ^ 64 - 1) bitCount = 2 ^ bitCount - 1 := by
  unfold maskLowBitsU64
  rw [if_neg (by omega)]
  split_ifs with h
  · rw [show bitCount = 64 by omega]
  rw [Nat.and_comm]
  apply Nat.and_two_pow_sub_one_of_lt_two_pow
  have hpow := Nat.pow_le_pow_right Nat.two_pos h64
  omega

lemma toU64_mask (h64 : bitCount ≤ 64) (v : ℤ) :
    toU64 v &&& (2 ^ bitCount - 1) = raw bitCount v := by
  have hemod := toU64_emod h64 v
  have hraw := cast_raw bitCount v
  rw [Nat.and_two_pow_sub_one_eq_mod]
  omega

lemma isI64_natCast {n : ℕ} (h : n < 2 ^ 63) : IsI64 n := ⟨by omega, by omega⟩

lemma UnsignedDivisionKind.apply_le (kind : UnsignedDivisionKind) (l r : ℕ) :
    kind.apply l r ≤ l := by
  cases kind with
  | quotient => exact Nat.div_le_self _ _
  | remainder => exact Nat.mod_le _ _

namespace IntegerFacts

variable {facts : IntegerFacts} {v : ℤ}

/-! ### Operands -/

def Within (facts : IntegerFacts) (bitCount : ℕ) : Prop :=
  representedLo bitCount ≤ facts.rangeLo ∧ facts.rangeHi ≤ representedHi bitCount

lemma wrapInteger_within (hb : 0 < bitCount) (h64 : bitCount ≤ 64) :
    (facts.wrapInteger bitCount).Within bitCount := by
  have hdomain : representedLo bitCount ≤ representedHi bitCount := by
    have hmem := (represent_spec hb 0).1
    exact hmem.1.trans hmem.2
  rw [wrapInteger_eq hb h64]
  split_ifs with hid hexact hspan
  · exact ⟨hid.1, hid.2.1⟩
  · exact (represent_spec hb facts.rangeLo).1
  · unfold Within
    rw [(make_range _ hspan.2.2).1, (make_range _ hspan.2.2).2]
    exact ⟨(represent_spec hb _).1.1, (represent_spec hb _).1.2⟩
  · unfold Within
    rw [(make_range _ hdomain).1, (make_range _ hdomain).2]
    exact ⟨le_rfl, le_rfl⟩

/-- Division reads its operands at their width. -/
lemma divisionOperand_spec (hf : facts.WellFormed) (hb : 0 < bitCount) (h64 : bitCount ≤ 64) :
    (facts.divisionOperand bitCount).WellFormed ∧ (facts.divisionOperand bitCount).Within bitCount ∧
      ∀ v, IsRepresented bitCount v → facts.Admits v →
        (facts.divisionOperand bitCount).Admits v := by
  unfold divisionOperand
  split_ifs with h
  · subst h
    exact ⟨hf, ⟨hf.rangeLo.1, Int.le_sub_one_of_lt hf.rangeHi.2⟩, fun v _ h => h⟩
  · refine ⟨wrapInteger_wellFormed hf hb h64, wrapInteger_within hb h64, fun v hv h => ?_⟩
    have hwrap := wrapInteger_admits hf hb h64 h
    rwa [represent_eq_self hb hv] at hwrap

/-- The conditions under which an operand is read: well formed, represented, and described. -/
structure Operand (facts : IntegerFacts) (bitCount : ℕ) (v : ℤ) : Prop where
  wellFormed : facts.WellFormed
  within : facts.Within bitCount
  represented : IsRepresented bitCount v
  admits : facts.Admits v

lemma divisionOperand_operand (hf : facts.WellFormed) (hb : 0 < bitCount) (h64 : bitCount ≤ 64)
    (hv : IsRepresented bitCount v) (h : facts.Admits v) :
    (facts.divisionOperand bitCount).Operand bitCount v := by
  obtain ⟨hwf, hin, hadm⟩ := divisionOperand_spec hf hb h64
  exact ⟨hwf, hin, hv, hadm v hv h⟩

lemma Operand.bounds (h : facts.Operand bitCount v) (h64 : bitCount ≤ 64) :
    facts.rangeLo ≤ v ∧ v ≤ facts.rangeHi := h.admits.bounds (isI64_represented h64 h.represented)

lemma Operand.ends (h : facts.Operand bitCount v) (h64 : bitCount ≤ 64) :
    IsRepresented bitCount facts.rangeLo ∧ IsRepresented bitCount facts.rangeHi := by
  obtain ⟨hle, hge⟩ := h.bounds h64
  obtain ⟨hlo, hhi⟩ := h.within
  exact ⟨⟨hlo, by omega⟩, ⟨by omega, hhi⟩⟩

section

variable (hb : 0 < bitCount) (h64 : bitCount ≤ 64) (h : facts.Operand bitCount v)
include hb h64 h

/-- Raw bits are monotonic in each half of the signed domain. -/
lemma raw_mem_of_monotonic (hmono : facts.rangeLo ≥ 0 ∨ facts.rangeHi < 0) :
    raw bitCount facts.rangeLo ≤ raw bitCount v ∧ raw bitCount v ≤ raw bitCount facts.rangeHi := by
  obtain ⟨hle, hge⟩ := h.bounds h64
  have hrawlo := cast_raw_eq hb (h.ends h64).1
  have hrawhi := cast_raw_eq hb (h.ends h64).2
  have hraw := cast_raw_eq hb h.represented
  by_cases hneg : facts.rangeHi < 0
  · rw [if_pos (by omega)] at hrawlo hrawhi hraw
    omega
  · rw [if_neg (by omega)] at hrawlo hrawhi hraw
    omega

/-- The raw bits of the described integers. -/
theorem unsignedRange_spec : (facts.unsignedRange (2 ^ bitCount - 1)).minimum ≤ raw bitCount v ∧
      raw bitCount v ≤ (facts.unsignedRange (2 ^ bitCount - 1)).maximum ∧
      (facts.unsignedRange (2 ^ bitCount - 1)).maximum < 2 ^ bitCount := by
  obtain ⟨hle, hge⟩ := h.bounds h64
  have hrawlo := cast_raw_eq hb (h.ends h64).1
  have hrawhi := cast_raw_eq hb (h.ends h64).2
  have hlt := raw_lt bitCount v
  have hlthi := raw_lt bitCount facts.rangeHi
  unfold unsignedRange
  split_ifs with hnonneg hneg
  · have hmono := raw_mem_of_monotonic hb h64 h (Or.inl hnonneg)
    have hwlo := cast_toU64_of_nonneg hnonneg h.wellFormed.rangeLo
    have hwhi := cast_toU64_of_nonneg (by omega) h.wellFormed.rangeHi
    rw [if_neg (by omega)] at hrawlo hrawhi
    dsimp only
    omega
  · have hmono := raw_mem_of_monotonic hb h64 h (Or.inr hneg)
    dsimp only
    rw [toU64_mask h64, toU64_mask h64]
    omega
  · dsimp only
    omega

omit hb h64 h in
/-- Facts from a range of raw bits. -/
theorem makeUnsignedResultRange_admits {minimum maximum q : ℕ} {d : ℤ} (hb : 0 < bitCount)
    (h64 : bitCount ≤ 64) (hmin : minimum ≤ q) (hmax : q ≤ maximum) (hlt : maximum < 2 ^ bitCount)
    (hd1 : 1 ≤ d) (hd : IsI64 d) (hdvd : d ∣ q) :
    (makeUnsignedResultRange minimum maximum bitCount d).Admits (represent bitCount q) := by
  have hcast := cast_two_pow bitCount
  have hcast' := cast_two_pow (bitCount - 1)
  have htwo := two_pow_eq_two_mul hb
  have hpow := two_pow_pred_le h64
  have hspec := represent_spec hb (q : ℤ)
  unfold makeUnsignedResultRange
  by_cases hsmall : bitCount = 1 ∨ maximum < 2 ^ (bitCount - 1)
  · rw [if_pos hsmall]
    have hself : represent bitCount q = q := by
      rw [represent_natCast hb (by omega), if_pos (by omega)]
    have hmax63 : maximum < 2 ^ 63 := by
      rcases hsmall with h1 | h
      · rw [h1] at hlt
        omega
      · omega
    rw [hself, toI64_of_lt (by omega), toI64_of_lt hmax63]
    exact make_admits ⟨by omega, by omega⟩ (by omega) (by omega) hdvd
  · rw [if_neg hsmall]
    obtain ⟨k, hk, heq, hkd⟩ := exists_andI64_neg hd1 hd
    -- a positive multiple of the power of two is no smaller than it
    have hdvd' : (2 : ℤ) ^ k ∣ represent bitCount q := by
      rcases Nat.eq_zero_or_pos q with rfl | hq
      · rw [represent_natCast hb (by omega), if_pos (Or.inr (Nat.two_pow_pos _))]
        exact Int.dvd_zero _
      have hle := Int.le_of_dvd (by omega) (hkd.trans hdvd)
      have hkb : k ≤ bitCount := by
        by_contra hgt
        have hpow' : (2 : ℤ) ^ bitCount ≤ 2 ^ k := pow_le_pow_right₀ (by decide) (by omega)
        omega
      exact two_pow_dvd_of_dvd_sub hkb (hkd.trans hdvd) hspec.2
    dsimp only
    rw [heq]
    split_ifs with hhalf
    · have hword : maximum < 2 ^ 64 := by
        have hpow' := Nat.pow_le_pow_right Nat.two_pos h64
        omega
      have hbmod : ∀ x : ℕ, 2 ^ (bitCount - 1) ≤ x → x < 2 ^ bitCount →
          Int.bmod x (2 ^ bitCount) = x - 2 ^ bitCount := by
        intro x hge hx
        exact (bmod_two_pow_eq_iff hb).mpr ⟨by omega, by omega, two_pow_dvd_sub_self _⟩
      rw [makeSignedRawBits_eq hb h64 (by omega), makeSignedRawBits_eq hb h64 hword]
      have hq : represent bitCount q = q - 2 ^ bitCount := by
        rw [represent_natCast hb (by omega), if_neg (by omega)]
      rw [hq] at hdvd' ⊢
      have hlo := hbmod minimum hhalf (by omega)
      have hhi := hbmod maximum (by omega) hlt
      apply make_admits (isI64_bmod hb h64 _) _ _ hdvd'
      · omega
      · show _ ≤ Int.bmod maximum (2 ^ bitCount)
        omega
    · have hrange := declaredDomain_range hb h64
      rw [declaredDomain, if_neg (by omega)] at hrange
      rw [hrange.1, hrange.2]
      exact make_admits (isI64_representedLo h64) hspec.1.1 hspec.1.2 hdvd'

/-- The divisor that the raw bits keep. -/
lemma unsignedKnownDivisor_spec :
    1 ≤ facts.unsignedKnownDivisor ∧ IsI64 facts.unsignedKnownDivisor ∧
      facts.unsignedKnownDivisor ∣ raw bitCount v := by
  obtain ⟨hle, -⟩ := h.bounds h64
  have hf := h.wellFormed
  have hraw := cast_raw_eq hb h.represented
  unfold unsignedKnownDivisor
  split_ifs with hneg
  · obtain ⟨k, hk, heq, hkd⟩ := exists_andI64_neg hf.one_le hf.knownDivisor
    have hkv := hkd.trans h.admits.dvd
    have hpow : (2 : ℤ) ^ k < 2 ^ 63 := pow_lt_pow_right₀ (by decide) (by omega)
    rw [heq]
    refine ⟨by omega, ⟨by omega, hpow⟩, ?_⟩
    rw [hraw]
    split_ifs with hvneg
    · -- the power of two is no greater than the magnitude, so it divides the modulus
      have hself := Int.le_of_dvd (by omega) (Int.dvd_neg.mpr hkv)
      have hlo := representedLo_le_zero bitCount
      have hkb : k ≤ bitCount := by
        by_contra hgt
        have hpow' : (2 : ℤ) ^ bitCount ≤ 2 ^ k := pow_le_pow_right₀ (by decide) (by omega)
        have htwo := two_pow_eq_two_mul hb
        have := h.represented.1
        omega
      exact Int.dvd_add hkv (pow_dvd_pow 2 hkb)
    · exact hkv
  · refine ⟨hf.one_le, hf.knownDivisor, ?_⟩
    rw [hraw, if_neg (by omega)]
    exact h.admits.dvd

/-! ### Unsigned division -/

lemma asExactRawBits_eq_some {bits : ℕ} (hbits : facts.asExactRawBits bitCount = some bits) :
    bits = raw bitCount v := by
  rw [asExactRawBits_eq h.wellFormed hb h64] at hbits
  split_ifs at hbits with hexact
  rw [← Option.some.inj hbits, h.wellFormed.eq_rangeLo_of_exact hexact h.admits]
  rfl

end

variable {lhs rhs : IntegerFacts} {l r : ℤ}

lemma rhsMinimum_spec (hb : 0 < bitCount) (h64 : bitCount ≤ 64) (hr : rhs.Operand bitCount r)
    (hr0 : r ≠ 0) (hmax : (rhs.unsignedRange (2 ^ bitCount - 1)).maximum ≠ 0) :
    0 < rhs.rhsMinimum (2 ^ bitCount - 1) ∧ rhs.rhsMinimum (2 ^ bitCount - 1) ≤ raw bitCount r := by
  have hrange := unsignedRange_spec hb h64 hr
  have hne := raw_ne_zero hb hr.represented hr0
  obtain ⟨hle, hge⟩ := hr.bounds h64
  unfold rhsMinimum
  dsimp only
  split_ifs with hmin hpos
  · omega
  · -- the range is `[lo, 0]` with a negative lower end
    have hrawlo := cast_raw_eq hb (hr.ends h64).1
    have hrawr := cast_raw_eq hb hr.represented
    have hneg : rhs.rangeLo < 0 := by
      by_contra hnonneg
      have hzero : rhs.rangeLo = 0 ∧ rhs.rangeHi = 0 := by omega
      apply hmax
      rw [unsignedRange, if_pos (by omega), hzero.2]
      rfl
    have hlo' := representedLo_le_zero bitCount
    have hlo'' := hr.within.1
    have htwo := two_pow_eq_two_mul hb
    rw [toU64_mask h64]
    rw [if_pos hneg] at hrawlo
    rw [if_pos (by omega)] at hrawr
    omega
  · exact ⟨by omega, hrange.1⟩

lemma natCast_dvd_of_toU64 {d : ℤ} (hd1 : 1 ≤ d) (hd : IsI64 d) {n : ℕ} (h : d ∣ n) :
    toU64 d ∣ n := by
  rw [← Int.natCast_dvd_natCast, cast_toU64_of_nonneg (by omega) hd]
  exact h

lemma unsignedDivisionRange_admits (hb : 0 < bitCount) (h64 : bitCount ≤ 64)
    (hl : lhs.Operand bitCount l) (hr : rhs.Operand bitCount r) (hr0 : r ≠ 0)
    (kind : UnsignedDivisionKind) :
    (unsignedDivisionRange lhs rhs bitCount kind).Admits
      (represent bitCount (kind.apply (raw bitCount l) (raw bitCount r))) := by
  obtain ⟨hlmin, hlmax, hllt⟩ := unsignedRange_spec hb h64 hl
  obtain ⟨hrmin, hrmax, hrlt⟩ := unsignedRange_spec hb h64 hr
  have hne := raw_ne_zero hb hr.represented hr0
  have hone : IsI64 1 := by decide
  obtain ⟨hd1, hd64, hdvd⟩ := unsignedKnownDivisor_spec hb h64 hl
  have hdvd' := natCast_dvd_of_toU64 hd1 hd64 hdvd
  have hdword := cast_toU64_of_nonneg (by omega) hd64
  -- an exact divisor that divides the known divisor divides the dividend
  have hexact : ∀ bits, rhs.asExactRawBits bitCount = some bits → bits = raw bitCount r :=
    fun bits =>
    asExactRawBits_eq_some hb h64 hr
  unfold unsignedDivisionRange
  dsimp only
  rw [maskLowBits_allOnes hb h64]
  generalize lhs.unsignedRange (2 ^ bitCount - 1) = lhsRange at *
  by_cases hzero : (rhs.rangeLo ≤ 0 ∧ rhs.rangeHi ≥ 0 ∧ rhs.isNonZero = false) ∨
      (rhs.unsignedRange (2 ^ bitCount - 1)).maximum = 0
  · rw [if_pos hzero]
    have hle := kind.apply_le (raw bitCount l) (raw bitCount r)
    exact makeUnsignedResultRange_admits hb h64 (Nat.zero_le _) (by omega)
      (by have := Nat.two_pow_pos bitCount; omega) (Int.le_refl 1) hone (Int.one_dvd _)
  rw [if_neg hzero]
  cases kind with
  | remainder =>
    dsimp only [UnsignedDivisionKind.apply]
    split_ifs with hid hdiv
    · rw [Nat.mod_eq_of_lt (by omega), represent_raw hb hl.represented]
      exact hl.admits
    · obtain ⟨bits, hbits⟩ := Option.isSome_iff_exists.mp hdiv.1
      rw [hbits, Option.getD_some, hexact bits hbits] at hdiv
      rw [Nat.mod_eq_zero_of_dvd ((Nat.dvd_of_mod_eq_zero hdiv.2).trans hdvd'),
        Int.natCast_zero, represent_eq_self hb (zero_isRepresented hb)]
      exact exactI64_admits isI64_zero
    · have hle := Nat.mod_le (raw bitCount l) (raw bitCount r)
      have hlt := Nat.mod_lt (raw bitCount l) (Nat.pos_of_ne_zero hne)
      exact makeUnsignedResultRange_admits hb h64 (Nat.zero_le _) (by omega) (by omega)
        (Int.le_refl 1) hone (Int.one_dvd _)
  | quotient =>
    dsimp only [UnsignedDivisionKind.apply]
    obtain ⟨hmin1, hmin⟩ := rhsMinimum_spec hb h64 hr hr0 (by tauto)
    have hquot : lhsRange.minimum / (rhs.unsignedRange (2 ^ bitCount - 1)).maximum ≤
        raw bitCount l / raw bitCount r := Nat.div_le_div hlmin hrmax hne
    have hquot' : raw bitCount l / raw bitCount r ≤
        lhsRange.maximum / rhs.rhsMinimum (2 ^ bitCount - 1) := Nat.div_le_div hlmax hmin (by omega)
    have hself := Nat.div_le_self lhsRange.maximum (rhs.rhsMinimum (2 ^ bitCount - 1))
    split_ifs with hdiv
    · obtain ⟨bits, hbits⟩ := Option.isSome_iff_exists.mp hdiv.1
      rw [hbits, Option.getD_some, hexact bits hbits] at hdiv
      rw [hbits, Option.getD_some, hexact bits hbits]
      obtain ⟨c, hc⟩ := Nat.dvd_of_mod_eq_zero hdiv.2
      rw [hc, Nat.mul_div_cancel_left _ (by omega)]
      have hcpos : 0 < c := by
        rcases Nat.eq_zero_or_pos c with rfl | h
        · omega
        · exact h
      have hcle : c ≤ toU64 lhs.unsignedKnownDivisor := by
        rw [hc]
        exact Nat.le_mul_of_pos_left c (by omega)
      have hd63 := hd64.2
      rw [toI64_of_lt (by omega)]
      refine makeUnsignedResultRange_admits hb h64 hquot hquot' (by omega) (by omega)
          ⟨by omega, by omega⟩ ?_
      rw [Int.natCast_dvd_natCast]
      obtain ⟨e, he⟩ := hdvd'
      rw [he, hc, Nat.mul_assoc, Nat.mul_div_cancel_left _ (by omega)]
      exact Nat.dvd_mul_right c e
    · exact makeUnsignedResultRange_admits hb h64 hquot hquot' (by omega) (Int.le_refl 1) hone
        (Int.one_dvd _)

section

variable (hb : 0 < bitCount) (h64 : bitCount ≤ 64) (hL : lhs.WellFormed) (hR : rhs.WellFormed)
  (hl : IsRepresented bitCount l)
include hb h64 hL hR hl

/-- Unsigned division of represented integers. -/
lemma unsignedDivision_admits (hr : IsRepresented bitCount r)
    (hlhs : lhs.Admits l) (hrhs : rhs.Admits r) (hr0 : r ≠ 0) (kind : UnsignedDivisionKind) :
    (unsignedDivision lhs rhs bitCount kind).Admits
      (represent bitCount (kind.apply (raw bitCount l) (raw bitCount r))) := by
  have hlop := divisionOperand_operand hL hb h64 hl hlhs
  have hrop := divisionOperand_operand hR hb h64 hr hrhs
  have hrop' : ((rhs.divisionOperand bitCount).withNonZero rhs.flags.nonZero).Operand bitCount r :=
    ⟨hrop.wellFormed.withNonZero _, hrop.within, hr, hrop.admits.withNonZero hrhs.flags.nonZero⟩
  have hrange := unsignedDivisionRange_admits hb h64 hlop hrop' hr0 kind
  unfold unsignedDivision
  dsimp only
  split
  case h_1 lhsBits rhsBits hlbits hrbits =>
    rw [asExactRawBits_eq_some hb h64 hlop hlbits,
      asExactRawBits_eq_some hb h64 hrop' hrbits,
      if_pos (raw_ne_zero hb hr hr0)]
    have hle := kind.apply_le (raw bitCount l) (raw bitCount r)
    have hlt := raw_lt bitCount l
    have hpow := Nat.pow_le_pow_right Nat.two_pos h64
    split_ifs with h1
    · rw [represent_natCast hb (by omega), if_pos (Or.inl h1)]
      rw [h1] at hlt hle ⊢
      rw [toI64_of_lt (by omega)]
      exact exactI64_admits ⟨by omega, by omega⟩
    · rw [makeSignedRawBits_eq hb h64 (by omega), represent, if_neg h1]
      exact exactI64_admits (isI64_bmod hb h64 _)
  case h_2 => exact hrange

/-- Where the identity is proved, no reduction occurs. -/
lemma remuiIsIdentity_spec (hr : IsRepresented bitCount r)
    (hlhs : lhs.Admits l) (hrhs : rhs.Admits r) (hid : remuiIsIdentity lhs rhs bitCount = true) :
    r ≠ 0 ∧ represent bitCount (raw bitCount l % raw bitCount r : ℕ) = l := by
  have hlop := divisionOperand_operand hL hb h64 hl hlhs
  have hrop := divisionOperand_operand hR hb h64 hr hrhs
  have hlrange := unsignedRange_spec hb h64 hlop
  have hrrange := unsignedRange_spec hb h64 hrop
  unfold remuiIsIdentity at hid
  rw [maskLowBits_allOnes hb h64] at hid
  have hlt := of_decide_eq_true hid
  constructor
  · rintro rfl
    have hzero : raw bitCount 0 = 0 := by simp [raw]
    omega
  · rw [Nat.mod_eq_of_lt (by omega), represent_raw hb hl]

end

/-! ### Signed division -/

lemma isI64_tdiv (hl : IsI64 l) (hover : ¬(l = -2 ^ 63 ∧ r = -1)) : IsI64 (l.tdiv r) := by
  have habs : (l.tdiv r).natAbs = l.natAbs / r.natAbs := Int.natAbs_tdiv l r
  have hle := Nat.div_le_self l.natAbs r.natAbs
  obtain ⟨hlo, hhi⟩ := hl
  unfold IsI64
  by_cases hmin : l = -2 ^ 63
  · by_cases hone : r = 1
    · rw [hone, Int.tdiv_one]
      omega
    -- the magnitude is at least halved
    have hhalf : r ≠ 0 → l.natAbs / r.natAbs ≤ l.natAbs / 2 := fun hr0 =>
      Nat.div_le_div_left (by omega) (by decide)
    rcases eq_or_ne r 0 with rfl | hr0
    · rw [Int.tdiv_zero]
      omega
    · omega
  · omega

lemma tdiv_le_tdiv_of_nonneg {a b c d : ℤ} (ha : 0 ≤ a) (hab : a ≤ b) (hd : 0 < d) (hdc : d ≤ c) :
    a.tdiv c ≤ b.tdiv d := by
  lift a to ℕ using ha
  lift b to ℕ using by omega
  lift c to ℕ using by omega
  lift d to ℕ using by omega
  rw [← Int.ofNat_tdiv, ← Int.ofNat_tdiv]
  exact Int.ofNat_le.mpr (Nat.div_le_div (by omega) (by omega) (by omega))

/-- The divisor of a quotient by an exact divisor. -/
lemma tdiv_dvd_tdiv {d m : ℤ} (h : d ∣ l) (hm : m.natAbs = r.natAbs) (hm0 : m ≠ 0)
    (hmod : d.tmod m = 0) : d.tdiv m ∣ l.tdiv r := by
  obtain ⟨c, rfl⟩ := Int.dvd_of_tmod_eq_zero hmod
  obtain ⟨e, rfl⟩ := h
  rw [Int.mul_tdiv_cancel_left _ hm0]
  rcases Int.natAbs_eq_natAbs_iff.mp hm with rfl | rfl
  · rw [Int.mul_assoc, Int.mul_tdiv_cancel_left _ hm0]
    exact Int.dvd_mul_right c e
  · rw [Int.mul_assoc, Int.neg_mul, Int.neg_tdiv, Int.mul_tdiv_cancel_left _ (by omega)]
    exact Int.dvd_neg.mpr (Int.dvd_mul_right c e)

lemma divsi_admits (hL : lhs.WellFormed) (hl : IsI64 l) (hr : IsI64 r) (hlhs : lhs.Admits l)
    (hrhs : rhs.Admits r) (hover : ¬(l = -2 ^ 63 ∧ r = -1)) :
    (divsi lhs rhs).Admits (l.tdiv r) := by
  obtain ⟨hlle, hlge⟩ := hlhs.bounds hl
  obtain ⟨hrle, hrge⟩ := hrhs.bounds hr
  obtain ⟨hlo, hhi⟩ := isI64_tdiv hl hover
  have hmin : IsI64 (-2 ^ 63) := ⟨by decide, by decide⟩
  unfold divsi
  extract_lets absRhs divisor
  have hdvd : divisor ∣ l.tdiv r := by
    by_cases hdiv : rhs.rangeLo = rhs.rangeHi ∧ rhs.rangeLo ≠ 0 ∧ lhs.knownDivisor.tmod absRhs = 0
    · have hreq : rhs.rangeLo = r := by omega
      rw [show divisor = lhs.knownDivisor.tdiv absRhs from if_pos hdiv]
      by_cases hrmin : r = -2 ^ 63
      · -- the magnitude is no word, and the word next to it divides only itself
        have habs : absRhs = 2 ^ 63 - 1 := by
          show (if rhs.rangeLo > 0 then _ else _) = _
          rw [hreq, hrmin]
          rfl
        obtain ⟨c, hc⟩ := Int.dvd_of_tmod_eq_zero hdiv.2.2
        have hone := hL.one_le
        have hlt := hL.knownDivisor.2
        rw [habs] at hc ⊢
        rw [hc, Int.mul_tdiv_cancel_left _ (by decide), show c = 1 by omega]
        exact Int.one_dvd _
      · have habs : absRhs = r.natAbs := by
          show (if rhs.rangeLo > 0 then _ else _) = _
          rw [hreq, if_neg hrmin]
          split_ifs <;> omega
        exact tdiv_dvd_tdiv hlhs.dvd (by omega) (by omega) hdiv.2.2
    · rw [show divisor = 1 from if_neg hdiv]
      exact Int.one_dvd _
  split_ifs with hzero hpos
  · exact make_admits hmin hlo (by omega) hdvd
  · apply make_admits _ _ _ hdvd
    · rw [Int.tdiv_eq_ediv_of_nonneg hpos.1]
      exact isI64_ediv hL.rangeLo (by omega)
    · exact tdiv_le_tdiv_of_nonneg hpos.1 hlle (by omega) hrge
    · exact tdiv_le_tdiv_of_nonneg (by omega) hlge hpos.2 hrle
  · exact make_admits hmin hlo (by omega) hdvd

lemma remainderI64_eq (hr : IsI64 r) (hr0 : r ≠ 0) : remainderI64 l r = l.tmod r := by
  have hlt := Nat.mod_lt l.natAbs (Int.natAbs_pos.mpr hr0)
  have hword : l.natAbs % r.natAbs < 2 ^ 63 := by
    obtain ⟨hlo, hhi⟩ := hr
    omega
  unfold remainderI64
  dsimp only
  have habs := Int.natAbs_tmod l r
  rw [magnitude_eq, magnitude_eq, toI64_of_lt hword]
  rcases lt_or_ge l 0 with h | h
  · have hnonpos := Int.tmod_nonneg r (Int.neg_nonneg.mpr h.le)
    rw [Int.neg_tmod] at hnonpos
    split_ifs <;> omega
  · have hnonneg := Int.tmod_nonneg r h
    rw [if_pos (Or.inl h)]
    omega

lemma remsi_admits (hR : rhs.WellFormed) (hl : IsI64 l) (hr : IsI64 r) (hlhs : lhs.Admits l)
    (hrhs : rhs.Admits r) (hr0 : r ≠ 0) : (remsi lhs rhs).Admits (l.tmod r) := by
  obtain ⟨hlle, hlge⟩ := hlhs.bounds hl
  obtain ⟨hrle, hrge⟩ := hrhs.bounds hr
  have habs := Int.natAbs_tmod l r
  have hlt := Nat.mod_lt l.natAbs (Int.natAbs_pos.mpr hr0)
  obtain ⟨hlo, -⟩ := hR.rangeLo
  obtain ⟨-, hhi⟩ := hR.rangeHi
  have hrem : IsI64 (l.tmod r) := by
    obtain ⟨hrlo, hrhi⟩ := hr
    unfold IsI64
    omega
  unfold remsi
  dsimp only
  split_ifs with hzero hexact
  · exact unknown_admits _
  · rw [show lhs.rangeLo = l by omega, show rhs.rangeLo = r by omega, remainderI64_eq hr hr0]
    exact exactI64_admits hrem
  · rw [magnitude_eq, magnitude_eq, toI64_of_lt (by omega)]
    exact make_admits ⟨by omega, by omega⟩ (by omega) (by omega) (Int.one_dvd _)

/-! ### Logical right shift -/

lemma shiftRight_allOnes (h64 : bitCount ≤ 64) :
    (2 ^ 64 - 1) >>> (64 - bitCount) = 2 ^ bitCount - 1 := by
  have hpow : 2 ^ 64 = 2 ^ (64 - bitCount) * 2 ^ bitCount := by
    rw [← Nat.pow_add, Nat.sub_add_cancel h64]
  obtain ⟨c, hc⟩ : ∃ c, 2 ^ bitCount = c + 1 :=
    Nat.exists_eq_succ_of_ne_zero (Nat.two_pow_pos _).ne'
  have hpos := Nat.two_pow_pos (64 - bitCount)
  rw [Nat.shiftRight_eq_div_pow, hpow, hc]
  generalize 2 ^ (64 - bitCount) = a at hpos
  rw [show a * (c + 1) - 1 = a - 1 + a * c by rw [Nat.mul_add]; omega,
    Nat.add_mul_div_left _ _ hpos,
    Nat.div_eq_of_lt (by omega)]
  omega

lemma shiftedDivisor_dvd {d : ℤ} (hd1 : 1 ≤ d) (hd : IsI64 d) {n : ℕ} (h : toU64 d ∣ n)
    (shift : ℕ) :
    (if toU64 d % 2 ^ shift = 0 then toI64 (toU64 d / 2 ^ shift) else 1) ∣
      ((n / 2 ^ shift : ℕ) : ℤ) := by
  split_ifs with hmod
  · have hword := cast_toU64_of_nonneg (by omega) hd
    have hle := Nat.div_le_self (toU64 d) (2 ^ shift)
    have hlt := hd.2
    rw [toI64_of_lt (by omega), Int.natCast_dvd_natCast]
    exact Nat.div_dvd_div (Nat.dvd_of_mod_eq_zero hmod) h
  · exact Int.one_dvd _

lemma shrui_admits (hb : 0 < bitCount) (h64 : bitCount ≤ 64) (hL : lhs.WellFormed)
    (hl : IsRepresented bitCount l) (hlhs : lhs.Admits l) {shift : ℕ} (hlo : rhs.rangeLo = shift)
    (hhi : rhs.rangeHi = shift) (hshift : shift < bitCount) :
    (shrui lhs rhs bitCount).Admits (represent bitCount (raw bitCount l / 2 ^ shift : ℕ)) := by
  have hop := divisionOperand_operand hL hb h64 hl hlhs
  have hraw := raw_lt bitCount l
  obtain ⟨hmin, hmax, hmaxlt⟩ := unsignedRange_spec hb h64 hop
  obtain ⟨hd1, hd64, hdvd⟩ := unsignedKnownDivisor_spec hb h64 hop
  have hdvd' := natCast_dvd_of_toU64 hd1 hd64 hdvd
  unfold shrui
  dsimp only
  rw [hlo, hhi, if_neg (by omega), Int.toNat_natCast]
  by_cases hzero : (shift : ℤ) = 0
  · rw [if_pos hzero, show shift = 0 by omega, Nat.pow_zero, Nat.div_one, represent_raw hb hl]
    exact hop.admits
  rw [if_neg hzero]
  -- the shifted bits are below the sign bit, so they represent themselves
  have hquot : ∀ x, x < 2 ^ bitCount → x / 2 ^ shift < 2 ^ (bitCount - shift) := by
    intro x hx
    apply Nat.div_lt_of_lt_mul
    rwa [← Nat.pow_add, Nat.add_sub_cancel' hshift.le]
  have hquotl := hquot _ hraw
  have hhalf : 2 ^ (bitCount - shift) ≤ 2 ^ (bitCount - 1) :=
      Nat.pow_le_pow_right (by decide) (by omega)
  have hhalf' : 2 ^ (bitCount - shift) ≤ 2 ^ 63 := Nat.pow_le_pow_right (by decide) (by omega)
  have hself : represent bitCount (raw bitCount l / 2 ^ shift : ℕ) =
      (raw bitCount l / 2 ^ shift : ℕ) := by
    rw [represent_natCast hb ((Nat.div_le_self _ _).trans_lt hraw), if_pos (Or.inr (by omega))]
  have hword : ∀ x, x < 2 ^ bitCount → toI64 (x >>> shift) = (x / 2 ^ shift : ℕ) := by
    intro x hx
    have := hquot x hx
    rw [Nat.shiftRight_eq_div_pow, toI64_of_lt (by omega)]
  have hdiv := shiftedDivisor_dvd hd1 hd64 hdvd' shift
  rw [hself, shiftRight_allOnes h64, toU64_mask h64, toU64_mask h64, hword _ (raw_lt _ _),
    hword _ (raw_lt _ _), hword (2 ^ bitCount - 1) (by omega)]
  have hbound : ∀ {x y : ℕ}, x ≤ y → ((x / 2 ^ shift : ℕ) : ℤ) ≤ (y / 2 ^ shift : ℕ) := fun h =>
    Int.ofNat_le.mpr (Nat.div_le_div_right h)
  by_cases hmono : (lhs.divisionOperand bitCount).rangeLo ≥ 0 ∨
      (lhs.divisionOperand bitCount).rangeHi < 0
  · obtain ⟨hle, hge⟩ := raw_mem_of_monotonic hb h64 hop hmono
    rw [if_pos hmono, if_pos hmono]
    have hlt := hquot _ (raw_lt bitCount (lhs.divisionOperand bitCount).rangeLo)
    exact make_admits (isI64_natCast (by omega)) (hbound hle) (hbound hge) hdiv
  · rw [if_neg hmono, if_neg hmono]
    exact make_admits isI64_zero (Int.natCast_nonneg _) (hbound (by omega)) hdiv

/-! ### Results -/

/-- Division and right shifts.  `l` and `r` are represented at the width; the signed operations have
no width of their own and hold of every pair of words but the one whose quotient overflows. -/
theorem division_admits {lhs rhs : IntegerFacts} {l r : ℤ} (hL : lhs.WellFormed)
    (hR : rhs.WellFormed)
    (hlhs : lhs.Admits l) (hrhs : rhs.Admits r) :
    (∀ bitCount, 0 < bitCount → bitCount ≤ 64 → IsRepresented bitCount l →
      IsRepresented bitCount r →
      (r ≠ 0 →
        (divui lhs rhs bitCount).Admits (represent bitCount (raw bitCount l / raw bitCount r : ℕ)) ∧
        (remui lhs rhs bitCount).Admits (represent bitCount
          (raw bitCount l % raw bitCount r : ℕ))) ∧
      (remuiIsIdentity lhs rhs bitCount = true →
        r ≠ 0 ∧ represent bitCount (raw bitCount l % raw bitCount r : ℕ) = l)) ∧
    (IsI64 l → IsI64 r → r ≠ 0 → ¬(l = -2 ^ 63 ∧ r = -1) →
      (divsi lhs rhs).Admits (l.tdiv r) ∧ (remsi lhs rhs).Admits (l.tmod r)) ∧
    (∀ bitCount, 0 < bitCount → bitCount ≤ 64 → IsRepresented bitCount l →
      ∀ shift : ℕ, shift < bitCount → rhs.rangeLo = shift → rhs.rangeHi = shift →
        (shrui lhs rhs bitCount).Admits (represent bitCount (raw bitCount l / 2 ^ shift : ℕ)) ∧
        (shrsi lhs rhs).Admits (l / 2 ^ shift)) := by
  refine ⟨fun bitCount hb h64 hl hr => ⟨fun hr0 => ?_, fun hid => ?_⟩, fun hl hr hr0 hover => ?_,
    fun bitCount hb h64 hl shift hshift hlo hhi => ?_⟩
  · exact ⟨unsignedDivision_admits hb h64 hL hR hl hr hlhs hrhs hr0 .quotient,
      unsignedDivision_admits hb h64 hL hR hl hr hlhs hrhs hr0 .remainder⟩
  · exact remuiIsIdentity_spec hb h64 hL hR hl hr hlhs hrhs hid
  · exact ⟨divsi_admits hL hl hr hlhs hrhs hover, remsi_admits hR hl hr hlhs hrhs hr0⟩
  · exact ⟨shrui_admits hb h64 hL hl hlhs hlo hhi hshift,
      shrsi_admits hL hlo hhi (by omega) (isI64_represented h64 hl) hlhs⟩

/-- A dividend and a divisor across zero, the divisor known to be nonzero by a predicate only. -/
theorem division_admits_crossing :
    (divui (make (-8) 8 4) ((make (-2) 3 1).withNonZero true) 8).Admits 126 ∧
      (remsi (make (-8) 8 4) ((make (-2) 3 1).withNonZero true)).Admits 0 ∧
      (shrui (make (-8) 8 4) (exactI64 1) 8).Admits 126 := by
  have hL : (make (-8) 8 4).WellFormed := make_wellFormed (by decide) (by decide) (by decide)
  have hR : ((make (-2) 3 1).withNonZero true).WellFormed :=
    (make_wellFormed (by decide) (by decide) (by decide)).withNonZero true
  have hone : IsI64 1 := by decide
  have hl : (make (-8) 8 4).Admits (-4) :=
    make_admits (by decide) (by decide) (by decide) (by decide)
  have hr : ((make (-2) 3 1).withNonZero true).Admits 2 :=
    (make_admits (by decide) (by decide) (by decide) (by decide)).withNonZero (fun _ => by decide)
  have hdiv := division_admits hL hR hl hr
  have hshift := division_admits hL (exactI64_wellFormed hone) hl (exactI64_admits hone)
  refine ⟨((hdiv.1 8 (by decide) (by decide) (by decide) (by decide)).1 (by decide)).1, ?_, ?_⟩
  · exact (hdiv.2.1 (by decide) (by decide) (by decide) (by decide)).2
  · exact (hshift.2.2 8 (by decide) (by decide) (by decide) 1 (by decide) rfl rfl).1

end IntegerFacts

end Hrx.Facts
