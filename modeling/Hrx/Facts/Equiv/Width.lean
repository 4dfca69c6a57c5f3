import Hrx.Facts.Equiv.Integer
import Mathlib.Data.Int.ModEq

/-!
# Width changes

A value of a given width is represented as a signed integer, except that one bit is represented as 0
or 1. Facts about a value become facts about its representation at another width, and about the
fields of its bits.
-/

namespace Hrx.Facts

open TwosComplement

/-! ### Representations -/

def representedLo (bitCount : ℕ) : ℤ := if bitCount = 1 then 0 else -2 ^ (bitCount - 1)

def representedHi (bitCount : ℕ) : ℤ := if bitCount = 1 then 1 else 2 ^ (bitCount - 1) - 1

def IsRepresented (bitCount : ℕ) (v : ℤ) : Prop :=
  representedLo bitCount ≤ v ∧ v ≤ representedHi bitCount

instance (bitCount : ℕ) (v : ℤ) : Decidable (IsRepresented bitCount v) :=
  inferInstanceAs (Decidable (_ ∧ _))

/-- The representation of an integer modulo `2 ^ bitCount`. -/
def represent (bitCount : ℕ) (x : ℤ) : ℤ :=
  if bitCount = 1 then x % 2 else Int.bmod x (2 ^ bitCount)

variable {bitCount : ℕ}

lemma representedHi_eq (hb : 0 < bitCount) :
    representedHi bitCount = representedLo bitCount + 2 ^ bitCount - 1 := by
  unfold representedHi representedLo
  have htwo := two_pow_eq_two_mul hb
  split_ifs with h1
  · rw [h1]
    rfl
  · omega

variable {v x : ℤ}

lemma two_pow_pred_le (hb : bitCount ≤ 64) : (2 : ℤ) ^ (bitCount - 1) ≤ 2 ^ 63 :=
  pow_le_pow_right₀ (by decide) (by omega)

lemma isI64_represented (hb : bitCount ≤ 64) (hv : IsRepresented bitCount v) : IsI64 v := by
  obtain ⟨hlo, hhi⟩ := hv
  unfold representedLo at hlo
  unfold representedHi at hhi
  have hpow := two_pow_pred_le hb
  unfold IsI64
  split_ifs at hlo hhi <;> omega

lemma isI64_representedLo (hb : bitCount ≤ 64) : IsI64 (representedLo bitCount) := by
  have hpow := two_pow_pred_le hb
  have hpos := two_pow_pos (bitCount - 1)
  unfold representedLo IsI64
  split_ifs <;> omega

lemma isI64_representedHi (hb : bitCount ≤ 64) : IsI64 (representedHi bitCount) := by
  have hpow := two_pow_pred_le hb
  have hpos := two_pow_pos (bitCount - 1)
  unfold representedHi IsI64
  split_ifs <;> omega

section

variable (hb : 0 < bitCount)
include hb

lemma represent_spec (x : ℤ) : IsRepresented bitCount (represent bitCount x) ∧
      (2 : ℤ) ^ bitCount ∣ represent bitCount x - x := by
  unfold IsRepresented representedLo representedHi represent
  split_ifs with h1
  · rw [h1]
    exact ⟨by omega, Int.dvd_emod_sub_self⟩
  · have hmem := bmod_two_pow_mem hb x
    exact ⟨by omega, two_pow_dvd_bmod_sub bitCount x⟩

/-- The window that `eq_of_dvd_sub_of_mem` asks for. -/
lemma IsRepresented.window (hv : IsRepresented bitCount v) :
    representedLo bitCount ≤ v ∧ v < representedLo bitCount + 2 ^ bitCount := by
  have hhi := representedHi_eq hb
  unfold IsRepresented at hv
  omega

lemma represent_eq {y : ℤ} (hy : IsRepresented bitCount y)
    (h : (2 : ℤ) ^ bitCount ∣ y - x) : represent bitCount x = y := by
  obtain ⟨hmem, hdvd⟩ := represent_spec hb x
  apply eq_of_dvd_sub_of_mem (hmem.window hb) (hy.window hb)
  have hsub := Int.dvd_sub hdvd h
  rwa [show represent bitCount x - x - (y - x) = represent bitCount x - y by omega] at hsub

lemma represent_eq_self (hv : IsRepresented bitCount v) : represent bitCount v = v :=
  represent_eq hb hv (by rw [Int.sub_self]; exact Int.dvd_zero _)

/-- A value and its representation have the same bits. -/
lemma represent_emod (x : ℤ) : represent bitCount x % 2 ^ bitCount = x % 2 ^ bitCount :=
  (Int.modEq_iff_dvd.mpr (represent_spec hb x).2).symm

omit hb in
lemma representedLo_le_zero (bitCount : ℕ) :
    -2 ^ (bitCount - 1) ≤ representedLo bitCount ∧ representedLo bitCount ≤ 0 := by
  have hpos := two_pow_pos (bitCount - 1)
  unfold representedLo
  split_ifs <;> omega

lemma zero_isRepresented : IsRepresented bitCount 0 := by
  have hlo := representedLo_le_zero bitCount
  have hhi := representedHi_eq hb
  have htwo := two_pow_eq_two_mul hb
  have hpos := two_pow_pos (bitCount - 1)
  exact ⟨hlo.2, by omega⟩

/-! ### Raw bits -/

omit hb in
lemma emod_add_of_neg {m : ℤ} (hneg : x < 0) (hle : -m ≤ x) : x % m = x + m := by
  rw [← Int.add_emod_right, Int.emod_eq_of_lt] <;> omega

/-- The raw bits of a represented integer. -/
lemma emod_of_isRepresented (hv : IsRepresented bitCount v) :
    v % 2 ^ bitCount = if v < 0 then v + 2 ^ bitCount else v := by
  have hlo := representedLo_le_zero bitCount
  have hhi := representedHi_eq hb
  have htwo := two_pow_eq_two_mul hb
  unfold IsRepresented at hv
  split_ifs with hneg
  · exact emod_add_of_neg hneg (by omega)
  · exact Int.emod_eq_of_lt (by omega) (by omega)

end

def raw (bitCount : ℕ) (v : ℤ) : ℕ := (v % 2 ^ bitCount).toNat

lemma cast_raw (bitCount : ℕ) (v : ℤ) : (raw bitCount v : ℤ) = v % 2 ^ bitCount :=
  Int.toNat_of_nonneg (Int.emod_nonneg v (two_pow_pos bitCount).ne')

lemma raw_lt (bitCount : ℕ) (v : ℤ) : raw bitCount v < 2 ^ bitCount := by
  have hcast := cast_two_pow bitCount
  have hraw := cast_raw bitCount v
  omega

section

variable (hb : 0 < bitCount) (hv : IsRepresented bitCount v)
include hb hv

lemma cast_raw_eq : (raw bitCount v : ℤ) = if v < 0 then v + 2 ^ bitCount else v := by
  rw [cast_raw, emod_of_isRepresented hb hv]

lemma represent_raw : represent bitCount (raw bitCount v) = v := by
  apply represent_eq hb hv
  rw [cast_raw]
  exact Int.dvd_self_sub_emod

lemma raw_ne_zero (h : v ≠ 0) : raw bitCount v ≠ 0 := by
  intro hzero
  apply h
  rw [← represent_raw hb hv, hzero]
  exact represent_eq_self hb (zero_isRepresented hb)

end

lemma two_pow_dvd_sub_self (x : ℤ) : (2 : ℤ) ^ bitCount ∣ x - 2 ^ bitCount - x := by
  rw [sub_right_comm, sub_self, zero_sub]
  exact Int.dvd_neg.mpr (Int.dvd_refl _)

/-- Small raw bits represent themselves, large ones are negative. -/
lemma represent_natCast (hb : 0 < bitCount) {q : ℕ} (hq : q < 2 ^ bitCount) :
    represent bitCount q =
      if bitCount = 1 ∨ q < 2 ^ (bitCount - 1) then (q : ℤ) else q - 2 ^ bitCount := by
  have hcast := cast_two_pow bitCount
  have hcast' := cast_two_pow (bitCount - 1)
  have htwo := two_pow_eq_two_mul hb
  split_ifs with hsmall
  · apply represent_eq_self hb
    unfold IsRepresented representedLo representedHi
    split_ifs with h1
    · rw [h1] at hq
      omega
    · omega
  · apply represent_eq hb _ (two_pow_dvd_sub_self _)
    unfold IsRepresented representedLo representedHi
    rw [if_neg (by omega), if_neg (by omega)]
    omega

namespace IntegerFacts

variable {facts : IntegerFacts} {v : ℤ}

/-! ### Raw bits -/

lemma asExactRawBits_eq (hf : facts.WellFormed) (hb : 0 < bitCount) (h64 : bitCount ≤ 64) :
    facts.asExactRawBits bitCount =
      if facts.isExact then some (facts.rangeLo % 2 ^ bitCount).toNat else none := by
  unfold asExactRawBits
  rw [if_neg (by omega), hf.asExactI64_eq]
  split_ifs
  · have hemod := toU64_emod h64 facts.rangeLo
    rw [Option.map_some, maskLowBitsU64_eq hb (toU64_lt _)]
    congr 1
    omega
  · rfl

variable {rawBits : ℕ} {x : ℤ}

lemma makeSignedRawBits_eq (hb : 0 < bitCount) (h64 : bitCount ≤ 64) (hraw : rawBits < 2 ^ 64) :
    makeSignedRawBits rawBits bitCount = exactI64 (Int.bmod rawBits (2 ^ bitCount)) := by
  rw [makeSignedRawBits, if_neg (by omega), signExtendRawBits_eq hb h64 hraw]

lemma isI64_bmod (hb : 0 < bitCount) (h64 : bitCount ≤ 64) (x : ℤ) :
    IsI64 (Int.bmod x (2 ^ bitCount)) := by
  have hmem := bmod_two_pow_mem hb x
  have hpow := two_pow_pred_le h64
  unfold IsI64
  omega

/-- An exact unsigned result, unless it is above the signed words. -/
lemma makeUnsignedRawBits_eq_some {result : IntegerFacts} (hb : 0 < bitCount)
    (hraw : rawBits < 2 ^ 64) (h : makeUnsignedRawBits rawBits bitCount = some result) :
    result = exactI64 ((rawBits % 2 ^ bitCount : ℕ) : ℤ) ∧ rawBits % 2 ^ bitCount < 2 ^ 63 := by
  unfold makeUnsignedRawBits at h
  dsimp only at h
  rw [maskLowBitsU64_eq hb hraw] at h
  split_ifs at h with h1 h2
  rw [toI64_of_lt (by omega)] at h
  exact ⟨(Option.some.inj h).symm, by omega⟩

/-! ### Divisors under reduction -/

section

variable (hf : facts.WellFormed) (hb : 0 < bitCount)
include hf hb

/-- The divisor kept by a reduction is a power of two that divides the modulus. -/
lemma wrapDivisor_spec : ∃ k ≤ bitCount, facts.wrapDivisor bitCount = 2 ^ k ∧ k ≤ 62 ∧
        (2 : ℤ) ^ k ∣ facts.knownDivisor := by
  obtain ⟨k, hk, heq, hdvd⟩ := exists_andI64_neg hf.one_le hf.knownDivisor
  unfold wrapDivisor
  rw [heq]
  split_ifs with h63
  · rcases Nat.le_total k bitCount with hle | hle
    · rw [min_eq_left (pow_le_pow_right₀ (by decide) hle)]
      exact ⟨k, hle, rfl, hk, hdvd⟩
    · rw [min_eq_right (pow_le_pow_right₀ (by decide) hle)]
      exact ⟨bitCount, le_rfl, rfl, by omega, (pow_dvd_pow 2 hle).trans hdvd⟩
  · exact ⟨k, by omega, rfl, hk, hdvd⟩

/-- It divides everything that has the same low bits as a described integer. -/
lemma wrapDivisor_dvd (h : facts.Admits v) {y : ℤ}
    (hy : (2 : ℤ) ^ bitCount ∣ y - v) : facts.wrapDivisor bitCount ∣ y := by
  obtain ⟨k, hk, heq, -, hdvd⟩ := wrapDivisor_spec hf hb
  rw [heq]
  exact two_pow_dvd_of_dvd_sub hk (hdvd.trans h.dvd) hy

lemma wrapDivisor_lt : facts.wrapDivisor bitCount < 2 ^ 63 := by
  obtain ⟨k, -, heq, hk, -⟩ := wrapDivisor_spec hf hb
  rw [heq]
  exact pow_lt_pow_right₀ (by decide) (by omega)

/-! ### Reduction to a signed width -/

omit hf hb in
/-- The domain of `wrap_integer`. -/
lemma wrapInteger_domain (bitCount : ℕ) :
    (if bitCount = 1 then (0 : ℤ)
      else -(if bitCount = 64 then 2 ^ 63 - 1 else 2 ^ (bitCount - 1) - 1) - 1) =
        representedLo bitCount ∧
      (if bitCount = 1 then (1 : ℤ)
        else if bitCount = 64 then 2 ^ 63 - 1 else 2 ^ (bitCount - 1) - 1) =
        representedHi bitCount := by
  unfold representedLo representedHi
  split_ifs with h1 h64
  · exact ⟨rfl, rfl⟩
  · rw [h64]
    exact ⟨rfl, rfl⟩
  · exact ⟨by omega, rfl⟩

omit hf hb in
lemma wrapEndpoint_eq (hb : 0 < bitCount) (h64 : bitCount ≤ 64) (x : ℤ) :
    wrapEndpoint x bitCount = represent bitCount x := by
  unfold wrapEndpoint represent
  split_ifs with h1
  · have hemod := toU64_emod (show 1 ≤ 64 by decide) x
    have hand : toU64 x &&& 1 = toU64 x % 2 ^ 1 := Nat.and_two_pow_sub_one_eq_mod _ 1
    rw [hand, toI64_of_lt (by omega), hemod]
    rfl
  · rw [signExtendRawBits_eq hb h64 (toU64_lt x), cast_toU64]
    have hdvd : ((2 ^ bitCount : ℕ) : ℤ) ∣ (2 : ℤ) ^ 64 := by
      rw [cast_two_pow]
      exact pow_dvd_pow 2 h64
    rw [← Int.emod_bmod, Int.emod_emod_of_dvd x hdvd, Int.emod_bmod]

omit hf hb in
/-- What `wrap_integer` computes, in terms of representations. -/
lemma wrapInteger_eq (hb : 0 < bitCount) (h64 : bitCount ≤ 64) : facts.wrapInteger bitCount =
    if facts.rangeLo ≥ representedLo bitCount ∧ facts.rangeHi ≤ representedHi bitCount ∧
        ¬(bitCount = 64 ∧ facts.isExact = false ∧
          (facts.rangeLo = -2 ^ 63 ∨ facts.rangeHi = 2 ^ 63 - 1)) then facts
    else if facts.isExact then exactI64 (represent bitCount facts.rangeLo)
    else if bitCount < 64 ∧ toU64 (facts.rangeHi - facts.rangeLo) < 2 ^ bitCount ∧
        represent bitCount facts.rangeLo ≤ represent bitCount facts.rangeHi then
      make (represent bitCount facts.rangeLo) (represent bitCount facts.rangeHi)
          (facts.wrapDivisor bitCount)
    else make (representedLo bitCount) (representedHi bitCount) (facts.wrapDivisor bitCount) := by
  unfold wrapInteger
  dsimp only
  rw [(wrapInteger_domain bitCount).1, (wrapInteger_domain bitCount).2, wrapEndpoint_eq hb h64,
    wrapEndpoint_eq hb h64]

lemma wrapInteger_wellFormed (h64 : bitCount ≤ 64) : (facts.wrapInteger bitCount).WellFormed := by
  have hlt := wrapDivisor_lt hf hb
  have hrep : ∀ x, IsI64 (represent bitCount x) := fun x =>
      isI64_represented h64 (represent_spec hb x).1
  rw [wrapInteger_eq hb h64]
  split_ifs
  · exact hf
  · exact exactI64_wellFormed (hrep _)
  · exact make_wellFormed (hrep _) (hrep _) hlt
  · exact make_wellFormed (isI64_representedLo h64) (isI64_representedHi h64) hlt

omit hf hb in
/-- The length of the range as an unsigned word. -/
lemma cast_toU64_span (hf : facts.WellFormed) (hle : facts.rangeLo ≤ facts.rangeHi) :
    (toU64 (facts.rangeHi - facts.rangeLo) : ℤ) = facts.rangeHi - facts.rangeLo := by
  have hlo := hf.rangeLo.1
  have hhi := hf.rangeHi.2
  rw [cast_toU64, Int.emod_eq_of_lt] <;> omega

omit hf hb in
/-- A short range is not the whole range. -/
lemma WellFormed.inRange_of_span (hf : facts.WellFormed)
    (hspan : toU64 (facts.rangeHi - facts.rangeLo) < 2 ^ bitCount) (hb : bitCount < 64)
    (h : facts.Admits v) : facts.rangeLo ≤ v ∧ v ≤ facts.rangeHi := by
  refine h.inRange.resolve_left fun hwhole => ?_
  have hlen := cast_toU64_span hf (by rw [hwhole.1, hwhole.2]; omega)
  have hpow : (2 : ℕ) ^ bitCount < 2 ^ 64 := Nat.pow_lt_pow_right (by decide) hb
  rw [hwhole.1, hwhole.2] at hlen hspan
  omega

/-- Reduction keeps every described integer, also one outside of the words. -/
lemma wrapInteger_admits (h64 : bitCount ≤ 64)
    (h : facts.Admits v) : (facts.wrapInteger bitCount).Admits (represent bitCount v) := by
  obtain ⟨hmem, hdvd⟩ := represent_spec hb v
  have hdiv := wrapDivisor_dvd hf hb h hdvd
  rw [wrapInteger_eq hb h64]
  split_ifs with hid hexact hspan
  · -- the range fits, and it is not the whole range
    have hv : facts.rangeLo ≤ v ∧ v ≤ facts.rangeHi := by
      refine h.inRange.resolve_left fun hwhole => hid.2.2 ?_
      have hb64 : bitCount = 64 := by
        have hlo := hid.1
        rw [hwhole.1] at hlo
        by_contra hne
        have hpow : (2 : ℤ) ^ (bitCount - 1) < 2 ^ 63 := pow_lt_pow_right₀ (by decide) (by omega)
        unfold representedLo at hlo
        split_ifs at hlo <;> omega
      refine ⟨hb64, ?_, Or.inl hwhole.1⟩
      rw [isExact, Bool.eq_false_iff]
      intro hexact
      have hends := hf.exact_iff.mp hexact
      rw [hwhole.1, hwhole.2] at hends
      omega
    rwa [represent_eq_self hb ⟨by omega, by omega⟩]
  · rw [hf.eq_rangeLo_of_exact hexact h]
    exact exactI64_admits (isI64_represented h64 (represent_spec hb _).1)
  · obtain ⟨hlt64, hspan, hord⟩ := hspan
    have hv := hf.inRange_of_span hspan hlt64 h
    have hlen := cast_toU64_span hf (hv.1.trans hv.2)
    have hcast := cast_two_pow bitCount
    obtain ⟨hmemLo, hdvdLo⟩ := represent_spec hb facts.rangeLo
    obtain ⟨hmemHi, hdvdHi⟩ := represent_spec hb facts.rangeHi
    have hkeep := mem_of_representatives (hmemLo.window hb) (hmem.window hb) (hmemHi.window hb)
      hdvdLo hdvd hdvdHi hv.1 hv.2 (by omega) hord
    exact make_admits (isI64_represented h64 hmemLo) hkeep.1 hkeep.2 hdiv
  · exact make_admits (isI64_representedLo h64) hmem.1 hmem.2 hdiv

end

/-! ### Reduction to an unsigned width -/

lemma fitUnsignedBitCount_bounds (hf : facts.WellFormed)
    (hfit : facts.fitUnsignedBitCount bitCount = true) (hlo : facts.rangeLo ≤ x)
    (hhi : x ≤ facts.rangeHi) : 0 ≤ x ∧ x < 2 ^ bitCount := by
  have hhi64 := hf.rangeHi.2
  have hcast := cast_two_pow bitCount
  unfold fitUnsignedBitCount at hfit
  split_ifs at hfit with h1 h2
  · have hpow : (2 : ℤ) ^ 63 ≤ 2 ^ bitCount := pow_le_pow_right₀ (by decide) h2
    omega
  have hle := of_decide_eq_true hfit
  have hword := cast_toU64_of_nonneg (by omega) hf.rangeHi
  have hpos := Nat.two_pow_pos bitCount
  omega

/-- The whole range is not kept by an unsigned reduction. -/
lemma not_fitUnsignedBitCount (hwhole : facts.Unbounded) :
    facts.fitUnsignedBitCount bitCount = false := by
  unfold fitUnsignedBitCount
  rw [if_pos]
  rw [hwhole.1]
  exact Or.inr (Or.inr (by decide))

/-- The greatest unsigned value of a width that is a signed word. -/
def unsignedHi (bitCount : ℕ) : ℤ := if bitCount ≥ 63 then 2 ^ 63 - 1 else 2 ^ bitCount - 1

lemma le_unsignedHi (hx : x < 2 ^ bitCount) (hx64 : x < 2 ^ 63) : x ≤ unsignedHi bitCount := by
  unfold unsignedHi
  split_ifs <;> omega

lemma isI64_zero : IsI64 0 := by decide

lemma isI64_emod (hb : bitCount ≤ 63) (x : ℤ) : IsI64 (x % 2 ^ bitCount) := by
  have hpos := two_pow_pos bitCount
  have hpow : (2 : ℤ) ^ bitCount ≤ 2 ^ 63 := pow_le_pow_right₀ (by decide) hb
  exact ⟨by omega, by omega⟩

lemma toI64_toU64_mask (hb : bitCount ≤ 63) (x : ℤ) :
    toI64 (toU64 x &&& (2 ^ bitCount - 1)) = x % 2 ^ bitCount := by
  have hemod := toU64_emod (show bitCount ≤ 64 by omega) x
  have hlt := (isI64_emod hb x).2
  rw [Nat.and_two_pow_sub_one_eq_mod, toI64_of_lt (by omega), hemod]

/-- What `wrap_unsigned_integer` computes, in terms of remainders. -/
lemma wrapUnsignedInteger_eq (h64 : bitCount ≤ 64) : facts.wrapUnsignedInteger bitCount =
    if facts.unsignedWrapIsIdentity bitCount then facts
    else if bitCount = 64 ∨ bitCount ≥ 63 ∧ facts.isExact = false ∧
        (facts.rangeLo = -2 ^ 63 ∨ facts.rangeHi = 2 ^ 63 - 1) then
      make 0 (unsignedHi bitCount) (facts.wrapDivisor bitCount)
    else if facts.isExact then exactI64 (facts.rangeLo % 2 ^ bitCount)
    else if toU64 (facts.rangeHi - facts.rangeLo) < 2 ^ bitCount ∧
        facts.rangeLo % 2 ^ bitCount ≤ facts.rangeHi % 2 ^ bitCount then
      make (facts.rangeLo % 2 ^ bitCount) (facts.rangeHi % 2 ^ bitCount)
      (facts.wrapDivisor bitCount)
    else make 0 (unsignedHi bitCount) (facts.wrapDivisor bitCount) := by
  unfold wrapUnsignedInteger
  rw [← unsignedHi]
  by_cases hb : bitCount = 64
  · rw [hb]
    simp only [true_or, if_true]
    split_ifs <;> rfl
  have hord : toU64 facts.rangeLo &&& (2 ^ bitCount - 1) ≤
      toU64 facts.rangeHi &&& (2 ^ bitCount - 1) ↔
      facts.rangeLo % 2 ^ bitCount ≤ facts.rangeHi % 2 ^ bitCount := by
    rw [Nat.and_two_pow_sub_one_eq_mod, Nat.and_two_pow_sub_one_eq_mod, ← toU64_emod h64,
        ← toU64_emod h64]
    exact Int.ofNat_le.symm
  simp only [hb, if_false, false_or, toI64_toU64_mask (show bitCount ≤ 63 by omega), hord]

/-- The unsigned reduction keeps every described integer whose reduction is a signed word. -/
lemma wrapUnsignedInteger_admits (hf : facts.WellFormed) (hb : 0 < bitCount) (h64 : bitCount ≤ 64)
    (h : facts.Admits v) (hlt : v % 2 ^ bitCount < 2 ^ 63) :
    (facts.wrapUnsignedInteger bitCount).Admits (v % 2 ^ bitCount) := by
  have hpos := two_pow_pos bitCount
  have hnonneg : ∀ x, 0 ≤ x % (2 : ℤ) ^ bitCount := fun x => Int.emod_nonneg x hpos.ne'
  have hmod : ∀ x, x % (2 : ℤ) ^ bitCount < 0 + 2 ^ bitCount := fun x => by
    rw [Int.zero_add]
    exact Int.emod_lt_of_pos x hpos
  have hdiv := wrapDivisor_dvd hf hb h Int.dvd_emod_sub_self
  have hdomain : (make 0 (unsignedHi bitCount) (facts.wrapDivisor bitCount)).Admits
      (v % 2 ^ bitCount) :=
    make_admits isI64_zero (hnonneg v) (le_unsignedHi (Int.emod_lt_of_pos v hpos) hlt) hdiv
  rw [wrapUnsignedInteger_eq h64]
  split_ifs with hid hsat hexact hspan
  · have hfit := (Bool.and_eq_true_iff.mp hid).1
    have hv : facts.rangeLo ≤ v ∧ v ≤ facts.rangeHi := by
      refine h.inRange.resolve_left fun hwhole => ?_
      rw [not_fitUnsignedBitCount hwhole] at hfit
      cases hfit
    have hbounds := fitUnsignedBitCount_bounds hf hfit hv.1 hv.2
    rwa [Int.emod_eq_of_lt hbounds.1 hbounds.2]
  · exact hdomain
  · rw [hf.eq_rangeLo_of_exact hexact h]
    exact exactI64_admits (isI64_emod (by omega) _)
  · have hv := hf.inRange_of_span hspan.1 (by omega) h
    have hlen := cast_toU64_span hf (hv.1.trans hv.2)
    have hcast := cast_two_pow bitCount
    have hkeep := mem_of_representatives ⟨hnonneg _, hmod _⟩ ⟨hnonneg _, hmod _⟩ ⟨hnonneg _, hmod _⟩
      Int.dvd_emod_sub_self Int.dvd_emod_sub_self Int.dvd_emod_sub_self
      hv.1 hv.2 (by omega) hspan.2
    exact make_admits (isI64_emod (by omega) _) hkeep.1 hkeep.2 hdiv
  · exact hdomain

/-! ### Extensions -/

lemma signExtend_admits (hf : facts.WellFormed) (hb : 0 < bitCount) (hv : IsRepresented bitCount v)
    (h : facts.Admits v) : (facts.signExtend bitCount).Admits (Int.bmod v (2 ^ bitCount)) := by
  unfold signExtend
  split_ifs with h1
  · obtain ⟨hlo, hhi⟩ := hv
    rw [representedLo, if_neg h1] at hlo
    rw [representedHi, if_neg h1] at hhi
    rwa [bmod_two_pow_eq_self hb hlo (by omega)]
  have hone : bitCount = 1 := not_not.mp h1
  rw [hone, asExactRawBits_eq hf (by decide) (by decide)]
  by_cases hexact : facts.isExact = true
  · have hemod := Int.emod_nonneg facts.rangeLo (show (2 : ℤ) ^ 1 ≠ 0 by decide)
    rw [if_pos hexact]
    dsimp only
    rw [makeSignedRawBits_eq (by decide) (by decide) (by omega), Int.toNat_of_nonneg hemod,
      hf.eq_rangeLo_of_exact hexact h]
    have hbmod : Int.bmod (facts.rangeLo % 2 ^ 1) (2 ^ 1) = Int.bmod facts.rangeLo (2 ^ 1) :=
      Int.emod_bmod _ _
    rw [hbmod]
    exact exactI64_admits (isI64_bmod (by decide) (by decide) _)
  · rw [if_neg hexact]
    have hmem := bmod_two_pow_mem (w := 1) (by decide) v
    exact make_admits ⟨by decide, by decide⟩ hmem.1 (by omega) (Int.one_dvd _)

lemma declaredDomain_eq (hb : 0 < bitCount) (h64 : bitCount ≤ 64) :
    declaredDomain bitCount = make (representedLo bitCount) (representedHi bitCount) 1 := by
  unfold declaredDomain representedLo representedHi makeSignedBitCountRange
  split_ifs with h1 h2 h3
  · rfl
  · omega
  · rw [h3]
  · rfl

lemma declaredDomain_range (hb : 0 < bitCount) (h64 : bitCount ≤ 64) :
    (declaredDomain bitCount).rangeLo = representedLo bitCount ∧
      (declaredDomain bitCount).rangeHi = representedHi bitCount := by
  have hzero := zero_isRepresented hb
  rw [declaredDomain_eq hb h64]
  exact make_range 1 (hzero.1.trans hzero.2)

lemma zeroExtendRange_admits (hf : facts.WellFormed) (hb : 0 < bitCount) (h62 : bitCount ≤ 62)
    (hv : IsRepresented bitCount v) (h : facts.Admits v) :
    (facts.zeroExtendRange bitCount).Admits (v % 2 ^ bitCount) := by
  have hv64 := isI64_represented (by omega) hv
  have hpow : (2 : ℤ) ^ bitCount < 2 ^ 63 := pow_lt_pow_right₀ (by decide) (by omega)
  have hhalf := two_pow_eq_two_mul hb
  obtain ⟨hrepLo, hrepLo'⟩ := representedLo_le_zero bitCount
  have hrepHi := representedHi_eq hb
  obtain ⟨hvlo, hvhi⟩ := hv
  obtain ⟨hle, hge⟩ := h.bounds hv64
  obtain ⟨hclamp, hlo, hhi, hdvd⟩ :=
    clampDomain_admits hf (isI64_representedLo (by omega)) hvlo hvhi hv64 h
  unfold zeroExtendRange
  dsimp only
  rw [(declaredDomain_range hb (by omega)).1, (declaredDomain_range hb (by omega)).2]
  split_ifs with hnonneg hneg
  · rwa [Int.emod_eq_of_lt (by omega) (by omega)]
  · -- every described integer is negative, and the extension adds the modulus
    rw [emod_add_of_neg (by omega) (by omega)]
    apply make_admits
    · exact ⟨by omega, by omega⟩
    · omega
    · omega
    · apply Int.dvd_add
      · exact (Int.gcd_dvd_left ..).trans hdvd
      · exact Int.gcd_dvd_right ..
  · have hpos := two_pow_pos bitCount
    exact make_admits isI64_zero (Int.emod_nonneg v hpos.ne') (by omega) (Int.one_dvd _)

lemma zeroExtend_admits (hf : facts.WellFormed) (hv : IsRepresented bitCount v)
    (h : facts.Admits v) : (facts.zeroExtend bitCount).Admits (v % 2 ^ bitCount) := by
  unfold zeroExtend isFloat
  rw [hf.not_float]
  by_cases hout : bitCount = 0 ∨ bitCount ≥ 63 ∨ false = true
  · rw [if_pos hout]
    exact unknown_admits _
  rw [if_neg hout]
  have hb : 0 < bitCount := by omega
  have h62 : bitCount ≤ 62 := by omega
  rw [asExactRawBits_eq hf hb (by omega)]
  by_cases hexact : facts.isExact = true
  · rw [if_pos hexact, hf.eq_rangeLo_of_exact hexact h]
    have hpow : (2 : ℤ) ^ bitCount < 2 ^ 63 := pow_lt_pow_right₀ (by decide) (by omega)
    have hpos := two_pow_pos bitCount
    have hnonneg := Int.emod_nonneg facts.rangeLo hpos.ne'
    have hcast := cast_two_pow bitCount
    dsimp only
    unfold makeUnsignedRawBits
    rw [if_neg (by omega), maskLowBitsU64_eq hb (by omega), Nat.mod_eq_of_lt (by omega),
        if_neg (by omega),
      Option.getD_some, toI64_of_lt (by omega), Int.toNat_of_nonneg hnonneg]
    exact exactI64_admits (isI64_emod (by omega) _)
  · rw [if_neg hexact]
    exact zeroExtendRange_admits hf hb h62 hv h

end IntegerFacts

end Hrx.Facts
