import Hrx.Facts.Equiv.Admits
import Hrx.LoopDomain.Equiv.TripCount
import Hrx.LoopDomain.Recurrence
import Mathlib.Tactic.Ring

/-!
# Additive recurrences

When `additiveRecurrenceFacts` succeeds, its ranges admit `i + k * step` for every admitted initial
value `i`: at every header, at every body entry and at the exit.
-/

namespace Hrx.LoopDomain

open ComparisonOrder Facts Int64 ValueFacts

/-! ### Ranks of signed words -/

/-- Flipping the sign bit gives the rank of a signed word. -/
lemma toNat_signedRank (value : Int64) :
    ((value.toUInt64 ^^^ signBit 64).toNat : ℤ) = value.toInt + 2 ^ 63 := by
  have hrank := toNat_rank (w := 64) (by decide) (by decide) ⟨true, false, false⟩ value.toUInt64
  have hmask : value.toUInt64 &&& mask 64 = value.toUInt64 := by
    rw [← UInt64.toNat_inj, UInt64.toNat_and, toNat_mask (by decide) (by decide),
      Nat.and_two_pow_sub_one_eq_mod, Nat.mod_eq_of_lt value.toUInt64.toNat_lt]
  have horder : orderMask ⟨true, false, false⟩ 64 = signBit 64 := by decide
  have hle := le_toInt value
  have hcarrier : carrier 64 value.toUInt64 = value.toBitVec := BitVec.setWidth_eq _
  have hint : value.toBitVec.toInt = value.toInt := rfl
  rw [hmask, horder, hcarrier, ordinal, if_neg Bool.false_ne_true, position, if_pos rfl,
    hint] at hrank
  omega

lemma toInt_valueFromRank (rank : UInt64) : (valueFromRank rank).toInt = rank.toNat - 2 ^ 63 := by
  have hsign : (signBit 64).toNat = 2 ^ 63 := by decide
  have hlt := rank.toNat_lt
  simp only [valueFromRank]
  split_ifs with h
  · rw [ge_iff_le, UInt64.le_iff_toNat_le, hsign] at h
    rw [toInt_toInt64, toNat_sub_eq (hsign ▸ h), hsign,
      if_pos (by omega)]
    omega
  · rw [ge_iff_le, UInt64.le_iff_toNat_le, hsign, Nat.not_le] at h
    have hrank : rank.toInt64.toInt = rank.toNat := by rw [toInt_toInt64, if_pos h]
    have hmin : Int64.minValue.toInt = -2 ^ 63 := by decide
    rw [toInt_add_of_range] <;> omega

/-! ### Divisors -/

lemma toNat_knownDivisor (facts : ValueFacts) :
    (facts.knownDivisor.toUInt64.toNat : ℤ) = facts.knownDivisor.toInt := by
  have hone := le_iff_toInt_le.mp facts.one_le_knownDivisor
  have hword := toInt_eq facts.knownDivisor
  have hlt := facts.knownDivisor.toUInt64.toNat_lt
  rw [toInt_one] at hone
  split_ifs at hword <;> omega

/-- The divisor of a recurrence divides the initial value and the magnitude of the step. -/
lemma recurrenceDivisor_dvd {initialValues : ValueFacts} {i : ℤ} (hi : initialValues.Admits i)
    (magnitude : UInt64) : (recurrenceDivisor initialValues magnitude).toInt ∣ i ∧
      (recurrenceDivisor initialValues magnitude).toInt ∣ magnitude.toNat := by
  simp only [recurrenceDivisor]
  obtain ⟨d, hd, hdvd⟩ : ∃ d, d = (if initialValues.isExact then magnitudeI64 initialValues.rangeLo
      else initialValues.knownDivisor.toUInt64) ∧ (d.toNat : ℤ) ∣ i := by
    refine ⟨_, rfl, ?_⟩
    split_ifs with hexact
    · rw [toNat_magnitudeI64, eq_of_isExact hexact hi.inRange]
      exact Int.natAbs_dvd.mpr (Int.dvd_refl _)
    · rw [toNat_knownDivisor]
      exact hi.dvd
  rw [← hd]
  split_ifs with hmax
  · exact ⟨Int.one_dvd _, Int.one_dvd _⟩
  have hmaxNat : Int64.maxValue.toUInt64.toNat = 2 ^ 63 - 1 := by decide
  rw [gt_iff_lt, UInt64.lt_iff_toNat_lt, hmaxNat] at hmax
  rw [toInt_toInt64, if_pos (by omega), toNat_gcdU64]
  exact ⟨(Int.natCast_dvd_natCast.mpr (Nat.gcd_dvd_left _ _)).trans hdvd,
    Int.natCast_dvd_natCast.mpr (Nat.gcd_dvd_right _ _)⟩

/-! ### The recurrence -/

/-- What the facts say about the additive sequence from `i`. -/
structure RecurrenceFacts.AdmitsSequence (facts : RecurrenceFacts) (i step : ℤ) (n : ℕ) : Prop where
  values : ∀ k ≤ n, facts.values.Admits (i + k * step)
  bodyValues : ∀ k < n, facts.bodyValues.Admits (i + k * step)
  exitValue : facts.exitValue.Admits (i + n * step)

/-- Made facts admit what the facts they are made from admit. -/
lemma make_self_admits {facts : ValueFacts} {v : ℤ} (hv : facts.Admits v) :
    (make facts.rangeLo facts.rangeHi facts.knownDivisor).Admits v :=
  make_admits hv.inRange.1 hv.inRange.2 hv.dvd

/-- The supplied count remains known. -/
lemma additiveRecurrenceFacts_count (initialValues : ValueFacts) (step : Int64)
    (tripCount : UInt64) :
    (additiveRecurrenceFacts initialValues step tripCount).2.tripCount = tripCount ∧
      (additiveRecurrenceFacts initialValues step tripCount).2.tripCountKind = .exact := by
  simp only [additiveRecurrenceFacts]
  split_ifs <;> exact ⟨rfl, rfl⟩

section moving

variable {initial : ValueFacts} {i d : ℤ} {step : Int64} {m tripCount : UInt64}
  (hm : m.toNat = step.toInt.natAbs)
include hm

lemma dvd_add_steps (k : ℕ) (hd : d ∣ i) (hkm : d ∣ (k * m.toNat : ℕ)) :
    d ∣ i + k * step.toInt := by
  refine Int.dvd_add hd ?_
  rw [← Int.dvd_natAbs, Int.natAbs_mul, Int.natAbs_natCast, ← hm]
  exact hkm

variable (hi : initial.Admits i)
include hi

lemma recurrenceDivisor_dvd_add_steps (k : ℕ) :
    (recurrenceDivisor initial m).toInt ∣ i + k * step.toInt := by
  obtain ⟨hdi, hdm⟩ := recurrenceDivisor_dvd hi m
  refine dvd_add_steps hm k hdi ?_
  rw [Int.natCast_mul]
  exact Int.dvd_mul_of_dvd_right hdm

lemma bodyDivisor_dvd_add_steps {k : ℕ} (hk : k < tripCount.toNat) :
    (if tripCount = 1 then initial.knownDivisor else recurrenceDivisor initial m).toInt ∣
      i + k * step.toInt := by
  split_ifs with hone
  · rw [hone, UInt64.toNat_one, Nat.lt_one_iff] at hk
    rw [hk, Int.natCast_zero, Int.zero_mul, Int.add_zero]
    exact hi.dvd
  · exact recurrenceDivisor_dvd_add_steps hm hi k

lemma exitDivisor_dvd_add_steps
    (hdistance : (tripCount * m).toNat = tripCount.toNat * m.toNat) :
    (gcdU64 initial.knownDivisor.toUInt64 (tripCount * m)).toInt64.toInt ∣
      i + tripCount.toNat * step.toInt := by
  have hknown := toNat_knownDivisor initial
  have hone := le_iff_toInt_le.mp initial.one_le_knownDivisor
  have hlt := toInt_lt initial.knownDivisor
  rw [toInt_one] at hone
  have hgcd := Nat.gcd_le_left (tripCount.toNat * m.toNat)
    (show 0 < initial.knownDivisor.toUInt64.toNat by omega)
  rw [toInt_toInt64, toNat_gcdU64, hdistance, if_pos (by omega)]
  refine dvd_add_steps hm _ (Int.dvd_trans ?_ hi.dvd)
    (Int.natCast_dvd_natCast.mpr (Nat.gcd_dvd_right _ _))
  rw [← hknown]
  exact Int.natCast_dvd_natCast.mpr (Nat.gcd_dvd_left _ _)

end moving

lemma additiveRecurrenceFacts_admits {initialValues : ValueFacts} {i : ℤ}
    (hi : initialValues.Admits i) (step : Int64) (tripCount : UInt64)
    (h : (additiveRecurrenceFacts initialValues step tripCount).1 = true) :
    (additiveRecurrenceFacts initialValues step tripCount).2.AdmitsSequence i step.toInt
      tripCount.toNat := by
  have hmade := make_self_admits hi
  simp only [additiveRecurrenceFacts] at h ⊢
  generalize make initialValues.rangeLo initialValues.rangeHi initialValues.knownDivisor = initial
    at *
  by_cases h0 : tripCount = 0 ∨ step = 0
  · -- nothing moves
    rw [if_pos h0]
    have hzero : ∀ k ≤ tripCount.toNat, (k : ℤ) * step.toInt = 0 := by
      intro k hk
      rcases h0 with h0 | h0
      · rw [h0, UInt64.toNat_zero, Nat.le_zero] at hk
        rw [hk, Int.natCast_zero, Int.zero_mul]
      · rw [h0, toInt_zero, Int.mul_zero]
    refine ⟨fun k hk => ?_, fun k hk => ?_, ?_⟩
    · rwa [hzero k hk, Int.add_zero]
    · have hne : tripCount ≠ 0 := fun h => by
        rw [h] at hk
        exact Nat.not_lt_zero k hk
      rw [hzero k hk.le, Int.add_zero]
      simpa only [if_pos hne] using hmade
    · rwa [hzero _ le_rfl, Int.add_zero]
  rw [if_neg h0] at h ⊢
  rw [not_or] at h0
  generalize hm : magnitudeI64 step = m at h ⊢
  by_cases hroom : tripCount > (if step > 0 then
      0xFFFFFFFFFFFFFFFF - (initial.rangeHi.toUInt64 ^^^ signBit 64)
      else initial.rangeLo.toUInt64 ^^^ signBit 64) / m
  · rw [if_pos hroom] at h
    exact absurd h Bool.false_ne_true
  rw [if_neg hroom]
  have hmag : m.toNat = step.toInt.natAbs := hm ▸ toNat_magnitudeI64 step
  have hne : step.toInt ≠ 0 := fun hz => h0.2 (toInt_inj.mp hz)
  rw [gt_iff_lt, UInt64.lt_iff_toNat_lt, UInt64.toNat_div, Nat.not_lt,
    Nat.le_div_iff_mul_le (by omega)] at hroom
  have hdistance : (tripCount * m).toNat = tripCount.toNat * m.toNat := by
    rw [UInt64.toNat_mul, Nat.mod_eq_of_lt (hroom.trans_lt (UInt64.toNat_lt _))]
  have hvaluesDvd := recurrenceDivisor_dvd_add_steps hmag hmade
  have hbodyDvd := fun k (hk : k < tripCount.toNat) => bodyDivisor_dvd_add_steps hmag hmade hk
  have hexitDvd := exitDivisor_dvd_add_steps hmag hmade hdistance
  -- the ranges, over ranks that do not overflow
  have hlo := toNat_signedRank initial.rangeLo
  have hhi := toNat_signedRank initial.rangeHi
  obtain ⟨hle, hge⟩ := hmade.inRange
  have hmoves : ∀ k ≤ tripCount.toNat, k * m.toNat ≤ tripCount.toNat * m.toNat := fun k hk =>
    Nat.mul_le_mul_right _ hk
  have hbodyMoves : ∀ k < tripCount.toNat, k * m.toNat + m.toNat ≤ tripCount.toNat * m.toNat := by
    intro k hk
    rw [← Nat.succ_mul]
    exact Nat.mul_le_mul_right _ hk
  have hlast := hbodyMoves 0 (Nat.pos_of_ne_zero fun hz => h0.1 (UInt64.toNat_inj.mp hz))
  have hhiLt := (initial.rangeHi.toUInt64 ^^^ signBit 64).toNat_lt
  by_cases hs : step > 0
  · have hstep : ∀ k : ℕ, (k : ℤ) * step.toInt = (k * m.toNat : ℕ) := by
      intro k
      rw [gt_iff_lt, lt_iff_toInt_lt, toInt_zero] at hs
      rw [hmag, Int.natCast_mul, Int.natAbs_of_nonneg hs.le]
    have hmax : (0xFFFFFFFFFFFFFFFF : UInt64).toNat = 2 ^ 64 - 1 := rfl
    simp only [if_pos hs] at hroom ⊢
    rw [toNat_sub_eq (by omega), hmax] at hroom
    generalize initial.rangeLo.toUInt64 ^^^ signBit 64 = loRank at *
    generalize initial.rangeHi.toUInt64 ^^^ signBit 64 = hiRank at *
    have hexitLo : (loRank + tripCount * m).toNat = loRank.toNat + tripCount.toNat * m.toNat := by
      rw [UInt64.toNat_add, hdistance, Nat.mod_eq_of_lt (by omega)]
    have hexitHi : (hiRank + tripCount * m).toNat = hiRank.toNat + tripCount.toNat * m.toNat := by
      rw [UInt64.toNat_add, hdistance, Nat.mod_eq_of_lt (by omega)]
    have hlastHi := toNat_sub_eq (a := hiRank + tripCount * m) (b := m) (by omega)
    refine ⟨fun k hk => ?_, fun k hk => ?_, ?_⟩
    · have := hmoves k hk
      apply make_admits _ _ (hvaluesDvd k) <;>
        simp only [hstep, toInt_valueFromRank, hexitHi] <;> omega
    · have := hbodyMoves k hk
      apply make_admits _ _ (hbodyDvd k hk) <;>
        simp only [hstep, toInt_valueFromRank, hlastHi, hexitHi] <;> omega
    · apply make_admits _ _ hexitDvd <;>
        simp only [hstep, toInt_valueFromRank, hexitLo, hexitHi] <;> omega
  · have hstep : ∀ k : ℕ, (k : ℤ) * step.toInt = -(k * m.toNat : ℕ) := by
      intro k
      rw [gt_iff_lt, lt_iff_toInt_lt, toInt_zero, Int.not_lt] at hs
      rw [hmag, Int.natCast_mul, Int.ofNat_natAbs_of_nonpos hs, Int.mul_neg, Int.neg_neg]
    simp only [if_neg hs] at hroom ⊢
    generalize initial.rangeLo.toUInt64 ^^^ signBit 64 = loRank at *
    generalize initial.rangeHi.toUInt64 ^^^ signBit 64 = hiRank at *
    have hexitLo : (loRank - tripCount * m).toNat = loRank.toNat - tripCount.toNat * m.toNat := by
      rw [toNat_sub_eq (by omega), hdistance]
    have hexitHi : (hiRank - tripCount * m).toNat = hiRank.toNat - tripCount.toNat * m.toNat := by
      rw [toNat_sub_eq (by omega), hdistance]
    have hlastLo : (loRank - tripCount * m + m).toNat =
        loRank.toNat - tripCount.toNat * m.toNat + m.toNat := by
      rw [UInt64.toNat_add, hexitLo, Nat.mod_eq_of_lt (by omega)]
    refine ⟨fun k hk => ?_, fun k hk => ?_, ?_⟩
    · have := hmoves k hk
      apply make_admits _ _ (hvaluesDvd k) <;>
        simp only [hstep, toInt_valueFromRank, hexitLo] <;> omega
    · have := hbodyMoves k hk
      apply make_admits _ _ (hbodyDvd k hk) <;>
        simp only [hstep, toInt_valueFromRank, hlastLo] <;> omega
    · apply make_admits _ _ hexitDvd <;>
        simp only [hstep, toInt_valueFromRank, hexitLo, hexitHi] <;> omega

end Hrx.LoopDomain
