import Hrx.Facts.Equiv.Division
import Hrx.Lib.RoundedQuotient

/-!
# Preimages of quotients

A quotient and its divisor, each known up to an interval, bound the dividend.  Every kind of
quotient is a rounded quotient by a positive divisor, of the raw bits or of the signed value,
negated when the divisor is negative; the bounds are those of `RoundedQuotient`, computed with
magnitudes that saturate.
-/

namespace Hrx.Facts

open QuotientRounding RoundedQuotient TwosComplement

/-! ### Rounding -/

namespace QuotientRounding

/-- The quotients of a rounding by a positive divisor. -/
def Rounds (rounding : QuotientRounding) (n d q : ℤ) : Prop :=
  match rounding with
  | floor => Floors n d q
  | ceil => Ceils n d q
  | zero => Truncates n d q

/-- The least dividend of a quotient. -/
def lowerEnd (rounding : QuotientRounding) (q d : ℤ) : ℤ :=
  match rounding with
  | floor => q * d
  | ceil => q * d - (d - 1)
  | zero => if q ≤ 0 then q * d - (d - 1) else q * d

/-- The greatest dividend of a quotient. -/
def upperEnd (rounding : QuotientRounding) (q d : ℤ) : ℤ :=
  match rounding with
  | floor => q * d + (d - 1)
  | ceil => q * d
  | zero => if q < 0 then q * d else q * d + (d - 1)

variable {rounding : QuotientRounding} {n d q a b lo hi : ℤ}

lemma Rounds.ge (h : rounding.Rounds n d q) (hlo : lo ≤ q) (ha : a ≤ d) (hb : d ≤ b) (hd : 0 < d) :
    rounding.lowerEnd lo (if lo ≤ 0 then b else a) ≤ n := by
  cases rounding with
  | floor => exact Floors.ge h hlo ha hb hd.le
  | ceil => exact Ceils.ge h hlo ha hb hd.le
  | zero =>
    have hge := Truncates.ge h hlo ha hb hd
    unfold lowerEnd
    split_ifs at hge ⊢ <;> exact hge

lemma Rounds.le (h : rounding.Rounds n d q) (hhi : q ≤ hi) (ha : a ≤ d) (hb : d ≤ b) (hd : 0 < d) :
    n ≤ rounding.upperEnd hi (if hi < 0 then a else b) := by
  cases rounding with
  | floor => exact Floors.le h hhi ha hb hd.le
  | ceil => exact Ceils.le h hhi ha hb hd.le
  | zero =>
    have hle := Truncates.le h hhi ha hb hd
    unfold upperEnd
    split_ifs at hle ⊢ <;> exact hle

lemma Rounds.near (h : rounding.Rounds n d q) : Near n d q := by
  cases rounding with
  | floor => exact Floors.near h
  | ceil => exact Ceils.near h
  | zero => exact Truncates.near h

end QuotientRounding

/-! ### Signed values -/

lemma isRepresented_iff_signedValue (bitCount : ℕ) (v : ℤ) :
    IsRepresented bitCount v ↔ -2 ^ (bitCount - 1) ≤ signedValue bitCount v ∧
      signedValue bitCount v ≤ 2 ^ (bitCount - 1) - 1 := by
  unfold IsRepresented representedLo representedHi signedValue
  split_ifs with h1
  · rw [h1]
    omega
  · rfl

lemma signedValue_signedValue (bitCount : ℕ) (v : ℤ) :
    signedValue bitCount (signedValue bitCount v) = v := by
  unfold signedValue
  split_ifs <;> omega

/-! ### Saturating arithmetic -/

lemma saturatingAddU64_eq {lhs rhs : ℕ} (h : rhs < 2 ^ 64) :
    saturatingAddU64 lhs rhs = min (lhs + rhs) (2 ^ 64 - 1) := by
  unfold saturatingAddU64
  split_ifs <;> omega

lemma saturatingMulU64_eq (lhs rhs : ℕ) :
    saturatingMulU64 lhs rhs = min (lhs * rhs) (2 ^ 64 - 1) := by
  unfold saturatingMulU64
  split_ifs with hzero hlarge
  · rcases hzero with rfl | rfl
    · rw [Nat.zero_mul, Nat.zero_min]
    · rw [Nat.mul_zero, Nat.zero_min]
  · rw [gt_iff_lt, Nat.div_lt_iff_lt_mul (by omega)] at hlarge
    omega
  · rw [gt_iff_lt, Nat.div_lt_iff_lt_mul (by omega)] at hlarge
    omega

def SignedMagnitude.value (quotient : SignedMagnitude) : ℤ :=
  if quotient.negative then -quotient.magnitude else quotient.magnitude

lemma SignedMagnitude.value_nonpos_iff (quotient : SignedMagnitude) :
    quotient.value ≤ 0 ↔ quotient.negative = true ∨ quotient.magnitude = 0 := by
  unfold value
  cases quotient.negative <;> simp

lemma SignedMagnitude.value_neg_iff (quotient : SignedMagnitude) :
    quotient.value < 0 ↔ quotient.negative = true ∧ quotient.magnitude ≠ 0 := by
  unfold value
  cases quotient.negative <;> simp [Nat.pos_iff_ne_zero]

lemma SignedMagnitude.natAbs_value (quotient : SignedMagnitude) :
    quotient.value.natAbs = quotient.magnitude := by
  unfold value
  split_ifs <;> simp

namespace IntegerFacts

lemma nearestI64_eq (magnitude : ℕ) (negative : Bool) :
    nearestI64 ⟨min magnitude (2 ^ 64 - 1), negative⟩ =
      max (-2 ^ 63) (min (if negative then -(magnitude : ℤ) else magnitude) (2 ^ 63 - 1)) := by
  unfold nearestI64
  dsimp only
  cases negative with
  | false | true =>
    simp only [Bool.false_eq_true, if_false, if_true]
    split_ifs with h
    · omega
    · rw [toI64_of_lt (by omega)]
      omega

/-- The nearest word is between the bounds of any word. -/
lemma nearestI64_le {magnitude : ℕ} {negative : Bool} {n : ℤ} (hn : IsI64 n)
    (h : (if negative then -(magnitude : ℤ) else magnitude) ≤ n) :
    nearestI64 ⟨min magnitude (2 ^ 64 - 1), negative⟩ ≤ n := by
  obtain ⟨hlo, -⟩ := hn
  rw [nearestI64_eq]
  omega

lemma le_nearestI64 {magnitude : ℕ} {negative : Bool} {n : ℤ} (hn : IsI64 n)
    (h : n ≤ if negative then -(magnitude : ℤ) else magnitude) :
    n ≤ nearestI64 ⟨min magnitude (2 ^ 64 - 1), negative⟩ := by
  obtain ⟨-, hhi⟩ := hn
  rw [nearestI64_eq]
  omega

/-- A product and a sum saturate together. -/
lemma saturating_mul_add (magnitude divisor : ℕ) {x : ℕ} (hx : x < 2 ^ 64) :
    saturatingAddU64 (saturatingMulU64 magnitude divisor) x =
      min (magnitude * divisor + x) (2 ^ 64 - 1) := by
  rw [saturatingAddU64_eq hx, saturatingMulU64_eq]
  omega

variable {quotient : SignedMagnitude} {divisor : ℕ} {rounding : QuotientRounding} {n : ℤ}

/-- The rounding at the lower endpoint, where the least dividend is a product or the one past it. -/
lemma resolveRounding_lower (quotient : SignedMagnitude) (rounding : QuotientRounding) (d : ℤ) :
    (resolveRounding quotient rounding .lower = .floor ∧
        rounding.lowerEnd quotient.value d = quotient.value * d) ∨
      (resolveRounding quotient rounding .lower = .ceil ∧
        rounding.lowerEnd quotient.value d = quotient.value * d - (d - 1)) := by
  cases rounding with
  | floor => exact Or.inl ⟨rfl, rfl⟩
  | ceil => exact Or.inr ⟨rfl, rfl⟩
  | zero =>
    unfold resolveRounding lowerEnd
    simp only [← quotient.value_nonpos_iff]
    split_ifs with h
    · exact Or.inr ⟨rfl, rfl⟩
    · exact Or.inl ⟨rfl, rfl⟩

lemma resolveRounding_upper (quotient : SignedMagnitude) (rounding : QuotientRounding) (d : ℤ) :
    (resolveRounding quotient rounding .upper = .floor ∧
        rounding.upperEnd quotient.value d = quotient.value * d + (d - 1)) ∨
      (resolveRounding quotient rounding .upper = .ceil ∧
        rounding.upperEnd quotient.value d = quotient.value * d) := by
  cases rounding with
  | floor => exact Or.inl ⟨rfl, rfl⟩
  | ceil => exact Or.inr ⟨rfl, rfl⟩
  | zero =>
    unfold resolveRounding upperEnd
    simp only [← quotient.value_neg_iff]
    split_ifs with h
    · exact Or.inr ⟨rfl, rfl⟩
    · exact Or.inl ⟨rfl, rfl⟩

/-- The product of a quotient and a divisor, by its sign. -/
lemma value_mul (quotient : SignedMagnitude) (divisor : ℕ) :
    quotient.value * divisor =
      if quotient.value < 0 then -((quotient.magnitude * divisor : ℕ) : ℤ)
      else (quotient.magnitude * divisor : ℕ) := by
  have habs := quotient.natAbs_value
  split_ifs with h
  · rw [show quotient.value = -quotient.magnitude by omega]
    push_cast
    ring
  · rw [show quotient.value = quotient.magnitude by omega]
    push_cast
    ring

lemma pred_mul_add {magnitude : ℕ} (h : magnitude ≠ 0) (divisor : ℕ) :
    (magnitude - 1) * divisor + divisor = magnitude * divisor := by
  rw [← Nat.succ_mul, Nat.succ_eq_add_one, Nat.sub_add_cancel (Nat.pos_of_ne_zero h)]

lemma negative_eq (quotient : SignedMagnitude) :
    (quotient.negative && decide (quotient.magnitude ≠ 0)) = decide (quotient.value < 0) := by
  simp only [quotient.value_neg_iff, Bool.decide_and, Bool.decide_eq_true]

/-- The lower endpoint is the nearest word to the least dividend. -/
lemma inverseEndpoint_lower (hd : 0 < divisor) (hd64 : divisor < 2 ^ 64) (hn : IsI64 n)
    (h : rounding.lowerEnd quotient.value divisor ≤ n) :
    inverseEndpoint quotient divisor rounding .lower ≤ n := by
  have hmul := value_mul quotient divisor
  unfold inverseEndpoint
  rw [negative_eq]
  rcases resolveRounding_lower quotient rounding divisor with ⟨hres, hend⟩ | ⟨hres, hend⟩
  · rw [hres]
    dsimp only
    rw [saturatingMulU64_eq]
    apply nearestI64_le hn
    simp only [decide_eq_true_eq]
    omega
  rw [hres]
  dsimp only
  split_ifs with hpos
  · have hpred := pred_mul_add hpos.2 divisor
    rw [saturating_mul_add _ _ (by decide)]
    apply nearestI64_le hn
    simp only [decide_eq_true_eq, decide_eq_false_iff_not] at hpos ⊢
    rw [if_neg hpos.1] at hmul ⊢
    omega
  · rw [saturating_mul_add _ _ (by omega)]
    apply nearestI64_le hn
    simp only [decide_eq_false_iff_not] at hpos
    rw [if_pos rfl]
    split_ifs at hmul with hneg
    · omega
    have hzero : quotient.magnitude = 0 := by
      by_contra hne
      exact hpos ⟨hneg, hne⟩
    rw [hzero, Nat.zero_mul] at hmul ⊢
    omega

/-- The upper endpoint is the nearest word to the greatest dividend. -/
lemma inverseEndpoint_upper (hd : 0 < divisor) (hd64 : divisor < 2 ^ 64) (hn : IsI64 n)
    (h : n ≤ rounding.upperEnd quotient.value divisor) :
    n ≤ inverseEndpoint quotient divisor rounding .upper := by
  have hmul := value_mul quotient divisor
  have habs := quotient.natAbs_value
  unfold inverseEndpoint
  rw [negative_eq]
  rcases resolveRounding_upper quotient rounding divisor with ⟨hres, hend⟩ | ⟨hres, hend⟩
  · rw [hres]
    dsimp only
    split_ifs with hneg
    · have hneg' := of_decide_eq_true hneg
      have hpred := pred_mul_add (show quotient.magnitude ≠ 0 by omega) divisor
      rw [saturating_mul_add _ _ (by decide)]
      apply le_nearestI64 hn
      rw [if_pos hneg'] at hmul
      rw [if_pos hneg]
      omega
    · have hneg' : ¬quotient.value < 0 := fun h => hneg (decide_eq_true h)
      rw [saturating_mul_add _ _ (by omega)]
      apply le_nearestI64 hn
      rw [if_neg hneg'] at hmul
      rw [if_neg hneg]
      omega
  · rw [hres]
    dsimp only
    rw [saturatingMulU64_eq]
    apply le_nearestI64 hn
    simp only [decide_eq_true_eq]
    omega

/-! ### Signed quotients -/

variable {bitCount : ℕ} (hb : 0 < bitCount) (h64 : bitCount ≤ 64)
include hb h64

lemma makeSignedBitCountRange_range :
    (makeSignedBitCountRange bitCount).rangeLo = -2 ^ (bitCount - 1) ∧
      (makeSignedBitCountRange bitCount).rangeHi = 2 ^ (bitCount - 1) - 1 := by
  have hpos := two_pow_pos (bitCount - 1)
  unfold makeSignedBitCountRange
  rw [if_neg (by omega)]
  split_ifs with h
  · rw [h]
    exact ⟨rfl, rfl⟩
  · exact make_range _ (by omega)

omit hb h64 in
lemma value_signed (x : ℤ) (negativeDivisor : Bool) :
    (⟨magnitude x, decide (x < 0) != negativeDivisor⟩ : SignedMagnitude).value =
      if negativeDivisor then -x else x := by
  unfold SignedMagnitude.value
  rw [magnitude_eq]
  cases negativeDivisor with
  | false | true =>
    simp only [Bool.bne_false, Bool.bne_true, Bool.not_eq_true', decide_eq_true_eq,
      decide_eq_false_iff_not, Bool.false_eq_true, if_false, if_true]
    split_ifs <;> omega

lemma declaredDomain_admits (hn : IsRepresented bitCount n) :
    (declaredDomain bitCount).Admits n := by
  rw [declaredDomain_eq hb h64]
  exact make_admits (isI64_representedLo h64) hn.1 hn.2 (Int.one_dvd _)

/-- The dividends of a signed quotient. -/
lemma signedPreimage_admits {facts : IntegerFacts}
    {q : ℤ} (hq : facts.Operand bitCount q) (hn : IsRepresented bitCount n) {scale : PreimageScale}
    {d : ℤ} (hd : 0 < d) (hmin : scale.minimum ≤ d) (hmax : d ≤ scale.maximum)
    (hpos : 0 < scale.minimum) (hmax64 : scale.maximum < 2 ^ 64)
    (hrounds : (if scale.negativeDivisor then rounding.flip else rounding).Rounds
      (signedValue bitCount n) d
      (if scale.negativeDivisor then -signedValue bitCount q else signedValue bitCount q)) :
    (signedPreimage rounding bitCount facts scale).Admits n := by
  obtain ⟨hle, hge⟩ := hq.bounds h64
  obtain ⟨hdlo, hdhi⟩ := makeSignedBitCountRange_range hb h64
  obtain ⟨hnlo, hnhi⟩ := (isRepresented_iff_signedValue bitCount n).mp hn
  have hpow := two_pow_pred_le h64
  have hn64 : IsI64 (signedValue bitCount n) := ⟨by omega, by omega⟩
  unfold signedPreimage
  extract_lets quotientLo quotientHi lowerQuotient upperQuotient lower upper rounding'
    minimum maximum
    signedDomain minimum' maximum'
  have hlower : lower.value = if scale.negativeDivisor then -lowerQuotient else lowerQuotient :=
    value_signed lowerQuotient scale.negativeDivisor
  have hupper : upper.value = if scale.negativeDivisor then -upperQuotient else upperQuotient :=
    value_signed upperQuotient scale.negativeDivisor
  have hqlo : quotientLo ≤ signedValue bitCount q ∧ signedValue bitCount q ≤ quotientHi := by
    unfold quotientLo quotientHi signedValue
    split_ifs <;> omega
  have hmem : lower.value ≤
        (if scale.negativeDivisor then -signedValue bitCount q else signedValue bitCount q) ∧
      (if scale.negativeDivisor then -signedValue bitCount q else signedValue bitCount q) ≤
        upper.value := by
    rw [hlower, hupper]
    unfold lowerQuotient upperQuotient
    split_ifs <;> omega
  have hminimum : minimum ≤ signedValue bitCount n := by
    apply inverseEndpoint_lower _ _ hn64
    · have hlo := hrounds.ge hmem.1 hmin hmax hd
      simp only [lower.value_nonpos_iff] at hlo
      rwa [apply_ite Nat.cast]
    · split_ifs <;> omega
    · split_ifs <;> omega
  have hmaximum : signedValue bitCount n ≤ maximum := by
    apply inverseEndpoint_upper _ _ hn64
    · have hhi := hrounds.le hmem.2 hmin hmax hd
      simp only [upper.value_neg_iff] at hhi
      rwa [apply_ite Nat.cast]
    · split_ifs <;> omega
    · split_ifs <;> omega
  replace hdlo : signedDomain.rangeLo = -2 ^ (bitCount - 1) := hdlo
  replace hdhi : signedDomain.rangeHi = 2 ^ (bitCount - 1) - 1 := hdhi
  have hminimum' : minimum' ≤ signedValue bitCount n := max_le hminimum (by omega)
  have hmaximum' : signedValue bitCount n ≤ maximum' := le_min hmaximum (by omega)
  rw [if_neg (by omega)]
  unfold signedValue at hminimum' hmaximum'
  split_ifs with h1
  · rw [if_pos h1] at hminimum' hmaximum'
    have hone := hn.2
    rw [representedHi, if_pos h1] at hone
    exact make_admits ⟨by omega, by omega⟩ (by omega) (by omega) (Int.one_dvd _)
  · rw [if_neg h1] at hminimum' hmaximum'
    exact make_admits ⟨by omega, by omega⟩ (by omega) (by omega) (Int.one_dvd _)

/-! ### Unsigned quotients -/

/-- The dividends of an unsigned quotient. -/
lemma unsignedPreimage_admits {facts : IntegerFacts}
    {q : ℤ} (hq : facts.Operand bitCount q) (hn : IsRepresented bitCount n) {scale : PreimageScale}
    {d : ℕ} (hmin : scale.minimum ≤ d) (hmax : d ≤ scale.maximum) (hpos : 0 < scale.minimum)
    (hmax64 : scale.maximum < 2 ^ 64) (hzero : rounding ≠ .zero)
    (hrounds : rounding.Rounds (raw bitCount n) d (raw bitCount q)) :
    (unsignedPreimage rounding bitCount facts scale).Admits n := by
  obtain ⟨hqmin, hqmax, -⟩ := unsignedRange_spec hb h64 hq
  have hpow := Nat.pow_le_pow_right Nat.two_pos h64
  have hlt := raw_lt bitCount n
  unfold unsignedPreimage
  rw [maskLowBits_allOnes hb h64]
  extract_lets bitMask range minimum maximum maximum' maximum''
  have hd : (0 : ℤ) < d := by omega
  have hge := hrounds.ge (Int.ofNat_le.mpr hqmin) (Int.ofNat_le.mpr hmin) (Int.ofNat_le.mpr hmax) hd
  have hle := hrounds.le (Int.ofNat_le.mpr hqmax) (Int.ofNat_le.mpr hmin) (Int.ofNat_le.mpr hmax) hd
  rw [if_neg (by omega)] at hle
  change rounding.lowerEnd range.minimum (if (range.minimum : ℤ) ≤ 0 then _ else _) ≤ _ at hge
  change _ ≤ rounding.upperEnd range.maximum _ at hle
  have hminimum : minimum ≤ raw bitCount n := by
    cases rounding with
    | floor =>
      dsimp only [lowerEnd] at hge
      rw [show minimum = saturatingMulU64 range.minimum scale.minimum from if_neg (by decide),
        saturatingMulU64_eq]
      by_cases h0 : range.minimum = 0
      · rw [h0, Nat.zero_mul]
        omega
      · rw [if_neg (by omega), ← Int.natCast_mul] at hge
        omega
    | ceil =>
      dsimp only [lowerEnd] at hge
      rw [show minimum = _ from if_pos rfl]
      by_cases h0 : range.minimum = 0
      · rw [if_pos h0]
        exact Nat.zero_le _
      have hpred := pred_mul_add h0 scale.minimum
      rw [if_neg (by omega), ← Int.natCast_mul] at hge
      rw [if_neg h0, saturating_mul_add _ _ (by decide)]
      exact (min_le_left _ _).trans (by omega)
    | zero => exact absurd rfl hzero
  have hmaximum : raw bitCount n ≤ maximum' := by
    cases rounding with
    | floor =>
      dsimp only [upperEnd] at hle
      rw [← Int.natCast_mul] at hle
      rw [show maximum' = _ from if_pos rfl, saturating_mul_add _ _ (by omega)]
      omega
    | ceil =>
      dsimp only [upperEnd] at hle
      rw [← Int.natCast_mul] at hle
      rw [show maximum' = maximum from if_neg (by decide),
        show maximum = saturatingMulU64 range.maximum scale.maximum from rfl, saturatingMulU64_eq]
      omega
    | zero => exact absurd rfl hzero
  have hmaximum' : raw bitCount n ≤ maximum'' := le_min hmaximum (by omega)
  rw [if_neg (by omega), ← represent_raw hb hn]
  exact makeUnsignedResultRange_admits hb h64 hminimum hmaximum' (by omega) (Int.le_refl 1)
      (by decide)
    (Int.one_dvd _)

end IntegerFacts

/-! ### Evaluation -/

variable {kind : QuotientKind} {bitCount : ℕ} {n s q : ℤ}

lemma raw_represent (hb : 0 < bitCount) {x : ℕ} (hx : x < 2 ^ bitCount) :
    raw bitCount (represent bitCount x) = x := by
  have hcast := cast_two_pow bitCount
  have hraw := cast_raw bitCount (represent bitCount x)
  rw [represent_emod hb, Int.emod_eq_of_lt (by omega) (by omega)] at hraw
  omega

lemma rawIntegerBits_eq (hb : 0 < bitCount) (h64 : bitCount ≤ 64) (v : ℤ) :
    rawIntegerBits v bitCount = raw bitCount v := by
  rw [rawIntegerBits, maskLowBits_allOnes hb h64, toU64_mask h64]

lemma signedIntegerRepresentation_eq (hb : 0 < bitCount) (h64 : bitCount ≤ 64) {x : ℕ}
    (hx : x < 2 ^ bitCount) : signedIntegerRepresentation x bitCount = represent bitCount x := by
  have hpow := Nat.pow_le_pow_right Nat.two_pos h64
  have hmask : x &&& maskLowBitsU64 (2 ^ 64 - 1) bitCount = x := by
    rw [maskLowBits_allOnes hb h64, Nat.and_two_pow_sub_one_eq_mod, Nat.mod_eq_of_lt hx]
  rw [represent]
  unfold signedIntegerRepresentation
  rw [hmask]
  by_cases h1 : bitCount = 1
  · rw [if_pos h1, if_pos h1]
    rw [h1] at hx
    rw [toI64_of_lt (by omega)]
    omega
  · rw [if_neg h1, if_neg h1, ← signExtendRawBits_eq hb h64 (hx.trans_le hpow),
      IntegerFacts.signExtendRawBits, if_neg hb.ne', maskLowBitsU64_eq hb (hx.trans_le hpow),
      Nat.mod_eq_of_lt hx]

/-- Quotients of raw bits. -/
lemma evaluateUnsigned_rounds (hb : 0 < bitCount) (h64 : bitCount ≤ 64)
    (h : evaluateUnsigned kind bitCount n s = some q) (hu : kind.isUnsigned = true) :
    IsRepresented bitCount q ∧ (if kind.isShift then 2 ^ s.toNat else raw bitCount s) ≠ 0 ∧
      kind.rounding.Rounds (raw bitCount n)
        (if kind.isShift then 2 ^ s.toNat else raw bitCount s : ℕ) (raw bitCount q) := by
  unfold evaluateUnsigned at h
  rw [rawIntegerBits_eq hb h64, rawIntegerBits_eq hb h64] at h
  dsimp only at h
  generalize (if kind.isShift then 2 ^ s.toNat else raw bitCount s) = d at h ⊢
  have hlt := raw_lt bitCount n
  by_cases hzero : d = 0
  · rw [if_pos hzero] at h
    cases h
  rw [if_neg hzero] at h
  generalize raw bitCount n = x at h hlt ⊢
  have hpos : 0 < d := Nat.pos_of_ne_zero hzero
  have hceils := ceils_natDiv (n := x) hpos
  have hfloors : Floors x d (x / d : ℕ) := floors_ediv (Int.natCast_pos.mpr hpos)
  have hle : (x / d + if kind = .ceildivui ∧ x % d ≠ 0 then 1 else 0) ≤ x := by
    have hmod := Nat.div_add_mod x d
    have hmul := Nat.le_mul_of_pos_left (x / d) hpos
    split_ifs <;> omega
  rw [signedIntegerRepresentation_eq hb h64 (by omega)] at h
  rw [← Option.some.inj h, raw_represent hb (by omega)]
  refine ⟨(represent_spec hb _).1, hzero, ?_⟩
  cases kind with
  | ceildivui =>
    change Ceils _ _ _
    simpa using hceils
  | divui | shrui =>
    change Floors _ _ _
    simpa using hfloors
  | divsi | ceildivsi | floordivsi | shrsi => cases hu

/-- An arithmetic shift rounds down. -/
lemma evaluateShift_rounds (hn : IsI64 n) : Floors n (2 ^ s.toNat) (evaluateShift n s) := by
  have hpos := Nat.two_pow_pos s.toNat
  have hcast := cast_two_pow s.toNat
  obtain ⟨hlo, hhi⟩ := hn
  unfold evaluateShift
  rw [magnitude_eq]
  generalize hm : n.natAbs = m
  have hfloors : Floors m (2 ^ s.toNat : ℕ) (m / 2 ^ s.toNat : ℕ) :=
    floors_ediv (Int.natCast_pos.mpr hpos)
  have hceils := ceils_natDiv (n := m) hpos
  have hself := Nat.div_le_self m (2 ^ s.toNat)
  by_cases hnonneg : n ≥ 0
  · rw [if_pos hnonneg, if_neg (by omega), Nat.add_zero, toI64_of_lt (by omega), ← hcast,
      show n = m by omega]
    exact hfloors
  rw [if_neg hnonneg]
  simp only [show n < 0 by omega, true_and]
  generalize hround : (m / 2 ^ s.toNat + if m % 2 ^ s.toNat ≠ 0 then 1 else 0) = rounded at hceils ⊢
  have hle : rounded ≤ m := by
    have hmod := Nat.div_add_mod m (2 ^ s.toNat)
    have hmul := Nat.le_mul_of_pos_left (m / 2 ^ s.toNat) hpos
    split_ifs at hround <;> omega
  have hneg : Floors n (2 ^ s.toNat) (-rounded) := by
    apply Ceils.neg
    rwa [show -n = m by omega, ← hcast]
  split_ifs with hmin
  · rwa [hmin] at hneg
  · rwa [toI64_of_lt (by omega)]

/-- The truncated quotient, by the signs. -/
lemma tmod_bounds (n : ℤ) (hs : s ≠ 0) :
    s * n.tdiv s + n.tmod s = n ∧ (n.tmod s).natAbs < s.natAbs ∧
      (0 ≤ n → 0 ≤ n.tmod s) ∧ (n ≤ 0 → n.tmod s ≤ 0) := by
  refine ⟨Int.mul_tdiv_add_tmod n s, ?_, Int.tmod_nonneg s, fun h => ?_⟩
  · rw [Int.natAbs_tmod]
    exact Nat.mod_lt _ (Int.natAbs_pos.mpr hs)
  · have hneg := Int.tmod_nonneg s (Int.neg_nonneg.mpr h)
    rw [Int.neg_tmod] at hneg
    omega

/-- Signed quotients.  By a negative divisor the negated quotient is rounded the other way. -/
lemma evaluateSigned_rounds (h : evaluateSigned kind bitCount n s = some q)
    (hu : kind.isUnsigned = false) (hshift : kind.isShift = false) :
    s ≠ 0 ∧ ¬(n = -2 ^ (bitCount - 1) ∧ s = -1) ∧
      (0 < s → kind.rounding.Rounds n s q) ∧ (s < 0 → kind.rounding.flip.Rounds n (-s) (-q)) := by
  unfold evaluateSigned at h
  have hminimum : (if bitCount = 64 then -2 ^ 63 else -2 ^ (bitCount - 1) : ℤ) = -2 ^
      (bitCount - 1) := by
    split_ifs with h64
    · rw [h64]
    · rfl
  rw [hminimum] at h
  by_cases hundef : s = 0 ∨ n = -2 ^ (bitCount - 1) ∧ s = -1
  · rw [if_pos hundef] at h
    cases h
  rw [if_neg hundef] at h
  have hs : s ≠ 0 := fun h => hundef (Or.inl h)
  obtain ⟨hdiv, hlt, hpos, hneg⟩ := tmod_bounds n hs
  generalize n.tdiv s = t at h hdiv
  generalize n.tmod s = m at h hdiv hlt hpos hneg
  rw [Int.mul_comm] at hdiv
  have hq := Option.some.inj h
  simp only [ne_eq, decide_eq_decide] at hq
  have hpred : (t - 1) * s = t * s - s := by rw [Int.sub_mul, Int.one_mul]
  have hsucc : (t + 1) * s = t * s + s := by rw [Int.add_mul, Int.one_mul]
  -- in each case the product is the dividend up to the remainder
  cases kind with
  | divsi =>
    simp only [reduceCtorEq, false_and, if_false, ite_self] at hq
    subst hq
    refine ⟨hs, fun h => hundef (Or.inr h), fun hspos => ?_, fun hsneg => ?_⟩
    · exact ⟨fun h => ⟨by omega, by omega⟩, fun h => ⟨by omega, by omega⟩⟩
    change Truncates n (-s) (-t)
    unfold Truncates Floors Ceils
    rw [Int.neg_mul_neg]
    omega
  | ceildivsi | floordivsi =>
    simp only [reduceCtorEq, false_and, if_false, true_and] at hq
    refine ⟨hs, fun h => hundef (Or.inr h), fun hspos => ?_, fun hsneg => ?_⟩
    · dsimp [QuotientKind.rounding, Rounds, Ceils, Floors]
      split_ifs at hq <;> subst hq <;> omega
    · dsimp [QuotientKind.rounding, QuotientRounding.flip, Rounds, Ceils, Floors]
      rw [Int.neg_mul_neg]
      split_ifs at hq <;> subst hq <;> omega
  | divui | ceildivui | shrui => cases hu
  | shrsi => cases hshift

/-- A signed quotient of words of a width is one, except for the overflow. -/
lemma signedQuotient_mem {m d : ℤ} (hn : -2 ^ (bitCount - 1) ≤ n ∧ n ≤ 2 ^ (bitCount - 1) - 1)
    (hnear : Near n d m) (hd : 0 < d) (hd' : d ≤ 2 ^ (bitCount - 1)) :
    (-2 ^ (bitCount - 1) ≤ m ∧ m ≤ 2 ^ (bitCount - 1) - 1) ∧
      (¬(n = -2 ^ (bitCount - 1) ∧ d = 1) → -2 ^ (bitCount - 1) < m) := by
  by_cases hone : d = 1
  · subst hone
    have heq := hnear.eq_of_one
    omega
  · obtain ⟨hhi, hlo⟩ := hnear.half (by omega)
    omega

lemma rounding_ne_zero (h : kind.isUnsigned = true) : kind.rounding ≠ .zero := by
  cases kind <;> first | decide | cases h

lemma rounding_of_shift (h : kind.isShift = true) : kind.rounding = .floor := by
  cases kind <;> first | rfl | cases h

def scaleMagnitude (kind : QuotientKind) (bitCount : ℕ) (s : ℤ) : ℕ :=
  if kind.isShift then 2 ^ s.toNat
  else if kind.isUnsigned then raw bitCount s else (signedValue bitCount s).natAbs

/-- Signed quotients are words of the width, rounded from the magnitude of the divisor. -/
lemma evaluateQuotient_rounds (h64 : bitCount ≤ 64) (hn : IsRepresented bitCount n)
    (hs : IsRepresented bitCount s) (h : evaluateQuotient kind bitCount n s = some q)
    (hu : kind.isUnsigned = false) {negative : Bool}
    (hneg : negative = (!kind.isShift && decide (signedValue bitCount s < 0))) :
    IsRepresented bitCount q ∧ 0 < scaleMagnitude kind bitCount s ∧
      (if negative then kind.rounding.flip else kind.rounding).Rounds (signedValue bitCount n)
        (scaleMagnitude kind bitCount s)
        (if negative then -signedValue bitCount q else signedValue bitCount q) := by
  have hn' := (isRepresented_iff_signedValue bitCount n).mp hn
  have hs' := (isRepresented_iff_signedValue bitCount s).mp hs
  have hn64 : IsI64 (signedValue bitCount n) := by
    have hpow := two_pow_pred_le h64
    exact ⟨by omega, by omega⟩
  rw [isRepresented_iff_signedValue]
  unfold evaluateQuotient at h
  unfold scaleMagnitude
  by_cases hundef : kind.isShift = true ∧ (s < 0 ∨ s ≥ bitCount)
  · rw [if_pos hundef] at h
    cases h
  rw [if_neg hundef, hu, if_neg Bool.false_ne_true] at h
  by_cases hshift : kind.isShift = true
  · have hrange : 0 ≤ s ∧ s < bitCount := by
      by_contra hcon
      exact hundef ⟨hshift, by omega⟩
    have hfloors : Floors (signedValue bitCount n) (2 ^ s.toNat)
        (evaluateShift (signedValue bitCount n) s) := evaluateShift_rounds hn64
    have hd : (2 : ℤ) ^ s.toNat ≤ 2 ^ (bitCount - 1) := pow_le_pow_right₀ (by decide) (by omega)
    have hmem := signedQuotient_mem hn' hfloors.near (two_pow_pos _) hd
    rw [if_pos hshift] at h
    rw [hshift, Bool.not_true, Bool.false_and] at hneg
    rw [if_pos hshift, hneg, if_neg Bool.false_ne_true, if_neg Bool.false_ne_true,
      ← Option.some.inj h, signedValue_signedValue, cast_two_pow, rounding_of_shift hshift]
    exact ⟨hmem.1, Nat.two_pow_pos _, hfloors⟩
  · rw [if_neg hshift, Option.map_eq_some_iff] at h
    obtain ⟨q', hq', rfl⟩ := h
    rw [Bool.not_eq_true] at hshift
    obtain ⟨hs0, hover, hpos, hneg'⟩ := evaluateSigned_rounds hq' hu hshift
    rw [hshift] at hneg
    rw [if_neg (by rw [hshift]; exact Bool.false_ne_true), hu, if_neg Bool.false_ne_true,
      signedValue_signedValue]
    refine ⟨?_, Int.natAbs_pos.mpr hs0, ?_⟩
    · rcases lt_or_gt_of_ne hs0 with hlt | hgt
      · obtain ⟨hmem, hstrict⟩ := signedQuotient_mem hn' (hneg' hlt).near (by omega) (by omega)
        omega
      · exact (signedQuotient_mem hn' (hpos hgt).near hgt (by omega)).1
    rw [hneg]
    rcases lt_or_gt_of_ne hs0 with hlt | hgt
    · simp only [hlt, decide_true, Bool.not_false, Bool.and_true, if_true]
      rw [show ((signedValue bitCount s).natAbs : ℤ) = -signedValue bitCount s by omega]
      exact hneg' hlt
    · simp only [hgt.not_gt, decide_false, Bool.and_false, Bool.false_eq_true, if_false]
      rw [show ((signedValue bitCount s).natAbs : ℤ) = signedValue bitCount s by omega]
      exact hpos hgt

namespace IntegerFacts

/-! ### Scales -/

lemma preimageScale_spec {facts : IntegerFacts} {scale : PreimageScale} (hb : 0 < bitCount)
    (h64 : bitCount ≤ 64) (hs : facts.Operand bitCount s)
    (h : preimageScale kind bitCount facts = some scale) :
    0 < scale.minimum ∧ scale.minimum ≤ scaleMagnitude kind bitCount s ∧
      scaleMagnitude kind bitCount s ≤ scale.maximum ∧ scale.maximum < 2 ^ 64 ∧
      scale.negativeDivisor =
        (!kind.isShift && !kind.isUnsigned && decide (signedValue bitCount s < 0)) := by
  obtain ⟨hle, hge⟩ := hs.bounds h64
  unfold preimageScale at h
  unfold scaleMagnitude
  by_cases hshift : kind.isShift = true
  · rw [if_pos hshift] at h ⊢
    by_cases hrange : facts.rangeLo < 0 ∨ facts.rangeHi ≥ bitCount
    · rw [if_pos hrange] at h
      cases h
    rw [if_neg hrange] at h
    cases h
    rw [hshift]
    refine ⟨Nat.two_pow_pos _, ?_, ?_, ?_, rfl⟩
    · exact Nat.pow_le_pow_right (by decide) (by omega)
    · exact Nat.pow_le_pow_right (by decide) (by omega)
    · exact Nat.pow_lt_pow_right (by decide) (by omega)
  rw [if_neg hshift] at h ⊢
  rw [Bool.not_eq_true] at hshift
  rw [hshift]
  by_cases hu : kind.isUnsigned = true
  · obtain ⟨hmin, hmax, hlt⟩ := unsignedRange_spec hb h64 hs
    have hpow := Nat.pow_le_pow_right Nat.two_pos h64
    rw [if_pos hu] at h ⊢
    rw [maskLowBits_allOnes hb h64] at h
    by_cases hzero : (facts.unsignedRange (2 ^ bitCount - 1)).minimum = 0
    · rw [if_pos hzero] at h
      cases h
    rw [if_neg hzero] at h
    cases h
    rw [hu]
    exact ⟨Nat.pos_of_ne_zero hzero, hmin, hmax, by dsimp only; omega, rfl⟩
  rw [if_neg hu] at h ⊢
  rw [Bool.not_eq_true] at hu
  rw [hu]
  obtain ⟨hlo64, -⟩ := hs.wellFormed.rangeLo
  obtain ⟨-, hhi64⟩ := hs.wellFormed.rangeHi
  have hmem : (if bitCount = 1 then -facts.rangeHi else facts.rangeLo) ≤ signedValue bitCount s ∧
      signedValue bitCount s ≤ (if bitCount = 1 then -facts.rangeLo else facts.rangeHi) ∧
      -2 ^ 63 ≤ (if bitCount = 1 then -facts.rangeHi else facts.rangeLo) ∧
      (if bitCount = 1 then -facts.rangeLo else facts.rangeHi) ≤ 2 ^ 63 := by
    unfold signedValue
    split_ifs <;> omega
  generalize (if bitCount = 1 then -facts.rangeHi else facts.rangeLo) = lo at h hmem
  generalize (if bitCount = 1 then -facts.rangeLo else facts.rangeHi) = hi at h hmem
  by_cases hzero : (lo ≤ 0 ∧ hi ≥ 0) ∨ (lo ≤ -1 ∧ hi ≥ -1)
  · rw [if_pos hzero] at h
    cases h
  rw [if_neg hzero] at h
  cases h
  rw [magnitude_eq, magnitude_eq]
  by_cases hneg : hi < 0
  · simp only [hneg, decide_true, if_true]
    refine ⟨by omega, by omega, by omega, by omega, ?_⟩
    exact (decide_eq_true (by omega)).symm
  · simp only [hneg, decide_false, Bool.false_eq_true, if_false]
    refine ⟨by omega, by omega, by omega, by omega, ?_⟩
    exact (decide_eq_false (by omega)).symm

/-! ### Results -/

/-- The dividends of a quotient are described by its preimage. -/
lemma quotientPreimage_admits {quotient scale : IntegerFacts} (hb : 0 < bitCount)
    (h64 : bitCount ≤ 64) (hQ : quotient.WellFormed) (hS : scale.WellFormed)
    (hn : IsRepresented bitCount n) (hs : IsRepresented bitCount s)
    (h : evaluateQuotient kind bitCount n s = some q) (hq : quotient.Admits q)
    (hscale : scale.Admits s) : (quotientPreimage kind bitCount quotient scale).Admits n := by
  have hdomain := declaredDomain_admits hb h64 hn
  have hsop := divisionOperand_operand hS hb h64 hs hscale
  unfold quotientPreimage
  dsimp only
  by_cases hempty : quotient.rangeLo > quotient.rangeHi ∨ scale.rangeLo > scale.rangeHi
  · rw [if_pos hempty]
    exact hdomain
  rw [if_neg hempty]
  cases hscale' : preimageScale kind bitCount (scale.divisionOperand bitCount) with
  | none => exact hdomain
  | some =>
    obtain ⟨hpos, hmin, hmax, hmax64, hneg⟩ := preimageScale_spec hb h64 hsop hscale'
    dsimp only
    by_cases hu : kind.isUnsigned = true
    · rw [if_pos hu]
      have heval : evaluateUnsigned kind bitCount n s = some q := by
        unfold evaluateQuotient at h
        split_ifs at h
        exact h
      unfold scaleMagnitude at hmin hmax
      simp only [if_pos hu] at hmin hmax
      obtain ⟨hqrep, -, hrounds⟩ := evaluateUnsigned_rounds hb h64 heval hu
      have hqop := divisionOperand_operand hQ hb h64 hqrep hq
      exact unsignedPreimage_admits hb h64 hqop hn hmin hmax hpos hmax64
        (rounding_ne_zero hu) hrounds
    · rw [if_neg hu]
      rw [Bool.not_eq_true] at hu
      rw [hu, Bool.not_false, Bool.and_true] at hneg
      obtain ⟨hqrep, hd, hrounds⟩ := evaluateQuotient_rounds h64 hn hs h hu hneg
      have hqop := divisionOperand_operand hQ hb h64 hqrep hq
      exact signedPreimage_admits hb h64 hqop hn (Int.natCast_pos.mpr hd) (Int.ofNat_le.mpr hmin)
        (Int.ofNat_le.mpr hmax) hpos hmax64 hrounds

/-- The interval of the preimage holds every dividend for which the quotient is defined. -/
theorem quotientPreimage_contains {quotient scale : IntegerFacts} (kind : QuotientKind)
    (hb : 0 < bitCount) (h64 : bitCount ≤ 64) (hQ : quotient.WellFormed) (hS : scale.WellFormed)
    (hn : IsRepresented bitCount n) (hs : IsRepresented bitCount s)
    (h : evaluateQuotient kind bitCount n s = some q) (hq : quotient.Admits q)
    (hscale : scale.Admits s) :
    (quotientPreimage kind bitCount quotient scale).rangeLo ≤ n ∧
      n ≤ (quotientPreimage kind bitCount quotient scale).rangeHi :=
  (quotientPreimage_admits hb h64 hQ hS hn hs h hq hscale).bounds (isI64_represented h64 hn)

/-- The least word, divided by a negative divisor and rounded up. -/
theorem quotientPreimage_contains_minimum :
    (quotientPreimage .ceildivsi 64 (make (2 ^ 61) (2 ^ 62) 1) (make (-4) (-2) 1)).rangeLo ≤
      -2 ^ 63 ∧
      -2 ^ 63 ≤ (quotientPreimage .ceildivsi 64 (make (2 ^ 61) (2 ^ 62) 1)
          (make (-4) (-2) 1)).rangeHi := by
  have hQ : (make (2 ^ 61) (2 ^ 62) 1).WellFormed :=
      make_wellFormed (by decide) (by decide) (by decide)
  have hS : (make (-4) (-2) 1).WellFormed := make_wellFormed (by decide) (by decide) (by decide)
  have hq : (make (2 ^ 61) (2 ^ 62) 1).Admits (2 ^ 62) :=
    make_admits (by decide) (by decide) (by decide) (Int.one_dvd _)
  have hs : (make (-4) (-2) 1).Admits (-2) :=
    make_admits (by decide) (by decide) (by decide) (Int.one_dvd _)
  exact quotientPreimage_contains .ceildivsi (by decide) (by decide) hQ hS (by decide)
    (by decide) rfl
    hq hs

end IntegerFacts

end Hrx.Facts
