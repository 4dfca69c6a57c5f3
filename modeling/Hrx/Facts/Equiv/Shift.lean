import Hrx.Facts.Equiv.Width

/-!
# Right shifts and bit fields

A right shift divides and rounds down.  A bit field is the reduction of a shifted value to the width
of the field, so the facts about fields are those of the two operations.
-/

namespace Hrx.Facts

open TwosComplement

namespace IntegerFacts

variable {facts : IntegerFacts} {v : ℤ}

/-! ### Arithmetic right shifts -/

variable {x offset width : ℤ} {sourceBitCount : ℕ} {result : IntegerFacts}

lemma arithmeticShiftRightI64_eq (hx : IsI64 x) (shift : ℕ) :
    arithmeticShiftRightI64 x shift = x / 2 ^ shift := by
  have hpos := two_pow_pos shift
  -- a shifted word is a quotient
  have hshift : ∀ y : ℤ, 0 ≤ y → IsI64 y → toI64 (toU64 y >>> shift) = y / 2 ^ shift := by
    intro y hy hy64
    have hword := cast_toU64_of_nonneg hy hy64
    have hle : toU64 y / 2 ^ shift ≤ toU64 y := Nat.div_le_self _ _
    have hlt := hy64.2
    rw [Nat.shiftRight_eq_div_pow, toI64_of_lt (by omega), Int.natCast_ediv, hword, cast_two_pow]
  unfold arithmeticShiftRightI64
  split_ifs with h
  · exact hshift x h hx
  obtain ⟨hle, hlt⟩ := hx
  rw [hshift _ (by omega) ⟨by omega, by omega⟩]
  -- the remainder of the complement is the complement of the remainder
  have hdiv := Int.mul_ediv_add_emod (-(x + 1)) (2 ^ shift)
  generalize -(x + 1) / 2 ^ shift = q at *
  have hx' : x = 2 ^ shift - 1 - -(x + 1) % 2 ^ shift + 2 ^ shift * (-1 - q) := by
    rw [Int.mul_sub]
    omega
  rw [hx', Int.add_mul_ediv_left _ _ hpos.ne', Int.ediv_eq_zero_of_lt (by omega) (by omega)]
  omega

lemma isI64_ediv {m : ℤ} (hx : IsI64 x) (hm : 1 ≤ m) : IsI64 (x / m) := by
  obtain ⟨hle, hlt⟩ := hx
  constructor
  · apply Int.le_ediv_of_mul_le (by omega)
    nlinarith
  · apply Int.ediv_lt_of_lt_mul (by omega)
    nlinarith

/-- The divisor of a quotient. -/
lemma shiftDivisor_dvd {d m : ℤ} (hm : 0 < m) (h : d ∣ x) :
    (if d.tmod m = 0 then d.tdiv m else 1) ∣ x / m := by
  split_ifs with hmod
  · obtain ⟨c, rfl⟩ := Int.dvd_of_tmod_eq_zero hmod
    obtain ⟨e, rfl⟩ := h
    rw [Int.mul_tdiv_cancel_left _ hm.ne', Int.mul_assoc, Int.mul_ediv_cancel_left _ hm.ne']
    exact Int.dvd_mul_right c e
  · exact Int.one_dvd _

lemma shrsi_wellFormed {lhs : IntegerFacts} (hl : lhs.WellFormed) (rhs : IntegerFacts) :
    (shrsi lhs rhs).WellFormed := by
  have hm1 : IsI64 (-1) := ⟨by decide, by decide⟩
  have hpos : ∀ n : ℕ, (1 : ℤ) ≤ 2 ^ n := two_pow_pos
  have hone := hl.one_le
  unfold shrsi
  dsimp only
  split_ifs
  · exact unknown_wellFormed
  · exact exactI64_wellFormed isI64_zero
  · exact exactI64_wellFormed hm1
  · exact make_wellFormed hm1 isI64_zero (by decide)
  all_goals
    rw [arithmeticShiftRightI64_eq hl.rangeLo, arithmeticShiftRightI64_eq hl.rangeHi]
    refine make_wellFormed (isI64_ediv hl.rangeLo (hpos _)) (isI64_ediv hl.rangeHi (hpos _)) ?_
  · rw [Int.tdiv_eq_ediv_of_nonneg (by omega)]
    exact (Int.ediv_le_self _ (by omega)).trans_lt hl.knownDivisor.2
  · decide

/-- The arithmetic shift by an exact amount divides and rounds down. -/
lemma shrsi_admits {lhs rhs : IntegerFacts} {shift : ℕ} (hl : lhs.WellFormed)
    (hlo : rhs.rangeLo = shift) (hhi : rhs.rangeHi = shift) (hshift : shift ≤ 63) (hv : IsI64 v)
    (h : lhs.Admits v) : (shrsi lhs rhs).Admits (v / 2 ^ shift) := by
  have hpos := two_pow_pos shift
  obtain ⟨hle, hge⟩ := h.bounds hv
  have hmono : ∀ {x y : ℤ}, x ≤ y → x / 2 ^ shift ≤ y / 2 ^ shift := fun hxy =>
      Int.ediv_le_ediv hpos hxy
  unfold shrsi
  dsimp only
  rw [hlo, hhi, if_neg (by omega), Int.toNat_natCast]
  by_cases h63 : (shift : ℤ) = 63
  · rw [if_pos h63]
    have hs : shift = 63 := by omega
    subst hs
    obtain ⟨hvlo, hvhi⟩ := hv
    split_ifs with hnonneg hneg
    · rw [Int.ediv_eq_zero_of_lt (by omega) (by omega)]
      exact exactI64_admits isI64_zero
    · rw [show v / 2 ^ 63 = -1 by omega]
      exact exactI64_admits ⟨by decide, by decide⟩
    · exact make_admits ⟨by decide, by decide⟩ (by omega) (by omega) (Int.one_dvd _)
  · rw [if_neg h63, arithmeticShiftRightI64_eq hl.rangeLo, arithmeticShiftRightI64_eq hl.rangeHi]
    exact make_admits (isI64_ediv hl.rangeLo hpos) (hmono hle) (hmono hge)
      (shiftDivisor_dvd hpos h.dvd)

/-! ### Bit fields -/

/-- The bits from an offset on, read from the raw bits of a value at its width. -/
def fieldBits (sourceBitCount offset : ℕ) (v : ℤ) : ℤ := v % 2 ^ sourceBitCount / 2 ^ offset

/-- Inside the width these are the low bits of the shifted value. -/
lemma two_pow_dvd_fieldBits_sub {offset width : ℕ} (h : offset + width ≤ sourceBitCount) (v : ℤ) :
    (2 : ℤ) ^ width ∣ fieldBits sourceBitCount offset v - v / 2 ^ offset := by
  have hpos := two_pow_pos offset
  have hsplit : (2 : ℤ) ^ sourceBitCount = 2 ^ offset * 2 ^ (sourceBitCount - offset) := by
    rw [← pow_add, Nat.add_sub_cancel' (by omega)]
  have hquot : v / 2 ^ offset =
      fieldBits sourceBitCount offset v +
        2 ^ (sourceBitCount - offset) * (v / 2 ^ sourceBitCount) := by
    unfold fieldBits
    conv_lhs => rw [← Int.emod_add_mul_ediv v (2 ^ sourceBitCount), hsplit, Int.mul_assoc,
      Int.add_mul_ediv_left _ _ hpos.ne', ← hsplit]
  rw [hquot, ← sub_sub, sub_self, zero_sub]
  exact Int.dvd_neg.mpr (Dvd.dvd.mul_right (pow_dvd_pow 2 (by omega)) _)

lemma bmod_two_pow_congr {w : ℕ} {y : ℤ} (h : (2 : ℤ) ^ w ∣ x - y) :
    Int.bmod x (2 ^ w) = Int.bmod y (2 ^ w) := by
  rw [Int.bmod_eq_bmod_iff_bmod_sub_eq_zero]
  apply Int.bmod_eq_zero_of_dvd
  rwa [cast_two_pow]

/-- The offset and the width that an extraction accepts. -/
lemma extractBitfield_accepts {signedExtract : Bool}
    (h : facts.extractBitfield sourceBitCount offset width signedExtract = some result) :
    0 ≤ offset ∧ 1 ≤ width ∧ offset + width ≤ sourceBitCount ∧ sourceBitCount ≤ 64 := by
  by_contra hreject
  rw [extractBitfield, if_pos (by omega)] at h
  cases h

/-- The raw bits of an exact field. -/
lemma exactFieldBits_eq {width : ℕ} (hwidth : 0 < width) (h64 : sourceBitCount ≤ 64) (offset : ℕ)
    (x : ℤ) :
    (maskLowBitsU64 ((x % 2 ^ sourceBitCount).toNat >>> offset) width : ℤ) =
      fieldBits sourceBitCount offset x % 2 ^ width := by
  have hpos := two_pow_pos sourceBitCount
  have hnonneg := Int.emod_nonneg x hpos.ne'
  have hpow : (2 : ℤ) ^ sourceBitCount ≤ 2 ^ 64 := pow_le_pow_right₀ (by decide) h64
  have hdiv : (x % 2 ^ sourceBitCount).toNat / 2 ^ offset ≤ (x % 2 ^ sourceBitCount).toNat :=
    Nat.div_le_self _ _
  rw [Nat.shiftRight_eq_div_pow, maskLowBitsU64_eq hwidth (by omega), Int.natCast_emod,
    Int.natCast_ediv, Int.toNat_of_nonneg hnonneg, cast_two_pow, cast_two_pow]
  rfl

/-- The field as the kind of the extraction reads it. -/
lemma extractBitfield_admits (hf : facts.WellFormed) (hv : IsRepresented sourceBitCount v)
    (h : facts.Admits v) {signedExtract : Bool}
    (hresult : facts.extractBitfield sourceBitCount offset width signedExtract = some result) :
    result.Admits (if signedExtract then
      Int.bmod (fieldBits sourceBitCount offset.toNat v) (2 ^ width.toNat)
      else fieldBits sourceBitCount offset.toNat v % 2 ^ width.toNat) := by
  obtain ⟨ho, hw, hfit, h64⟩ := extractBitfield_accepts hresult
  obtain ⟨o, rfl⟩ := Int.eq_ofNat_of_zero_le ho
  obtain ⟨w, rfl⟩ := Int.eq_ofNat_of_zero_le (show 0 ≤ width by omega)
  rw [Int.toNat_natCast, Int.toNat_natCast]
  have hv64 := isI64_represented h64 hv
  have hpos := two_pow_pos w
  unfold extractBitfield at hresult
  rw [if_neg (by omega), asExactRawBits_eq hf (by omega) h64, Int.toNat_natCast,
      Int.toNat_natCast] at hresult
  by_cases hexact : facts.isExact = true
  · rw [if_pos hexact] at hresult
    dsimp only at hresult
    have hbits := exactFieldBits_eq (show 0 < w by omega) h64 o facts.rangeLo
    have hpow : (2 : ℤ) ^ w ≤ 2 ^ 64 := pow_le_pow_right₀ (by decide) (by omega)
    cases signedExtract with
    | false =>
      have hmod := Int.emod_lt_of_pos (fieldBits sourceBitCount o facts.rangeLo) hpos
      obtain ⟨rfl, hlt⟩ := makeUnsignedRawBits_eq_some (by omega) (by omega) hresult
      have hcast := cast_two_pow w
      rw [Nat.mod_eq_of_lt (by omega)] at hlt ⊢
      rw [if_neg (by decide), hbits, hf.eq_rangeLo_of_exact hexact h]
      exact exactI64_admits ⟨by omega, by omega⟩
    | true =>
      rw [if_pos rfl, makeSignedRawBits_eq (by omega) (by omega) (by omega), hbits] at hresult
      have hbmod := Int.emod_bmod (fieldBits sourceBitCount o facts.rangeLo) (2 ^ w)
      rw [cast_two_pow] at hbmod
      rw [if_pos rfl, ← Option.some.inj hresult, hbmod, hf.eq_rangeLo_of_exact hexact h]
      exact exactI64_admits (isI64_bmod (by omega) (by omega) _)
  rw [if_neg hexact] at hresult
  dsimp only at hresult
  unfold isFloat at hresult
  rw [hf.not_float] at hresult
  have hshifted : o ≤ 63 → (shrsi facts (exactI64 o)).Admits (v / 2 ^ o) :=
    fun ho => shrsi_admits hf rfl rfl ho hv64 h
  cases signedExtract with
  | false =>
    rw [if_neg (by decide)]
    by_cases hw64 : w = 64
    · rw [if_pos (by simp [hw64]), if_neg (by decide), hw64] at hresult
      rw [← Option.some.inj hresult]
      exact unknown_admits _
    rw [if_neg (by simp; omega), if_neg (by simp), if_neg (by decide)] at hresult
    rw [← Option.some.inj hresult,
      ← (Int.modEq_iff_dvd.mpr (two_pow_dvd_fieldBits_sub (by omega) v)).eq]
    have hmod := Int.emod_lt_of_pos (v / 2 ^ o) hpos
    have hpow : (2 : ℤ) ^ w ≤ 2 ^ 63 := pow_le_pow_right₀ (by decide) (by omega)
    exact wrapUnsignedInteger_admits (shrsi_wellFormed hf _) (by omega) (by omega)
      (hshifted (by omega)) (by omega)
  | true =>
    rw [if_neg (by simp), if_pos rfl] at hresult
    rw [if_pos rfl, ← Option.some.inj hresult,
      bmod_two_pow_congr (two_pow_dvd_fieldBits_sub (by omega) v)]
    have hwrap := wrapInteger_admits (shrsi_wellFormed hf _) (show 0 < w by omega) (by omega)
      (hshifted (by omega))
    by_cases hw1 : w = 1
    · subst hw1
      rw [if_pos ⟨rfl, rfl⟩]
      have hspec := represent_spec (show 0 < 1 by decide) (v / 2 ^ o)
      rw [← bmod_two_pow_congr hspec.2]
      exact signExtend_admits
        (wrapInteger_wellFormed (shrsi_wellFormed hf _) (by decide) (by decide)) (by decide)
        hspec.1 hwrap
    · rw [if_neg (by omega)]
      rwa [represent, if_neg hw1] at hwrap

/-- Reductions, extensions and fields of a described integer are described by the facts computed for
them. An unsigned result of 64 bits may be no signed word; the facts describe it if it is one. -/
theorem width_changes_admit {facts : IntegerFacts} {v : ℤ} (hf : facts.WellFormed)
    (h : facts.Admits v) :
    (∀ bitCount : ℕ, 1 ≤ bitCount → bitCount ≤ 64 →
      (facts.wrapInteger bitCount).Admits (represent bitCount v) ∧
      ((bitCount = 64 → v % 2 ^ 64 < 2 ^ 63) →
        (facts.wrapUnsignedInteger bitCount).Admits (v % 2 ^ bitCount))) ∧
    ∀ sourceBitCount : ℕ, 1 ≤ sourceBitCount → sourceBitCount ≤ 64 →
      IsRepresented sourceBitCount v →
      (facts.zeroExtend sourceBitCount).Admits (v % 2 ^ sourceBitCount) ∧
      (facts.signExtend sourceBitCount).Admits (Int.bmod v (2 ^ sourceBitCount)) ∧
      ∀ (offset width : ℤ) (result : IntegerFacts),
        (facts.extractUnsignedBitfield sourceBitCount offset width = some result →
          result.Admits (fieldBits sourceBitCount offset.toNat v % 2 ^ width.toNat)) ∧
        (facts.extractSignedBitfield sourceBitCount offset width = some result →
          result.Admits (Int.bmod (fieldBits sourceBitCount offset.toNat v)
            (2 ^ width.toNat))) := by
  constructor
  · intro bitCount hb h64
    refine ⟨wrapInteger_admits hf hb h64 h, fun hsmall => wrapUnsignedInteger_admits hf hb h64 h ?_⟩
    by_cases heq : bitCount = 64
    · rw [heq]
      exact hsmall heq
    · have hpow : (2 : ℤ) ^ bitCount ≤ 2 ^ 63 := pow_le_pow_right₀ (by decide) (by omega)
      omega
  · intro sourceBitCount hb _ hv
    refine ⟨zeroExtend_admits hf hv h, signExtend_admits hf hb hv h, fun offset width result => ?_⟩
    exact ⟨extractBitfield_admits hf hv h, extractBitfield_admits hf hv h⟩

/-- A range across zero, cut to three bits and read as a field. -/
theorem width_changes_admit_crossing :
    ((make (-6) 5 1).wrapInteger 3).Admits 2 ∧
      ((make (-6) 5 1).zeroExtend 4).Admits 10 ∧
      ∀ result, (make (-6) 5 1).extractSignedBitfield 4 1 2 = some result → result.Admits 1 := by
  have hf : (make (-6) 5 1).WellFormed := make_wellFormed (by decide) (by decide) (by decide)
  have hsound := width_changes_admit hf
    (make_admits (v := -6) (by decide) (by decide) (by decide) (Int.one_dvd _))
  have hfour := hsound.2 4 (by decide) (by decide) (by decide)
  exact ⟨(hsound.1 3 (by decide) (by decide)).1, hfour.1, fun result => (hfour.2.2 1 2 result).2⟩

end IntegerFacts

end Hrx.Facts
