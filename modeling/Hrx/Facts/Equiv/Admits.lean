import Hrx.Facts.Basic
import Hrx.Facts.Integer
import Hrx.Lib.TwosComplement
import Mathlib.Data.Int.GCD

/-!
# The integers that facts admit

`Admits facts v` says that the integer `v` lies in the range and is a multiple of the divisor.  One
lemma for each constructor and predicate says what it means for the admitted integers.
-/

namespace Hrx.Facts

open Int64

/-! ### Integer helpers -/

lemma toNat_gcdU64 (a b : UInt64) : (gcdU64 a b).toNat = Nat.gcd a.toNat b.toNat := by
  fun_induction gcdU64 a b with
  | case1 => rw [UInt64.toNat_zero, Nat.gcd_zero_right]
  | case2 a b h ih => rw [ih, UInt64.toNat_mod, Nat.gcd_comm b.toNat, ← Nat.gcd_rec, Nat.gcd_comm]

/-- A word read as a signed integer. -/
lemma toInt_toInt64 (word : UInt64) : word.toInt64.toInt =
    if word.toNat < 2 ^ 63 then (word.toNat : ℤ) else word.toNat - 2 ^ 64 := by
  have h := BitVec.toInt_eq_toNat_cond word.toBitVec
  show word.toBitVec.toInt = _
  rw [h]
  show (if 2 * word.toNat < 2 ^ 64 then (word.toNat : ℤ) else word.toNat - (2 ^ 64 : ℕ)) = _
  split_ifs <;> omega

variable (value : Int64)

lemma toInt_eq : value.toInt =
    if value.toUInt64.toNat < 2 ^ 63 then (value.toUInt64.toNat : ℤ)
    else value.toUInt64.toNat - 2 ^ 64 :=
  toInt_toInt64 value.toUInt64

/-- Sums and negations of signed words in range are those of the integers. -/
lemma toInt_add_of_range {a b : Int64} (hle : -2 ^ 63 ≤ a.toInt + b.toInt)
    (hlt : a.toInt + b.toInt < 2 ^ 63) : (a + b).toInt = a.toInt + b.toInt := by
  rw [toInt_add, Int.bmod_eq_of_le] <;> omega

lemma toInt_neg_of_range {a : Int64} (h : -2 ^ 63 < a.toInt) : (-a).toInt = -a.toInt := by
  have hlt := toInt_lt a
  rw [toInt_neg, Int.bmod_eq_of_le] <;> omega

lemma toNat_magnitudeI64 : (magnitudeI64 value).toNat = value.toInt.natAbs := by
  have hle := le_toInt value
  unfold magnitudeI64
  split_ifs with h
  · rw [ge_iff_le, le_iff_toInt_le, toInt_zero] at h
    have habs : (value.toInt.natAbs : ℤ) = value.toInt := Int.natAbs_of_nonneg h
    have hword := toInt_eq value
    have := value.toUInt64.toNat_lt
    split_ifs at hword <;> omega
  · rw [ge_iff_le, le_iff_toInt_le, toInt_zero, Int.not_le] at h
    have hsucc : (value + 1).toInt = value.toInt + 1 :=
      toInt_add_of_range (by rw [toInt_one]; omega) (by rw [toInt_one]; omega)
    have hneg : (-(value + 1)).toInt = -(value.toInt + 1) := by
      rw [toInt_neg_of_range (by omega), hsucc]
    have habs : (value.toInt.natAbs : ℤ) = -value.toInt := Int.ofNat_natAbs_of_nonpos (by omega)
    have hword := toInt_eq (-(value + 1))
    have := (-(value + 1)).toUInt64.toNat_lt
    rw [UInt64.toNat_add, UInt64.toNat_one, Nat.mod_eq_of_lt] <;> split_ifs at hword <;> omega

/-- Powers of two by shifting. -/
lemma toNat_one_shiftLeft {k : ℕ} (hk : k < 64) :
    ((1 : UInt64) <<< UInt64.ofNat k).toNat = 2 ^ k := by
  have hpow : 2 ^ k < 2 ^ 64 := Nat.pow_lt_pow_right (by decide) hk
  have hk' : (UInt64.ofNat k).toNat = k := UInt64.toNat_ofNat_of_lt' (hk.trans (by decide))
  rw [UInt64.toNat_shiftLeft, hk', Nat.mod_eq_of_lt hk, Nat.shiftLeft_eq, UInt64.toNat_one,
      Nat.one_mul,
    Nat.mod_eq_of_lt hpow]

/-! ### Ranges -/

namespace ValueFacts

def InRange (facts : ValueFacts) (v : ℤ) : Prop := facts.rangeLo.toInt ≤ v ∧ v ≤ facts.rangeHi.toInt

/-- The integer lies in the range and is a multiple of the divisor. -/
structure Admits (facts : ValueFacts) (v : ℤ) : Prop where
  inRange : facts.InRange v
  dvd : facts.knownDivisor.toInt ∣ v

variable {v : ℤ} {facts : ValueFacts}

/-- The record of `IntegerFacts`: the range determines the flags of an integer. -/
def toIntegerFacts (facts : ValueFacts) : IntegerFacts :=
  ⟨facts.rangeLo.toInt, facts.rangeHi.toInt, facts.knownDivisor.toInt,
    { computeFlags facts.rangeLo.toInt facts.rangeHi.toInt with
      floating := { float := facts.isFloat } }⟩

lemma toIntegerFacts_exactI64 : (exactI64 value).toIntegerFacts = .exactI64 value.toInt := by
  have hmin : value.toInt = -2 ^ 63 ↔ value = Int64.minValue := toInt_inj (y := Int64.minValue)
  have hzero : value.toInt = 0 ↔ value = 0 := toInt_inj (y := 0)
  have hdivisor : (exactI64Divisor value).toInt = IntegerFacts.exactDivisor value.toInt := by
    unfold IntegerFacts.exactDivisor
    split_ifs with h
    · exact toInt_exactI64Divisor (mt hzero.mpr h.1) (mt hmin.mpr h.2)
    · rw [ne_eq, hzero, ne_eq, hmin] at h
      rw [exactI64Divisor, if_neg h, toInt_one]
  exact congrArg (IntegerFacts.mk _ _ · _) hdivisor

/-- Both models make the same facts of a range and a divisor. -/
lemma toIntegerFacts_make (lo hi d : Int64) :
    (make lo hi d).toIntegerFacts = .make lo.toInt hi.toInt d.toInt := by
  unfold make IntegerFacts.make
  simp only [gt_iff_lt, lt_iff_toInt_lt, ← toInt_inj, toInt_one]
  split_ifs with h1 h2 h3
  · decide
  · obtain rfl := toInt_inj.mp h2
    exact toIntegerFacts_exactI64 lo
  · rfl
  · rfl

lemma asExactI64_toIntegerFacts :
    facts.toIntegerFacts.asExactI64 = facts.asExactI64.map Int64.toInt := by
  have hexact : facts.toIntegerFacts.isExact = facts.isExact := decide_eq_decide.mpr toInt_inj
  have hfloat : facts.toIntegerFacts.isFloat = facts.isFloat := rfl
  unfold asExactI64 IntegerFacts.asExactI64
  rw [hexact, hfloat]
  cases facts.isExact <;> cases facts.isFloat <;> rfl

lemma unknown_admits (hle : -2 ^ 63 ≤ v) (hlt : v < 2 ^ 63) : unknown.Admits v := by
  refine ⟨⟨?_, ?_⟩, Int.one_dvd v⟩
  · exact hle
  · have : unknown.rangeHi.toInt = 2 ^ 63 - 1 := by decide
    omega

lemma exactI64Divisor_dvd : (exactI64Divisor value).toInt ∣ value.toInt := by
  by_cases h : value ≠ 0 ∧ value ≠ Int64.minValue
  · rw [toInt_exactI64Divisor h.1 h.2]
    exact Int.natAbs_dvd.mpr (Int.dvd_refl _)
  · rw [exactI64Divisor, if_neg h]
    exact Int.one_dvd _

lemma exactI64_admits : (exactI64 value).Admits value.toInt :=
  ⟨⟨Int.le_refl _, Int.le_refl _⟩, exactI64Divisor_dvd value⟩

lemma make_inRange {lo hi : Int64} (d : Int64) (hlo : lo.toInt ≤ v) (hhi : v ≤ hi.toInt) :
    (make lo hi d).InRange v := by
  unfold make
  split_ifs with h1
  · exact absurd (lt_iff_toInt_lt.mp h1) (by omega)
  all_goals exact ⟨hlo, hhi⟩

/-- Made facts admit the multiples of the divisor in the range. -/
lemma make_admits {lo hi d : Int64} (hlo : lo.toInt ≤ v) (hhi : v ≤ hi.toInt) (hd : d.toInt ∣ v) :
    (make lo hi d).Admits v := by
  unfold make
  split_ifs with h1 h2 h3
  · exact absurd (lt_iff_toInt_lt.mp h1) (by omega)
  · refine ⟨⟨hlo, hhi⟩, ?_⟩
    have hv : v = lo.toInt := by
      rw [← h2] at hhi
      omega
    rw [hv]
    exact exactI64Divisor_dvd lo
  · exact ⟨⟨hlo, hhi⟩, Int.one_dvd v⟩
  · exact ⟨⟨hlo, hhi⟩, hd⟩

lemma inRange_of_asExactI64 {value : Int64} (h : facts.asExactI64 = some value)
    (hv : facts.InRange v) : v = value.toInt := by
  unfold asExactI64 at h
  split_ifs at h with hexact
  have hends : facts.rangeLo = facts.rangeHi := of_decide_eq_true hexact.1
  have hlo := hv.1
  have hhi := hv.2
  rw [← hends] at hhi
  rw [← Option.some.inj h]
  omega

lemma eq_of_isExact (h : facts.isExact = true) (hv : facts.InRange v) :
    v = facts.rangeLo.toInt := by
  have hends : facts.rangeLo = facts.rangeHi := of_decide_eq_true h
  have hlo := hv.1
  have hhi := hv.2
  rw [← hends] at hhi
  omega

/-- Ranges that fit a signed carrier. -/
lemma fitSigned_bounds {w : ℕ} (hw : w ≤ 64) (h : facts.fitSignedBitCount w = true)
    (hv : facts.InRange v) : -2 ^ (w - 1) ≤ v ∧ v < 2 ^ (w - 1) := by
  have hlo := le_toInt facts.rangeLo
  have hhi := toInt_lt facts.rangeHi
  obtain ⟨hv1, hv2⟩ := hv
  unfold fitSignedBitCount at h
  split_ifs at h with h1 h2
  · have hw64 : w = 64 := by omega
    subst hw64
    omega
  obtain ⟨hmin, hmax⟩ := of_decide_eq_true h
  have hpow : 2 ^ (w - 1) < 2 ^ 63 := Nat.pow_lt_pow_right (by decide) (by omega)
  have hone : ((1 : UInt64) <<< UInt64.ofNat (w - 1)).toInt64.toInt = ((2 ^ (w - 1) : ℕ) : ℤ) := by
    rw [toInt_toInt64, toNat_one_shiftLeft (by omega), if_pos hpow]
  generalize ((1 : UInt64) <<< UInt64.ofNat (w - 1)).toInt64 = one at *
  have hcast := TwosComplement.cast_two_pow (w - 1)
  have hpos := Int.pow_pos (n := 2) (m := w - 1) (by decide)
  rw [ge_iff_le, le_iff_toInt_le, toInt_neg_of_range (by omega), hone] at hmin
  rw [le_iff_toInt_le, toInt_sub, toInt_one, hone, Int.bmod_eq_of_le] at hmax <;>
    omega

/-- Ranges that fit an unsigned carrier. -/
lemma fitUnsigned_bounds {w : ℕ} (h : facts.fitUnsignedBitCount w = true) (hv : facts.InRange v) :
    0 ≤ v ∧ v < 2 ^ w := by
  have hhi := toInt_lt facts.rangeHi
  obtain ⟨hv1, hv2⟩ := hv
  have hcast := TwosComplement.cast_two_pow w
  unfold fitUnsignedBitCount at h
  split_ifs at h with h1 h2
  all_goals
    rw [not_or, not_or, lt_iff_toInt_lt, toInt_zero] at h1
    refine ⟨by omega, ?_⟩
  · have hpow : 2 ^ 63 ≤ 2 ^ w := Nat.pow_le_pow_right (by decide) h2
    omega
  have hpow : 2 ^ w < 2 ^ 63 := Nat.pow_lt_pow_right (by decide) (by omega)
  have hpos := Nat.two_pow_pos w
  have hmax := of_decide_eq_true h
  rw [UInt64.le_iff_toNat_le, UInt64.toNat_sub_of_le, toNat_one_shiftLeft (by omega),
    UInt64.toNat_one] at hmax
  · have hword := toInt_eq facts.rangeHi
    split_ifs at hword <;> omega
  · rw [UInt64.le_iff_toNat_le, toNat_one_shiftLeft (by omega), UInt64.toNat_one]
    exact hpos

/-! ### Sums -/

lemma toInt_zero_of_isZero (h : facts.isZero = true) (hv : facts.InRange v) : v = 0 := by
  rw [isZero, Bool.and_eq_true, Bool.and_eq_true, decide_eq_true_eq, decide_eq_true_eq] at h
  obtain ⟨hlo, hhi⟩ := hv
  rw [h.1.2] at hlo
  rw [h.2] at hhi
  exact Int.le_antisymm hhi hlo

lemma checkedAddI64_eq_some {a b c : Int64} (h : checkedAddI64 a b = some c) :
    c.toInt = a.toInt + b.toInt := by
  simp only [checkedAddI64] at h
  split_ifs at h with hrange
  rw [← Option.some.inj h]
  have hmin : Int64.minValue.toInt = -2 ^ 63 := by decide
  have hmax : Int64.maxValue.toInt = 2 ^ 63 - 1 := by decide
  apply toInt_add_of_range <;> omega

/-- The range of a sum holds the sum of the integers, unless it overflowed and is the whole
range. -/
lemma addi_inRange (lhs rhs : ValueFacts) {u : ℤ} (hu : lhs.InRange u) (hv : rhs.InRange v) :
    (addi lhs rhs).InRange (u + v) ∨
      (addi lhs rhs).rangeLo = Int64.minValue ∧ (addi lhs rhs).rangeHi = Int64.maxValue := by
  unfold addi
  split_ifs with hl hr
  · rw [toInt_zero_of_isZero hl hu, Int.zero_add]
    exact Or.inl hv
  · rw [toInt_zero_of_isZero hr hv, Int.add_zero]
    exact Or.inl hu
  split
  case h_1 lo hi hlo hhi =>
    left
    have hlo' := checkedAddI64_eq_some hlo
    have hhi' := checkedAddI64_eq_some hhi
    apply make_inRange
    · rw [hlo']
      exact Int.add_le_add hu.1 hv.1
    · rw [hhi']
      exact Int.add_le_add hu.2 hv.2
  case h_2 =>
    right
    rw [make, if_neg (by decide), if_neg (by decide)]
    split_ifs <;> exact ⟨rfl, rfl⟩

end ValueFacts

end Hrx.Facts
