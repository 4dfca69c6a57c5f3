import Mathlib.Data.Nat.Basic
import Mathlib.Algebra.Group.Nat.Defs
import Mathlib.Algebra.Group.Int.Defs

/-!
# Value facts

The range and divisibility facts of `loom/ir/facts.{c,h}`, and the integer helpers of
`iree/base/internal/math.h` and `iree/base/checked_math.h` that they use.  A fact's EXACT flag is
derived from its range, so it is a function of the range here; flags for sign, distribution and
topology are left out.  A definition with a `loom_value_facts_` counterpart keeps its name, without
that part.
-/

namespace Hrx.Facts

open Int64

/-! ### Integer helpers -/

/-- `iree_math_gcd_u64`. -/
def gcdU64 (a b : UInt64) : UInt64 := if _h : b = 0 then a else gcdU64 b (a % b)
termination_by b.toNat
decreasing_by
  rw [UInt64.toNat_mod]
  exact Nat.mod_lt _ (Nat.pos_of_ne_zero fun h0 => _h (UInt64.toNat_inj.mp h0))

variable (value : Int64)

/-- `iree_math_magnitude_i64`. -/
def magnitudeI64 : UInt64 := if value ≥ 0 then value.toUInt64 else (-(value + 1)).toUInt64 + 1

/-- `iree_math_gcd_i64`. -/
def gcdI64 (a b : Int64) : UInt64 := gcdU64 (magnitudeI64 a) (magnitudeI64 b)

/-- `iree_checked_add_i64`. -/
def checkedAddI64 (a b : Int64) : Option Int64 :=
  let sum := a.toInt + b.toInt
  if Int64.minValue.toInt ≤ sum ∧ sum ≤ Int64.maxValue.toInt then some (a + b) else none

/-! ### Facts -/

def exactI64Divisor : Int64 :=
  if value ≠ 0 ∧ value ≠ Int64.minValue then (if value < 0 then -value else value) else 1

lemma toInt_exactI64Divisor {value : Int64} (h0 : value ≠ 0) (hmin : value ≠ Int64.minValue) :
    (exactI64Divisor value).toInt = value.toInt.natAbs := by
  have hle := le_toInt value
  have hmin' : value.toInt ≠ -2 ^ 63 := fun h => hmin (toInt_inj.mp h)
  rw [exactI64Divisor, if_pos ⟨h0, hmin⟩]
  by_cases hneg : value < 0
  · rw [if_pos hneg]
    rw [lt_iff_toInt_lt, toInt_zero] at hneg
    rw [toInt_neg, Int.bmod_eq_of_le (by omega) (by omega)]
    exact (Int.ofNat_natAbs_of_nonpos (Int.le_of_lt hneg)).symm
  · rw [if_neg hneg]
    rw [lt_iff_toInt_lt, toInt_zero, Int.not_lt] at hneg
    exact (Int.natAbs_of_nonneg hneg).symm

lemma one_le_exactI64Divisor : 1 ≤ exactI64Divisor value := by
  by_cases h : value ≠ 0 ∧ value ≠ Int64.minValue
  · have h0 : value.toInt ≠ 0 := fun h0 => h.1 (toInt_inj.mp h0)
    rw [le_iff_toInt_le, toInt_exactI64Divisor h.1 h.2, toInt_one]
    omega
  · rw [exactI64Divisor, if_neg h]
    decide

/-- `loom_value_facts_t`. -/
structure ValueFacts where
  rangeLo : Int64
  rangeHi : Int64
  knownDivisor : Int64
  isFloat : Bool
  one_le_knownDivisor : 1 ≤ knownDivisor
deriving DecidableEq

namespace ValueFacts

def unknown : ValueFacts := ⟨Int64.minValue, Int64.maxValue, 1, false, by decide⟩

def exactI64 : ValueFacts :=
  ⟨value, value, exactI64Divisor value, false, one_le_exactI64Divisor value⟩

def make (lo hi knownDivisor : Int64) : ValueFacts :=
  if lo > hi then unknown
  else if lo = hi then ⟨lo, hi, exactI64Divisor lo, false, one_le_exactI64Divisor lo⟩
  else if h : knownDivisor < 1 then ⟨lo, hi, 1, false, by decide⟩
  else ⟨lo, hi, knownDivisor, false, Int64.not_lt.mp h⟩

variable (facts : ValueFacts)

def isExact : Bool := facts.rangeLo = facts.rangeHi

def isZero : Bool := !facts.isFloat && facts.rangeLo = 0 && facts.rangeHi = 0

def asExactI64 : Option Int64 := if facts.isExact ∧ !facts.isFloat then some facts.rangeLo else none

def fitSignedBitCount (bitCount : ℕ) : Bool :=
  if bitCount = 0 ∨ facts.isFloat then false
  else if bitCount ≥ 64 then true
  else
    let one := ((1 : UInt64) <<< UInt64.ofNat (bitCount - 1)).toInt64
    let minimumValue := -one
    let maximumValue := one - 1
    facts.rangeLo ≥ minimumValue ∧ facts.rangeHi ≤ maximumValue

def fitUnsignedBitCount (bitCount : ℕ) : Bool :=
  if bitCount = 0 ∨ facts.isFloat ∨ facts.rangeLo < 0 then false
  else if bitCount ≥ 63 then true
  else
    let maximumValue : UInt64 := (1 <<< UInt64.ofNat bitCount) - 1
    facts.rangeHi.toUInt64 ≤ maximumValue

def addi (lhs rhs : ValueFacts) : ValueFacts :=
  if lhs.isZero then rhs
  else if rhs.isZero then lhs
  else
    let divisor := (gcdI64 lhs.knownDivisor rhs.knownDivisor).toInt64
    match checkedAddI64 lhs.rangeLo rhs.rangeLo, checkedAddI64 lhs.rangeHi rhs.rangeHi with
    | some lo, some hi => make lo hi divisor
    -- the range overflowed, but the divisor is still valid
    | _, _ => make Int64.minValue Int64.maxValue divisor

end ValueFacts

end Hrx.Facts
