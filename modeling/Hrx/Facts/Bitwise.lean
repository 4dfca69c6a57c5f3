import Hrx.Facts.Integer

/-!
# Bitwise operations, rotations, minima and maxima of facts

The transfer functions of `loom/ir/facts_bitwise.c`, and the rotations, minima and maxima of
`loom/ir/facts.c`.  A definition with a `loom_value_facts_` counterpart keeps its name, without that
part.
-/

namespace Hrx.Facts.IntegerFacts

/-! ### Bitwise operations -/

/-- `bits & (UINT64_C(0) - bits)`. -/
def lowestBitU64 (bits : ℕ) : ℕ := (BitVec.ofNat 64 bits &&& -BitVec.ofNat 64 bits).toNat

def bitwiseDivisor (facts : IntegerFacts) : ℤ :=
  let bits := if facts.isExact then toU64 facts.rangeLo else toU64 facts.knownDivisor
  let divisor := lowestBitU64 bits
  if divisor = 0 ∨ divisor > 2 ^ 63 - 1 then 2 ^ 62 else toI64 divisor

/-- `iree_math_count_leading_zeros_u64`. -/
def countLeadingZerosU64 (n : ℕ) : ℕ := if n = 0 then 64 else 63 - n.log2

def nonNegativeBitwiseUpperBound (lhsHi rhsHi : ℤ) : ℤ :=
  let maximumOperand := toU64 (max lhsHi rhsHi)
  if maximumOperand = 0 then 0
  else
    let bitCount := 64 - countLeadingZerosU64 maximumOperand
    toI64 (2 ^ bitCount - 1)

variable (lhs rhs : IntegerFacts)

def andi : IntegerFacts :=
  if lhs.rangeLo = lhs.rangeHi ∧ rhs.rangeLo = rhs.rangeHi then
    exactI64 (andI64 lhs.rangeLo rhs.rangeLo)
  else
    -- AND keeps the trailing zeros of either operand
    let divisor := max lhs.bitwiseDivisor rhs.bitwiseDivisor
    -- a nonnegative operand clears the sign and bounds the result
    let lo : ℤ := if lhs.rangeLo ≥ 0 then 0 else -2 ^ 63
    let hi : ℤ := if lhs.rangeLo ≥ 0 then lhs.rangeHi else 2 ^ 63 - 1
    let lo : ℤ := if rhs.rangeLo ≥ 0 then 0 else lo
    let hi : ℤ := if rhs.rangeLo ≥ 0 then min hi rhs.rangeHi else hi
    make lo (andI64 hi (-divisor)) divisor

def ori : IntegerFacts :=
  if lhs.rangeLo = lhs.rangeHi ∧ rhs.rangeLo = rhs.rangeHi then
    exactI64 (orI64 lhs.rangeLo rhs.rangeLo)
  else
    let divisor := min lhs.bitwiseDivisor rhs.bitwiseDivisor
    let nonNegative := lhs.rangeLo ≥ 0 ∧ rhs.rangeLo ≥ 0
    let lo : ℤ := if nonNegative then max lhs.rangeLo rhs.rangeLo else -2 ^ 63
    let hi : ℤ :=
      if nonNegative then nonNegativeBitwiseUpperBound lhs.rangeHi rhs.rangeHi else 2 ^ 63 - 1
    let out := make lo (andI64 hi (-divisor)) divisor
    -- a set bit survives
    out.withNonZero (lhs.isNonZero || rhs.isNonZero)

def xori : IntegerFacts :=
  if lhs.rangeLo = lhs.rangeHi ∧ rhs.rangeLo = rhs.rangeHi then
    exactI64 (xorI64 lhs.rangeLo rhs.rangeLo)
  else
    let divisor := min lhs.bitwiseDivisor rhs.bitwiseDivisor
    let nonNegative := lhs.rangeLo ≥ 0 ∧ rhs.rangeLo ≥ 0
    let lo : ℤ := if nonNegative then 0 else -2 ^ 63
    let hi : ℤ :=
      if nonNegative then nonNegativeBitwiseUpperBound lhs.rangeHi rhs.rangeHi else 2 ^ 63 - 1
    make lo (andI64 hi (-divisor)) divisor

/-! ### Rotations -/

/-- The bits rotated inside of a word, before masking: `(x << left) | (x >> right)`. -/
def rotateBits (rawValue left right : ℕ) : ℕ := rawValue <<< left % 2 ^ 64 ||| rawValue >>> right

variable (bitCount : ℕ)

def rotate (rotateLeft : Bool) : IntegerFacts :=
  if bitCount = 0 ∨ bitCount > 64 then unknown
  else
    match lhs.asExactI64, rhs.asExactI64 with
    | some value, some amount =>
      let normalizedAmount := amount.tmod bitCount
      let normalizedAmount :=
        if normalizedAmount < 0 then normalizedAmount + bitCount else normalizedAmount
      let shift := normalizedAmount.toNat
      let mask := if bitCount = 64 then 2 ^ 64 - 1 else 2 ^ bitCount - 1
      let rawValue := toU64 value &&& mask
      let complement := bitCount - shift
      let rotated :=
        if shift = 0 then rawValue
        else if rotateLeft then rotateBits rawValue shift complement
        else rotateBits rawValue complement shift
      if bitCount = 1 then exactI64 (toI64 (rotated &&& 1))
      else makeSignedRawBits (rotated &&& mask) bitCount
    | _, _ => unknown

def rotli : IntegerFacts := rotate lhs rhs bitCount true

def rotri : IntegerFacts := rotate lhs rhs bitCount false

/-! ### Minima and maxima -/

def minimumRange : IntegerFacts :=
  make (min lhs.rangeLo rhs.rangeLo) (min lhs.rangeHi rhs.rangeHi)
    (Int.gcd lhs.knownDivisor rhs.knownDivisor)

def maximumRange : IntegerFacts :=
  make (max lhs.rangeLo rhs.rangeLo) (max lhs.rangeHi rhs.rangeHi)
    (Int.gcd lhs.knownDivisor rhs.knownDivisor)

/-- `loom_value_facts_minsi`: one bit stores true as 1, while signed true is below false. -/
def minsi : IntegerFacts := if bitCount = 1 then maximumRange lhs rhs else minimumRange lhs rhs

def maxsi : IntegerFacts := if bitCount = 1 then minimumRange lhs rhs else maximumRange lhs rhs

def minui : IntegerFacts :=
  if lhs.rangeLo ≥ 0 ∧ rhs.rangeLo ≥ 0 then minimumRange lhs rhs
  else if lhs.isExact ∧ rhs.isExact then
    exactI64 (if toU64 lhs.rangeLo < toU64 rhs.rangeLo then lhs.rangeLo else rhs.rangeLo)
  else unknown

def maxui : IntegerFacts :=
  if lhs.rangeLo ≥ 0 ∧ rhs.rangeLo ≥ 0 then maximumRange lhs rhs
  else if lhs.isExact ∧ rhs.isExact then
    exactI64 (if toU64 lhs.rangeLo > toU64 rhs.rangeLo then lhs.rangeLo else rhs.rangeLo)
  else unknown

end Hrx.Facts.IntegerFacts
