import Mathlib.Algebra.Group.Nat.Defs
import Mathlib.Algebra.Group.Int.Defs

/-!
# Integer facts with their flags

The record `loom_value_facts_t` of `loom/ir/facts.{c,h}` with the flags that describe a value: those
derived from the range, NON_ZERO and POWER_OF_TWO, which predicates may also assert, and the
floating-point ones. The flags for execution distribution, lane masks and topology, and the
extension, describe no value and are left out, with the calls that only propagate them.

A signed word is an integer, an unsigned word a natural number.  Signed arithmetic is that of the
integers, since overflow has no meaning in the source; unsigned arithmetic and the casts between the
two are explicit.  A definition with a `loom_value_facts_` counterpart keeps its name, without that
part.
-/

namespace Hrx.Facts

/-! ### Words -/

variable (value : ℤ)

def toU64 : ℕ := (value % 2 ^ 64).toNat

def toI64 (word : ℕ) : ℤ := Int.bmod word (2 ^ 64)

def andI64 (lhs rhs : ℤ) : ℤ := (BitVec.ofInt 64 lhs &&& BitVec.ofInt 64 rhs).toInt

def orI64 (lhs rhs : ℤ) : ℤ := (BitVec.ofInt 64 lhs ||| BitVec.ofInt 64 rhs).toInt

def xorI64 (lhs rhs : ℤ) : ℤ := (BitVec.ofInt 64 lhs ^^^ BitVec.ofInt 64 rhs).toInt

/-- `iree_math_mask_low_bits_u64`. -/
def maskLowBitsU64 (value bitCount : ℕ) : ℕ :=
  if bitCount = 0 then 0
  else if bitCount ≥ 64 then value
  else value &&& (2 ^ bitCount - 1)

/-- `iree_math_magnitude_i64`. -/
def magnitude : ℕ := if value ≥ 0 then value.toNat else (-(value + 1)).toNat + 1

/-! ### Flags -/

/-- The flags of `LOOM_VALUE_FACT_FLOAT_PREDICATE_MASK`. -/
structure FloatFlags where
  float : Bool := false
  nan : Bool := false
  inf : Bool := false
  notNan : Bool := false
  notInf : Bool := false
  finite : Bool := false
  notSubnormal : Bool := false
deriving DecidableEq

/-- `loom_value_fact_flags_t`. -/
structure Flags where
  nonNegative : Bool := false
  nonZero : Bool := false
  positive : Bool := false
  powerOfTwo : Bool := false
  exact : Bool := false
  boolean : Bool := false
  floating : FloatFlags := {}
deriving DecidableEq

def FloatFlags.union (a b : FloatFlags) : FloatFlags where
  float := a.float || b.float
  nan := a.nan || b.nan
  inf := a.inf || b.inf
  notNan := a.notNan || b.notNan
  notInf := a.notInf || b.notInf
  finite := a.finite || b.finite
  notSubnormal := a.notSubnormal || b.notSubnormal

def Flags.union (a b : Flags) : Flags where
  nonNegative := a.nonNegative || b.nonNegative
  nonZero := a.nonZero || b.nonZero
  positive := a.positive || b.positive
  powerOfTwo := a.powerOfTwo || b.powerOfTwo
  exact := a.exact || b.exact
  boolean := a.boolean || b.boolean
  floating := a.floating.union b.floating

def computeFlags (lo hi : ℤ) : Flags where
  exact := lo = hi
  nonNegative := lo ≥ 0
  nonZero := lo > 0 ∨ hi < 0
  positive := lo > 0
  boolean := lo ≥ 0 ∧ hi ≤ 1
  -- provable for exact values only
  powerOfTwo := lo = hi ∧ lo > 0 ∧ andI64 lo (lo - 1) = 0

/-! ### Facts -/

/-- `loom_value_facts_t`. -/
structure IntegerFacts where
  rangeLo : ℤ
  rangeHi : ℤ
  knownDivisor : ℤ
  flags : Flags
deriving DecidableEq

namespace IntegerFacts

/-- `loom_value_facts_exact_i64_divisor`. -/
def exactDivisor : ℤ := if value ≠ 0 ∧ value ≠ -2 ^ 63 then value.natAbs else 1

def unknown : IntegerFacts := ⟨-2 ^ 63, 2 ^ 63 - 1, 1, {}⟩

def exactI64 : IntegerFacts := ⟨value, value, exactDivisor value, computeFlags value value⟩

def make (lo hi knownDivisor : ℤ) : IntegerFacts :=
  let knownDivisor := if knownDivisor < 1 then 1 else knownDivisor
  if lo > hi then unknown
  else
    let knownDivisor := if lo = hi then exactDivisor lo else knownDivisor
    ⟨lo, hi, knownDivisor, computeFlags lo hi⟩

variable (facts : IntegerFacts)

def isExact : Bool := facts.flags.exact

def isFloat : Bool := facts.flags.floating.float

def isNonZero : Bool := facts.flags.nonZero

def asExactI64 : Option ℤ :=
  if facts.isExact = false ∨ facts.isFloat then none else some facts.rangeLo

/-- The facts with the NON_ZERO flag set where the condition holds. -/
def withNonZero (condition : Bool) : IntegerFacts :=
  { facts with flags := { facts.flags with nonZero := facts.flags.nonZero || condition } }

/-- The facts with the POWER_OF_TWO flag set where the condition holds. -/
def withPowerOfTwo (condition : Bool) : IntegerFacts :=
  { facts with flags := { facts.flags with powerOfTwo := facts.flags.powerOfTwo || condition } }

def clampDomain (lo hi : ℤ) : IntegerFacts :=
  if facts.isFloat then make lo hi 1
  else
    let rangeLo := max facts.rangeLo lo
    let rangeHi := min facts.rangeHi hi
    if rangeLo > rangeHi then make lo hi 1
    else
      let result := make rangeLo rangeHi facts.knownDivisor
      let result := result.withPowerOfTwo (facts.flags.powerOfTwo && rangeHi > 0)
      result.withNonZero facts.flags.nonZero

/-! ### Raw bits -/

def asExactRawBits (bitCount : ℕ) : Option ℕ :=
  if bitCount = 0 ∨ bitCount > 64 then none
  else facts.asExactI64.map fun value => maskLowBitsU64 (toU64 value) bitCount

variable (rawBits bitCount : ℕ)

def makeUnsignedRawBits : Option IntegerFacts :=
  if bitCount = 0 ∨ bitCount > 64 then none
  else
    let masked := maskLowBitsU64 rawBits bitCount
    if masked > 2 ^ 63 - 1 then none else some (exactI64 (toI64 masked))

def signExtendRawBits : ℤ :=
  if bitCount = 0 then 0
  else
    let masked := maskLowBitsU64 rawBits bitCount
    let signBit := 2 ^ (bitCount - 1)
    if masked &&& signBit = 0 then toI64 masked
    else
      let signedSignBit : ℤ := if bitCount = 64 then -2 ^ 63 else -toI64 signBit
      signedSignBit + toI64 (masked &&& (signBit - 1))

def makeSignedRawBits : IntegerFacts :=
  if bitCount = 0 ∨ bitCount > 64 then unknown else exactI64 (signExtendRawBits rawBits bitCount)

def makeUnsignedBitCountRange (bitCount : ℕ) : IntegerFacts :=
  if bitCount = 0 ∨ bitCount > 63 then unknown
  else
    let maximumValue : ℤ := if bitCount = 63 then 2 ^ 63 - 1 else toI64 (2 ^ bitCount - 1)
    make 0 maximumValue 1

def makeSignedBitCountRange (bitCount : ℕ) : IntegerFacts :=
  if bitCount = 0 ∨ bitCount > 64 then unknown
  else if bitCount = 64 then make (-2 ^ 63) (2 ^ 63 - 1) 1
  else make (-2 ^ (bitCount - 1)) (2 ^ (bitCount - 1) - 1) 1

def fitUnsignedBitCount (bitCount : ℕ) : Bool :=
  if bitCount = 0 ∨ facts.isFloat ∨ facts.rangeLo < 0 then false
  else if bitCount ≥ 63 then true
  else toU64 facts.rangeHi ≤ 2 ^ bitCount - 1

def unsignedWrapIsIdentity (bitCount : ℕ) : Bool :=
  facts.fitUnsignedBitCount bitCount &&
    (bitCount < 63 || facts.isExact || facts.rangeHi ≠ 2 ^ 63 - 1)

/-! ### Right shifts -/

def arithmeticShiftRightI64 (shift : ℕ) : ℤ :=
  if value ≥ 0 then toI64 (toU64 value >>> shift)
  else -1 - toI64 (toU64 (-(value + 1)) >>> shift)

def shrsi (lhs rhs : IntegerFacts) : IntegerFacts :=
  -- the amount must be exact and in [0, 63]
  if rhs.rangeLo ≠ rhs.rangeHi ∨ rhs.rangeLo < 0 ∨ rhs.rangeLo > 63 then unknown
  else
    let shift := rhs.rangeLo
    if shift = 63 then
      -- a shift by 63 replicates the sign
      if lhs.rangeLo ≥ 0 then exactI64 0
      else if lhs.rangeHi < 0 then exactI64 (-1)
      else make (-1) 0 1
    else
      let lo := arithmeticShiftRightI64 lhs.rangeLo shift.toNat
      let hi := arithmeticShiftRightI64 lhs.rangeHi shift.toNat
      let factor : ℤ := 2 ^ shift.toNat
      let divisor := if lhs.knownDivisor.tmod factor = 0 then lhs.knownDivisor.tdiv factor else 1
      make lo hi divisor

/-! ### Width changes -/

variable (sourceFacts : IntegerFacts)

def signExtend (sourceBitCount : ℕ) : IntegerFacts :=
  if sourceBitCount ≠ 1 then sourceFacts
  else
    match sourceFacts.asExactRawBits 1 with
    | some rawBits => makeSignedRawBits rawBits 1
    | none => make (-1) 0 1

/-- The declared domain of a width: signed, except that one bit is 0 or 1. -/
def declaredDomain (bitCount : ℕ) : IntegerFacts :=
  if bitCount = 1 then make 0 1 1 else makeSignedBitCountRange bitCount

/-- The part of `loom_value_facts_zero_extend` for a source that is not exact. -/
def zeroExtendRange (sourceBitCount : ℕ) : IntegerFacts :=
  let sourceDomain := declaredDomain sourceBitCount
  let clamped := sourceFacts.clampDomain sourceDomain.rangeLo sourceDomain.rangeHi
  if clamped.rangeLo ≥ 0 then clamped
  else
    let unsignedExtent : ℤ := 2 ^ sourceBitCount
    if clamped.rangeHi < 0 then
      make (clamped.rangeLo + unsignedExtent) (clamped.rangeHi + unsignedExtent)
        (Int.gcd clamped.knownDivisor unsignedExtent)
    else make 0 (unsignedExtent - 1) 1

def zeroExtend (sourceBitCount : ℕ) : IntegerFacts :=
  if sourceBitCount = 0 ∨ sourceBitCount ≥ 63 ∨ sourceFacts.isFloat then unknown
  else
    match sourceFacts.asExactRawBits sourceBitCount with
    | some rawBits => (makeUnsignedRawBits rawBits sourceBitCount).getD unknown
    | none => sourceFacts.zeroExtendRange sourceBitCount

/-- `known_divisor & -known_divisor`, at most `2^bit_count` where that is a positive word. -/
def wrapDivisor (bitCount : ℕ) : ℤ :=
  let divisor := andI64 sourceFacts.knownDivisor (-sourceFacts.knownDivisor)
  if bitCount < 63 then min divisor (2 ^ bitCount) else divisor

/-- An endpoint of the range, wrapped: one bit is 0 or 1. -/
def wrapEndpoint (bitCount : ℕ) : ℤ :=
  if bitCount = 1 then toI64 (toU64 value &&& 1) else signExtendRawBits (toU64 value) bitCount

def wrapInteger (bitCount : ℕ) : IntegerFacts :=
  let signedMaximum : ℤ := if bitCount = 64 then 2 ^ 63 - 1 else 2 ^ (bitCount - 1) - 1
  let domainLo : ℤ := if bitCount = 1 then 0 else -signedMaximum - 1
  let domainHi : ℤ := if bitCount = 1 then 1 else signedMaximum
  -- at 64 bits an endpoint of the lattice may stand for an overflow of the transfer itself
  if sourceFacts.rangeLo ≥ domainLo ∧ sourceFacts.rangeHi ≤ domainHi ∧
      ¬(bitCount = 64 ∧ sourceFacts.isExact = false ∧
        (sourceFacts.rangeLo = -2 ^ 63 ∨ sourceFacts.rangeHi = 2 ^ 63 - 1)) then sourceFacts
  else
    let wrappedLo := wrapEndpoint sourceFacts.rangeLo bitCount
    let wrappedHi := wrapEndpoint sourceFacts.rangeHi bitCount
    if sourceFacts.isExact then exactI64 wrappedLo
    else
      let divisor := sourceFacts.wrapDivisor bitCount
      let span := toU64 (sourceFacts.rangeHi - sourceFacts.rangeLo)
      if bitCount < 64 ∧ span < 2 ^ bitCount ∧ wrappedLo ≤ wrappedHi then
        make wrappedLo wrappedHi divisor
      else make domainLo domainHi divisor

def wrapUnsignedInteger (bitCount : ℕ) : IntegerFacts :=
  let domainHi : ℤ := if bitCount ≥ 63 then 2 ^ 63 - 1 else 2 ^ bitCount - 1
  let saturatedEndpoint := bitCount ≥ 63 ∧ sourceFacts.isExact = false ∧
    (sourceFacts.rangeLo = -2 ^ 63 ∨ sourceFacts.rangeHi = 2 ^ 63 - 1)
  if sourceFacts.unsignedWrapIsIdentity bitCount then sourceFacts
  else
    let divisor := sourceFacts.wrapDivisor bitCount
    -- past a saturated endpoint the hidden extent may cross the modular boundary
    if saturatedEndpoint then make 0 domainHi divisor
    else if bitCount = 64 then make 0 (2 ^ 63 - 1) divisor
    else
      let extent := 2 ^ bitCount
      let mask := extent - 1
      let wrappedLo := toU64 sourceFacts.rangeLo &&& mask
      let wrappedHi := toU64 sourceFacts.rangeHi &&& mask
      let span := toU64 (sourceFacts.rangeHi - sourceFacts.rangeLo)
      if sourceFacts.isExact then exactI64 (toI64 wrappedLo)
      else if span < extent ∧ wrappedLo ≤ wrappedHi then
        make (toI64 wrappedLo) (toI64 wrappedHi) divisor
      else make 0 domainHi divisor

variable (source : IntegerFacts)

def extractBitfield (sourceBitCount : ℕ) (offset width : ℤ)
    (signedExtract : Bool) : Option IntegerFacts :=
  if offset < 0 ∨ width ≤ 0 ∨ sourceBitCount = 0 ∨ sourceBitCount > 64 ∨ offset > sourceBitCount ∨
      width > sourceBitCount - offset ∨ width > 64 then none
  else
    match source.asExactRawBits sourceBitCount with
    | none =>
      if source.isFloat ∨ (signedExtract = false ∧ width = 64) then
        some (if signedExtract then makeSignedBitCountRange width.toNat
          else makeUnsignedBitCountRange width.toNat)
      else
        -- the shift keeps the order of the interval; the wrap drops the sign fill above the field
        let shifted := shrsi source (exactI64 offset)
        let facts := if signedExtract then shifted.wrapInteger width.toNat
          else shifted.wrapUnsignedInteger width.toNat
        -- a signed field of one bit is -1 or 0, unlike the facts of an i1
        some (if signedExtract ∧ width = 1 then facts.signExtend 1 else facts)
    | some sourceBits =>
      let fieldBits := maskLowBitsU64 (sourceBits >>> offset.toNat) width.toNat
      if signedExtract then some (makeSignedRawBits fieldBits width.toNat)
      else makeUnsignedRawBits fieldBits width.toNat

def extractUnsignedBitfield (sourceBitCount : ℕ) (offset width : ℤ) : Option IntegerFacts :=
  source.extractBitfield sourceBitCount offset width false

def extractSignedBitfield (sourceBitCount : ℕ) (offset width : ℤ) : Option IntegerFacts :=
  source.extractBitfield sourceBitCount offset width true

end IntegerFacts

end Hrx.Facts
