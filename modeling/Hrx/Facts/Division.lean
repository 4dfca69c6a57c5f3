import Hrx.Facts.Integer

/-!
# Division of facts

The transfer functions of `loom/ir/facts_division.c`, with the preimages of quotients, and the
logical right shift of `loom/ir/facts.c`.  The values that a quotient stands for are those of
`EvaluateQuotient` in `loom/ir/facts_division_test_util.cc`.  A definition with a
`loom_value_facts_` counterpart keeps its name, without that part.
-/

namespace Hrx.Facts

/-! ### Saturating arithmetic -/

/-- `iree_math_saturating_add_u64`. -/
def saturatingAddU64 (lhs rhs : ℕ) : ℕ := if lhs > 2 ^ 64 - 1 - rhs then 2 ^ 64 - 1 else lhs + rhs

/-- `iree_math_saturating_mul_u64`. -/
def saturatingMulU64 (lhs rhs : ℕ) : ℕ :=
  if lhs = 0 ∨ rhs = 0 then 0 else if lhs > (2 ^ 64 - 1) / rhs then 2 ^ 64 - 1 else lhs * rhs

structure UnsignedRange where
  minimum : ℕ
  maximum : ℕ
deriving DecidableEq

inductive UnsignedDivisionKind where
  | quotient
  | remainder
deriving DecidableEq

def UnsignedDivisionKind.apply (kind : UnsignedDivisionKind) (lhsBits rhsBits : ℕ) : ℕ :=
  match kind with
  | .quotient => lhsBits / rhsBits
  | .remainder => lhsBits % rhsBits

inductive QuotientKind where
  | divui
  | divsi
  | ceildivui
  | ceildivsi
  | floordivsi
  | shrui
  | shrsi
deriving DecidableEq

/-- `loom_quotient_rounding_t`. -/
inductive QuotientRounding where
  | floor
  | ceil
  | zero
deriving DecidableEq

variable (kind : QuotientKind)

/-- The kinds that read raw bits. -/
def QuotientKind.isUnsigned : Bool := kind = .divui ∨ kind = .ceildivui ∨ kind = .shrui

/-- The kinds whose scale is a shift amount. -/
def QuotientKind.isShift : Bool := kind = .shrui ∨ kind = .shrsi

def QuotientKind.rounding : QuotientRounding :=
  if kind = .ceildivui ∨ kind = .ceildivsi then .ceil else if kind = .divsi then .zero else .floor

/-- The rounding of the negated quotient. -/
def QuotientRounding.flip : QuotientRounding → QuotientRounding
  | .floor => .ceil
  | .ceil => .floor
  | .zero => .zero

/-- `loom_quotient_endpoint_t`. -/
inductive QuotientEndpoint where
  | lower
  | upper
deriving DecidableEq

/-- `loom_quotient_signed_magnitude_t`. -/
structure SignedMagnitude where
  magnitude : ℕ
  negative : Bool
deriving DecidableEq

namespace IntegerFacts

/-! ### Unsigned division -/

variable (facts : IntegerFacts)

def divisionOperand (bitCount : ℕ) : IntegerFacts :=
  if bitCount = 64 then facts else facts.wrapInteger bitCount

def unsignedRange (bitMask : ℕ) : UnsignedRange :=
  if facts.rangeLo ≥ 0 then ⟨toU64 facts.rangeLo, toU64 facts.rangeHi⟩
  else if facts.rangeHi < 0 then ⟨toU64 facts.rangeLo &&& bitMask, toU64 facts.rangeHi &&& bitMask⟩
  else ⟨0, bitMask⟩

def makeUnsignedResultRange (minimum maximum bitCount : ℕ) (knownDivisor : ℤ) : IntegerFacts :=
  if bitCount = 1 ∨ maximum < 2 ^ (bitCount - 1) then
    make (toI64 minimum) (toI64 maximum) knownDivisor
  else
    let knownDivisor := andI64 knownDivisor (-knownDivisor)
    if minimum ≥ 2 ^ (bitCount - 1) then
      let signedMinimum := (makeSignedRawBits minimum bitCount).rangeLo
      let signedMaximum := (makeSignedRawBits maximum bitCount).rangeLo
      make signedMinimum signedMaximum knownDivisor
    else
      let domain := makeSignedBitCountRange bitCount
      make domain.rangeLo domain.rangeHi knownDivisor

def unsignedKnownDivisor : ℤ :=
  if facts.rangeLo < 0 then andI64 facts.knownDivisor (-facts.knownDivisor) else facts.knownDivisor

variable (lhs rhs : IntegerFacts)

def remuiIsIdentity (bitCount : ℕ) : Bool :=
  let mask := maskLowBitsU64 (2 ^ 64 - 1) bitCount
  let lhsRange := (lhs.divisionOperand bitCount).unsignedRange mask
  let rhsRange := (rhs.divisionOperand bitCount).unsignedRange mask
  lhsRange.maximum < rhsRange.minimum

/-- The least nonzero divisor: a predicate alone may say that a range with zero has none. -/
def rhsMinimum (rhsFacts : IntegerFacts) (bitMask : ℕ) : ℕ :=
  let rhsRange := rhsFacts.unsignedRange bitMask
  if rhsRange.minimum = 0 then
    if rhsFacts.rangeHi > 0 then 1 else toU64 rhsFacts.rangeLo &&& bitMask
  else rhsRange.minimum

/-- The branch of `loom_value_facts_unsigned_division` for operands that are not both exact. -/
def unsignedDivisionRange (lhsFacts rhsFacts : IntegerFacts) (bitCount : ℕ)
    (kind : UnsignedDivisionKind) : IntegerFacts :=
  let rhsBits := rhsFacts.asExactRawBits bitCount
  let bitMask := maskLowBitsU64 (2 ^ 64 - 1) bitCount
  let lhsRange := lhsFacts.unsignedRange bitMask
  let rhsRange := rhsFacts.unsignedRange bitMask
  let rhsMayBeZero := rhsFacts.rangeLo ≤ 0 ∧ rhsFacts.rangeHi ≥ 0 ∧ rhsFacts.isNonZero = false
  let lhsDivisor := toU64 lhsFacts.unsignedKnownDivisor
  if rhsMayBeZero ∨ rhsRange.maximum = 0 then makeUnsignedResultRange 0 bitMask bitCount 1
  else
    match kind with
    | .remainder =>
      -- no reduction occurs, and everything known of the dividend is kept
      if lhsRange.maximum < rhsRange.minimum then lhsFacts
      else if rhsBits.isSome ∧ lhsDivisor % rhsBits.getD 0 = 0 then exactI64 0
      else makeUnsignedResultRange 0 (min lhsRange.maximum (rhsRange.maximum - 1)) bitCount 1
    | .quotient =>
      let rhsMinimum := rhsFacts.rhsMinimum bitMask
      let divisor :=
        if rhsBits.isSome ∧ lhsDivisor % rhsBits.getD 0 = 0 then
          toI64 (lhsDivisor / rhsBits.getD 0)
        else 1
      makeUnsignedResultRange (lhsRange.minimum / rhsRange.maximum) (lhsRange.maximum / rhsMinimum)
        bitCount divisor

def unsignedDivision (bitCount : ℕ) (kind : UnsignedDivisionKind) : IntegerFacts :=
  let lhsFacts := lhs.divisionOperand bitCount
  let rhsFacts := (rhs.divisionOperand bitCount).withNonZero rhs.flags.nonZero
  match lhsFacts.asExactRawBits bitCount, rhsFacts.asExactRawBits bitCount with
  | some lhsBits, some rhsBits =>
    if rhsBits ≠ 0 then
      let result := kind.apply lhsBits rhsBits
      if bitCount = 1 then exactI64 (toI64 result) else makeSignedRawBits result bitCount
    else unsignedDivisionRange lhsFacts rhsFacts bitCount kind
  | _, _ => unsignedDivisionRange lhsFacts rhsFacts bitCount kind

def divui (bitCount : ℕ) : IntegerFacts := unsignedDivision lhs rhs bitCount .quotient

def remui (bitCount : ℕ) : IntegerFacts := unsignedDivision lhs rhs bitCount .remainder

/-! ### Signed division -/

def divsi : IntegerFacts :=
  let absRhs : ℤ :=
    if rhs.rangeLo > 0 then rhs.rangeLo
    else if rhs.rangeLo = -2 ^ 63 then 2 ^ 63 - 1 else -rhs.rangeLo
  let divisor :=
    if rhs.rangeLo = rhs.rangeHi ∧ rhs.rangeLo ≠ 0 ∧ lhs.knownDivisor.tmod absRhs = 0 then
      lhs.knownDivisor.tdiv absRhs
    else 1
  -- a divisor range that includes zero says nothing about the range of the quotient
  if rhs.rangeLo ≤ 0 ∧ rhs.rangeHi ≥ 0 then make (-2 ^ 63) (2 ^ 63 - 1) divisor
  else if lhs.rangeLo ≥ 0 ∧ rhs.rangeLo > 0 then
    make (lhs.rangeLo.tdiv rhs.rangeHi) (lhs.rangeHi.tdiv rhs.rangeLo) divisor
  else make (-2 ^ 63) (2 ^ 63 - 1) divisor

def remainderI64 (dividend divisor : ℤ) : ℤ :=
  let remainder := magnitude dividend % magnitude divisor
  if dividend ≥ 0 ∨ remainder = 0 then toI64 remainder else -toI64 remainder

def remsi : IntegerFacts :=
  if rhs.rangeLo ≤ 0 ∧ rhs.rangeHi ≥ 0 then unknown
  else if lhs.rangeLo = lhs.rangeHi ∧ rhs.rangeLo = rhs.rangeHi then
    exactI64 (remainderI64 lhs.rangeLo rhs.rangeLo)
  else
    -- the magnitude of the result is below that of the divisor
    let maximumDivisorMagnitude := max (magnitude rhs.rangeLo) (magnitude rhs.rangeHi)
    let remainderBound := toI64 (maximumDivisorMagnitude - 1)
    make (-remainderBound) remainderBound 1

/-! ### Logical right shift -/

def shrui (bitCount : ℕ) : IntegerFacts :=
  let lhsFacts := lhs.divisionOperand bitCount
  let shift := rhs.rangeLo
  if shift ≠ rhs.rangeHi ∨ shift < 0 ∨ shift ≥ bitCount then unknown
  else if shift = 0 then lhsFacts
  else
    let mask := (2 ^ 64 - 1) >>> (64 - bitCount)
    -- raw bits are monotonic in each half of the signed domain
    let monotonic := lhsFacts.rangeLo ≥ 0 ∨ lhsFacts.rangeHi < 0
    let lo := if monotonic then toI64 ((toU64 lhsFacts.rangeLo &&& mask) >>> shift.toNat) else 0
    let hi :=
      if monotonic then toI64 ((toU64 lhsFacts.rangeHi &&& mask) >>> shift.toNat)
      else toI64 (mask >>> shift.toNat)
    let divisor := lhsFacts.unsignedKnownDivisor
    let factor := 2 ^ shift.toNat
    let divisor := if toU64 divisor % factor = 0 then toI64 (toU64 divisor / factor) else 1
    make lo hi divisor

/-! ### Preimages of quotients -/

/-- The rounding at an endpoint: toward zero is down for positive quotients, up for negative
ones. -/
def resolveRounding (quotient : SignedMagnitude) (rounding : QuotientRounding)
    (endpoint : QuotientEndpoint) : QuotientRounding :=
  match rounding, endpoint with
  | .zero, .lower => if quotient.negative ∨ quotient.magnitude = 0 then .ceil else .floor
  | .zero, .upper => if quotient.negative ∧ quotient.magnitude ≠ 0 then .ceil else .floor
  | rounding, _ => rounding

def nearestI64 (result : SignedMagnitude) : ℤ :=
  if result.negative then
    if result.magnitude ≥ 2 ^ 63 then -2 ^ 63 else -toI64 result.magnitude
  else if result.magnitude > 2 ^ 63 - 1 then 2 ^ 63 - 1 else toI64 result.magnitude

/-- `loom_quotient_inverse_endpoint`. -/
def inverseEndpoint (quotient : SignedMagnitude) (divisor : ℕ) (rounding : QuotientRounding)
    (endpoint : QuotientEndpoint) : ℤ :=
  let magnitude := saturatingMulU64 quotient.magnitude divisor
  let negative := quotient.negative && quotient.magnitude ≠ 0
  nearestI64 <|
    match resolveRounding quotient rounding endpoint, endpoint with
    | .floor, .upper =>
      if negative then
        ⟨saturatingAddU64 (saturatingMulU64 (quotient.magnitude - 1) divisor) 1, negative⟩
      else ⟨saturatingAddU64 magnitude (divisor - 1), negative⟩
    | .ceil, .lower =>
      if negative = false ∧ quotient.magnitude ≠ 0 then
        ⟨saturatingAddU64 (saturatingMulU64 (quotient.magnitude - 1) divisor) 1, negative⟩
      else ⟨saturatingAddU64 magnitude (divisor - 1), true⟩
    | _, _ => ⟨magnitude, negative⟩

/-- The least and the greatest magnitude of a divisor, and whether divisors are negative. -/
structure PreimageScale where
  minimum : ℕ
  maximum : ℕ
  negativeDivisor : Bool
deriving DecidableEq

/-- The part of `loom_value_facts_quotient_preimage` that reads the scale; `none` where the
operation may be undefined. -/
def preimageScale (bitCount : ℕ) (scale : IntegerFacts) : Option PreimageScale :=
  if kind.isShift then
    if scale.rangeLo < 0 ∨ scale.rangeHi ≥ bitCount then none
    else some ⟨2 ^ scale.rangeLo.toNat, 2 ^ scale.rangeHi.toNat, false⟩
  else if kind.isUnsigned then
    let range := scale.unsignedRange (maskLowBitsU64 (2 ^ 64 - 1) bitCount)
    if range.minimum = 0 then none else some ⟨range.minimum, range.maximum, false⟩
  else
    let lo := if bitCount = 1 then -scale.rangeHi else scale.rangeLo
    let hi := if bitCount = 1 then -scale.rangeLo else scale.rangeHi
    -- an interval with zero or -1 may produce any result
    if (lo ≤ 0 ∧ hi ≥ 0) ∨ (lo ≤ -1 ∧ hi ≥ -1) then none
    else
      let negativeDivisor : Bool := hi < 0
      some ⟨magnitude (if negativeDivisor then hi else lo),
        magnitude (if negativeDivisor then lo else hi),
        negativeDivisor⟩

/-- The part of `loom_value_facts_quotient_preimage` for unsigned quotients. -/
def unsignedPreimage (rounding : QuotientRounding) (bitCount : ℕ) (quotient : IntegerFacts)
    (scale : PreimageScale) : IntegerFacts :=
  let bitMask := maskLowBitsU64 (2 ^ 64 - 1) bitCount
  let range := quotient.unsignedRange bitMask
  let minimum :=
    if rounding = .ceil then
      if range.minimum = 0 then 0
      else saturatingAddU64 (saturatingMulU64 (range.minimum - 1) scale.minimum) 1
    else saturatingMulU64 range.minimum scale.minimum
  let maximum := saturatingMulU64 range.maximum scale.maximum
  let maximum := if rounding = .floor then saturatingAddU64 maximum (scale.maximum - 1) else maximum
  let maximum := min maximum bitMask
  if minimum > maximum then declaredDomain bitCount
  else makeUnsignedResultRange minimum maximum bitCount 1

/-- The part of `loom_value_facts_quotient_preimage` for signed quotients. -/
def signedPreimage (rounding : QuotientRounding) (bitCount : ℕ) (quotient : IntegerFacts)
    (scale : PreimageScale) : IntegerFacts :=
  let quotientLo := if bitCount = 1 then -quotient.rangeHi else quotient.rangeLo
  let quotientHi := if bitCount = 1 then -quotient.rangeLo else quotient.rangeHi
  let lowerQuotient := if scale.negativeDivisor then quotientHi else quotientLo
  let upperQuotient := if scale.negativeDivisor then quotientLo else quotientHi
  let lower : SignedMagnitude :=
    ⟨magnitude lowerQuotient, decide (lowerQuotient < 0) != scale.negativeDivisor⟩
  let upper : SignedMagnitude :=
    ⟨magnitude upperQuotient, decide (upperQuotient < 0) != scale.negativeDivisor⟩
  let rounding := if scale.negativeDivisor then rounding.flip else rounding
  let minimum := inverseEndpoint lower
    (if lower.negative ∨ lower.magnitude = 0 then scale.maximum else scale.minimum) rounding .lower
  let maximum := inverseEndpoint upper
    (if upper.negative ∧ upper.magnitude ≠ 0 then scale.minimum else scale.maximum) rounding .upper
  let signedDomain := makeSignedBitCountRange bitCount
  let minimum := max minimum signedDomain.rangeLo
  let maximum := min maximum signedDomain.rangeHi
  if minimum > maximum then declaredDomain bitCount
  else if bitCount = 1 then make (-maximum) (-minimum) 1
  else make minimum maximum 1

def quotientPreimage (bitCount : ℕ) (quotient scale : IntegerFacts) : IntegerFacts :=
  let domain := declaredDomain bitCount
  if quotient.rangeLo > quotient.rangeHi ∨ scale.rangeLo > scale.rangeHi then domain
  else
    let quotient := quotient.divisionOperand bitCount
    let scale := scale.divisionOperand bitCount
    match preimageScale kind bitCount scale with
    | none => domain
    | some scale =>
      if kind.isUnsigned then unsignedPreimage kind.rounding bitCount quotient scale
      else signedPreimage kind.rounding bitCount quotient scale

end IntegerFacts

/-! ### Quotients -/

def rawIntegerBits (value : ℤ) (bitCount : ℕ) : ℕ :=
  toU64 value &&& maskLowBitsU64 (2 ^ 64 - 1) bitCount

def signedIntegerRepresentation (rawBits bitCount : ℕ) : ℤ :=
  let rawBits := rawBits &&& maskLowBitsU64 (2 ^ 64 - 1) bitCount
  if bitCount = 1 then toI64 rawBits
  else
    let signBit := 2 ^ (bitCount - 1)
    if rawBits &&& signBit = 0 then toI64 rawBits
    else
      let signedSignBit : ℤ := if bitCount = 64 then -2 ^ 63 else -toI64 signBit
      signedSignBit + toI64 (rawBits &&& (signBit - 1))

/-- The branch of `EvaluateQuotient` for raw bits. -/
def evaluateUnsigned (bitCount : ℕ) (dividend scale : ℤ) : Option ℤ :=
  let numerator := rawIntegerBits dividend bitCount
  let denominator := if kind.isShift then 2 ^ scale.toNat else rawIntegerBits scale bitCount
  if denominator = 0 then none
  else
    let quotient := numerator / denominator
    let rounded := quotient + if kind = .ceildivui ∧ numerator % denominator ≠ 0 then 1 else 0
    some (signedIntegerRepresentation rounded bitCount)

/-- The branch of `EvaluateQuotient` for arithmetic shifts. -/
def evaluateShift (dividend scale : ℤ) : ℤ :=
  let denominator := 2 ^ scale.toNat
  let magnitude := magnitude dividend
  let rounded :=
    magnitude / denominator + if dividend < 0 ∧ magnitude % denominator ≠ 0 then 1 else 0
  if dividend ≥ 0 then toI64 rounded
  else if rounded = 2 ^ 63 then -2 ^ 63 else -toI64 rounded

/-- The branch of `EvaluateQuotient` for signed division. -/
def evaluateSigned (bitCount : ℕ) (dividend scale : ℤ) : Option ℤ :=
  let minimum : ℤ := if bitCount = 64 then -2 ^ 63 else -2 ^ (bitCount - 1)
  if scale = 0 ∨ dividend = minimum ∧ scale = -1 then none
  else
    let quotient := dividend.tdiv scale
    let remainder := dividend.tmod scale
    some <|
      if remainder ≠ 0 then
        if kind = .floordivsi ∧ decide (dividend < 0) ≠ decide (scale < 0) then quotient - 1
        else if kind = .ceildivsi ∧ decide (dividend < 0) = decide (scale < 0) then quotient + 1
        else quotient
      else quotient

def signedValue (bitCount : ℕ) (value : ℤ) : ℤ := if bitCount = 1 then -value else value

def evaluateQuotient (bitCount : ℕ) (dividend scale : ℤ) : Option ℤ :=
  if kind.isShift ∧ (scale < 0 ∨ scale ≥ bitCount) then none
  else if kind.isUnsigned then evaluateUnsigned kind bitCount dividend scale
  else
    let dividend := signedValue bitCount dividend
    if kind.isShift then some (signedValue bitCount (evaluateShift dividend scale))
    else
      (evaluateSigned kind bitCount dividend (signedValue bitCount scale)).map
        (signedValue bitCount)

end Hrx.Facts
