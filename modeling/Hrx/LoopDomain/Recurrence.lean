import Hrx.LoopDomain.Basic
import Hrx.Facts.Basic

/-!
# Recurrence facts

Execution counts and source-integer ranges of header-tested additive loops over whole ranges of
initial values and bounds, as `loom/analysis/loop_domain.c` derives them.  Names of the source are
used without `loom_loop_domain_`.
-/

namespace Hrx.LoopDomain

open Facts

/-- `loom_loop_trip_count_kind_t`. -/
inductive TripCountKind where
  | unknown
  | bounded
  | exact
deriving DecidableEq

/-- `loom_loop_recurrence_facts_t`, over the facts about a state and the word of the count. -/
structure RecurrenceFactsOver (φ τ : Type) where
  values : φ
  bodyValues : φ
  exitValue : φ
  tripCount : τ
  tripCountKind : TripCountKind
deriving DecidableEq

abbrev RecurrenceFacts := RecurrenceFactsOver ValueFacts UInt64

/-- Nothing is proven. -/
def RecurrenceFacts.unproven : RecurrenceFacts := ⟨.unknown, .unknown, .unknown, 0, .unknown⟩

def valueFromRank (rank : UInt64) : Int64 :=
  let signBit := signBit 64
  if rank ≥ signBit then (rank - signBit).toInt64 else Int64.minValue + rank.toInt64

def recurrenceDivisor (initialValues : ValueFacts) (magnitude : UInt64) : Int64 :=
  let initialDivisor :=
    if initialValues.isExact then magnitudeI64 initialValues.rangeLo
    else initialValues.knownDivisor.toUInt64
  let divisor := gcdU64 initialDivisor magnitude
  if divisor > Int64.maxValue.toUInt64 then 1 else divisor.toInt64

/-- `loom_loop_domain_additive_recurrence_facts`: whether the ranges are proven, and the facts. -/
def additiveRecurrenceFacts (initialValues : ValueFacts) (step : Int64) (tripCount : UInt64) :
    Bool × RecurrenceFacts :=
  let outFacts : RecurrenceFacts := ⟨.unknown, .unknown, .unknown, tripCount, .exact⟩
  let initialValues :=
    ValueFacts.make initialValues.rangeLo initialValues.rangeHi initialValues.knownDivisor
  if tripCount = 0 ∨ step = 0 then
    (true, { outFacts with
      values := initialValues
      exitValue := initialValues
      bodyValues := if tripCount ≠ 0 then initialValues else .unknown })
  else
    -- signed-order ranks cover the full span without signed subtraction
    let signBit := signBit 64
    let initialLoRank := initialValues.rangeLo.toUInt64 ^^^ signBit
    let initialHiRank := initialValues.rangeHi.toUInt64 ^^^ signBit
    let magnitude := magnitudeI64 step
    let available := if step > 0 then 0xFFFFFFFFFFFFFFFF - initialHiRank else initialLoRank
    if tripCount > available / magnitude then (false, outFacts)
    else
      let distance := tripCount * magnitude
      let exitLoRank := if step > 0 then initialLoRank + distance else initialLoRank - distance
      let exitHiRank := if step > 0 then initialHiRank + distance else initialHiRank - distance
      let exitLo := valueFromRank exitLoRank
      let exitHi := valueFromRank exitHiRank
      let divisor := recurrenceDivisor initialValues magnitude
      (true, { outFacts with
        values := .make (if step > 0 then initialValues.rangeLo else exitLo)
          (if step > 0 then exitHi else initialValues.rangeHi) divisor
        bodyValues := .make
          (if step > 0 then initialValues.rangeLo else valueFromRank (exitLoRank + magnitude))
          (if step > 0 then valueFromRank (exitHiRank - magnitude) else initialValues.rangeHi)
          (if tripCount = 1 then initialValues.knownDivisor else divisor)
        exitValue := .make exitLo exitHi
          (gcdU64 initialValues.knownDivisor.toUInt64 distance).toInt64 })

variable (boundFlags : LoopBoundFlags) (bitwidth : ℕ)

def exactRecurrenceFacts (initialValue bound step : Int64) : RecurrenceFacts :=
  match LoopDomain.tripCount boundFlags bitwidth initialValue.toUInt64 bound.toUInt64
    step.toUInt64 with
  | none => .unproven
  | some tripCount =>
    let result : RecurrenceFacts :=
      { RecurrenceFacts.unproven with tripCount, tripCountKind := .exact }
    let maximum := (0x7FFFFFFFFFFFFFFF >>> UInt64.ofNat (64 - bitwidth) : UInt64).toInt64
    let minimum := -maximum - 1
    if initialValue < minimum ∨ initialValue > maximum then result
    else if tripCount = 0 then
      { result with values := .exactI64 initialValue, exitValue := .exactI64 initialValue }
    else if (if boundFlags.descending then step ≥ 0 ∨ step < minimum else step ≤ 0 ∨
      step > maximum) then
      result
    else
      let (proven, facts) := additiveRecurrenceFacts (.exactI64 initialValue) step tripCount
      if proven && facts.values.fitSignedBitCount bitwidth then
        { facts with exitValue := .exactI64 facts.exitValue.rangeLo }
      else { facts with values := .unknown, bodyValues := .unknown, exitValue := .unknown }

/-- The check of `loom_loop_domain_ordered_interval`: the range fits the carrier, and an unsigned
one does not cross the sign discontinuity. -/
def isOrdered (facts : ValueFacts) : Bool :=
  if boundFlags.signed ∨ facts.rangeLo < 0 then
    facts.fitSignedBitCount bitwidth && !(!boundFlags.signed && facts.rangeHi ≥ 0)
  else facts.fitUnsignedBitCount bitwidth

/-- `loom_loop_domain_ordered_interval`: the least and the greatest rank. -/
def orderedInterval (facts : ValueFacts) : Option (UInt64 × UInt64) :=
  if isOrdered boundFlags bitwidth facts then
    let rank (value : Int64) := (value.toUInt64 &&& mask bitwidth) ^^^ orderMask boundFlags bitwidth
    some (rank (if boundFlags.descending then facts.rangeHi else facts.rangeLo),
      rank (if boundFlags.descending then facts.rangeLo else facts.rangeHi))
  else none

/-- The signed value of carrier bits. -/
def sourceFromBits (bits : UInt64) : Int64 :=
  if bits < signBit bitwidth then bits.toInt64 else -1 - (mask bitwidth - bits).toInt64

def sourceFromOrdered (ordered : UInt64) : Int64 :=
  sourceFromBits bitwidth (ordered ^^^ (if boundFlags.signed then signBit bitwidth else 0) ^^^
    (if boundFlags.descending then mask bitwidth else 0))

/-- The part of `loom_loop_domain_recurrence_facts` on ranks. -/
def rangedRecurrenceFacts
    (initialValues step : ValueFacts) (initialLower initialUpper boundUpper : UInt64) :
    RecurrenceFacts :=
  let isInclusive := boundFlags.inclusive
  let isDescending := boundFlags.descending
  if initialLower > boundUpper ∨ (initialLower = boundUpper ∧ !isInclusive) then
    let result : RecurrenceFacts := { RecurrenceFacts.unproven with tripCountKind := .exact }
    if initialValues.fitSignedBitCount bitwidth then
      let values :=
        ValueFacts.make initialValues.rangeLo initialValues.rangeHi initialValues.knownDivisor
      { result with values, exitValue := values }
    else result
  else
    match step.asExactI64 with
    | none => .unproven
    | some increment =>
      let mask := mask bitwidth
      let stride := magnitudeI64 increment
      if (if isDescending then increment ≥ 0 else increment ≤ 0) ∨ stride > mask ∨
          (isInclusive ∧ boundUpper = mask) then .unproven
      else
        let threshold := boundUpper + (if isInclusive then 1 else 0)
        let distance := threshold - initialLower
        let remainder := distance % stride
        let firstOvershoot := if remainder = 0 then 0 else stride - remainder
        let initialSpan := min initialUpper (threshold - 1) - initialLower
        let maximumOvershoot := firstOvershoot + min initialSpan (stride - 1 - firstOvershoot)
        if maximumOvershoot > mask - threshold then .unproven
        else
          let tripCount := (distance - 1) / stride + 1
          let result : RecurrenceFacts :=
            { RecurrenceFacts.unproven with tripCount, tripCountKind := .bounded }
          let terminalUpper := threshold + maximumOvershoot
          let headerUpper := max initialUpper terminalUpper
          let signBit := signBit bitwidth
          if !initialValues.fitSignedBitCount bitwidth ∨ !step.fitSignedBitCount bitwidth ∨
              (!boundFlags.signed ∧ (initialLower < signBit) ≠ (headerUpper < signBit)) then result
          else
            let divisor := recurrenceDivisor initialValues stride
            let headerTerminal := sourceFromOrdered boundFlags bitwidth headerUpper
            let bodyTerminal := sourceFromOrdered boundFlags bitwidth (terminalUpper - stride)
            let values := ValueFacts.make
              (if isDescending then headerTerminal else initialValues.rangeLo)
              (if isDescending then initialValues.rangeHi else headerTerminal) divisor
            { result with
              values
              bodyValues := .make (if isDescending then bodyTerminal else initialValues.rangeLo)
                (if isDescending then initialValues.rangeHi else bodyTerminal)
                (if tripCount = 1 then initialValues.knownDivisor else divisor)
              exitValue := values }

def recurrenceFacts (initialValues bounds step : ValueFacts) : RecurrenceFacts :=
  if initialValues.isFloat ∨ bounds.isFloat ∨ step.isFloat then .unproven
  else if initialValues.isExact ∧ bounds.isExact then
    -- an unknown step cannot prove a nonempty loop
    exactRecurrenceFacts boundFlags bitwidth initialValues.rangeLo bounds.rangeLo
      (step.asExactI64.getD 0)
  else
    match orderedInterval boundFlags bitwidth initialValues,
      orderedInterval boundFlags bitwidth bounds with
    | some (initialLower, initialUpper), some (_, boundUpper) =>
      rangedRecurrenceFacts boundFlags bitwidth initialValues step initialLower
        initialUpper boundUpper
    | _, _ => .unproven

def sourceFromCarrier (bits : UInt64) : Int64 := sourceFromBits bitwidth (bits &&& mask bitwidth)

/-- The facts of the state that the first guard of `loom_loop_domain_next_guard_recurrence_facts`
tests. -/
def advancedInitial (initialValues step : ValueFacts) : ValueFacts :=
  match initialValues.asExactI64, step.asExactI64 with
  | some exactInitial, some increment =>
    let advancedBits := (exactInitial.toUInt64 + increment.toUInt64) &&& mask bitwidth
    .exactI64 (sourceFromCarrier bitwidth advancedBits)
  | _, _ => initialValues.addi step

def nextGuardRecurrenceFacts (initialValues bounds step : ValueFacts) : RecurrenceFacts :=
  if initialValues.isFloat ∨ bounds.isFloat ∨ step.isFloat then .unproven
  else
    let advancedInitial := advancedInitial bitwidth initialValues step
    let guard := recurrenceFacts boundFlags bitwidth advancedInitial bounds step
    let result : RecurrenceFacts :=
      { RecurrenceFacts.unproven with
        tripCount := guard.tripCount, tripCountKind := guard.tripCountKind }
    if guard.tripCountKind = .unknown then result
    else
      let (proven, carried) :=
        additiveRecurrenceFacts initialValues (step.asExactI64.getD 0) guard.tripCount
      if !(proven && carried.values.fitSignedBitCount bitwidth) then result
      else
        { carried with
          tripCountKind := guard.tripCountKind
          exitValue :=
            if guard.tripCountKind = .bounded then carried.values else carried.exitValue }

end Hrx.LoopDomain
