import Hrx.Facts.Division
import Hrx.LoopDomain.Recurrence

/-!
# Loops that shift to zero

Execution counts and ranges of loops that shift a state right until it is zero, as
`loom/analysis/loop_domain.c` derives them.
-/

namespace Hrx.LoopDomain

open Facts IntegerFacts

/-- The facts of the operations that shift. -/
abbrev ShiftRecurrenceFacts := RecurrenceFactsOver IntegerFacts ℕ

/-- `loom_loop_domain_active_bit_count`: 64 without the leading zeros. -/
def activeBitCount (value : ℕ) : ℕ := if value = 0 then 0 else 64 - (63 - Nat.log2 value)

/-- The executions of a loop over so many active bits. -/
def shiftTripCount (activeBitCount shiftAmount : ℕ) : ℕ :=
  (activeBitCount + shiftAmount - 1) / shiftAmount

/-- `loom_loop_domain_shrui_to_zero_recurrence_facts`. -/
def shruiToZeroRecurrenceFacts (bitwidth : ℕ) (initialValues shift : IntegerFacts) :
    ShiftRecurrenceFacts :=
  let unproven : ShiftRecurrenceFacts := ⟨unknown, unknown, unknown, 0, .unknown⟩
  match shift.asExactI64 with
  | none => unproven
  | some shiftAmount =>
    if bitwidth = 0 ∨ bitwidth > 64 ∨ initialValues.isFloat ∨ shiftAmount ≤ 0 ∨
        shiftAmount ≥ bitwidth then unproven
    else
      let initialValues := initialValues.wrapInteger bitwidth
      let initialBits := initialValues.asExactRawBits bitwidth
      let activeBits :=
        match initialBits with
        | some bits => activeBitCount bits
        | none =>
          if initialValues.rangeLo < 0 then bitwidth
          else activeBitCount (toU64 initialValues.rangeHi)
      let tripCount := shiftTripCount activeBits shiftAmount.toNat
      if tripCount = 0 then ⟨initialValues, unknown, initialValues, 0, .exact⟩
      else
        let firstShifted := shrui initialValues (exactI64 shiftAmount) bitwidth
        let valuesUpper := max initialValues.rangeHi firstShifted.rangeHi
        let bodyLower :=
          match initialBits with
          | some bits =>
            let finalShift := (tripCount - 1) * shiftAmount.toNat
            min initialValues.rangeLo (toI64 (bits >>> finalShift))
          | none => if initialValues.rangeLo < 0 then initialValues.rangeLo else 1
        { values := make (min initialValues.rangeLo 0) valuesUpper 1
          bodyValues := make bodyLower valuesUpper 1
          exitValue := exactI64 0
          tripCount := tripCount
          tripCountKind := if initialBits.isSome then .exact else .bounded }

end Hrx.LoopDomain
