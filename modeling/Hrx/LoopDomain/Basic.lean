import Hrx.Lib.ComparisonOrder

/-!
# Loop domains

Trip counts of header-tested integer recurrences, as `loom/analysis/loop_domain.c` computes them on
raw carrier bits.
-/

namespace Hrx.LoopDomain

open ComparisonOrder

/-- `loom_loop_bound_flags_t`. -/
abbrev LoopBoundFlags := Form

/-- The bits of a carrier of the given width, in `[1, 64]`. -/
def mask (bitwidth : ℕ) : UInt64 := 0xFFFFFFFFFFFFFFFF >>> UInt64.ofNat (64 - bitwidth)

def signBit (bitwidth : ℕ) : UInt64 := 1 <<< UInt64.ofNat (bitwidth - 1)

/-- What maps the comparison order of the flags to the unsigned order. -/
def orderMask (boundFlags : LoopBoundFlags) (bitwidth : ℕ) : UInt64 :=
  (if boundFlags.signed then signBit bitwidth else 0) ^^^
    (if boundFlags.descending then mask bitwidth else 0)

/-- `loom_loop_domain_trip_count`. -/
def tripCount (boundFlags : LoopBoundFlags) (bitwidth : ℕ) (initialValue bound step : UInt64) :
    Option UInt64 :=
  let mask := mask bitwidth
  let orderMask := orderMask boundFlags bitwidth
  let initial := (initialValue &&& mask) ^^^ orderMask
  let limit := (bound &&& mask) ^^^ orderMask
  let increment := (if boundFlags.descending then 0 - step else step) &&& mask
  if initial > limit ∨ (initial = limit ∧ ¬boundFlags.inclusive) then
    some 0
  else if increment = 0 ∨ (boundFlags.inclusive ∧ limit = mask) then
    none
  else
    let distance := limit - initial + (if boundFlags.inclusive then 1 else 0)
    let tripCount := (distance - 1) / increment + 1
    if tripCount > (mask - initial) / increment then none else some tripCount

end Hrx.LoopDomain
