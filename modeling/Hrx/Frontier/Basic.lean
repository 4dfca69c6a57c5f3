import Mathlib.Order.Nat
import Hrx.Base.Status
import Hrx.Lib.VectorClock

/-!
# Frontiers

A frontier (`iree_async_frontier_t`) is a vector clock in a flexible array: `entryCount` entries
sorted by ascending axis.  The array is modelled as the whole storage behind the header, so that an
in-place operation can be checked to read only what it has not overwritten; what lies at or above
`entryCount` is whatever the storage holds.  Axes and epochs are 64-bit and are only compared
here, hence natural numbers.

Loops that only read walk the list of entries that are still unread; the two loops that write the
target in place (`mergeEpochs` and `mergeRightToLeft`) index the storage as the source does.
-/

namespace Hrx

/-- One frontier entry: the epoch required on an axis (`iree_async_frontier_entry_t`). -/
abbrev FrontierEntry := VectorClock.Stamp ℕ ℕ

/-- A frontier header with the entry storage behind it (`iree_async_frontier_t`). -/
structure Frontier where
  /-- Number of valid entries in the frontier. -/
  entryCount : UInt8
  /-- Entry storage, sorted by ascending axis below `entryCount`. -/
  entries : ℕ → FrontierEntry

namespace Frontier

variable (f : Frontier)

/-- The number of entries as a loop bound. -/
def count : ℕ := f.entryCount.toNat

def toList : List FrontierEntry := (List.range f.count).map f.entries

/-- The frontier holding the entries of `l`; the storage behind them is zero. -/
def ofList (l : List FrontierEntry) : Frontier := ⟨UInt8.ofNat l.length, fun i => l.getD i ⟨0, 0⟩⟩

/-- The frontier as a map: the epoch of an axis, zero when absent. -/
def epochAt (axis : ℕ) : ℕ := VectorClock.epochAt f.toList axis

/-- A valid frontier: strictly ascending axes and no zero epochs. -/
def Valid : Prop := VectorClock.IsClock f.toList

/-- A hexadecimal rendering as `0x%016PRIX64` prints it. -/
def hex16 (n : ℕ) : String :=
  let digits := (Nat.toDigits 16 n).map Char.toUpper
  "0x" ++ String.ofList (List.replicate (16 - digits.length) '0' ++ digits)

/-! ### Comparison -/

/-- The result of a comparison (`iree_async_frontier_comparison_t`). -/
inductive Comparison where
  | equal
  | before
  | after
  | concurrent
deriving DecidableEq, Repr

/-- Whether two frontiers with the same entry count have the same axes (the `axes_match` loop). -/
def axesMatch (a b : Frontier) : Bool :=
  (List.range a.count).all fun k => (a.entries k).axis == (b.entries k).axis

/-- The decision at the end of both comparison paths. -/
def classify (hasLess hasGreater : Bool) : Comparison :=
  if hasLess && hasGreater then .concurrent
  else if hasLess then .before
  else if hasGreater then .after
  else .equal

/-- The fast path of `compare`: epochs of matching axes, stopping once both flags are set. -/
def compareEpochs : List FrontierEntry → List FrontierEntry → Bool → Bool → Comparison
  | x :: a, y :: b, hasLess, hasGreater =>
    let hasLess := hasLess || x.epoch < y.epoch
    let hasGreater := hasGreater || y.epoch < x.epoch
    if hasLess && hasGreater then .concurrent else compareEpochs a b hasLess hasGreater
  | _, _, hasLess, hasGreater => classify hasLess hasGreater

/-- The slow path of `compare`: a merge scan of the two sorted arrays, entries left over on one
side being ahead of the other's implicit zero. -/
def compareScan : List FrontierEntry → List FrontierEntry → Bool → Bool → Comparison
  | [], b, hasLess, hasGreater => classify (hasLess || !b.isEmpty) hasGreater
  | a, [], hasLess, hasGreater => classify hasLess (hasGreater || !a.isEmpty)
  | x :: a, y :: b, hasLess, hasGreater =>
    if x.axis = y.axis then
      compareScan a b (hasLess || x.epoch < y.epoch) (hasGreater || y.epoch < x.epoch)
    else if x.axis < y.axis then compareScan a (y :: b) hasLess true
    else compareScan (x :: a) b true hasGreater
termination_by a b => a.length + b.length

/-- Compares two frontiers (`iree_async_frontier_compare`). -/
def compare (a b : Frontier) : Comparison :=
  if a.entryCount = b.entryCount ∧ axesMatch a b = true then
    compareEpochs a.toList b.toList false false
  else
    compareScan a.toList b.toList false false

/-! ### Merging -/

/-- What `merge_impl` leaves behind: the target, whether it merged, and the value stored through
`out_source_dominates_target`. -/
structure MergeResult where
  target : Frontier
  merged : Bool
  sourceDominatesTarget : Bool

/-- Path 2 of the merge: raises the epochs of `remaining` entries from index `k` on in place, and
clears the dominance flag where the source is behind. -/
def mergeEpochs (source : ℕ → FrontierEntry) :
    ℕ → ℕ → (ℕ → FrontierEntry) → Bool → (ℕ → FrontierEntry) × Bool
  | 0, _, target, dominates => (target, dominates)
  | remaining + 1, k, target, dominates =>
    if (target k).epoch < (source k).epoch then
      mergeEpochs source remaining (k + 1)
        (Function.update target k ⟨(target k).axis, (source k).epoch⟩) dominates
    else if (source k).epoch < (target k).epoch then
      mergeEpochs source remaining (k + 1) target false
    else mergeEpochs source remaining (k + 1) target dominates

/-- The counting pass of path 3: the merged entry count and the dominance flag. -/
def mergeCount : List FrontierEntry → List FrontierEntry → ℕ → Bool → ℕ × Bool
  | [], source, mergedCount, dominates => (mergedCount + source.length, dominates)
  | target, [], mergedCount, dominates =>
    (mergedCount + target.length, dominates && target.isEmpty)
  | x :: target, y :: source, mergedCount, dominates =>
    if x.axis = y.axis then
      mergeCount target source (mergedCount + 1) (dominates && !decide (y.epoch < x.epoch))
    else if x.axis < y.axis then mergeCount target (y :: source) (mergedCount + 1) false
    else mergeCount (x :: target) source (mergedCount + 1) dominates
termination_by target source => target.length + source.length

/-- The writing pass of path 3.  The counts `ti`, `si` and `wi` are one above the source's signed
cursors: entries `0..ti` of the target and `0..si` of the source are unread, and the next write is
to `wi - 1`.  Once the source is exhausted the remaining target entries are already in place. -/
def mergeRightToLeft (source : ℕ → FrontierEntry) :
    ℕ → ℕ → ℕ → (ℕ → FrontierEntry) → ℕ → FrontierEntry
  | _, 0, _, target => target
  | 0, si + 1, wi, target =>
    mergeRightToLeft source 0 si (wi - 1) (Function.update target (wi - 1) (source si))
  | ti + 1, si + 1, wi, target =>
    if (source si).axis < (target ti).axis then
      mergeRightToLeft source ti (si + 1) (wi - 1) (Function.update target (wi - 1) (target ti))
    else if (target ti).axis < (source si).axis then
      mergeRightToLeft source (ti + 1) si (wi - 1) (Function.update target (wi - 1) (source si))
    else
      mergeRightToLeft source ti si (wi - 1) (Function.update target (wi - 1)
        ⟨(target ti).axis, max (target ti).epoch (source si).epoch⟩)
termination_by ti si => ti + si

variable (target : Frontier) (targetCapacity : UInt8)

/-- Merges `source` into `target` (`iree_async_frontier_merge_impl`). -/
def mergeImpl (source : Frontier) : MergeResult :=
  -- Path 1: source empty, nothing to merge.
  if source.entryCount = 0 then ⟨target, true, target.entryCount == 0⟩
  -- Path 2: same axis set, epoch maximum in place.
  else if target.entryCount = source.entryCount ∧ axesMatch target source = true then
    let (entries, dominates) := mergeEpochs source.entries target.count 0 target.entries true
    ⟨⟨target.entryCount, entries⟩, true, dominates⟩
  -- Path 3: different axis sets; the count is checked before anything is written.
  else
    let (mergedCount, dominates) := mergeCount target.toList source.toList 0 true
    if targetCapacity.toNat < mergedCount then ⟨target, false, false⟩
    else
      ⟨⟨UInt8.ofNat mergedCount, mergeRightToLeft source.entries target.count source.count
        mergedCount target.entries⟩, true, dominates⟩

/-- `iree_async_frontier_merge`: the target left behind and whether it merged. -/
def merge (source : Frontier) : Frontier × Bool :=
  let result := mergeImpl target targetCapacity source
  (result.target, result.merged)

/-- `iree_async_frontier_merge_and_test_source_dominance`. -/
def mergeAndTestSourceDominance (source : Frontier) : MergeResult :=
  mergeImpl target targetCapacity source

end Frontier

end Hrx
