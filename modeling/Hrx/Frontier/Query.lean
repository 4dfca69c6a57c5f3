import Hrx.Frontier.Basic

/-!
# Residual queries on frontiers

`find_undominated` extracts the entries of a frontier that another one does not reach yet, and
`is_satisfied` tests a frontier against an array of current epochs.  As in the comparison the loops
walk the lists of entries that are still unread; the output array is a function of the index, and
what a query does not write stays as it was.
-/

namespace Hrx.Frontier

/-! ### Undominated entries -/

/-- The running state of a query: the count so far and the output array. -/
abbrev Output := UInt8 × (ℕ → FrontierEntry)

/-- Counts an undominated entry, and writes it if the output has room. -/
def emit (capacity : UInt8) (state : Output) (e : FrontierEntry) : Output :=
  (state.1 + 1, if state.1 < capacity then Function.update state.2 state.1.toNat e else state.2)

/-- The fast path of `find_undominated`: epochs of matching axes. -/
def undominatedEpochs (capacity : UInt8) :
    List FrontierEntry → List FrontierEntry → Output → Output
  | x :: reference, y :: target, state =>
    undominatedEpochs capacity reference target
      (if x.epoch < y.epoch then emit capacity state y else state)
  | _, _, state => state

/-- The slow path of `find_undominated`: a merge scan of the two sorted arrays, where target entries
left over have no counterpart. -/
def undominatedScan (capacity : UInt8) :
    List FrontierEntry → List FrontierEntry → Output → Output
  | _, [], state => state
  | [], y :: target, state => undominatedScan capacity [] target (emit capacity state y)
  | x :: reference, y :: target, state =>
    if x.axis = y.axis then
      undominatedScan capacity reference target
        (if x.epoch < y.epoch then emit capacity state y else state)
    else if x.axis < y.axis then undominatedScan capacity reference (y :: target) state
    else undominatedScan capacity (x :: reference) target (emit capacity state y)
termination_by reference target => reference.length + target.length

/-- Finds the entries of `target` that `reference` does not dominate: their number, and the output
array with as many of them as fit (`iree_async_frontier_find_undominated`). -/
def findUndominated (reference target : Frontier) (capacity : UInt8)
    (outEntries : ℕ → FrontierEntry) : UInt8 × (ℕ → FrontierEntry) :=
  if reference.entryCount = target.entryCount ∧ axesMatch reference target = true then
    undominatedEpochs capacity reference.toList target.toList (0, outEntries)
  else
    undominatedScan capacity reference.toList target.toList (0, outEntries)

/-! ### Satisfaction -/

/-- The scan of `is_satisfied`: for each frontier entry the current epochs of smaller axes are
skipped, and the entry behind them has to be on the axis and far enough. -/
def satisfiedScan : List FrontierEntry → List FrontierEntry → Bool
  | [], _ => true
  | x :: frontier, currentEpochs =>
    match currentEpochs.dropWhile fun e => e.axis < x.axis with
    | [] => false
    | e :: rest =>
      if e.axis ≠ x.axis then false
      else if e.epoch < x.epoch then false
      else satisfiedScan frontier (e :: rest)

/-- Whether every entry of a frontier has been reached (`iree_async_frontier_is_satisfied`). -/
def isSatisfied (frontier : Frontier) (currentEpochs : List FrontierEntry) : Bool :=
  if frontier.entryCount = 0 then true else satisfiedScan frontier.toList currentEpochs

end Hrx.Frontier
