import Hrx.Cfg.Traversal
import Hrx.Lib.CircularQueue
import Hrx.Lib.Transition

/-!
# The forward dataflow solver

`loom_cfg_dataflow_solve`: a circular queue of blocks, at first all reachable ones in reverse
postorder. A visit of a block hands its facts to its successors; a successor that changed is queued
again unless it is queued already.

The two loops are one: the state remembers the successors that the visit has still to serve.  The
facts belong to the caller, and a transfer may fail at any call.  The arena of the queue does not
fail.
-/

namespace Hrx.Cfg

open CircularQueue

/-- A `loom_cfg_dataflow_transfer_fn_t`: the new facts of the target, from the facts of the source
and of the target, and whether they changed. -/
structure Transfer (σ : Type*) where
  apply : (source target : ℕ) → σ → σ → σ × Bool
  changed_iff : ∀ source target x y,
    (apply source target x y).2 = true ↔ (apply source target x y).1 ≠ y

/-- The variables of `loom_cfg_dataflow_solve`, with the facts of the blocks. -/
structure Solver (σ : Type*) where
  worklist : ℕ → ℕ
  queued : ℕ → Bool
  head : ℕ
  tail : ℕ
  count : ℕ
  blockIndex : ℕ
  /-- The successors of the block that have not got its facts yet. -/
  successors : List ℕ
  facts : ℕ → σ
  /-- How often the transfer was called. -/
  calls : ℕ

namespace Solver

variable {σ : Type*} (g : Graph) (order : List ℕ) (transfer : Transfer σ)
  (fault : ℕ → Option Status)

/-- The state before the loops. -/
def start (facts : ℕ → σ) : Solver σ :=
  { worklist := fun i => order.getD i 0
    queued := fun block => block ∈ order
    head := 0
    tail := if order.length = g.blockCount then 0 else order.length
    count := order.length
    blockIndex := 0
    successors := []
    facts := facts
    calls := 0 }

variable (s : Solver σ)

/-- The block at the head leaves the queue and is visited. -/
def take : Solver σ :=
  let block := s.worklist s.head
  { s with
    head := next g.blockCount s.head
    count := s.count - 1
    queued := Function.update s.queued block false
    blockIndex := block
    successors := g.successors block }

/-- A block enters the queue. -/
def enqueue (block : ℕ) : Solver σ :=
  { s with
    worklist := Function.update s.worklist s.tail block
    tail := next g.blockCount s.tail
    count := s.count + 1
    queued := Function.update s.queued block true }

/-- What the transfer along an edge of the visited block returns. -/
def transferred (successor : ℕ) : σ × Bool :=
  transfer.apply s.blockIndex successor (s.facts s.blockIndex) (s.facts successor)

/-- The transfer to a successor succeeded. -/
def propagate (successor : ℕ) (rest : List ℕ) : Solver σ :=
  let (facts, changed) := s.transferred transfer successor
  let s :=
    { s with
      facts := Function.update s.facts successor facts
      successors := rest
      calls := s.calls + 1 }
  if !changed || s.queued successor then s else s.enqueue g successor

/-- One round: a transfer, or else the next block.  `none` if the queue is empty. -/
def step : Except Status (Option (Solver σ)) :=
  match s.successors with
  | successor :: rest =>
    match fault s.calls with
    | some status => .error status
    | none => .ok (some (s.propagate g transfer successor rest))
  | [] => if s.count = 0 then .ok none else .ok (some (s.take g))

/-- The loops, for at most so many rounds. -/
def run : ℕ → Solver σ → Option (Except Status (ℕ → σ))
  | 0, _ => none
  | fuel + 1, s =>
    match s.step g transfer fault with
    | .error status => some (.error status)
    | .ok none => some (.ok s.facts)
    | .ok (some t) => run fuel t

end Solver

variable {σ : Type*} (g : Graph) (f : Facts) (transfer : Transfer σ) (fault : ℕ → Option Status)

/-- `loom_cfg_dataflow_solve`, on the facts that the caller published. -/
def dataflowSolve (facts : ℕ → σ) (fuel : ℕ) : Option (Except Status (ℕ → σ)) :=
  if f.reversePostorder.length = 0 then some (.ok facts)
  else (Solver.start g f.reversePostorder facts).run g transfer fault fuel

/-- The states that a solve passes through. -/
def Solver.Reached (facts : ℕ → σ) : Solver σ → Prop :=
  Transition.Reachable
    (fun s => f.reversePostorder.length ≠ 0 ∧ s = .start g f.reversePostorder facts)
    (fun s t => s.step g transfer fault = .ok (some t))

end Hrx.Cfg
