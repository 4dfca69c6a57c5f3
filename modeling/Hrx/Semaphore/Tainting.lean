import Hrx.Frontier.Equiv.Lattice
import Hrx.Semaphore.Basic

/-!
# Histories of untainted publications

Sequences of `signal_untainted` and `publish_untainted` calls on one semaphore, each run to
completion.  A consumer that waits on an untainted value trusts the accumulated frontier to cover
everything that was published up to that value.
-/

namespace Hrx

/-- The epochs of `f` are covered by `g` on every axis. -/
def Frontier.DominatedBy (f g : Frontier) : Prop := ∀ axis, f.epochAt axis ≤ g.epochAt axis

namespace Semaphore

inductive CallKind where
  | signalUntainted
  | publishUntainted
deriving DecidableEq, Repr

/-- A publication with its arguments; no frontier is a null pointer. -/
structure Call where
  kind : CallKind
  value : ℕ
  frontier : Option Frontier

/-- The semaphore a call leaves behind. -/
def Call.run (c : Call) (s : Semaphore) : Semaphore :=
  match c.kind with
  | .signalUntainted => (s.signalUntainted c.value c.frontier).2.1
  | .publishUntainted => (s.publishUntainted c.value c.frontier).2.1

/-- The semaphore after a sequence of calls on a new one. -/
def runCalls (initialValue : ℕ) (capacity : UInt8) (calls : List Call) : Semaphore :=
  calls.foldl (fun s c => c.run s) (create initialValue capacity)

/-- The values of the calls increase from the initial value on, and the frontiers are valid. -/
structure Proper (initialValue : ℕ) (calls : List Call) : Prop where
  increasing : (initialValue :: calls.map Call.value).IsChain (· < ·)
  valid : ∀ c ∈ calls, ∀ f ∈ c.frontier, f.Valid

/-- Every untainted value has its causal history: the accumulated frontier dominates every
frontier that was passed with a value up to it. -/
def CausallyComplete (s : Semaphore) (calls : List Call) : Prop :=
  ∀ v, s.isValueTainted v = false → ∀ c ∈ calls, c.value ≤ v → ∀ f ∈ c.frontier,
    f.DominatedBy s.frontier

/-- Some frontier that was passed is not part of the accumulated one. -/
def Lost (s : Semaphore) (calls : List Call) : Prop :=
  ∃ c ∈ calls, ∃ f ∈ c.frontier, ¬f.DominatedBy s.frontier

/-- A frontier whose axes do not fit the capacity together with the accumulated ones. -/
def Overflows (s : Semaphore) (frontier : Option Frontier) : Prop :=
  ∃ f ∈ frontier, s.frontierCapacity.toNat < (s.frontier.axes ∪ f.axes).card

/-- Once a frontier is lost, no later one fits. -/
def StaysOverflown (initialValue : ℕ) (capacity : UInt8) (calls : List Call) : Prop :=
  ∀ earlier c, earlier ++ [c] <+: calls → (runCalls initialValue capacity earlier).Lost earlier →
    (runCalls initialValue capacity earlier).Overflows c.frontier

end Semaphore

end Hrx
