import Hrx.Lib.Transition
import Hrx.Tracker.Ops

/-!
# Runs of the frontier tracker

A session is a tracker with the ledger of its waits: what was registered, cancelled and called back.
Each successful `wait` gets the next ticket as its `user_data`, so a callback names the wait it
delivers.  Calls run to completion and callbacks do not call back into the tracker.
-/

namespace Hrx.Tracker

namespace FrontierTracker

variable (t : FrontierTracker)

def Reached (point : FrontierEntry) : Prop :=
  ∃ slot, t.table.lookup point.axis = some slot ∧ point.epoch ≤ (t.entry slot).currentEpoch

/-- The axis of a point has failed; a JOIN axis only from its failure epoch on. -/
def Failed (point : FrontierEntry) : Prop :=
  ∃ slot, t.table.lookup point.axis = some slot ∧
    ((t.entry slot).failure point.axis point.epoch).isOk = false

/-- A status a wait for a frontier may be called back with: OK when every point is reached, a
failure when one has failed. -/
def Justified (frontier : Frontier) (status : Status) : Prop :=
  (status.isOk = true → ∀ point ∈ frontier.toList, t.Reached point) ∧
  (status.isOk = false → ∃ point ∈ frontier.toList, t.Failed point)

/-- The current epoch of an axis, zero while it is not registered. -/
def epochOf (axis : ℕ) : ℕ :=
  match t.table.lookup axis with
  | none => 0
  | some slot => (t.entry slot).currentEpoch

end FrontierTracker

/-- A tracker with its ledger.  `waits` lists the waiter and the frontier of every ticket. -/
structure Session where
  tracker : FrontierTracker
  waits : List (ℕ × Frontier)
  callbacks : List Callback
  cancelled : List ℕ

namespace Session

variable (s : Session)

def called : List ℕ := s.callbacks.map Prod.fst

/-- A ticket is pending: some waiter holds it in an index. -/
def Pending (ticket : ℕ) : Prop :=
  ∃ waiter, (s.tracker.waiters waiter).indexed = true ∧
    (s.tracker.waiters waiter).userData = ticket

/-- The session after a call that only changes the tracker and makes callbacks. -/
def after (result : FrontierTracker × List Callback) : Session :=
  { s with tracker := result.1, callbacks := s.callbacks ++ result.2 }

def afterWait (waiter : ℕ) (frontier : Frontier)
    (result : FrontierTracker × List Callback) : Session :=
  { s.after result with waits := s.waits ++ [(waiter, frontier)] }

def afterCancel (waiter : ℕ) : Session :=
  let (tracker, pending) := s.tracker.cancelWait waiter
  { s with
    tracker
    cancelled := if pending then s.cancelled ++ [(s.tracker.waiters waiter).userData]
      else s.cancelled }

/-- One call on the tracker.  Calls that return an error change nothing.  A caller passes valid
frontiers and waiter storage that is not pending, and fails axes with a real status. -/
inductive Step : Session → Session → Prop where
  | register {s : Session} {axis : ℕ} {t : FrontierTracker} :
      s.tracker.registerAxis axis = .ok t → Step s (s.after (t, []))
  | acquire {s : Session} {axis : ℕ} {t : FrontierTracker} :
      s.tracker.acquireTimeline = .ok (t, axis) → Step s (s.after (t, []))
  | drop {s : Session} (axis : ℕ) : Step s (s.after (s.tracker.dropTimeline axis, []))
  | wait {s : Session} {frontier : Frontier} {waiter : ℕ}
      {result : FrontierTracker × List Callback} :
      frontier.Valid → (s.tracker.waiters waiter).indexed = false →
      s.tracker.wait frontier s.waits.length waiter = .ok result →
      Step s (s.afterWait waiter frontier result)
  | advance {s : Session} (axis epoch : ℕ) : Step s (s.after (s.tracker.advance axis epoch))
  | cancel {s : Session} (waiter : ℕ) : Step s (s.afterCancel waiter)
  | fail {s : Session} (axis : ℕ) {status : Status} :
      status.isOk = false → Step s (s.after (s.tracker.failAxis axis status))
  | retire {s : Session} (axis : ℕ) {status : Status} :
      status.isOk = false → Step s (s.after (s.tracker.retireAxis axis status))
  | failJoin {s : Session} {axis : ℕ} (epoch : ℕ) {status : Status} :
      isJoin axis = true → status.isOk = false →
      Step s (s.after (s.tracker.failAxisImpl axis status epoch))

def Init : Prop :=
  (∃ sessionEpoch machineIndex capacity,
    FrontierTracker.create sessionEpoch machineIndex capacity = .ok s.tracker) ∧
  s.waits = [] ∧ s.callbacks = [] ∧ s.cancelled = []

def Reachable : Session → Prop := Transition.Reachable Init Step

end Session

end Hrx.Tracker
