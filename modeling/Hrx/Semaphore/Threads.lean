import Hrx.Lib.Transition
import Hrx.Semaphore.Basic

/-!
# Threads on one semaphore

Any number of threads call `acquire_timepoint`, `cancel_timepoint`, `signal`, `signal_untainted`,
`publish_untainted` and `fail` on one semaphore, interleaved at every atomic load and exchange; a
section under the mutex is one step.  A thread's program counter says what it does next and carries
the locals it still needs.

A callback that calls into the semaphore again does so while its thread waits in the middle of a
dispatch; that call is one of another thread here.

Every acquisition is of a new timepoint: storage that is used again after its callback or after a
cancellation counts as another one.  A semaphore is failed with a status that is not OK.
-/

namespace Hrx.Semaphore

inductive PublicationKind where
  | signal
  | signalUntainted
  | publishUntainted
deriving DecidableEq, Repr

structure Publication where
  kind : PublicationKind
  value : ℕ
  frontier : Option Frontier

/-- Where a thread is: what its next step does. -/
inductive Pc where
  /-- Between calls, with the status the last one returned. -/
  | ready (result : Status)
  /-- `acquire_timepoint`: load the failure, load the timeline, run the section under the mutex. -/
  | acquireFailure (timepoint : Timepoint)
  | acquireValue (timepoint : Timepoint)
  | acquireLocked (timepoint : Timepoint)
  /-- `acquire_timepoint`: run the callback and return. -/
  | complete (timepoint : Timepoint) (status : Status)
  /-- A publication: load the failure, then the loop that exchanges the timeline value. -/
  | checkFailure (publication : Publication)
  | loadTimeline (publication : Publication)
  | exchangeTimeline (publication : Publication) (current : ℕ)
  /-- `publish_untainted`: load the failure again. -/
  | recheckFailure (publication : Publication)
  /-- A publication: merge the frontier, then the loop that exchanges the watermark. -/
  | merge (publication : Publication)
  | loadWatermark (value : ℕ)
  | exchangeWatermark (value current : ℕ)
  /-- `dispatch_timepoints`: the section under the mutex. -/
  | dispatch (value : ℕ)
  /-- `fail`: exchange the failure, then detach everything under the mutex. -/
  | exchangeFailure (status : Status)
  | detach (status : Status)
  /-- `dispatch_detached`: run the callbacks that are left. -/
  | callbacks (timepoints : List Timepoint) (status : Status)

/-- What the caller knows of a timepoint. -/
inductive Stage where
  | unused
  | acquiring
  /-- `acquire_timepoint` returned OK. -/
  | acquired
  /-- `acquire_timepoint` returned an error. -/
  | refused
  /-- `cancel_timepoint` returned true. -/
  | cancelled
deriving DecidableEq, Repr

/-- A semaphore with the threads that use it, the fields of the timepoints and the callbacks run so
far. -/
structure System (θ : Type*) where
  semaphore : Semaphore
  pc : θ → Pc
  minimumValue : Timepoint → ℕ
  stage : Timepoint → Stage
  fired : List (Timepoint × Status)

/-- What a step may meet: a weak exchange that fails for no reason, an allocator that fails. -/
structure Choice where
  spurious : Bool
  allocation : Option Status

variable (p : Publication)

/-- A publication starts with the failure check, which `signal_untainted` does not make. -/
def Publication.start : Pc :=
  match p.kind with
  | .signal => .checkFailure p
  | .signalUntainted => .loadTimeline p
  | .publishUntainted => .checkFailure p

/-- What a value does that the timeline has reached: a duplicate is an error but for
`publish_untainted`. -/
def Publication.duplicate : Status :=
  match p.kind with
  | .signal => alreadySignaled p.value
  | .signalUntainted => alreadySignaled p.value
  | .publishUntainted => .ok

/-- What follows the exchange of the timeline value. -/
def Publication.published : Pc :=
  match p.kind with
  | .signal => .merge p
  | .signalUntainted => .merge p
  | .publishUntainted => .recheckFailure p

/-- What follows the merge: `signal` has no watermark to raise. -/
def Publication.merged (fits : Bool) : Pc :=
  match p.kind with
  | .signal => .dispatch p.value
  | .signalUntainted => if fits then .loadWatermark p.value else .dispatch p.value
  | .publishUntainted => if fits then .loadWatermark p.value else .dispatch p.value

namespace System

variable {θ : Type*} [DecidableEq θ] (s : System θ) (thread : θ)

def goto (pc : Pc) : System θ := { s with pc := Function.update s.pc thread pc }

variable (timepoint : Timepoint)

def fire (status : Status) : System θ := { s with fired := s.fired ++ [(timepoint, status)] }

/-- Records what the caller learns of a timepoint. -/
def mark (stage : Stage) : System θ := { s with stage := Function.update s.stage timepoint stage }

/-- The section of `acquire_timepoint` under the mutex: the value first, then the failure, then
the index. -/
def acquireLocked (timepoint : Timepoint) (allocation : Option Status) : System θ :=
  if s.minimumValue timepoint ≤ s.semaphore.timelineValue then
    s.goto thread (.complete timepoint .ok)
  else if s.semaphore.failureStatus.isOk = false then
    s.goto thread (.complete timepoint s.semaphore.failureStatus)
  else
    match s.semaphore.reserveTimepoint allocation with
    | .error status => (s.mark timepoint .refused).goto thread (.ready status)
    | .ok semaphore =>
      { (s.mark timepoint .acquired).goto thread (.ready .ok) with
        semaphore := semaphore.insertTimepoint (s.minimumValue timepoint) timepoint }

def run (choice : Choice) : System θ :=
  match s.pc thread with
  | .ready _ => s
  | .acquireFailure t =>
    if s.semaphore.failureStatus.isOk = false then
      s.goto thread (.complete t s.semaphore.failureStatus)
    else s.goto thread (.acquireValue t)
  | .acquireValue t =>
    if s.minimumValue t ≤ s.semaphore.timelineValue then s.goto thread (.complete t .ok)
    else s.goto thread (.acquireLocked t)
  | .acquireLocked t => s.acquireLocked thread t choice.allocation
  | .complete t status => ((s.fire t status).mark t .acquired).goto thread (.ready .ok)
  | .checkFailure p =>
    if s.semaphore.failureStatus.isOk = false then s.goto thread (.ready s.semaphore.failureStatus)
    else s.goto thread (.loadTimeline p)
  | .loadTimeline p =>
    if p.value ≤ s.semaphore.timelineValue then s.goto thread (.ready p.duplicate)
    else s.goto thread (.exchangeTimeline p s.semaphore.timelineValue)
  | .exchangeTimeline p current =>
    if s.semaphore.timelineValue = current ∧ choice.spurious = false then
      { s.goto thread p.published with
        semaphore := { s.semaphore with timelineValue := p.value } }
    else s.goto thread (.loadTimeline p)
  | .recheckFailure p =>
    if s.semaphore.failureStatus.isOk = false then s.goto thread (.ready s.semaphore.failureStatus)
    else s.goto thread (.merge p)
  | .merge p =>
    let (semaphore, fits) := s.semaphore.mergeFrontier p.frontier
    { s.goto thread (p.merged fits) with semaphore }
  | .loadWatermark value =>
    if value ≤ s.semaphore.lastUntaintedValue then s.goto thread (.dispatch value)
    else s.goto thread (.exchangeWatermark value s.semaphore.lastUntaintedValue)
  | .exchangeWatermark value current =>
    if s.semaphore.lastUntaintedValue = current ∧ choice.spurious = false then
      { s.goto thread (.dispatch value) with
        semaphore := { s.semaphore with lastUntaintedValue := value } }
    else s.goto thread (.loadWatermark value)
  | .dispatch value =>
    let (satisfied, semaphore) := s.semaphore.takeSatisfied value
    { s.goto thread (.callbacks satisfied .ok) with semaphore }
  | .exchangeFailure status =>
    -- the first failure wins
    if s.semaphore.failureStatus.isOk = true then
      { s.goto thread (.detach status) with
        semaphore := { s.semaphore with failureStatus := status } }
    else s.goto thread (.ready .ok)
  | .detach status =>
    let (detached, semaphore) := s.semaphore.detachAll
    { s.goto thread (.callbacks detached status) with semaphore }
  | .callbacks [] _ => s.goto thread (.ready .ok)
  | .callbacks (t :: rest) status => (s.fire t status).goto thread (.callbacks rest status)

/-- The entry of `acquire_timepoint`, which sets the fields of the timepoint. -/
def beginAcquire (timepoint : Timepoint) (minimumValue : ℕ) : System θ :=
  { (s.mark timepoint .acquiring).goto thread (.acquireFailure timepoint) with
    minimumValue := Function.update s.minimumValue timepoint minimumValue
    semaphore := { s.semaphore with timepoints := s.semaphore.timepoints.clear timepoint } }

omit [DecidableEq θ] in
/-- `cancel_timepoint`: one section under the mutex. -/
def cancel : System θ :=
  let (semaphore, pending) := s.semaphore.cancelTimepoint timepoint
  { s with
    semaphore
    stage := if pending then Function.update s.stage timepoint .cancelled else s.stage }

/-- One step of the system: a thread goes on, or one that is between calls makes a call. -/
inductive Step : System θ → System θ → Prop where
  | run {s : System θ} (thread : θ) (choice : Choice) : Step s (s.run thread choice)
  | acquire {s : System θ} {thread : θ} {result : Status} {timepoint : Timepoint}
      (minimumValue : ℕ) : s.pc thread = .ready result → s.stage timepoint = .unused →
      Step s (s.beginAcquire thread timepoint minimumValue)
  | publish {s : System θ} {thread : θ} {result : Status} (publication : Publication) :
      s.pc thread = .ready result → Step s (s.goto thread publication.start)
  | fail {s : System θ} {thread : θ} {result status : Status} :
      s.pc thread = .ready result → status.isOk = false →
      Step s (s.goto thread (.exchangeFailure status))
  | cancel {s : System θ} {thread : θ} {result : Status} (timepoint : Timepoint) :
      s.pc thread = .ready result → Step s (s.cancel timepoint)

/-- A new semaphore that no thread uses yet. -/
def Init : Prop :=
  (∃ initialValue capacity, s.semaphore = create initialValue capacity) ∧
  (∀ thread, s.pc thread = .ready .ok) ∧ (∀ timepoint, s.stage timepoint = .unused) ∧ s.fired = []

def Reachable : System θ → Prop := Transition.Reachable Init Step

/-- The timepoints whose callbacks have run, in order. -/
def called : List Timepoint := s.fired.map Prod.fst

def IsPending : Prop := ∃ key, s.semaphore.Pending key timepoint

end System

/-- The value a thread has published and not yet dispatched. -/
def Pc.publishes : Pc → Option ℕ
  | .recheckFailure p => some p.value
  | .merge p => some p.value
  | .loadWatermark value => some value
  | .exchangeWatermark value _ => some value
  | .dispatch value => some value
  | _ => none

/-- A thread that has failed the semaphore and not yet detached the index. -/
def Pc.detaches : Pc → Bool
  | .detach _ => true
  | _ => false

end Hrx.Semaphore
