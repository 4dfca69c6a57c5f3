import Hrx.Tracker.Basic

/-!
# The frontier tracker: operations

Every public call run to completion under the tracker's mutex.  A call returns the tracker and the
callbacks it makes, in order; the bridge semaphores of axes are not modelled.
-/

namespace Hrx.Tracker

namespace FrontierTracker

/-! ### Creation and axes -/

/-- A tracker without axes (`iree_async_frontier_tracker_create`). -/
def create (sessionEpoch machineIndex axisTableCapacity : ℕ) : Except Status FrontierTracker :=
  match calculateSlotCount axisTableCapacity with
  | .error status => .error status
  | .ok slotCount => .ok
    { sessionEpoch, machineIndex
      table := ⟨fun _ => none, fun _ => .registered, 0, axisTableCapacity, slotCount⟩
      waiters := fun _ => .unused
      inventory := []
      idleTimelines := []
      nextTimelineOrdinal := 0 }

variable (t : FrontierTracker)

/-- Registers an axis of a participant (`iree_async_frontier_tracker_register_axis`). -/
def registerAxis (axis : ℕ) : Except Status FrontierTracker :=
  if isJoin axis then
    .error ⟨.invalidArgument, "JOIN axes are owned by tracker timeline leases"⟩
  else
    match t.table.register axis with
    | .error status => .error status
    | .ok table => .ok { t with table }

/-- Leases a timeline: an idle one, or a newly registered JOIN axis
(`iree_async_frontier_tracker_acquire_timeline`). -/
def acquireTimeline : Except Status (FrontierTracker × ℕ) :=
  match t.idleTimelines with
  | axis :: idleTimelines => .ok ({ t with idleTimelines }, axis)
  | [] =>
    let axis := axisMake t.sessionEpoch t.machineIndex causalDomainJoin t.nextTimelineOrdinal
    match t.table.register axis with
    | .error status => .error status
    | .ok table => .ok ({ t with table, nextTimelineOrdinal := t.nextTimelineOrdinal + 1 }, axis)

/-! ### Indexing -/

def entry (slot : ℕ) : AxisEntry := t.table.entries slot

def setEntry (slot : ℕ) (e : AxisEntry) : FrontierTracker :=
  { t with table := { t.table with entries := Function.update t.table.entries slot e } }

def setWaiter (waiter : ℕ) (w : Waiter) : FrontierTracker :=
  { t with waiters := Function.update t.waiters waiter w }

def setIndex (slot : ℕ) (index : AxisIndex ℕ) : FrontierTracker :=
  t.setEntry slot { t.entry slot with index }

/-- Records a point in a waiter's index record and inserts it there. -/
def indexInsert (waiter slot ordinal epoch : ℕ) : FrontierTracker :=
  (t.setWaiter waiter
    { t.waiters waiter with axisSlot := slot, frontierOrdinal := ordinal, epoch, indexed := true }
    ).setIndex slot ((t.entry slot).index.insert epoch waiter)

def indexErase (waiter : ℕ) : FrontierTracker :=
  let w := t.waiters waiter
  (t.setWaiter waiter { w with indexed := false }).setIndex w.axisSlot
    ((t.entry w.axisSlot).index.erase w.epoch waiter)

/-- Takes a waiter off the inventory (`iree_async_frontier_tracker_unlink_waiter`). -/
def unlinkWaiter (waiter : ℕ) : FrontierTracker := { t with inventory := t.inventory.erase waiter }

/-- Indexes the next unresolved point of a waiter, given its remaining points; false once all are
reached (`iree_async_frontier_tracker_index_next`). -/
def indexNext (t : FrontierTracker) (waiter : ℕ) :
    List (FrontierEntry × ℕ) → FrontierTracker × Bool
  | [] => (t, false)
  | (point, ordinal) :: rest =>
    match t.table.lookup point.axis with
    | none => (t, false) -- excluded by `validateAxes` before any wait
    | some slot =>
      if (t.entry slot).currentEpoch ≥ point.epoch then indexNext t waiter rest
      else
        let indexed := t.indexInsert waiter slot ordinal point.epoch
        if (indexed.entry slot).currentEpoch < point.epoch then (indexed, true)
        else indexNext (indexed.indexErase waiter) waiter rest

/-! ### Waiting -/

/-- Every axis of a frontier must be registered
(`iree_async_frontier_tracker_validate_axes`, over the entries from index `i` on). -/
def validateAxes (t : FrontierTracker) : ℕ → List FrontierEntry → Except Status Unit
  | _, [] => .ok ()
  | i, point :: rest =>
    if (t.table.lookup point.axis).isNone then
      .error ⟨.notFound,
        s!"frontier entry {i} references unknown axis {Frontier.hex16 point.axis}"⟩
    else validateAxes t (i + 1) rest

/-- The result of checking a frontier (`iree_async_waiter_check_result_t`): pending at its first
unreached entry, satisfied, or failed. -/
inductive WaiterCheck where
  | pending (ordinal : ℕ)
  | satisfied
  | failed (status : Status)

/-- Checks a validated frontier, the entries from index `i` on
(`iree_async_frontier_tracker_check_frontier`). -/
def checkFrontier (t : FrontierTracker) : ℕ → Option ℕ → List FrontierEntry → WaiterCheck
  | _, none, [] => .satisfied
  | _, some ordinal, [] => .pending ordinal
  | i, pendingOrdinal, point :: rest =>
    match t.table.lookup point.axis with
    | none => .satisfied -- excluded by `validateAxes`
    | some slot =>
      let failure := (t.entry slot).failure point.axis point.epoch
      if !failure.isOk then .failed failure
      else if (t.entry slot).currentEpoch < point.epoch then
        -- a later axis may have failed, so the scan goes on
        checkFrontier t (i + 1) (pendingOrdinal.or (some i)) rest
      else checkFrontier t (i + 1) pendingOrdinal rest

/-- The part of `wait` under the mutex, for a waiter whose storage is written: it is called back at
once if its frontier is satisfied or failed, and enters the inventory otherwise. -/
def enterWait (waiter : ℕ) : FrontierTracker × List Callback :=
  let w := t.waiters waiter
  match t.checkFrontier 0 none w.frontier.toList with
  | .satisfied => (t, [(w.userData, .ok)])
  | .failed status => (t, [(w.userData, status)])
  | .pending ordinal =>
    let t := { t with inventory := waiter :: t.inventory }
    match t.indexNext waiter (w.pointsFrom ordinal) with
    | (t, true) => (t, [])
    | (t, false) => (t.unlinkWaiter waiter, [(w.userData, .ok)])

/-- Waits for a frontier (`iree_async_frontier_tracker_wait`). -/
def wait (frontier : Frontier) (userData waiter : ℕ) :
    Except Status (FrontierTracker × List Callback) :=
  match t.validateAxes 0 frontier.toList with
  | .error status => .error status
  | .ok () => .ok ((t.setWaiter waiter ⟨frontier, userData, 0, 0, 0, false⟩).enterWait waiter)

/-- Cancels a wait; true iff it was still pending (`iree_async_frontier_tracker_cancel_wait`). -/
def cancelWait (waiter : ℕ) : FrontierTracker × Bool :=
  if (t.waiters waiter).indexed then ((t.indexErase waiter).unlinkWaiter waiter, true)
  else (t, false)

/-! ### Advancing -/

/-- Moves each waiter of a ready epoch to its next dependency; returns those that have none left,
as their tokens (the inner loop of `advance`). -/
def redispatch (t : FrontierTracker) : List ℕ → FrontierTracker × List ℕ
  | [] => (t, [])
  | waiter :: rest =>
    let w := t.waiters waiter
    let t := t.setWaiter waiter { w with indexed := false }
    match t.indexNext waiter (w.pointsFrom (w.frontierOrdinal + 1)) with
    | (t, true) => redispatch t rest
    | (t, false) =>
      let (t', dispatched) := redispatch (t.unlinkWaiter waiter) rest
      (t', w.userData :: dispatched)

/-- Dispatches the waiters indexed at a slot up to an epoch, one tree node after the other (the
outer loop of `advance`). -/
def dispatchReady (slot epoch : ℕ) : ℕ → FrontierTracker → FrontierTracker × List ℕ
  | 0, t => (t, [])
  | fuel + 1, t =>
    match (t.entry slot).index.minimum with
    | none => (t, [])
    | some (minimumEpoch, waiter) =>
      if minimumEpoch ≤ epoch then
        let (ready, index) := (t.entry slot).index.takeNode minimumEpoch waiter
        let (t, dispatched) := (t.setIndex slot index).redispatch ready
        let (t, dispatched') := dispatchReady slot epoch fuel t
        (t, dispatched ++ dispatched')
      else (t, [])

/-- Advances an axis and calls back the waiters that become ready
(`iree_async_frontier_tracker_advance`).  Every turn of the dispatch loop takes one node out of the
slot's tree, so the number of nodes bounds it. -/
def advance (axis epoch : ℕ) : FrontierTracker × List Callback :=
  match t.table.lookup axis with
  | none => (t, [])
  | some slot =>
    if epoch ≤ (t.entry slot).currentEpoch then (t, [])
    else
      let t := t.setEntry slot { t.entry slot with currentEpoch := epoch }
      if epoch < (t.entry slot).index.nextWaitEpoch then (t, [])
      else
        let (t, dispatched) := dispatchReady slot epoch (t.entry slot).index.root.toList.length t
        (t, dispatched.map fun token => (token, .ok))

/-! ### Failing -/

/-- The epoch a frontier requires on an axis, if it names the axis
(`iree_async_frontier_find_axis`). -/
def findAxis (frontier : Frontier) (axis : ℕ) : Option ℕ :=
  (frontier.toList.find? fun point => point.axis == axis).map fun point => point.epoch

/-- Removes every waiter of the list that waits for the axis at or behind the failure; returns
their tokens (the inventory loop of `fail_axis_impl`). -/
def failWaiters (axis failureEpoch : ℕ) : List ℕ → FrontierTracker → FrontierTracker × List ℕ
  | [], t => (t, [])
  | waiter :: rest, t =>
    match findAxis (t.waiters waiter).frontier axis with
    | none => failWaiters axis failureEpoch rest t
    | some epoch =>
      if epoch ≥ failureEpoch then
        let token := (t.waiters waiter).userData
        let (t, tokens) :=
          failWaiters axis failureEpoch rest ((t.indexErase waiter).unlinkWaiter waiter)
        (t, token :: tokens)
      else failWaiters axis failureEpoch rest t

/-- The failure a slot stores: the first status stays the diagnostic of later failures. -/
def keepFirst (stored status : Status) : Status := if stored.isOk then status else stored

/-- Records a failure in a slot; none if the slot has failed at or before that epoch. -/
def recordFailure (e : AxisEntry) (axis : ℕ) (status : Status) (failureEpoch : ℕ) :
    Option (AxisEntry × Status) :=
  if isJoin axis then
    if failureEpoch ≥ e.timeline.failureEpoch then none
    else
      let status := keepFirst e.timeline.failureStatus status
      some ({ e with timeline := ⟨failureEpoch, status⟩ }, status)
  else if !e.failureStatus.isOk then none
  else some ({ e with failureStatus := status }, status)

/-- Fails an axis from an epoch on (`iree_async_frontier_tracker_fail_axis_impl`). -/
def failAxisImpl (axis : ℕ) (status : Status) (failureEpoch : ℕ) :
    FrontierTracker × List Callback :=
  match t.table.lookup axis with
  | none => (t, [])
  | some slot =>
    match recordFailure (t.entry slot) axis status failureEpoch with
    | none => (t, [])
    | some (e, status) =>
      let (t, tokens) := failWaiters axis failureEpoch t.inventory (t.setEntry slot e)
      (t, tokens.map fun token => (token, status))

/-- Fails an axis (`iree_async_frontier_tracker_fail_axis`; `retire_axis` differs from it in the
bridge semaphore only). -/
def failAxis (axis : ℕ) (status : Status) : FrontierTracker × List Callback :=
  t.failAxisImpl axis status 0

/-- Retires an axis (`iree_async_frontier_tracker_retire_axis`). -/
def retireAxis (axis : ℕ) (status : Status) : FrontierTracker × List Callback :=
  t.failAxisImpl axis status 0

/-- Drops the last reference of a timeline lease: a healthy one becomes idle
(`iree_async_frontier_timeline_drop_reference`). -/
def dropTimeline (axis : ℕ) : FrontierTracker :=
  match t.table.lookup axis with
  | none => t
  | some slot =>
    if (t.entry slot).timeline.failureStatus.isOk then
      { t with idleTimelines := axis :: t.idleTimelines }
    else t

end FrontierTracker

end Hrx.Tracker
