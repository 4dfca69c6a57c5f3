import Hrx.Frontier.Basic
import Hrx.Lib.IndexedHeap

/-!
# Timeline semaphores

The semaphore of the async layer (`iree_async_semaphore_t`): a timeline value, a taint watermark, a
sticky failure, an accumulated frontier and a four-way heap of pending timepoints.  The definitions
here are the pieces a call is made of, each one atomic step or one section under the mutex, and the
calls that take no other thread's steps in between.

Timeline values are 64-bit and only compared, hence natural numbers.  A timepoint is named by its
storage address; `heap_index` of a timepoint is the heap's position of it, with
`IREE_HOST_SIZE_MAX` as no position.  A failure is stored as a status word that is zero for OK.
-/

namespace Hrx

/-- The address of a caller-owned timepoint (`iree_async_semaphore_timepoint_t`). -/
abbrev Timepoint := ℕ

/-- A timeline semaphore (`iree_async_semaphore_t`). -/
structure Semaphore where
  timelineValue : ℕ
  lastUntaintedValue : ℕ
  failureStatus : Status
  frontierCapacity : UInt8
  frontier : Frontier
  timepoints : IndexedHeap.Heap ℕ Timepoint
  /-- The number of heap entries there is storage for. -/
  capacity : ℕ

namespace Semaphore

/-- `IREE_ASYNC_SEMAPHORE_INLINE_TIMEPOINT_CAPACITY`. -/
def inlineTimepointCapacity : ℕ := 4

/-- A new semaphore (`iree_async_semaphore_create`). -/
def create (initialValue : ℕ) (frontierCapacity : UInt8) : Semaphore where
  timelineValue := initialValue
  lastUntaintedValue := initialValue
  failureStatus := .ok
  frontierCapacity := frontierCapacity
  frontier := .ofList []
  timepoints := ⟨fun _ => ⟨0, 0⟩, 0, fun _ => none⟩
  capacity := inlineTimepointCapacity

/-! ### The pending index -/

variable (s : Semaphore)

def Pending (minimumValue : ℕ) (timepoint : Timepoint) : Prop :=
  s.timepoints.Holds minimumValue timepoint

/-- The bound on the index capacity: `UINT32_MAX`, the smaller of the two limits on a 64-bit
host. -/
def maximumCapacity : ℕ := 2 ^ 32 - 1

/-- Doubles the index storage (`grow_timepoints_locked`); `allocation` is the error of the
allocator, if it fails. -/
def growTimepoints (allocation : Option Status) : Except Status Semaphore :=
  if maximumCapacity / 2 < s.capacity then
    .error ⟨.resourceExhausted, "semaphore pending index capacity exhausted"⟩
  else
    match allocation with
    | some status => .error status
    | none => .ok { s with capacity := s.capacity * 2 }

/-- The storage check before an insertion. -/
def reserveTimepoint (allocation : Option Status) : Except Status Semaphore :=
  if s.timepoints.count = s.capacity then s.growTimepoints allocation else .ok s

/-- Adds a timepoint to the index (`timepoint_sift_up` from the end). -/
def insertTimepoint (minimumValue : ℕ) (timepoint : Timepoint) : Semaphore :=
  { s with timepoints := s.timepoints.insert 4 ⟨minimumValue, timepoint⟩ }

/-- Removes a member of the index (`remove_timepoint_locked`). -/
def removeTimepoint (index : ℕ) (timepoint : Timepoint) : Semaphore :=
  { s with timepoints := s.timepoints.removeAt 4 index timepoint }

/-- Cancels a timepoint (`iree_async_semaphore_cancel_timepoint`). -/
def cancelTimepoint (timepoint : Timepoint) : Semaphore × Bool :=
  match s.timepoints.position timepoint with
  | some index => (s.removeTimepoint index timepoint, true)
  | none => (s, false)

variable (value : ℕ)

/-- The collecting phase of `dispatch_timepoints`: every timepoint that `value` satisfies. -/
def takeSatisfied : List Timepoint × Semaphore :=
  let (satisfied, timepoints) := s.timepoints.takeUpTo 4 value s.timepoints.count
  (satisfied, { s with timepoints })

/-- Empties the index (`detach_all_locked`). -/
def detachAll : List Timepoint × Semaphore :=
  let (detached, timepoints) := s.timepoints.drainAll
  (detached, { s with timepoints })

/-! ### Frontier and watermark -/

/-- Merges an optional frontier into the accumulated one and says whether it fit. -/
def mergeFrontier (frontier : Option Frontier) : Semaphore × Bool :=
  match frontier with
  | none => (s, true)
  | some source =>
    if 0 < source.entryCount then
      let (merged, fits) := s.frontier.merge s.frontierCapacity source
      ({ s with frontier := merged }, fits)
    else (s, true)

/-- Raises the untainted watermark to `value` (the watermark loop of `signal_untainted`). -/
def raiseWatermark : Semaphore :=
  if value ≤ s.lastUntaintedValue then s else { s with lastUntaintedValue := value }

/-- Whether a value may have come from an external source
(`iree_async_semaphore_is_value_tainted`). -/
def isValueTainted : Bool := s.lastUntaintedValue < value

/-- The error of a value that the timeline has passed. -/
def alreadySignaled : Status := ⟨.invalidArgument, s!"semaphore already signaled past {value}"⟩

/-! ### Calls run to completion -/

/-- What an untainted publication does once the timeline has advanced: merge, raise the watermark
if the frontier fit, dispatch.  The result lists the timepoints called back with OK. -/
def publish (frontier : Option Frontier) : Semaphore × List Timepoint :=
  let (merged, fits) := { s with timelineValue := value }.mergeFrontier frontier
  let marked := if fits then merged.raiseWatermark value else merged
  let (satisfied, dispatched) := marked.takeSatisfied value
  (dispatched, satisfied)

/-- `iree_async_semaphore_signal_untainted`, with no other thread's step in between. -/
def signalUntainted (frontier : Option Frontier) : Status × Semaphore × List Timepoint :=
  if value ≤ s.timelineValue then (alreadySignaled value, s, [])
  else (.ok, s.publish value frontier)

/-- `iree_async_semaphore_publish_untainted`, with no other thread's step in between. -/
def publishUntainted (frontier : Option Frontier) : Status × Semaphore × List Timepoint :=
  if s.failureStatus.isOk = false then (s.failureStatus, s, [])
  else if value ≤ s.timelineValue then (.ok, s, [])
  -- the failure is loaded again here, and without another thread it is as before
  else (.ok, s.publish value frontier)

end Semaphore

end Hrx
