import Hrx.Frontier.Basic
import Hrx.Lib.LinearProbing
import Hrx.Tracker.Index

/-!
# The frontier tracker: axes and waiters

The tracker (`iree_async_frontier_tracker_t`) maps registered axes to their progress in an
open-addressed table and holds the waiters that are pending.  A pending waiter is in the inventory
list and in the index of one of its axes.  Waiter storage belongs to the callers; a waiter is named
by a number and the tracker state carries the contents of every waiter's storage.
-/

namespace Hrx.Tracker

/-! ### Axes -/

/-- `IREE_ASYNC_CAUSAL_DOMAIN_JOIN`. -/
def causalDomainJoin : ℕ := 4

/-- Packs an axis (`iree_async_axis_make`). -/
def axisMake (sessionEpoch machineIndex domain ordinal : ℕ) : ℕ :=
  sessionEpoch <<< 56 ||| machineIndex <<< 48 ||| domain <<< 40 ||| (ordinal &&& 0xFFFFFFFFFF)

/-- The causal domain of an axis (`iree_async_axis_domain`). -/
def axisDomain (axis : ℕ) : ℕ := (axis >>> 40) &&& 0xFF

/-- The axis belongs to a timeline lease of the tracker. -/
def isJoin (axis : ℕ) : Bool := axisDomain axis == causalDomainJoin

/-! ### The axis table -/

/-- The failure record of a timeline lease: `failure_epoch` is `UINT64_MAX` while healthy. -/
structure Timeline where
  failureEpoch : ℕ
  failureStatus : Status

/-- The payload of an axis slot: progress, failure and the waiters indexed on the axis.  Ordinary
axes own `failureStatus`; JOIN axes carry theirs in `timeline`. -/
structure AxisEntry where
  currentEpoch : ℕ
  failureStatus : Status
  timeline : Timeline
  index : AxisIndex ℕ

/-- The payload a registration writes. -/
def AxisEntry.registered : AxisEntry := ⟨0, .ok, ⟨epochMax, .ok⟩, .empty⟩

/-- The failure of an axis that a point at `epoch` sees
(`iree_async_axis_table_entry_failure`; the absent pointer is an OK status). -/
def AxisEntry.failure (entry : AxisEntry) (axis epoch : ℕ) : Status :=
  if isJoin axis then
    if epoch ≥ entry.timeline.failureEpoch then entry.timeline.failureStatus else .ok
  else entry.failureStatus

/-- The hash table of axes (`iree_async_axis_table_t`); `axes` holds the key of an occupied slot. -/
structure AxisTable where
  axes : ℕ → Option ℕ
  entries : ℕ → AxisEntry
  count : ℕ
  capacity : ℕ
  slotCount : ℕ

/-- The least power of two that is at least the value
(`iree_host_size_next_power_of_two` below its saturation). -/
def nextPowerOfTwo (value : ℕ) : ℕ := if value ≤ 1 then 1 else 2 ^ (Nat.log2 (value - 1) + 1)

/-- The slots for a capacity (`iree_async_axis_table_calculate_slot_count`). -/
def calculateSlotCount (capacity : ℕ) : Except Status ℕ :=
  if capacity = 0 then .ok 0
  else if capacity > (2 ^ 32 - 1) >>> 2 then
    .error ⟨.invalidArgument, s!"axis table capacity {capacity} is too large"⟩
  else
    let slotCount := nextPowerOfTwo (capacity * 2)
    if slotCount > 2 ^ 32 - 1 then
      .error ⟨.invalidArgument, s!"axis table capacity {capacity} is too large"⟩
    else .ok slotCount

/-- Mixes an axis for slot selection (`iree_async_axis_table_hash`). -/
def axisHash (axis : ℕ) : ℕ :=
  let value := UInt64.ofNat axis
  let value := value ^^^ (value >>> 33)
  let value := value * 0xff51afd7ed558ccd
  let value := value ^^^ (value >>> 33)
  let value := value * 0xc4ceb9fe1a85ec53
  let value := value ^^^ (value >>> 33)
  value.toNat % 2 ^ 32

namespace AxisTable

variable (table : AxisTable)

def slotMask : ℕ := if table.slotCount = 0 then 0 else table.slotCount - 1

/-- The slot a probe sequence starts at. -/
def homeSlot (axis : ℕ) : ℕ := axisHash axis &&& table.slotMask

def nextSlot (slot : ℕ) : ℕ := (slot + 1) &&& table.slotMask

/-- The slot of a registered axis (`iree_async_axis_table_lookup`). -/
def lookup (axis : ℕ) : Option ℕ :=
  LinearProbing.probe table.axes table.nextSlot axis table.slotCount (table.homeSlot axis)

/-- Registers an axis (`iree_async_axis_table_register`). -/
def register (axis : ℕ) : Except Status AxisTable :=
  if (table.lookup axis).isSome then
    .error ⟨.alreadyExists, s!"frontier tracker axis {Frontier.hex16 axis} already registered"⟩
  else if table.count ≥ table.capacity then
    .error ⟨.resourceExhausted, s!"frontier tracker axis table capacity {table.capacity} " ++
      s!"exhausted registering axis {Frontier.hex16 axis}"⟩
  else
    match LinearProbing.firstFree table.axes table.nextSlot table.slotCount
        (table.homeSlot axis) with
    | none => .error ⟨.resourceExhausted, "frontier tracker axis table has no free slots"⟩
    | some slot => .ok
      { table with
        axes := Function.update table.axes slot (some axis)
        entries := Function.update table.entries slot .registered
        count := table.count + 1 }

end AxisTable

/-! ### Waiters -/

/-- Waiter storage (`iree_async_frontier_waiter_t`): the awaited frontier, the token handed to the
callback, and the index record.  `indexed` stands for a nonzero tree height. -/
structure Waiter where
  frontier : Frontier
  userData : ℕ
  axisSlot : ℕ
  frontierOrdinal : ℕ
  epoch : ℕ
  indexed : Bool

/-- Storage no wait has used yet. -/
def Waiter.unused : Waiter := ⟨.ofList [], 0, 0, 0, 0, false⟩

/-- The entries of the awaited frontier from an ordinal on, each with its ordinal. -/
def Waiter.pointsFrom (w : Waiter) (start : ℕ) : List (FrontierEntry × ℕ) :=
  w.frontier.toList.zipIdx.drop start

abbrev Callback := ℕ × Status

/-- The tracker (`iree_async_frontier_tracker_t`): the axis table, all waiter storage, the inventory
of pending waiters from `waiters_head` on, and the timeline leases. -/
structure FrontierTracker where
  sessionEpoch : ℕ
  machineIndex : ℕ
  table : AxisTable
  waiters : ℕ → Waiter
  inventory : List ℕ
  idleTimelines : List ℕ
  nextTimelineOrdinal : ℕ

end Hrx.Tracker
