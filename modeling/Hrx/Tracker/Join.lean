import Hrx.Lib.ByteStore
import Hrx.Tracker.Basic

/-!
# Logical joins

A join (`iree_async_frontier_join_t`) captures the points that a proof depends on, in entries sorted
by axis, and publishes them as ordinary frontiers of at most 255 entries.  The frontiers are packed
in place: each header moves the entries behind it up by its size, chunks from last to first.

`begin` and `merge` see the trailing storage as an array of entries; `publish` sees its bytes.
-/

namespace Hrx.Tracker

open ByteStore

/-! ### Storage -/

/-- One field of a struct layout (`iree_struct_field_t`). -/
structure StructField where
  count : ℕ × ℕ
  elementSize : ℕ
  alignment : ℕ

/-- `IREE_HOST_SIZE_MAX`. -/
def hostSizeMax : ℕ := 2 ^ 64 - 1

/-- A size, or the error of a calculation that overflows. -/
def checkedSize (size : ℕ) (message : String) : Except Status ℕ :=
  if size ≤ hostSizeMax then .ok size else .error ⟨.outOfRange, message⟩

/-- One round of `iree_struct_layout_calculate`: the offset of a field and the size up to its
end. -/
def structLayoutField (total : ℕ) (field : StructField) : Except Status (ℕ × ℕ) := do
  let offset ←
    if field.alignment > 0 then do
      let _ ← checkedSize (total + (field.alignment - 1)) "struct layout alignment overflow"
      pure ((total + (field.alignment - 1)) / field.alignment * field.alignment)
    else pure total
  let elementCount ← checkedSize (field.count.1 * field.count.2)
    "struct layout field count overflow"
  let fieldSize ← checkedSize (elementCount * field.elementSize) "struct layout field size overflow"
  let total ← checkedSize (offset + fieldSize) "struct layout total size overflow"
  pure (offset, total)

def uint8Max : ℕ := 255

/-- `sizeof(iree_async_frontier_t)`, the header before the entries. -/
def frontierSize : ℕ := 8

/-- `sizeof(iree_async_frontier_entry_t)`. -/
def entrySize : ℕ := 16

structure JoinLayout where
  waitsOffset : ℕ
  entriesOffset : ℕ
  totalSize : ℕ

/-- The layout of `iree_async_frontier_join_allocate`, for the sizes of the join and of a wait
record. -/
def joinAllocate (joinSize waitSize capacity : ℕ) : Except Status JoinLayout := do
  let waitCapacity := (capacity + (2 ^ 32 - 1)) % 2 ^ 32 / uint8Max + 1
  let waits ← structLayoutField joinSize ⟨(waitCapacity, 1), waitSize, 0⟩
  let entries ← structLayoutField waits.2 ⟨(capacity, 1), entrySize, 0⟩
  let frontiers ← structLayoutField entries.2 ⟨(waitCapacity, 1), frontierSize, 8⟩
  pure ⟨waits.1, entries.1, frontiers.2⟩

/-! ### Capture -/

/-- The capture of a join before it is published. -/
structure Join where
  /-- The proof point, with epoch zero before `begin`. -/
  point : FrontierEntry
  /-- The input entries, sorted by axis below `entryCount`. -/
  entries : ℕ → FrontierEntry
  entryCount : ℕ
  entryCapacity : ℕ

namespace Join

def toList (j : Join) : List FrontierEntry := (List.range j.entryCount).map j.entries

/-- `iree_async_frontier_join_begin` on storage that holds `entries`, on a timeline. -/
def begin (axis lastEpoch capacity : ℕ) (entries : ℕ → FrontierEntry) : Join :=
  let point : FrontierEntry := ⟨axis, (lastEpoch + 1) % 2 ^ 64⟩
  if point.epoch > 1 then ⟨point, Function.update entries 0 ⟨axis, point.epoch - 1⟩, 1, capacity⟩
  else ⟨point, entries, 0, capacity⟩

/-- The loop that skips entries with smaller axes, with `remaining` entries from `position` on. -/
def seek (entries : ℕ → FrontierEntry) (axis : ℕ) : ℕ → ℕ → ℕ
  | 0, position => position
  | remaining + 1, position =>
    if (entries position).axis < axis then seek entries axis remaining (position + 1) else position

/-- The move of the entries from `position` up to `count` by one. -/
def moveUp (entries : ℕ → FrontierEntry) (position count : ℕ) : ℕ → FrontierEntry :=
  fun i => if position < i ∧ i ≤ count then entries (i - 1) else entries i

/-- One round of the loop of `iree_async_frontier_join_merge`. -/
def mergePoint (state : Join × ℕ) (point : FrontierEntry) : Join × ℕ :=
  let (j, position) := state
  -- the open proof is already represented by its inputs
  if point.axis = j.point.axis then state
  else
    let position := seek j.entries point.axis (j.entryCount - position) position
    let entry := j.entries position
    if position < j.entryCount ∧ entry.axis = point.axis then
      ({ j with
        entries := Function.update j.entries position ⟨entry.axis, max entry.epoch point.epoch⟩ },
        position)
    else
      ({ j with
        entries := Function.update (moveUp j.entries position j.entryCount) position point
        entryCount := j.entryCount + 1 }, position)

/-- `iree_async_frontier_join_merge`. -/
def merge (j : Join) (frontier : Option Frontier) : Join :=
  match frontier with
  | none => j
  | some frontier => (frontier.toList.foldl mergePoint (j, 0)).1

/-- A capture: `begin` and any number of merges. -/
def capture (axis lastEpoch capacity : ℕ) (entries : ℕ → FrontierEntry)
    (frontiers : List (Option Frontier)) : Join :=
  frontiers.foldl merge (begin axis lastEpoch capacity entries)

end Join

/-! ### Publication -/

variable (bytes : ℕ → UInt8)

/-- The entry whose bytes start at an offset. -/
def entryAt (offset : ℕ) : FrontierEntry := ⟨load bytes offset 8, load bytes (offset + 8) 8⟩

/-- The frontier whose header starts at an offset. -/
def frontierAt (offset : ℕ) : Frontier :=
  ⟨bytes offset, fun i => entryAt bytes (offset + frontierSize + entrySize * i)⟩

/-- `iree_async_frontier_initialize`. -/
def frontierInitialize (offset entryCount : ℕ) : ℕ → UInt8 :=
  fill (Function.update bytes offset (UInt8.ofNat entryCount)) (offset + 1) 7 0

namespace Join

variable (j : Join)

def waitCount : ℕ := (j.entryCount + uint8Max - 1) % 2 ^ 32 / uint8Max

def frontierOffset (entriesOffset ordinal : ℕ) : ℕ :=
  entriesOffset + entrySize * (ordinal * uint8Max) + ordinal * frontierSize

/-- One round of the packing loop. -/
def packChunk (entriesOffset : ℕ) (bytes : ℕ → UInt8) (ordinal : ℕ) : ℕ → UInt8 :=
  let first := ordinal * uint8Max
  let count := min (j.entryCount - first) uint8Max
  let frontier := frontierOffset entriesOffset ordinal
  frontierInitialize
    (move bytes (frontier + frontierSize) (entriesOffset + entrySize * first) (count * entrySize))
    frontier count

/-- The packing loop, from the chunk before `i` down. -/
def pack (j : Join) (entriesOffset : ℕ) : ℕ → (ℕ → UInt8) → ℕ → UInt8
  | 0, bytes => bytes
  | i + 1, bytes => pack j entriesOffset i (packChunk j entriesOffset bytes i)

/-- The packing of the entries by `iree_async_frontier_join_publish`.  The wait records and counts
that it also writes, below the entries, are left out. -/
def publish (layout : JoinLayout) (bytes : ℕ → UInt8) : ℕ → UInt8 :=
  j.pack layout.entriesOffset j.waitCount bytes

def frontiers (layout : JoinLayout) (bytes : ℕ → UInt8) : List Frontier :=
  (List.range j.waitCount).map fun ordinal =>
    frontierAt bytes (frontierOffset layout.entriesOffset ordinal)

end Join

end Hrx.Tracker
