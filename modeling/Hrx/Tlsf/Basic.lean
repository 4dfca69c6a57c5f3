import Hrx.Base.Alignment
import Hrx.Frontier.Basic

/-!
# The TLSF offset allocator: data model

A two-level segregated-fit allocator (`iree_hal_memory_tlsf_t`) over offsets `[0, rangeLength)`.
The range is cut into blocks; each block is a node of a pool, addressed by a stable 32-bit index,
that carries its extent, its two physical neighbours, its two free-list neighbours, its flags and
an inline death frontier.

Sizes are 64-bit and indices 32-bit in the source.  They are natural numbers here: the only
additions and subtractions are on extents inside the range and on counters that the invariant
bounds.  Bitmaps keep their widths, since they are shifted, masked and scanned.  Arrays are
functions of the index.
-/

namespace Hrx.Tlsf

/-- `IREE_HAL_MEMORY_TLSF_BLOCK_INDEX_NONE`: the null block handle, `UINT32_MAX`. -/
def indexNone : ℕ := 2 ^ 32 - 1

/-- `IREE_DEVICE_SIZE_MAX`. -/
def deviceSizeMax : ℕ := 2 ^ 64 - 1

/-- `IREE_HAL_MEMORY_TLSF_SL_LOG2`: log2 of the number of second-level bins. -/
def slLog2 : ℕ := 5

/-- `IREE_HAL_MEMORY_TLSF_SL_COUNT`. -/
def slCount : ℕ := 1 <<< slLog2

structure BlockFlags where
  /-- The block is free. -/
  free : Bool
  /-- The block is the last one of the range. -/
  last : Bool
  /-- The block's frontier overflowed and says nothing. -/
  tainted : Bool
deriving DecidableEq, Repr

/-- A block node with its inline frontier (`iree_hal_memory_tlsf_block_t`). -/
structure Block where
  offset : ℕ
  length : ℕ
  prevPhysical : ℕ
  nextPhysical : ℕ
  prevFree : ℕ
  nextFree : ℕ
  flags : BlockFlags
  frontier : Frontier

/-- A node of zeroed memory. -/
def Block.zero : Block := ⟨0, 0, 0, 0, 0, 0, ⟨false, false, false⟩, ⟨0, fun _ => ⟨0, 0⟩⟩⟩

/-! ### The segmented node pool -/

/-- Node storage in segments that never move.  The first segment holds `initialBlockCapacity`
nodes and later ones one power of two each, so that a bit scan finds the segment of an index;
`initialBlockShift` is the position of the top bit of the initial capacity by construction. -/
structure BlockPool where
  initialBlockCapacity : ℕ
  capacity_pos : 0 < initialBlockCapacity
  initialBlockShift : ℕ
  shift_eq : initialBlockShift = Nat.log2 initialBlockCapacity
  blockSegmentCount : ℕ
  blockSegments : ℕ → ℕ → Block
  blockCapacity : ℕ

namespace BlockPool

/-- The segment of an index and its position there (the address computation of `block_at`). -/
def locate (pool : BlockPool) (index : ℕ) : ℕ × ℕ :=
  if index < pool.initialBlockCapacity then (0, index)
  else
    let shift := Nat.log2 index
    (shift - pool.initialBlockShift + 1, index - 2 ^ shift)

/-- The node of an index (`iree_hal_memory_tlsf_block_at`). -/
def blockAt (pool : BlockPool) (index : ℕ) : Block :=
  pool.blockSegments (pool.locate index).1 (pool.locate index).2

/-- A write through the pointer `block_at` returns. -/
def modifyBlock (pool : BlockPool) (index : ℕ) (f : Block → Block) : BlockPool :=
  { pool with
    blockSegments := fun segment slot =>
      if (segment, slot) = pool.locate index then f (pool.blockSegments segment slot)
      else pool.blockSegments segment slot }

end BlockPool

/-! ### The allocator -/

/-- The allocator state (`iree_hal_memory_tlsf_t`). -/
structure Allocator where
  rangeLength : ℕ
  alignment : ℕ
  frontierCapacity : UInt8
  /-- The capture handler for a merge that does not fit: the frontier it leaves in the target. -/
  frontierOverflow : Option (Frontier → Frontier → Frontier)
  flBitmap : BitVec 64
  slBitmaps : ℕ → BitVec 32
  freeLists : ℕ → ℕ → ℕ
  pool : BlockPool
  blockStride : ℕ
  unusedNodeHead : ℕ
  bytesAllocated : ℕ
  bytesFree : ℕ
  allocationCount : ℕ
  freeBlockCount : ℕ
  taintedCoalesceCount : ℕ

namespace Allocator

def blockAt (s : Allocator) (index : ℕ) : Block := s.pool.blockAt index

/-- A write to the node of an index. -/
def modifyBlock (s : Allocator) (index : ℕ) (f : Block → Block) : Allocator :=
  { s with pool := s.pool.modifyBlock index f }

end Allocator

/-! ### Size classes -/

/-- Maps a block length to the first- and second-level indices of the bin whose range contains it
(`iree_hal_memory_tlsf_mapping_insert`). -/
def mappingInsert (length : ℕ) : ℕ × ℕ :=
  let fl := Nat.log2 length
  let slShift := if slLog2 < fl then fl - slLog2 else 0
  (fl, (length >>> slShift) &&& (slCount - 1))

/-- Maps a requested length to the smallest bin all of whose blocks fit it, if the rounding does
not overflow (`iree_hal_memory_tlsf_mapping_search`). -/
def mappingSearch (length : ℕ) : Option (ℕ × ℕ) :=
  let fl := Nat.log2 length
  if slLog2 < fl then
    let slShift := fl - slLog2
    let rounding := (1 <<< slShift) - 1
    if deviceSizeMax - rounding < length then none
    else
      let rounded := length + rounding
      -- Rounding may carry into the next first level.
      let newFl := Nat.log2 rounded
      if newFl ≠ fl then some (newFl, 0)
      else some (fl, (rounded >>> slShift) &&& (slCount - 1))
  else some (fl, length &&& (slCount - 1))

/-- `iree_device_align`. -/
def deviceAlign (value alignment : ℕ) : ℕ := maskAlignment (value + (alignment - 1)) alignment

end Hrx.Tlsf
