import Hrx.Tlsf.Basic

/-!
# The TLSF offset allocator: operations

The operations of `tlsf.c` as functions on the allocator state, statement by statement.  A call
that reports an error returns it with no new state; host allocation, the only other source of
failure, is a Boolean argument saying whether the host allocator serves the request.
-/

namespace Hrx

namespace Frontier

/-- `memcpy` of a frontier's header and valid entries over another frontier's storage. -/
def copyOver (target source : Frontier) : Frontier :=
  ⟨source.entryCount, fun i => if i < source.count then source.entries i else target.entries i⟩

/-- `iree_async_frontier_initialize(frontier, 0)`, and `frontier->entry_count = 0`. -/
def clear (f : Frontier) : Frontier := ⟨0, f.entries⟩

end Frontier

namespace Tlsf

namespace Allocator

/-! ### Nodes -/

variable (s : Allocator)

/-- Pops a node off the unused list and zeroes it (`iree_hal_memory_tlsf_alloc_node`). -/
def allocNode : Allocator × ℕ :=
  let index := s.unusedNodeHead
  let s := { s with unusedNodeHead := (s.blockAt index).nextFree }
  (s.modifyBlock index fun _ => Block.zero, index)

/-- Returns a node to the unused list (`iree_hal_memory_tlsf_free_node`). -/
def freeNode (index : ℕ) : Allocator :=
  let s := s.modifyBlock index fun _ => { Block.zero with nextFree := s.unusedNodeHead }
  { s with unusedNodeHead := index }

/-! ### Free lists -/

def setFreeList (fl sl head : ℕ) : Allocator :=
  { s with
    freeLists := fun fl' sl' => if fl' = fl ∧ sl' = sl then head else s.freeLists fl' sl' }

def setBits (fl sl : ℕ) : Allocator :=
  { s with
    flBitmap := s.flBitmap ||| (1#64 <<< fl)
    slBitmaps := Function.update s.slBitmaps fl (s.slBitmaps fl ||| (1#32 <<< sl)) }

def clearBitsIfEmpty (fl sl : ℕ) : Allocator :=
  if s.freeLists fl sl = indexNone then
    let slBitmap := s.slBitmaps fl &&& ~~~(1#32 <<< sl)
    { s with
      slBitmaps := Function.update s.slBitmaps fl slBitmap
      flBitmap := if slBitmap = 0 then s.flBitmap &&& ~~~(1#64 <<< fl) else s.flBitmap }
  else s

def linkFree (index fl sl : ℕ) : Allocator :=
  let oldHead := s.freeLists fl sl
  let s := s.modifyBlock index fun b => { b with prevFree := indexNone, nextFree := oldHead }
  let s := if oldHead ≠ indexNone then
      s.modifyBlock oldHead fun b => { b with prevFree := index }
    else s
  s.setFreeList fl sl index

def unlinkFree (index fl sl : ℕ) : Allocator :=
  let prevFree := (s.blockAt index).prevFree
  let nextFree := (s.blockAt index).nextFree
  let s := if prevFree ≠ indexNone then
      s.modifyBlock prevFree fun b => { b with nextFree := nextFree }
    else s.setFreeList fl sl nextFree
  let s := if nextFree ≠ indexNone then
      s.modifyBlock nextFree fun b => { b with prevFree := prevFree }
    else s
  s.modifyBlock index fun b => { b with prevFree := indexNone, nextFree := indexNone }

def binOf (index : ℕ) : ℕ × ℕ := mappingInsert (s.blockAt index).length

/-- Pushes a free block on the list of its bin (`iree_hal_memory_tlsf_insert_free_block`). -/
def insertFreeBlock (index : ℕ) : Allocator :=
  let bin := s.binOf index
  let s := (s.linkFree index bin.1 bin.2).setBits bin.1 bin.2
  { s with freeBlockCount := s.freeBlockCount + 1 }

/-- Unlinks a free block from the list of its bin (`iree_hal_memory_tlsf_remove_free_block`). -/
def removeFreeBlock (index : ℕ) : Allocator :=
  let bin := s.binOf index
  let s := (s.unlinkFree index bin.1 bin.2).clearBitsIfEmpty bin.1 bin.2
  { s with freeBlockCount := s.freeBlockCount - 1 }

/-- Finds a free block of at least `length` bytes by bitmap scans, or none
(`iree_hal_memory_tlsf_find_suitable_block`). -/
def findSuitableBlock (length : ℕ) : ℕ :=
  let (fl, sl) := mappingInsert length
  let containingHead := s.freeLists fl sl
  if containingHead ≠ indexNone ∧ length ≤ (s.blockAt containingHead).length then containingHead
  else
    match mappingSearch length with
    | none => indexNone
    | some (fl, sl) =>
      let slMap := s.slBitmaps fl &&& (BitVec.allOnes 32 <<< sl)
      if slMap ≠ 0 then s.freeLists fl slMap.ctz.toNat
      else
        let flMap := s.flBitmap &&& ~~~(BitVec.allOnes 64 >>> (63 - fl))
        if flMap = 0 then indexNone
        else
          let foundFl := flMap.ctz.toNat
          s.freeLists foundFl (s.slBitmaps foundFl).ctz.toNat

/-! ### Frontiers -/

/-- Merges a frontier into a block's inline frontier; a merge that does not fit goes to the capture
handler, or taints the block (`iree_hal_memory_tlsf_merge_frontiers`). -/
def mergeFrontiers (target : ℕ) (sourceFrontier : Frontier) : Allocator :=
  if sourceFrontier.entryCount = 0 then s
  else if (s.blockAt target).flags.tainted then s
  else
    let result := (s.blockAt target).frontier.merge s.frontierCapacity sourceFrontier
    if result.2 then s.modifyBlock target fun b => { b with frontier := result.1 }
    else
      match s.frontierOverflow with
      | some capture =>
        s.modifyBlock target fun b => { b with frontier := capture result.1 sourceFrontier }
      | none =>
        let s := s.modifyBlock target fun b =>
          { b with flags := { b.flags with tainted := true }, frontier := result.1.clear }
        { s with taintedCoalesceCount := s.taintedCoalesceCount + 1 }

end Allocator

/-! ### Initialization -/

/-- Initialization options (`iree_hal_memory_tlsf_options_t`). -/
structure Options where
  rangeLength : ℕ
  /-- Sizes are 64 bits wide. -/
  rangeLength_lt : rangeLength < 2 ^ 64
  alignment : ℕ
  initialBlockCapacity : ℕ
  frontierCapacity : UInt8
  initialFrontier : Option Frontier

/-- The node stride: the fixed fields, the frontier header and the frontier entries. -/
def nodeStride (frontierCapacity : UInt8) : ℕ := 40 + 8 + 16 * frontierCapacity.toNat

/-- The initial node count: the default for zero, rounded up to a power of two, and at most the
number of valid handles. -/
def roundBlockCapacity (requested : ℕ) : ℕ :=
  let capacity := if requested = 0 then 64 else requested
  if 2 ^ 31 < capacity then indexNone
  else if 1 < capacity then 1 <<< (Nat.log2 (capacity - 1) + 1)
  else capacity

lemma roundBlockCapacity_pos (requested : ℕ) : 0 < roundBlockCapacity requested := by
  unfold roundBlockCapacity
  simp only [Nat.one_shiftLeft]
  split_ifs with h1 h2 h3
  all_goals first | exact Nat.two_pow_pos _ | decide | omega

/-- The empty pool of one zeroed segment. -/
def BlockPool.initial (capacity : ℕ) (h : 0 < capacity) : BlockPool :=
  ⟨capacity, h, Nat.log2 capacity, rfl, 1, fun _ _ => Block.zero, capacity⟩

/-- Links the nodes `1..n` of a fresh pool into the unused list, in ascending order. -/
def Allocator.linkUnused (s : Allocator) : ℕ → Allocator
  | 0 => s
  | n + 1 =>
    let s := s.linkUnused n
    let s := s.modifyBlock (n + 1) fun b => { b with nextFree := s.unusedNodeHead }
    { s with unusedNodeHead := n + 1 }

variable (options : Options)

def Options.withAlignment : Options :=
  { options with alignment := if options.alignment = 0 then 16 else options.alignment }

/-- The options with the range rounded down to the alignment and the default frontier capacity for
zero. -/
def Options.rounded : Options :=
  { options with
    rangeLength := maskAlignment options.rangeLength options.alignment
    rangeLength_lt := BitVec.isLt _
    frontierCapacity := if options.frontierCapacity = 0 then 8 else options.frontierCapacity }

/-- The options `initialize` goes on with, or its complaint about them. -/
def Options.validate : Except Status Options :=
  if options.rangeLength = 0 then
    .error ⟨.invalidArgument, "range_length must be > 0"⟩
  else
    let options := options.withAlignment
    if options.alignment < 16 then
      .error ⟨.invalidArgument, s!"alignment ({options.alignment}) must be >= 16"⟩
    else if ¬ (options.alignment ≠ 0 ∧ options.alignment &&& (options.alignment - 1) = 0) then
      .error ⟨.invalidArgument, s!"alignment ({options.alignment}) must be a power of two"⟩
    else if options.rangeLength < options.alignment then
      .error ⟨.invalidArgument,
        s!"range_length ({options.rangeLength}) must be >= alignment ({options.alignment})"⟩
    else
      let options := options.rounded
      if (options.initialFrontier.map Frontier.entryCount).any (options.frontierCapacity < ·) then
        .error ⟨.outOfRange, "initial frontier exceeds allocator capacity"⟩
      else if 2 ^ 32 - 1 < options.initialBlockCapacity then
        .error ⟨.invalidArgument, "initial block capacity exceeds 32-bit handles"⟩
      else .ok options

/-- The allocator over validated options, before the initial block exists. -/
def Allocator.empty : Allocator where
  rangeLength := options.rangeLength
  alignment := options.alignment
  frontierCapacity := options.frontierCapacity
  frontierOverflow := none
  flBitmap := 0
  slBitmaps := fun _ => 0
  freeLists := fun _ _ => indexNone
  pool := BlockPool.initial (roundBlockCapacity options.initialBlockCapacity)
    (roundBlockCapacity_pos _)
  blockStride := nodeStride options.frontierCapacity
  unusedNodeHead := indexNone
  bytesAllocated := 0
  bytesFree := options.rangeLength
  allocationCount := 0
  freeBlockCount := 0
  taintedCoalesceCount := 0

/-- Node 0 as the free block spanning the whole range. -/
def initialBlock (b : Block) : Block where
  offset := 0
  length := options.rangeLength
  prevPhysical := indexNone
  nextPhysical := indexNone
  prevFree := indexNone
  nextFree := indexNone
  flags := ⟨true, true, false⟩
  frontier := (options.initialFrontier.map b.frontier.copyOver).getD b.frontier.clear

/-- The allocator over validated options: all nodes but node 0 unused, and node 0 listed. -/
def Allocator.fresh : Allocator :=
  let s := Allocator.empty options
  let s := s.linkUnused (s.pool.initialBlockCapacity - 1)
  (s.modifyBlock 0 (initialBlock options)).insertFreeBlock 0

/-- `iree_hal_memory_tlsf_initialize`. -/
def tlsfInitialize (hostAllocates : Bool) : Except Status Allocator := do
  let options ← options.validate
  if ¬ hostAllocates then .error ⟨.resourceExhausted, ""⟩
  else .ok (Allocator.fresh options)

/-! ### Growing the pool -/

/-- A pool growth captured by `query_growth` (`iree_hal_memory_tlsf_growth_t`). -/
structure Growth where
  storage : ℕ → Block
  blockStride : ℕ
  firstBlock : ℕ
  blockCount : ℕ

variable (s : Allocator)

/-- The growth an allocation from a block needs, or an all-zero one if a node is available or the
block is not split (`iree_hal_memory_tlsf_query_growth`). -/
def Allocator.queryGrowth (blockIndex alignedLength : ℕ) : Growth :=
  if s.unusedNodeHead ≠ indexNone ∨ (s.blockAt blockIndex).length - alignedLength < s.alignment then
    ⟨fun _ => Block.zero, 0, 0, 0⟩
  else
    ⟨fun _ => Block.zero, s.blockStride, s.pool.blockCapacity,
      min s.pool.blockCapacity (2 ^ 32 - 1 - s.pool.blockCapacity)⟩

/-- Allocates and chains the nodes of a growth while it is still detached
(`iree_hal_memory_tlsf_prepare_growth`). -/
def prepareGrowth (growth : Growth) (hostAllocates : Bool) : Except Status Growth :=
  if growth.blockCount = 0 then
    .error ⟨.resourceExhausted, "block pool reached its 32-bit handle limit"⟩
  else if ¬ hostAllocates then .error ⟨.resourceExhausted, ""⟩
  else
    .ok { growth with
      storage := fun i =>
        { Block.zero with nextFree := if i ≠ 0 then growth.firstBlock + i - 1 else indexNone } }

/-- Publishes a prepared growth if it still continues the pool
(`iree_hal_memory_tlsf_apply_growth`). -/
def Allocator.applyGrowth (growth : Growth) : Allocator × Bool :=
  if growth.firstBlock ≠ s.pool.blockCapacity ∨ growth.blockStride ≠ s.blockStride then (s, false)
  else
    let storage := fun i =>
      if i = 0 then { growth.storage 0 with nextFree := s.unusedNodeHead } else growth.storage i
    let pool := { s.pool with
      blockSegments := Function.update s.pool.blockSegments s.pool.blockSegmentCount storage
      blockSegmentCount := s.pool.blockSegmentCount + 1
      blockCapacity := s.pool.blockCapacity + growth.blockCount }
    ({ s with pool := pool, unusedNodeHead := pool.blockCapacity - 1 }, true)

/-! ### Allocating -/

/-- A successful allocation (`iree_hal_memory_tlsf_allocation_t`). -/
structure Allocation where
  offset : ℕ
  length : ℕ
  blockIndex : ℕ
  deathFrontier : Option Frontier
  blockFlags : BlockFlags

namespace Allocator

/-- The inline frontier of a block, or none when it is empty
(`iree_hal_memory_tlsf_block_death_frontier`). -/
def blockDeathFrontier (blockIndex : ℕ) : Option Frontier :=
  if (s.blockAt blockIndex).frontier.entryCount = 0 then none
  else some (s.blockAt blockIndex).frontier

/-- Splits the front `alignedLength` bytes off a block that has left its free list; the node
`remainderIndex` becomes the free rest and inherits the reuse dependencies. -/
def splitBlock (blockIndex remainderIndex alignedLength : ℕ) : Allocator :=
  let block := s.blockAt blockIndex
  let s := s.modifyBlock remainderIndex fun b =>
    { b with
      offset := block.offset + alignedLength
      length := block.length - alignedLength
      prevPhysical := blockIndex
      nextPhysical := block.nextPhysical
      flags := ⟨true, block.flags.last, block.flags.tainted⟩ }
  let s := s.modifyBlock blockIndex fun b => { b with flags := { b.flags with last := false } }
  let s := if block.nextPhysical ≠ indexNone then
      s.modifyBlock block.nextPhysical fun b => { b with prevPhysical := remainderIndex }
    else s
  let s := s.modifyBlock blockIndex fun b =>
    { b with nextPhysical := remainderIndex, length := alignedLength }
  s.modifyBlock remainderIndex fun b => { b with frontier := b.frontier.copyOver block.frontier }

/-- Marks a block that has left its free list as allocated and reports it. -/
def commitBlock (blockIndex : ℕ) : Allocator × Allocation :=
  let s := s.modifyBlock blockIndex fun b => { b with flags := { b.flags with free := false } }
  let block := s.blockAt blockIndex
  ({ s with
    bytesAllocated := s.bytesAllocated + block.length
    allocationCount := s.allocationCount + 1 },
    ⟨block.offset, block.length, blockIndex, s.blockDeathFrontier blockIndex, block.flags⟩)

/-- Allocates from a free block, splitting it when the rest is a block of its own
(`iree_hal_memory_tlsf_allocate_block`). -/
def allocateBlock (blockIndex alignedLength : ℕ) : Allocator × Allocation :=
  let remainder := (s.blockAt blockIndex).length - alignedLength
  if s.alignment ≤ remainder then
    let remainderIndex := s.allocNode.2
    let s := s.allocNode.1.removeFreeBlock blockIndex
    let s := s.splitBlock blockIndex remainderIndex alignedLength
    let s := s.insertFreeBlock remainderIndex
    { s with bytesFree := s.bytesFree - alignedLength }.commitBlock blockIndex
  else
    -- Cannot split: the whole block, which may be slightly over-sized.
    let s := s.removeFreeBlock blockIndex
    { s with bytesFree := s.bytesFree - (s.blockAt blockIndex).length }.commitBlock blockIndex

/-- The length a request is rounded to: aligned, and at least one alignment unit. -/
def alignedLength (length : ℕ) : ℕ := max (deviceAlign length s.alignment) s.alignment

/-- `iree_hal_memory_tlsf_try_allocate` on the allocator as a state, in which whatever was written
before an error stays written: the allocation, or none when no block is suitable. -/
def tryAllocateCall (length : ℕ) (hostAllocates : Bool) :
    ExceptT Status (StateM Allocator) (Option Allocation) := do
  let s ← get
  if length = 0 then
    throw ⟨.invalidArgument, "allocation length must be > 0"⟩
  if deviceSizeMax - (s.alignment - 1) < length then
    throw ⟨.outOfRange,
      s!"allocation length {length} overflows when aligned to {s.alignment}"⟩
  let alignedLength := s.alignedLength length
  let blockIndex := s.findSuitableBlock alignedLength
  if blockIndex = indexNone then
    return none
  let growth := s.queryGrowth blockIndex alignedLength
  if growth.firstBlock ≠ 0 then
    let growth ← prepareGrowth growth hostAllocates
    modify fun s => (s.applyGrowth growth).1
  let allocation ← modifyGet fun s =>
    let (s, allocation) := s.allocateBlock blockIndex alignedLength
    (allocation, s)
  return some allocation

/-- What the call reports, and the allocator it leaves behind. -/
def runTryAllocate (length : ℕ) (hostAllocates : Bool) :
    Except Status (Option Allocation) × Allocator :=
  (tryAllocateCall length hostAllocates).run.run s

/-- The call as a function that reports the allocator behind it unless it fails. -/
def tryAllocate (length : ℕ) (hostAllocates : Bool) :
    Except Status (Allocator × Option Allocation) :=
  match s.runTryAllocate length hostAllocates with
  | (.ok result, s) => .ok (s, result)
  | (.error status, _) => .error status

/-! ### Freeing -/

def clearTaint (blockIndex : ℕ) : Allocator :=
  s.modifyBlock blockIndex fun b => { b with flags := { b.flags with tainted := false } }

def clearFrontier (blockIndex : ℕ) : Allocator :=
  s.modifyBlock blockIndex fun b => { b with frontier := b.frontier.clear }

/-- Replaces a freed block's dependency metadata by its death frontier; one wider than the inline
storage is merged into the empty frontier, which captures it or taints the block. -/
def setDeathFrontier (blockIndex : ℕ) (deathFrontier : Option Frontier) : Allocator :=
  let s := s.clearTaint blockIndex
  match deathFrontier with
  | none => s.clearFrontier blockIndex
  | some death =>
    if death.entryCount = 0 then s.clearFrontier blockIndex
    else if death.entryCount ≤ s.frontierCapacity then
      s.modifyBlock blockIndex fun b => { b with frontier := b.frontier.copyOver death }
    else (s.clearFrontier blockIndex).mergeFrontiers blockIndex death

/-- Merges the block `source` into its left neighbour `target`: frontier, extent, LAST and TAINTED
flags and physical links. -/
def absorbInto (target source : ℕ) : Allocator :=
  let sourceBlock := s.blockAt source
  let s := s.mergeFrontiers target sourceBlock.frontier
  let s := s.modifyBlock target fun b =>
    { b with
      length := b.length + sourceBlock.length
      flags := { b.flags with last := b.flags.last || sourceBlock.flags.last } }
  let s := if sourceBlock.flags.tainted then
      s.modifyBlock target fun b =>
        { b with flags := { b.flags with tainted := true }, frontier := b.frontier.clear }
    else s
  let s := s.modifyBlock target fun b => { b with nextPhysical := sourceBlock.nextPhysical }
  if sourceBlock.nextPhysical ≠ indexNone then
    s.modifyBlock sourceBlock.nextPhysical fun b => { b with prevPhysical := target }
  else s

/-- Merges a block into its left neighbour and releases its node, as both coalescing directions of
`free_impl` do. -/
def absorb (target source : ℕ) : Allocator := (s.absorbInto target source).freeNode source

/-- Coalesces a freed block with its right neighbour if that is free. -/
def coalesceRight (blockIndex : ℕ) : Allocator :=
  let block := s.blockAt blockIndex
  if ¬ block.flags.last ∧ block.nextPhysical ≠ indexNone ∧
      (s.blockAt block.nextPhysical).flags.free then
    (s.removeFreeBlock block.nextPhysical).absorb blockIndex block.nextPhysical
  else s

/-- Coalesces a freed block into its left neighbour if that is free; returns the block that is
left to insert. -/
def coalesceLeft (blockIndex : ℕ) : Allocator × ℕ :=
  let block := s.blockAt blockIndex
  if block.prevPhysical ≠ indexNone ∧ (s.blockAt block.prevPhysical).flags.free then
    ((s.removeFreeBlock block.prevPhysical).absorb block.prevPhysical blockIndex,
      block.prevPhysical)
  else (s, blockIndex)

/-- Updates the counters for a deallocation and marks the block FREE. -/
def releaseBlock (blockIndex : ℕ) : Allocator :=
  let block := s.blockAt blockIndex
  let s := { s with
    bytesAllocated := s.bytesAllocated - block.length
    bytesFree := s.bytesFree + block.length
    allocationCount := s.allocationCount - 1 }
  s.modifyBlock blockIndex fun b => { b with flags := { b.flags with free := true } }

/-- `iree_hal_memory_tlsf_free_impl`. -/
def freeImpl (blockIndex : ℕ) (deathFrontier : Option Frontier)
    (preserveBlockMetadata : Bool) : Allocator :=
  let s := s.releaseBlock blockIndex
  let s := if preserveBlockMetadata then s else s.setDeathFrontier blockIndex deathFrontier
  let s := s.coalesceRight blockIndex
  (s.coalesceLeft blockIndex).1.insertFreeBlock (s.coalesceLeft blockIndex).2

/-- `iree_hal_memory_tlsf_free`. -/
def free (blockIndex : ℕ) (deathFrontier : Option Frontier) : Allocator :=
  s.freeImpl blockIndex deathFrontier false

/-- `iree_hal_memory_tlsf_restore`. -/
def restore (blockIndex : ℕ) : Allocator := s.freeImpl blockIndex none true

end Allocator

end Tlsf

end Hrx
