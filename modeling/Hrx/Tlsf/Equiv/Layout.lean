import Hrx.Tlsf.Tiling
import Hrx.Tlsf.Equiv.FreeLists

/-!
# The allocator invariant

The invariant is stated over a ghost view of the node graph: the physical layout, the chain of
unused nodes and the bins.  Inside an operation some facts are suspended: a node may be detached
from both lists, and a block flagged FREE may be missing from its bin (a hole).  `Inv` carries both,
so that it holds between any two of the primitive steps; at rest there are none.
-/

namespace Hrx.Tlsf

open Allocator DoublyLinked List

/-- The view of the node graph that the invariant speaks about. -/
structure View where
  /-- The blocks in physical order. -/
  layout : List ℕ
  /-- The unused nodes in list order. -/
  unused : List ℕ
  /-- Nodes that are momentarily neither. -/
  detached : List ℕ
  /-- The free lists. -/
  bins : ℕ → ℕ → List ℕ
  /-- FREE blocks that are momentarily not listed. -/
  holes : Finset ℕ

def View.nodes (v : View) : List ℕ := v.layout ++ v.unused ++ v.detached

def Allocator.extents (s : Allocator) (layout : List ℕ) : List Extent :=
  layout.map fun i => (s.blockAt i).extent

/-- The blocks of the layout that are flagged FREE, the holes excepted. -/
def Allocator.listed (s : Allocator) (v : View) : Finset ℕ :=
  (v.layout.filter fun i => (s.blockAt i).flags.free).toFinset \ v.holes

structure Physical (s : Allocator) (layout : List ℕ) : Prop where
  linked : IsList (fun i => (s.blockAt i).nextPhysical) (fun i => (s.blockAt i).prevPhysical)
    indexNone 0 layout
  tiles : Tiles s.alignment 0 (s.extents layout) s.rangeLength
  last : LastOnly (s.extents layout)

/-- The nodes below the capacity are the blocks, the unused and the detached nodes. -/
structure Nodes (s : Allocator) (v : View) : Prop where
  chain : IsChain (fun i => (s.blockAt i).nextFree) indexNone s.unusedNodeHead v.unused
  nodup : v.nodes.Nodup
  mem_iff : ∀ i, i ∈ v.nodes ↔ i < s.pool.blockCapacity

/-- The byte and allocation counters are the totals of the tiling. -/
structure Counters (s : Allocator) (layout : List ℕ) : Prop where
  bytesAllocated : s.bytesAllocated = allocatedBytes (s.extents layout)
  bytesFree : s.bytesFree = freeBytes (s.extents layout)
  allocationCount : s.allocationCount = allocatedCount (s.extents layout)

/-- The segments hold the nodes below the capacity, and growth can continue at a power of two. -/
structure PoolShape (pool : BlockPool) : Prop where
  segments_pos : 0 < pool.blockSegmentCount
  segments_le : pool.blockSegmentCount ≤ 33
  capacity_le : pool.blockCapacity ≤ indexNone
  locate_lt : ∀ i < pool.blockCapacity, (pool.locate i).1 < pool.blockSegmentCount
  growable : pool.blockCapacity < indexNone →
    pool.initialBlockCapacity ≤ pool.blockCapacity ∧
      pool.blockCapacity = 2 ^ (pool.initialBlockShift + (pool.blockSegmentCount - 1))

/-- The configured geometry: fixed at initialization. -/
structure Geometry (s : Allocator) : Prop where
  alignment_pos : 0 < s.alignment
  alignment_pow : ∃ k, k < 64 ∧ s.alignment = 2 ^ k
  range_lt : s.rangeLength < 2 ^ 64

/-- **The invariant** between two primitive steps. -/
structure Inv (s : Allocator) (v : View) : Prop where
  physical : Physical s v.layout
  freeLists : FreeLists s v.bins (s.listed v)
  nodes : Nodes s v
  counters : Counters s v.layout
  shape : PoolShape s.pool
  geometry : Geometry s

/-! ### What the parts depend on -/

/-- The block without its free-list links. -/
def Block.core (b : Block) : Block := { b with prevFree := 0, nextFree := 0 }

lemma Block.free_of_core {b c : Block} (h : b.core = c.core) : b.flags.free = c.flags.free :=
  congrArg (fun b => b.flags.free) h

@[simp] lemma Allocator.core_insertFreeBlock (s : Allocator) (i j : ℕ) :
    ((s.insertFreeBlock i).blockAt j).core = (s.blockAt j).core := by
  rw [s.blockAt_insertFreeBlock, s.blockAt_linkFree]
  rfl

@[simp] lemma Allocator.core_removeFreeBlock (s : Allocator) (i j : ℕ) :
    ((s.removeFreeBlock i).blockAt j).core = (s.blockAt j).core := by
  rw [s.blockAt_removeFreeBlock, s.blockAt_unlinkFree]
  rfl

/-- What the physical list says about a block: its extent and its two neighbours. -/
def Block.placement (b : Block) : Extent × ℕ × ℕ := (b.extent, b.prevPhysical, b.nextPhysical)

variable {s s' : Allocator} {layout : List ℕ} {v : View}

lemma Allocator.extents_congr
    (h : ∀ i ∈ layout, (s'.blockAt i).placement = (s.blockAt i).placement) :
    s'.extents layout = s.extents layout :=
  map_congr_left fun i hi => congrArg Prod.fst (h i hi)

lemma Physical.congr (h : Physical s layout) (halign : s'.alignment = s.alignment)
    (hrange : s'.rangeLength = s.rangeLength)
    (hplace : ∀ i ∈ layout, (s'.blockAt i).placement = (s.blockAt i).placement) :
    Physical s' layout where
  linked := h.linked.congr (fun i hi => congrArg (fun p => p.2.2) (hplace i hi))
    (fun i hi => congrArg (fun p => p.2.1) (hplace i hi))
  tiles := by
    rw [halign, hrange, extents_congr hplace]
    exact h.tiles
  last := by
    rw [extents_congr hplace]
    exact h.last

lemma Counters.congr (h : Counters s layout) (houtline : s'.outline = s.outline)
    (hextent : s'.extents layout = s.extents layout) : Counters s' layout := by
  constructor
  · rw [bytesAllocated_of_outline houtline, hextent, h.bytesAllocated]
  · rw [bytesFree_of_outline houtline, hextent, h.bytesFree]
  · rw [allocationCount_of_outline houtline, hextent, h.allocationCount]

lemma Nodes.congr (h : Nodes s v) (houtline : s'.outline = s.outline)
    (hnext : ∀ i ∈ v.unused, (s'.blockAt i).nextFree = (s.blockAt i).nextFree) : Nodes s' v := by
  refine ⟨?_, h.nodup, ?_⟩
  · rw [unusedNodeHead_of_outline houtline]
    exact h.chain.congr hnext
  · rw [blockCapacity_of_outline houtline]
    exact h.mem_iff

lemma PoolShape.congr (h : PoolShape s.pool) (houtline : s'.outline = s.outline) :
    PoolShape s'.pool := by
  have hs : PoolShape s.outline.pool := ⟨h.1, h.2, h.3, h.4, h.5⟩
  rw [← houtline] at hs
  exact ⟨hs.1, hs.2, hs.3, hs.4, hs.5⟩

lemma Geometry.congr (h : Geometry s) (halign : s'.alignment = s.alignment)
    (hrange : s'.rangeLength = s.rangeLength) : Geometry s' := by
  constructor
  · rw [halign]; exact h.alignment_pos
  · rw [halign]; exact h.alignment_pow
  · rw [hrange]; exact h.range_lt

lemma Allocator.mem_listed {i : ℕ} :
    i ∈ s.listed v ↔ i ∈ v.layout ∧ (s.blockAt i).flags.free = true ∧ i ∉ v.holes := by
  simp [listed, and_assoc]

/-- The listed blocks only depend on the FREE flags. -/
lemma Allocator.listed_congr
    (h : ∀ i ∈ v.layout, (s'.blockAt i).flags.free = (s.blockAt i).flags.free) :
    s'.listed v = s.listed v := by
  ext i
  rw [mem_listed, mem_listed]
  refine and_congr_right fun hi => ?_
  rw [h i hi]

/-! ### Consequences -/

namespace Inv

variable {s : Allocator} {v : View} {i : ℕ}

lemma mem_nodes_of_layout (hi : i ∈ v.layout) : i ∈ v.nodes :=
  mem_append_left _ (mem_append_left _ hi)

/-- A node index is a valid handle. -/
lemma ne_none (h : Inv s v) (hi : i ∈ v.nodes) : i ≠ indexNone := by
  have hlt := (h.nodes.mem_iff i).mp hi
  have hle := h.shape.capacity_le
  omega

/-- A block lies inside the range. -/
lemma bounds (h : Inv s v) (hi : i ∈ v.layout) :
    0 < (s.blockAt i).length ∧ s.alignment ∣ (s.blockAt i).length ∧
      (s.blockAt i).offset + (s.blockAt i).length ≤ s.rangeLength := by
  have hb := h.physical.tiles.mem_bounds (mem_map_of_mem hi)
  exact ⟨hb.1, hb.2.2.1, hb.2.2.2.2⟩

lemma length_lt (h : Inv s v) (hi : i ∈ v.layout) : (s.blockAt i).length < 2 ^ 64 := by
  have hb := h.bounds hi
  have hr := h.geometry.range_lt
  omega

lemma layout_unused_disjoint (h : Inv s v) {j : ℕ} (hi : i ∈ v.layout) (hj : j ∈ v.unused) :
    i ≠ j := by
  have hn := h.nodes.nodup
  rw [View.nodes, append_assoc, nodup_append] at hn
  exact hn.2.2 i hi j (mem_append_left _ hj)

lemma layout_detached_disjoint (h : Inv s v) {j : ℕ} (hi : i ∈ v.layout) (hj : j ∈ v.detached) :
    i ≠ j := by
  have hn := h.nodes.nodup
  rw [View.nodes, append_assoc, nodup_append] at hn
  exact hn.2.2 i hi j (mem_append_right _ hj)

lemma listed_subset (hi : i ∈ s.listed v) : i ∈ v.layout := (mem_listed.mp hi).1

end Inv

end Hrx.Tlsf
