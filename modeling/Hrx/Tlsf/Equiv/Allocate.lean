import Hrx.Tlsf.Equiv.Reuse

/-!
# Allocating and growing

What an allocator at rest looks like, and that growing the node pool and allocating lead from rest
to rest.  Each operation is described once: the new layout, the handles that are now allocated, and
that whatever reuse dependencies the blocks covered they still cover.
-/

namespace Hrx.Tlsf

open Allocator Block DoublyLinked List

def Allocator.allocated (s : Allocator) (layout : List ℕ) : Finset ℕ :=
  (layout.filter fun i => !(s.blockAt i).flags.free).toFinset

lemma Allocator.mem_allocated {s : Allocator} {layout : List ℕ} {i : ℕ} :
    i ∈ s.allocated layout ↔ i ∈ layout ∧ (s.blockAt i).flags.free = false := by
  simp [allocated]

/-- Between calls: no node is detached, every FREE block is listed and free neighbours have been
coalesced. -/
structure AtRest (s : Allocator) (layout : List ℕ) : Prop where
  inv : ∃ unused bins, Inv s ⟨layout, unused, [], bins, ∅⟩
  noAdjacentFree : NoAdjacentFree (s.extents layout)

/-- What a call achieves: the allocator is at rest again with the given blocks allocated, and the
blocks cover what they covered. -/
structure Served (s : Allocator) (layout : List ℕ) (s' : Allocator) (layout' : List ℕ)
    (allocated' : Finset ℕ) : Prop where
  rest : AtRest s' layout'
  allocated_eq : s'.allocated layout' = allocated'
  covered : ∀ need, Covered s layout need → Covered s' layout' need

/-! ### Growing the pool -/

section growth

variable {s : Allocator} {v : View} {growth : Growth}

/-- Block 0 heads the physical list. -/
lemma Inv.layout_eq (h : Inv s v) : ∃ l, v.layout = 0 :: l := by
  have hlast := h.physical.last
  have hhead := h.physical.linked.head_eq
  cases hl : v.layout with
  | nil =>
    rw [hl] at hlast
    exact hlast.elim
  | cons i l =>
    rw [hl] at hhead
    obtain rfl : 0 = i := hhead
    exact ⟨l, rfl⟩

/-- A call that asks for no growth has a node at hand if the block is to be split: the pool is never
empty. -/
lemma Inv.node_of_queryGrowth {x n : ℕ} (h : Inv s v) (hfirst : (s.queryGrowth x n).firstBlock = 0)
    (hsplit : s.alignment ≤ (s.blockAt x).length - n) : s.unusedNodeHead ≠ indexNone := by
  intro hnone
  obtain ⟨l, hl⟩ := h.layout_eq
  have hcap := (h.nodes.mem_iff 0).mp (Inv.mem_nodes_of_layout (hl ▸ mem_cons_self ..))
  unfold queryGrowth at hfirst
  rw [if_neg (by rw [not_or]; exact ⟨not_not.mpr hnone, hsplit.not_gt⟩)] at hfirst
  exact absurd hfirst hcap.ne'

/-- A prepared growth doubles the pool it continues, up to the handle limit. -/
lemma Growth.Prepared.spec (h : growth.Prepared) :
    0 < growth.blockCount ∧
    growth.blockCount = min growth.firstBlock (2 ^ 32 - 1 - growth.firstBlock) ∧
    ∀ i, growth.storage i =
      { zero with nextFree := if i ≠ 0 then growth.firstBlock + i - 1 else indexNone } := by
  obtain ⟨s, blockIndex, alignedLength, hostAllocates, h⟩ := h
  unfold prepareGrowth at h
  split_ifs at h with hzero hhost
  cases h
  refine ⟨Nat.pos_of_ne_zero hzero, ?_, fun _ => rfl⟩
  unfold queryGrowth at hzero ⊢
  split_ifs at hzero ⊢ with hcond
  · exact absurd rfl hzero
  · rfl

/-- The new segment holds exactly the new nodes. -/
lemma PoolShape.locate_growth {pool : BlockPool} (h : PoolShape pool) {i : ℕ}
    (hcap : pool.blockCapacity < indexNone) (hle : pool.blockCapacity ≤ i)
    (hlt : i < 2 * pool.blockCapacity) :
    pool.locate i = (pool.blockSegmentCount, i - pool.blockCapacity) := by
  obtain ⟨hinitial, hpow⟩ := h.growable hcap
  have hseg := h.segments_pos
  rw [BlockPool.locate_of_le (hinitial.trans hle)]
  have hlog : Nat.log2 i = pool.initialBlockShift + (pool.blockSegmentCount - 1) := by
    refine log2_eq_of_lt (hpow ▸ hle) ?_
    rw [Nat.pow_succ, ← hpow]
    omega
  rw [hlog, ← hpow, Prod.mk.injEq]
  exact ⟨by omega, rfl⟩

section

variable (h : PoolShape s.pool) (hfirst : growth.firstBlock = s.pool.blockCapacity)
  (hstride : growth.blockStride = s.blockStride)
include h hfirst hstride

/-- The pool after a matching growth: old nodes keep their place, the new ones are the storage with
its first node linked to the old unused list. -/
lemma PoolShape.blockAt_applyGrowth (hcap : s.pool.blockCapacity < indexNone)
    (hcount : growth.blockCount ≤ s.pool.blockCapacity) :
    (∀ i < s.pool.blockCapacity, (s.applyGrowth growth).1.blockAt i = s.blockAt i) ∧
    ∀ i < growth.blockCount, (s.applyGrowth growth).1.blockAt (s.pool.blockCapacity + i) =
      if i = 0 then { growth.storage 0 with nextFree := s.unusedNodeHead }
      else growth.storage i := by
  unfold applyGrowth
  rw [if_neg (by simp [hfirst, hstride])]
  constructor
  · intro i hi
    show Function.update s.pool.blockSegments s.pool.blockSegmentCount _ (s.pool.locate i).1
      (s.pool.locate i).2 = _
    rw [Function.update_of_ne (h.locate_lt i hi).ne]
    rfl
  · intro i hi
    show Function.update s.pool.blockSegments s.pool.blockSegmentCount _
      (s.pool.locate (s.pool.blockCapacity + i)).1 (s.pool.locate (s.pool.blockCapacity + i)).2 = _
    rw [h.locate_growth hcap (Nat.le_add_right _ _) (by omega), Function.update_self,
      Nat.add_sub_cancel_left]

/-- The new pool has the shape of the old one, with one segment more. -/
lemma PoolShape.applyGrowth (hcap : s.pool.blockCapacity < indexNone)
    (hcount : growth.blockCount = min s.pool.blockCapacity (2 ^ 32 - 1 - s.pool.blockCapacity)) :
    PoolShape (s.applyGrowth growth).1.pool := by
  obtain ⟨hinitial, hpow⟩ := h.growable hcap
  have hnone : indexNone = 2 ^ 32 - 1 := rfl
  have hseg := h.segments_pos
  have hexp : s.pool.initialBlockShift + (s.pool.blockSegmentCount - 1) < 32 := by
    refine (Nat.pow_lt_pow_iff_right (a := 2) (by decide)).mp ?_
    rw [← hpow]
    omega
  unfold Allocator.applyGrowth
  rw [if_neg (by simp [hfirst, hstride])]
  refine ⟨Nat.succ_pos _, by show s.pool.blockSegmentCount + 1 ≤ 33; omega, ?_, ?_, ?_⟩
  · show s.pool.blockCapacity + growth.blockCount ≤ indexNone
    omega
  · intro i hi
    show (s.pool.locate i).1 < s.pool.blockSegmentCount + 1
    have hi' : i < s.pool.blockCapacity + growth.blockCount := hi
    by_cases hold : i < s.pool.blockCapacity
    · exact Nat.lt_succ_of_lt (h.locate_lt i hold)
    · rw [h.locate_growth hcap (by omega) (by omega)]
      exact Nat.lt_succ_self _
  · intro hgrow
    have hgrow' : s.pool.blockCapacity + growth.blockCount < indexNone := hgrow
    have hdouble : growth.blockCount = s.pool.blockCapacity := by omega
    constructor
    · show s.pool.initialBlockCapacity ≤ s.pool.blockCapacity + growth.blockCount
      omega
    · have hsucc : s.pool.initialBlockShift + (s.pool.blockSegmentCount + 1 - 1) =
          s.pool.initialBlockShift + (s.pool.blockSegmentCount - 1) + 1 := by omega
      rw [hdouble, hsucc, Nat.pow_succ, ← hpow, Nat.mul_two]

end

/-- **Growing** the pool adds unused nodes and touches no block; a growth that no longer continues
the pool is ignored. -/
lemma Inv.applyGrowth (h : Inv s v) (hg : growth.Prepared) :
    (∀ j ∈ v.layout, (s.applyGrowth growth).1.blockAt j = s.blockAt j) ∧
    ∃ unused, Inv (s.applyGrowth growth).1 { v with unused := unused } ∧
      ((s.applyGrowth growth).2 = true → unused ≠ []) := by
  obtain ⟨hpos, hcount, hstorage⟩ := hg.spec
  by_cases hmatch : growth.firstBlock ≠ s.pool.blockCapacity ∨ growth.blockStride ≠ s.blockStride
  · have hsame : s.applyGrowth growth = (s, false) := by
      unfold Allocator.applyGrowth
      rw [if_pos hmatch]
    rw [hsame]
    exact ⟨fun _ _ => rfl, v.unused, h, fun hc => absurd hc (by simp)⟩
  rw [not_or, not_not, not_not] at hmatch
  obtain ⟨hfirst, hstride⟩ := hmatch
  rw [hfirst] at hcount hstorage
  have hnone : indexNone = 2 ^ 32 - 1 := rfl
  have hcap : s.pool.blockCapacity < indexNone := by omega
  obtain ⟨hold, hnew⟩ := h.shape.blockAt_applyGrowth hfirst hstride hcap (by omega)
  have hshape := h.shape.applyGrowth hfirst hstride hcap hcount
  have hmem : ∀ j ∈ v.nodes, (s.applyGrowth growth).1.blockAt j = s.blockAt j := fun j hj =>
    hold j ((h.nodes.mem_iff j).mp hj)
  have hlayout : ∀ j ∈ v.layout, (s.applyGrowth growth).1.blockAt j = s.blockAt j := fun j hj =>
    hmem j (Inv.mem_nodes_of_layout hj)
  -- The new nodes, in the order in which the unused list has them.
  obtain ⟨n, hn⟩ : ∃ n, growth.blockCount = n + 1 := ⟨growth.blockCount - 1, by omega⟩
  have hchain : IsChain (fun i => ((s.applyGrowth growth).1.blockAt i).nextFree) indexNone
      (s.pool.blockCapacity + n)
      ((List.range' s.pool.blockCapacity (n + 1)).reverse ++ v.unused) := by
    refine (h.nodes.chain.congr fun j hj => ?_).descending ?_ n fun i hi => ?_
    · rw [hmem j (mem_append_left _ (mem_append_right _ hj))]
    · show ((s.applyGrowth growth).1.blockAt (s.pool.blockCapacity + 0)).nextFree = _
      rw [hnew 0 (by omega), if_pos rfl]
    show ((s.applyGrowth growth).1.blockAt (s.pool.blockCapacity + (i + 1))).nextFree = _
    rw [hnew (i + 1) (by omega), if_neg (Nat.succ_ne_zero i), hstorage,
      if_pos (Nat.succ_ne_zero i)]
    show s.pool.blockCapacity + (i + 1) - 1 = s.pool.blockCapacity + i
    omega
  have hfields : (s.applyGrowth growth).1 =
      { s with
        pool := (s.applyGrowth growth).1.pool
        unusedNodeHead := s.pool.blockCapacity + n } := by
    unfold Allocator.applyGrowth
    rw [if_neg (by simp [hfirst, hstride]), hn]
    rfl
  have hcapacity : (s.applyGrowth growth).1.pool.blockCapacity =
      s.pool.blockCapacity + (n + 1) := by
    unfold Allocator.applyGrowth
    rw [if_neg (by simp [hfirst, hstride]), hn]
  refine ⟨hlayout, (List.range' s.pool.blockCapacity (n + 1)).reverse ++ v.unused, ?_,
    fun _ => by simp⟩
  generalize hs' : (s.applyGrowth growth).1 = s' at *
  have hext : s'.extents v.layout = s.extents v.layout :=
    extents_congr fun j hj => by rw [hlayout j hj]
  have hlisted : s'.listed { v with unused := (List.range' s.pool.blockCapacity (n + 1)).reverse ++
      v.unused } = s.listed v :=
    listed_congr fun j hj => by rw [hlayout j hj]
  refine ⟨?_, ?_, ⟨?_, ?_, ?_⟩, ⟨?_, ?_, ?_⟩, hshape, ?_⟩
  · refine h.physical.congr ?_ ?_ fun j hj => by rw [hlayout j hj]
    · rw [hfields]
    · rw [hfields]
  · rw [hlisted]
    refine h.freeLists.congr ?_ fun j hj => by rw [hlayout j (Inv.listed_subset hj)]
    rw [hfields]
    rfl
  · have hhead : s'.unusedNodeHead = s.pool.blockCapacity + n := by rw [hfields]
    rw [hhead]
    exact hchain
  · have hnd := h.nodes.nodup
    have hlt : ∀ j ∈ v.nodes, j < s.pool.blockCapacity := fun j hj => (h.nodes.mem_iff j).mp hj
    unfold View.nodes at hnd hlt ⊢
    simp only [nodup_append, mem_append, mem_reverse, mem_range'_1, nodup_reverse] at hnd hlt ⊢
    grind
  · intro i
    have hi := h.nodes.mem_iff i
    rw [hcapacity]
    unfold View.nodes at hi ⊢
    simp only [mem_append, mem_reverse, mem_range'_1] at hi ⊢
    grind
  · rw [hext, hfields, h.counters.bytesAllocated]
  · rw [hext, hfields, h.counters.bytesFree]
  · rw [hext, hfields, h.counters.allocationCount]
  · exact h.geometry.congr (by rw [hfields]) (by rw [hfields])

end growth

/-! ### Allocating a block -/

section allocateBlock

variable {s : Allocator} {l₁ l₂ unused : List ℕ} {bins : ℕ → ℕ → List ℕ} {x n : ℕ}

/-- The payload after a commit. -/
lemma Allocator.payload_commitBlock (s : Allocator) (n x j : ℕ) :
    (({ s with bytesFree := n }.commitBlock x).1.blockAt j).payload =
      if j = x then { (s.blockAt j).payload with
        flags := { (s.blockAt j).payload.flags with free := false } }
      else (s.blockAt j).payload := by
  rw [blockAt_commitBlock]
  split <;> rfl

/-- Allocating a block that is not worth a split. -/
lemma Inv.allocateBlock_whole (h : Inv s ⟨l₁ ++ x :: l₂, unused, [], bins, ∅⟩)
    (hfree : (s.blockAt x).flags.free = true)
    (hwhole : ¬ s.alignment ≤ (s.blockAt x).length - n) :
    (∃ bins', Inv (s.allocateBlock x n).1 ⟨l₁ ++ x :: l₂, unused, [], bins', ∅⟩) ∧
    (s.allocateBlock x n).1.policy = s.policy ∧
    ∀ j, ((s.allocateBlock x n).1.blockAt j).payload =
      if j = x then { (s.blockAt x).payload with
        flags := { (s.blockAt x).flags with free := false } }
      else (s.blockAt j).payload := by
  have heq : s.allocateBlock x n = { s.removeFreeBlock x with
      bytesFree := (s.removeFreeBlock x).bytesFree -
        ((s.removeFreeBlock x).blockAt x).length }.commitBlock x := by
    unfold allocateBlock
    rw [if_neg hwhole]
  rw [heq]
  have hx : x ∈ l₁ ++ x :: l₂ := by simp
  have hremove := h.removeFreeBlock (mem_listed.mpr ⟨hx, hfree, Finset.notMem_empty x⟩)
  have hcore : ∀ j, ((s.removeFreeBlock x).blockAt j).core = (s.blockAt j).core :=
    s.core_removeFreeBlock x
  have hcommit := hremove.commitBlock rfl ((free_of_core (hcore x)).trans hfree)
    (Finset.mem_insert_self x _)
  refine ⟨⟨eraseBin bins (s.binOf x) x, by simpa using hcommit⟩, ?_, fun j => ?_⟩
  · exact (policy_of_outline (s.outline_removeFreeBlock x) :)
  rw [payload_commitBlock, payload_of_core (hcore j)]
  split
  · rename_i hjx
    rw [hjx]
    rfl
  · rfl

/-- The payloads after a split: the block keeps its metadata, the rest inherits them. -/
def Block.front (b : Block) (n : ℕ) : Block :=
  { b.payload with length := n, flags := { b.flags with last := false } }

/-- The rest of a split block, in the storage of a node. -/
def Block.rest (b node : Block) (n : ℕ) : Block :=
  { b.payload with
    offset := b.offset + n
    length := b.length - n
    frontier := node.frontier.copyOver b.frontier }

variable {r : ℕ}

/-- Splitting an unlisted block and listing the rest. -/
lemma Inv.splitBlock_insertFreeBlock (h : Inv s ⟨l₁ ++ x :: l₂, unused, [r], bins, {x}⟩)
    (hfree : (s.blockAt x).flags.free = true) (hpos : 0 < n) (halign : s.alignment ∣ n)
    (hlt : n < (s.blockAt x).length) :
    (∃ bins', Inv ((s.splitBlock x r n).insertFreeBlock r)
      ⟨l₁ ++ x :: r :: l₂, unused, [], bins', {x}⟩) ∧
    ((s.splitBlock x r n).insertFreeBlock r).policy = s.policy ∧
    ∀ j, (((s.splitBlock x r n).insertFreeBlock r).blockAt j).payload =
      if j = r then (s.blockAt x).rest (s.blockAt r) n
      else if j = x then (s.blockAt x).front n
      else (s.blockAt j).payload := by
  have hx : x ∈ l₁ ++ x :: l₂ := by simp
  have hxr : x ≠ r := h.layout_detached_disjoint hx (mem_singleton_self r)
  have hr_layout : r ∉ l₁ ++ x :: l₂ := fun hmem =>
    h.layout_detached_disjoint hmem (mem_singleton_self r) rfl
  have hnext_x := h.nextPhysical_ne rfl (Inv.mem_nodes_of_layout hx) (h.nodup_split rfl).2
  have hnext_r := h.nextPhysical_ne (y := r) rfl
    (mem_append_right _ (mem_singleton_self r)) fun hmem => hr_layout (by simp [hmem])
  have hat := s.blockAt_splitBlock n hxr hnext_x hnext_r
  have hsplit := h.splitBlock rfl rfl hfree (Finset.mem_singleton_self x) hpos halign hlt
  have hfree_r : ((s.splitBlock x r n).blockAt r).flags.free = true := by rw [hat, if_pos rfl]
  have hinsert := hsplit.insertFreeBlock (i := r) (by simp) hfree_r (Finset.mem_insert_self r _)
  have hholes : (insert r {x} : Finset ℕ).erase r = {x} :=
    Finset.erase_insert (by simpa using hxr.symm)
  refine ⟨⟨_, hholes ▸ hinsert⟩, ?_, fun j => ?_⟩
  · have hpolicy := policy_of_outline ((s.splitBlock x r n).outline_insertFreeBlock r)
    rw [hpolicy, policy_of_outline (s.splitBlock_frame x r n).1]
  rw [payload_of_core ((s.splitBlock x r n).core_insertFreeBlock r j), hat]
  split_ifs
  · unfold rest payload
    rw [← hfree]
  · rfl
  · rfl
  · rfl

/-- Allocating the front of a block: the rest is a free block of its own. -/
lemma Inv.allocateBlock_split (h : Inv s ⟨l₁ ++ x :: l₂, r :: unused, [], bins, ∅⟩)
    (hfree : (s.blockAt x).flags.free = true) (hpos : 0 < n) (halign : s.alignment ∣ n)
    (hlt : n < (s.blockAt x).length) (hsplit : s.alignment ≤ (s.blockAt x).length - n) :
    (∃ bins', Inv (s.allocateBlock x n).1 ⟨l₁ ++ x :: r :: l₂, unused, [], bins', ∅⟩) ∧
    (s.allocateBlock x n).1.policy = s.policy ∧
    ∀ j, ((s.allocateBlock x n).1.blockAt j).payload =
      if j = x then { (s.blockAt x).front n with
        flags := { ((s.blockAt x).front n).flags with free := false } }
      else if j = r then (s.blockAt x).rest zero n
      else (s.blockAt j).payload := by
  have hx : x ∈ l₁ ++ x :: l₂ := by simp
  have hxr : x ≠ r := h.layout_unused_disjoint hx (mem_cons_self ..)
  obtain ⟨hr, hat, hnode⟩ := h.allocNode rfl
  have hpolicy : s.allocNode.1.policy = s.policy := rfl
  have halign₁ : s.allocNode.1.alignment = s.alignment := rfl
  have heq : s.allocateBlock x n =
      { ((s.allocNode.1.removeFreeBlock x).splitBlock x r n).insertFreeBlock r with
        bytesFree := (((s.allocNode.1.removeFreeBlock x).splitBlock x r n).insertFreeBlock
          r).bytesFree - n }.commitBlock x := by
    unfold allocateBlock
    rw [if_pos hsplit, hr]
  rw [heq]
  generalize s.allocNode.1 = s₁ at *
  have hat_x : s₁.blockAt x = s.blockAt x := by rw [hat, if_neg hxr]
  have hremove := hnode.removeFreeBlock
    (mem_listed.mpr ⟨hx, by rw [hat_x, hfree], Finset.notMem_empty x⟩)
  have hcore := fun j => payload_of_core (s₁.core_removeFreeBlock x j)
  have hpolicy₂ := (policy_of_outline (s₁.outline_removeFreeBlock x)).trans hpolicy
  have halign₂ := (alignment_of_outline (s₁.outline_removeFreeBlock x)).trans halign₁
  generalize s₁.removeFreeBlock x = s₂ at *
  obtain ⟨hoffset, hlength, hflags, hfrontier⟩ := fields_of_payload (hcore x)
  rw [hat_x] at hoffset hlength hflags hfrontier
  obtain ⟨⟨bins', hinsert⟩, hpolicy₃, hpayload⟩ := Inv.splitBlock_insertFreeBlock hremove
    (by rw [hflags, hfree]) hpos (halign₂ ▸ halign) (hlength ▸ hlt)
  generalize (s₂.splitBlock x r n).insertFreeBlock r = s₃ at *
  have hpayload_x := hpayload x
  rw [if_neg hxr, if_pos rfl] at hpayload_x
  have hfree₃ : (s₃.blockAt x).flags.free = true :=
    (free_of_payload_eq hpayload_x).trans ((congrArg BlockFlags.free hflags).trans hfree)
  have hlength₃ : (s₃.blockAt x).length = n := (congrArg Block.length hpayload_x :)
  have hcommit := hinsert.commitBlock rfl hfree₃ (Finset.mem_singleton_self x)
  rw [hlength₃] at hcommit
  have hholes : ({x} : Finset ℕ).erase x = ∅ := by simp
  refine ⟨⟨bins', hholes ▸ hcommit⟩, ?_, fun j => ?_⟩
  · exact hpolicy₃.trans hpolicy₂
  rw [payload_commitBlock, hpayload]
  have hfront : (s₂.blockAt x).front n = (s.blockAt x).front n := by
    unfold front
    rw [hcore x, hat_x, hflags]
  by_cases hjx : j = x
  · rw [hjx, if_pos rfl, if_pos rfl, if_neg hxr, if_pos rfl, hfront]
  rw [if_neg hjx, if_neg hjx, if_neg hjx]
  by_cases hjr : j = r
  · rw [if_pos hjr, if_pos hjr]
    have hzero : (s₂.blockAt r).frontier = zero.frontier := by
      rw [(fields_of_payload (hcore r)).2.2.2, hat, if_pos rfl]
    unfold rest
    rw [hcore x, hat_x, hoffset, hlength, hfrontier, hzero]
  · rw [if_neg hjr, if_neg hjr, hcore j, hat, if_neg hjr]

/-- Blocks with the same payloads have the same extents. -/
lemma Allocator.extents_of_payload {s' : Allocator} {l : List ℕ}
    (h : ∀ j ∈ l, (s'.blockAt j).payload = (s.blockAt j).payload) :
    s'.extents l = s.extents l :=
  map_congr_left fun j hj => (congrArg extent (h j hj) :)

/-- Allocating a block that is not worth a split serves the call. -/
lemma Served.allocateBlock_whole (h : Inv s ⟨l₁ ++ x :: l₂, unused, [], bins, ∅⟩)
    (hrest : NoAdjacentFree (s.extents (l₁ ++ x :: l₂)))
    (hfree : (s.blockAt x).flags.free = true)
    (hwhole : ¬ s.alignment ≤ (s.blockAt x).length - n) :
    Served s (l₁ ++ x :: l₂) (s.allocateBlock x n).1 (l₁ ++ x :: l₂)
      (insert x (s.allocated (l₁ ++ x :: l₂))) := by
  obtain ⟨⟨bins', hinv⟩, hpolicy, hpayload⟩ := h.allocateBlock_whole hfree hwhole
  obtain ⟨hx₁, hx₂⟩ := h.nodup_split rfl
  generalize (s.allocateBlock x n).1 = s' at *
  have hother : ∀ j, j ≠ x → (s'.blockAt j).payload = (s.blockAt j).payload := by
    intro j hj
    rw [hpayload, if_neg hj]
  have hpayload_x := hpayload x
  rw [if_pos rfl] at hpayload_x
  have hfree_x : (s'.blockAt x).flags.free = false := free_of_payload_eq hpayload_x
  refine ⟨⟨⟨_, _, hinv⟩, ?_⟩, ?_, fun need hcov => hcov.of_blocks hpolicy fun j hj => ?_⟩
  · rw [extents_append, extents_cons] at hrest ⊢
    rw [extents_of_payload fun j hj => hother j fun hc => hx₁ (hc ▸ hj),
      extents_of_payload fun j hj => hother j fun hc => hx₂ (hc ▸ hj)]
    exact hrest.take hfree_x
  · ext j
    rw [Finset.mem_insert, mem_allocated, mem_allocated]
    by_cases hjx : j = x
    · subst hjx
      simp [hfree_x]
    · rw [free_of_payload (hother j hjx)]
      simp [hjx]
  · by_cases hjx : j = x
    · subst hjx
      rw [← covers_payload_iff, hpayload_x]
      exact (hcov.covers j hj).shrink rfl rfl rfl fun byte hbyte => hbyte
    · exact (hcov.covers j hj).of_payload (hother j hjx)

/-- Allocating the front of a block serves the call. -/
lemma Served.allocateBlock_split (h : Inv s ⟨l₁ ++ x :: l₂, r :: unused, [], bins, ∅⟩)
    (hrest : NoAdjacentFree (s.extents (l₁ ++ x :: l₂))) (hfree : (s.blockAt x).flags.free = true)
    (hpos : 0 < n) (halign : s.alignment ∣ n) (hlt : n < (s.blockAt x).length)
    (hsplit : s.alignment ≤ (s.blockAt x).length - n) :
    Served s (l₁ ++ x :: l₂) (s.allocateBlock x n).1 (l₁ ++ x :: r :: l₂)
      (insert x (s.allocated (l₁ ++ x :: l₂))) := by
  obtain ⟨⟨bins', hinv⟩, hpolicy, hpayload⟩ := h.allocateBlock_split hfree hpos halign hlt hsplit
  obtain ⟨hx₁, hx₂⟩ := h.nodup_split rfl
  have hr : r ∉ l₁ ++ x :: l₂ := fun hmem =>
    h.layout_unused_disjoint hmem (mem_cons_self ..) rfl
  have hxr : x ≠ r := fun hc => hr (by simp [hc])
  generalize (s.allocateBlock x n).1 = s' at *
  have hother : ∀ j, j ≠ x → j ≠ r → (s'.blockAt j).payload = (s.blockAt j).payload := by
    intro j hjx hjr
    rw [hpayload, if_neg hjx, if_neg hjr]
  have hpayload_x := hpayload x
  rw [if_pos rfl] at hpayload_x
  have hpayload_r := hpayload r
  rw [if_neg hxr.symm, if_pos rfl] at hpayload_r
  have hfree_x : (s'.blockAt x).flags.free = false := free_of_payload_eq hpayload_x
  have hfree_r : (s'.blockAt r).flags.free = (s.blockAt x).flags.free :=
    (free_of_payload_eq hpayload_r :)
  have hsame : ∀ l : List ℕ, (∀ j ∈ l, j ∈ l₁ ++ x :: l₂) → x ∉ l → s'.extents l = s.extents l := by
    intro l hl hxl
    refine extents_of_payload fun j hj => hother j (fun hc => hxl (hc ▸ hj)) ?_
    rintro rfl
    exact hr (hl j hj)
  refine ⟨⟨⟨_, _, hinv⟩, ?_⟩, ?_, fun need hcov => hcov.of_blocks hpolicy fun j hj => ?_⟩
  · rw [extents_append, extents_cons] at hrest ⊢
    rw [extents_cons, hsame l₁ (by simp +contextual) hx₁, hsame l₂ (by simp +contextual) hx₂]
    exact hrest.takeFront hfree_x hfree_r
  · ext j
    rw [Finset.mem_insert, mem_allocated, mem_allocated]
    by_cases hjx : j = x
    · subst hjx
      simp [hfree_x]
    by_cases hjr : j = r
    · subst hjr
      simp [hjx, hfree_r, hfree, hr]
    · rw [free_of_payload (hother j hjx hjr)]
      simp [hjx, hjr]
  · have hcovers := hcov.covers x (by simp)
    by_cases hjx : j = x
    · subst hjx
      -- The front of the block, with the metadata of the whole.
      rw [← covers_payload_iff, hpayload_x]
      refine hcovers.shrink rfl rfl rfl fun byte hbyte => ?_
      have hbyte' : (s.blockAt j).offset ≤ byte ∧ byte < (s.blockAt j).offset + n := hbyte
      exact ⟨hbyte'.1, by omega⟩
    · by_cases hjr : j = r
      · rw [hjr, ← covers_payload_iff, hpayload_r]
        refine hcovers.shrink rfl (Frontier.toList_copyOver _ _) rfl fun byte hbyte => ?_
        have hbyte' : (s.blockAt x).offset + n ≤ byte ∧
          byte < (s.blockAt x).offset + n + ((s.blockAt x).length - n) := hbyte
        exact ⟨by omega, by omega⟩
      · exact (hcov.covers j (by simpa [hjx, hjr] using hj)).of_payload (hother j hjx hjr)

end allocateBlock

variable {s s' : Allocator} {layout : List ℕ}

/-- Growing the pool leaves the blocks alone. -/
lemma AtRest.applyGrowth {growth : Growth} (h : AtRest s layout) (hg : growth.Prepared) :
    Served s layout (s.applyGrowth growth).1 layout (s.allocated layout) := by
  obtain ⟨unused, bins, hinv⟩ := h.inv
  obtain ⟨hat, unused', hinv', -⟩ := hinv.applyGrowth hg
  have hpolicy : (s.applyGrowth growth).1.policy = s.policy := by
    unfold Allocator.applyGrowth
    split <;> rfl
  refine ⟨⟨⟨unused', bins, hinv'⟩, ?_⟩, ?_, fun need hcov => hcov.of_blocks hpolicy fun j hj => ?_⟩
  · rw [extents_of_payload fun j hj => congrArg payload (hat j hj)]
    exact h.noAdjacentFree
  · ext j
    rw [mem_allocated, mem_allocated]
    refine and_congr_right fun hj => ?_
    rw [hat j hj]
  · rw [hat j hj]
    exact hcov.covers j hj

def Allocator.allocationOf (s : Allocator) (blockIndex : ℕ) : Allocation :=
  ⟨(s.blockAt blockIndex).offset, (s.blockAt blockIndex).length, blockIndex,
    s.blockDeathFrontier blockIndex, (s.blockAt blockIndex).flags⟩

lemma Allocator.commitBlock_snd (s : Allocator) (x : ℕ) :
    (s.commitBlock x).2 = (s.commitBlock x).1.allocationOf x := rfl

lemma Allocator.allocateBlock_snd (s : Allocator) (x n : ℕ) :
    (s.allocateBlock x n).2 = (s.allocateBlock x n).1.allocationOf x := by
  unfold allocateBlock
  dsimp only
  split
  · exact commitBlock_snd _ x
  · exact commitBlock_snd _ x

/-- Allocating from a free block that is long enough, with a node at hand if it is to be split. -/
lemma AtRest.allocateBlock {x n : ℕ} (h : AtRest s layout) (hx : x ∈ layout)
    (hfree : (s.blockAt x).flags.free = true) (hpos : 0 < n) (halign : s.alignment ∣ n)
    (hle : n ≤ (s.blockAt x).length)
    (hnode : s.alignment ≤ (s.blockAt x).length - n → s.unusedNodeHead ≠ indexNone) :
    (∃ layout', Served s layout (s.allocateBlock x n).1 layout'
      (insert x (s.allocated layout))) ∧
    ((s.allocateBlock x n).1.blockAt x).offset = (s.blockAt x).offset ∧
    (((s.allocateBlock x n).1.blockAt x).length = n ∨
      ((s.allocateBlock x n).1.blockAt x).length = (s.blockAt x).length) := by
  obtain ⟨unused, bins, hinv⟩ := h.inv
  have hrest := h.noAdjacentFree
  obtain ⟨l₁, l₂, rfl⟩ := append_of_mem hx
  by_cases hsplit : s.alignment ≤ (s.blockAt x).length - n
  · have hchain := hinv.nodes.chain
    cases unused with
    | nil =>
      have hnil : s.unusedNodeHead = indexNone := hchain
      exact absurd hnil (hnode hsplit)
    | cons =>
      have hapos := hinv.geometry.alignment_pos
      have hlt : n < (s.blockAt x).length := by omega
      have hpayload := (hinv.allocateBlock_split hfree hpos halign hlt hsplit).2.2 x
      rw [if_pos rfl] at hpayload
      exact ⟨⟨_, Served.allocateBlock_split hinv hrest hfree hpos halign hlt hsplit⟩,
        (congrArg offset hpayload :), .inl (congrArg Block.length hpayload :)⟩
  · have hpayload := (hinv.allocateBlock_whole hfree hsplit).2.2 x
    rw [if_pos rfl] at hpayload
    exact ⟨⟨_, Served.allocateBlock_whole hinv hrest hfree hsplit⟩,
      (congrArg offset hpayload :), .inr (congrArg Block.length hpayload :)⟩

lemma Served.trans {s'' : Allocator} {layout' layout'' : List ℕ} {live live' : Finset ℕ}
    (h : Served s layout s' layout' live) (h' : Served s' layout' s'' layout'' live') :
    Served s layout s'' layout'' live' :=
  ⟨h'.rest, h'.allocated_eq, fun need hcov => h'.covered need (h.covered need hcov)⟩

variable {host : Bool} {length : ℕ}

/-- Grows the pool if allocating from the block needs a node that is not there. -/
def Allocator.growFor (s : Allocator) (blockIndex alignedLength : ℕ) (hostAllocates : Bool) :
    Except Status Allocator :=
  let growth := s.queryGrowth blockIndex alignedLength
  if growth.firstBlock ≠ 0 then
    (prepareGrowth growth hostAllocates).map fun growth => (s.applyGrowth growth).1
  else .ok s

/-- What a call does.  Nothing is written before the last error is out of the way, so that a failed
call leaves the allocator as it was. -/
lemma Allocator.runTryAllocate_cases (s : Allocator) (length : ℕ) (host : Bool) :
    let n := s.alignedLength length
    let x := s.findSuitableBlock n
    (∃ status, s.runTryAllocate length host = (.error status, s) ∧
      (length = 0 ∧ status.code = .invalidArgument ∨
        deviceSizeMax - (s.alignment - 1) < length ∧ status.code = .outOfRange ∨
        prepareGrowth (s.queryGrowth x n) host = .error status)) ∨
    length ≠ 0 ∧ length ≤ deviceSizeMax - (s.alignment - 1) ∧
      (x = indexNone ∧ s.runTryAllocate length host = (.ok none, s) ∨
      x ≠ indexNone ∧ ∃ t, s.growFor x n host = .ok t ∧ s.runTryAllocate length host =
        (.ok (some (t.allocateBlock x n).2), (t.allocateBlock x n).1)) := by
  dsimp only
  generalize hrun : s.runTryAllocate length host = run
  unfold runTryAllocate tryAllocateCall at hrun
  by_cases hzero : length = 0
  · simp only [if_pos hzero] at hrun
    exact .inl ⟨_, hrun.symm, .inl ⟨hzero, rfl⟩⟩
  simp only [if_neg hzero] at hrun
  change StateT.run (ExceptT.run (if deviceSizeMax - (s.alignment - 1) < length then _ else _)) s =
    _ at hrun
  by_cases hover : deviceSizeMax - (s.alignment - 1) < length
  · simp only [if_pos hover] at hrun
    exact .inl ⟨_, hrun.symm, .inr (.inl ⟨hover, rfl⟩)⟩
  simp only [if_neg hover] at hrun
  by_cases hfound : s.findSuitableBlock (s.alignedLength length) = indexNone
  · simp only [if_pos hfound] at hrun
    exact .inr ⟨hzero, not_lt.mp hover, .inl ⟨hfound, hrun.symm⟩⟩
  simp only [if_neg hfound] at hrun
  unfold growFor
  generalize s.queryGrowth (s.findSuitableBlock (s.alignedLength length))
    (s.alignedLength length) = growth at hrun ⊢
  by_cases hgrowth : growth.firstBlock ≠ 0
  · simp only [if_pos hgrowth] at hrun ⊢
    cases hprepare : prepareGrowth growth host with
    | error =>
      rw [hprepare] at hrun
      exact .inl ⟨_, hrun.symm, .inr (.inr rfl)⟩
    | ok =>
      rw [hprepare] at hrun
      exact .inr ⟨hzero, not_lt.mp hover, .inr ⟨hfound, _, rfl, hrun.symm⟩⟩
  · simp only [if_neg hgrowth] at hrun ⊢
    exact .inr ⟨hzero, not_lt.mp hover, .inr ⟨hfound, _, rfl, hrun.symm⟩⟩

/-- The growth a call asks for leaves a node at hand if the block is to be split. -/
lemma AtRest.growFor {x n : ℕ} (h : AtRest s layout) (hgrow : s.growFor x n host = .ok s') :
    Served s layout s' layout (s.allocated layout) ∧
    (∀ j ∈ layout, s'.blockAt j = s.blockAt j) ∧ s'.alignment = s.alignment ∧
    (s.alignment ≤ (s.blockAt x).length - n → s'.unusedNodeHead ≠ indexNone) := by
  obtain ⟨unused, bins, hinv⟩ := h.inv
  unfold Allocator.growFor at hgrow
  dsimp only at hgrow
  split_ifs at hgrow with hfirst
  · cases hprepared : prepareGrowth (s.queryGrowth x n) host with
    | error =>
      rw [hprepared] at hgrow
      exact absurd hgrow (by simp [Except.map])
    | ok growth =>
      rw [hprepared] at hgrow
      obtain rfl : (s.applyGrowth growth).1 = s' := by simpa [Except.map] using hgrow
      have hg : growth.Prepared := ⟨s, x, n, host, hprepared⟩
      obtain ⟨hat, unused', hinv', hne⟩ := hinv.applyGrowth hg
      -- The growth was taken from this very state, so that it still continues the pool.
      have hfields : growth.firstBlock = s.pool.blockCapacity ∧
          growth.blockStride = s.blockStride := by
        unfold prepareGrowth at hprepared
        split_ifs at hprepared
        cases hprepared
        unfold queryGrowth at hfirst ⊢
        split_ifs at hfirst ⊢ with hcond
        · exact absurd rfl hfirst
        · exact ⟨rfl, rfl⟩
      have happlied : (s.applyGrowth growth).2 = true := by
        unfold Allocator.applyGrowth
        rw [if_neg (by simp [hfields.1, hfields.2])]
      have halign : (s.applyGrowth growth).1.alignment = s.alignment := by
        unfold Allocator.applyGrowth
        split <;> rfl
      refine ⟨h.applyGrowth hg, hat, halign, fun _ => ?_⟩
      have hchain := hinv'.nodes.chain
      cases unused' with
      | nil => exact absurd rfl (hne happlied)
      | cons =>
        rw [hchain.1]
        exact hinv'.ne_none (mem_append_left _ (mem_append_right _ (mem_cons_self ..)))
  · cases hgrow
    exact ⟨⟨h, rfl, fun _ hcov => hcov⟩, fun _ _ => rfl, rfl,
      hinv.node_of_queryGrowth (not_not.mp hfirst)⟩

lemma Geometry.alignedLength_spec (h : Geometry s)
    (hle : length ≤ deviceSizeMax - (s.alignment - 1)) :
    0 < s.alignedLength length ∧ s.alignment ∣ s.alignedLength length ∧
      length ≤ s.alignedLength length ∧ s.alignedLength length < 2 ^ 64 := by
  obtain ⟨k, hk, hpow⟩ := h.alignment_pow
  have hlt : 2 ^ k < 2 ^ 64 := Nat.pow_lt_pow_right (by decide) hk
  have hmax : deviceSizeMax = 2 ^ 64 - 1 := rfl
  rw [hpow] at hle
  have hroom : length + (2 ^ k - 1) < 2 ^ 64 := by omega
  obtain ⟨hdvd, hlen, hbound⟩ := deviceAlign_two_pow hroom
  unfold alignedLength
  rw [hpow]
  refine ⟨by omega, ?_, by omega, by omega⟩
  rcases le_total (deviceAlign length (2 ^ k)) (2 ^ k) with hc | hc
  · rw [max_eq_right hc]
  · rw [max_eq_left hc]
    exact hdvd

/-- A call that returns without an error has found no block and changed nothing, or has grown the
pool if it had to and allocated the block it found. -/
lemma Allocator.tryAllocate_ok {result : Option Allocation}
    (h : s.tryAllocate length host = .ok (s', result)) :
    length ≠ 0 ∧ length ≤ deviceSizeMax - (s.alignment - 1) ∧
    (s' = s ∧ result = none ∧ s.findSuitableBlock (s.alignedLength length) = indexNone ∨
      ∃ x t, x = s.findSuitableBlock (s.alignedLength length) ∧ x ≠ indexNone ∧
        s.growFor x (s.alignedLength length) host = .ok t ∧
        s' = (t.allocateBlock x (s.alignedLength length)).1 ∧
        result = some (t.allocateBlock x (s.alignedLength length)).2) := by
  unfold tryAllocate at h
  rcases s.runTryAllocate_cases length host with
    ⟨status, hrun, -⟩ | ⟨hzero, hle, ⟨hfound, hrun⟩ | ⟨hfound, t, hgrow, hrun⟩⟩
  · rw [hrun] at h
    cases h
  · rw [hrun] at h
    cases h
    exact ⟨hzero, hle, .inl ⟨rfl, rfl, hfound⟩⟩
  · rw [hrun] at h
    cases h
    exact ⟨hzero, hle, .inr ⟨_, t, rfl, hfound, hgrow, rfl, rfl⟩⟩

/-- A call that returns an allocation has found a free block that is long enough. -/
lemma AtRest.tryAllocate_some {a : Allocation} (h : AtRest s layout)
    (hcall : s.tryAllocate length host = .ok (s', some a)) :
    ∃ x t n, (x ∈ layout ∧ (s.blockAt x).flags.free = true ∧ n ≤ (s.blockAt x).length) ∧
      (0 < n ∧ s.alignment ∣ n ∧ length ≤ n) ∧ s.growFor x n host = .ok t ∧
      s' = (t.allocateBlock x n).1 ∧ a = (t.allocateBlock x n).2 := by
  obtain ⟨hzero, hle, ⟨-, hnone, -⟩ | ⟨x, t, hx, hfound, hgrow, rfl, hresult⟩⟩ :=
    tryAllocate_ok hcall
  · cases hnone
  obtain ⟨unused, bins, hinv⟩ := h.inv
  obtain ⟨hpos, halign, hlen, hlt⟩ := hinv.geometry.alignedLength_spec hle
  have hlisted : ∀ j ∈ s.listed ⟨layout, unused, [], bins, ∅⟩, (s.blockAt j).length ≠ 0 :=
    fun j hj => (hinv.bounds (Inv.listed_subset hj)).1.ne'
  obtain ⟨hmem, hfits⟩ := hinv.freeLists.findSuitableBlock_spec hlisted hpos.ne' hlt
    (hx ▸ hfound)
  rw [← hx] at hmem hfits
  obtain ⟨hx_mem, hfree, -⟩ := mem_listed.mp hmem
  exact ⟨x, t, _, ⟨hx_mem, hfree, hfits⟩, ⟨hpos, halign, hlen⟩, hgrow, rfl,
    Option.some.inj hresult⟩

/-- **Allocating** leads from rest to rest: the record describes the block that is now allocated,
which lies inside a block that was free. -/
lemma AtRest.tryAllocate {a : Allocation} (h : AtRest s layout)
    (hcall : s.tryAllocate length host = .ok (s', some a)) :
    (∃ layout', Served s layout s' layout' (insert a.blockIndex (s.allocated layout))) ∧
    a = s'.allocationOf a.blockIndex ∧ length ≤ a.length ∧ s.alignment ∣ a.length ∧
    ∃ x ∈ layout, (s.blockAt x).flags.free = true ∧ a.offset = (s.blockAt x).offset ∧
      a.length ≤ (s.blockAt x).length := by
  obtain ⟨x, t, n, ⟨hx, hfree, hfits⟩, ⟨hpos, halign, hlen⟩, hgrow, rfl, rfl⟩ :=
    h.tryAllocate_some hcall
  obtain ⟨hgrown, hat, halign', hnode⟩ := h.growFor hgrow
  obtain ⟨⟨layout', hserved⟩, hoffset, hlength⟩ := hgrown.rest.allocateBlock (n := n) hx
    (by rw [hat x hx, hfree]) hpos (halign'.symm ▸ halign) (by rw [hat x hx]; exact hfits)
    (by rw [hat x hx, halign']; exact hnode)
  rw [hat x hx] at hoffset hlength
  rw [t.allocateBlock_snd x n]
  refine ⟨⟨layout', hgrown.trans ?_⟩, rfl, ?_⟩
  · rw [← hgrown.allocated_eq]
    exact hserved
  dsimp only [Allocator.allocationOf]
  rcases hlength with hlength | hlength
  · rw [hlength]
    exact ⟨hlen, halign, x, hx, hfree, hoffset, hfits⟩
  · obtain ⟨unused, bins, hinv⟩ := h.inv
    rw [hlength]
    exact ⟨hlen.trans hfits, (hinv.bounds hx).2.1, x, hx, hfree, hoffset, le_rfl⟩

end Hrx.Tlsf
