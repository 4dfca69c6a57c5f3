import Hrx.Tlsf.Equiv.Layout

/-!
# The primitive steps keep the invariant

One lemma for each primitive step of the operations: it says what the step does to the view, and
that the invariant holds of the new view.
-/

namespace Hrx.Tlsf

open Allocator Block DoublyLinked List

/-! ### Steps on the free lists -/

variable {s s' : Allocator} {v : View} {i : ℕ}

/-- A step that keeps the outline, up to the unused chain, and the placement of the blocks may only
break the free lists and the nodes. -/
lemma Inv.of_placement {v' : View} (h : Inv s v) (hlayout : v'.layout = v.layout)
    (houtline : { s' with unusedNodeHead := s.unusedNodeHead }.outline = s.outline)
    (hplace : ∀ j ∈ v.layout, (s'.blockAt j).placement = (s.blockAt j).placement)
    (hlists : FreeLists s' v'.bins (s'.listed v')) (hnodes : Nodes s' v') : Inv s' v' := by
  have halign := alignment_of_outline houtline
  have hrange := rangeLength_of_outline houtline
  have hcounters := h.counters.congr houtline (extents_congr hplace)
  exact ⟨hlayout ▸ h.physical.congr halign hrange hplace, hlists, hnodes,
    hlayout ▸ ⟨hcounters.1, hcounters.2, hcounters.3⟩, (h.shape.congr houtline :),
    h.geometry.congr halign hrange⟩

/-- A step that rewrites free-list links only keeps all but the free lists, if the unused chain is
left alone. -/
lemma Inv.of_core (h : Inv s v) {bins : ℕ → ℕ → List ℕ} {holes : Finset ℕ}
    (houtline : s'.outline = s.outline) (hcore : ∀ j, (s'.blockAt j).core = (s.blockAt j).core)
    (hunused : ∀ j ∈ v.unused, (s'.blockAt j).nextFree = (s.blockAt j).nextFree)
    (hlists : FreeLists s' bins (s'.listed { v with bins := bins, holes := holes })) :
    Inv s' { v with bins := bins, holes := holes } := by
  have hnodes := h.nodes.congr houtline hunused
  exact h.of_placement rfl (outline_setUnused houtline)
    (fun j _ => (congrArg placement (hcore j) :)) hlists ⟨hnodes.1, hnodes.2, hnodes.3⟩

/-- The list predecessor of a listed block is listed. -/
lemma Inv.prevFree_mem_layout (h : Inv s v) (hi : i ∈ s.listed v)
    (hne : (s.blockAt i).prevFree ≠ indexNone) : (s.blockAt i).prevFree ∈ v.layout := by
  have hbin := (h.freeLists.mem_iff (s.binOf i).1 (s.binOf i).2 i).mpr ⟨hi, rfl⟩
  have hlist := h.freeLists.linked (s.binOf i).1 (s.binOf i).2
  obtain ⟨l₁, l₂, hl⟩ := append_of_mem hbin
  rw [hl] at hlist
  have hmem : (s.blockAt i).prevFree ∈ l₁ := by
    rcases getLastD_mem_or l₁ indexNone with hm | ⟨-, hnone⟩
    · exact hlist.prev_eq ▸ hm
    · exact absurd (hlist.prev_eq.trans hnone) hne
  exact Inv.listed_subset (h.freeLists.mem_listed (hl ▸ mem_append_left _ hmem))

/-- Taking a listed block off its list leaves a hole. -/
lemma Inv.removeFreeBlock (h : Inv s v) (hi : i ∈ s.listed v) :
    Inv (s.removeFreeBlock i)
      { v with bins := eraseBin v.bins (s.binOf i) i, holes := insert i v.holes } := by
  have hcore := s.core_removeFreeBlock i
  have hlayout : i ∈ v.layout := Inv.listed_subset hi
  refine h.of_core (s.outline_removeFreeBlock i) hcore (fun j hj => ?_) ?_
  · -- The neighbours whose links change are listed blocks, not unused nodes.
    rw [s.blockAt_removeFreeBlock, s.blockAt_unlinkFree]
    show (if j = i then indexNone else _) = _
    rw [if_neg (h.layout_unused_disjoint hlayout hj).symm, if_neg]
    rintro ⟨hne, rfl⟩
    exact h.layout_unused_disjoint (h.prevFree_mem_layout hi hne) hj rfl
  · have hlisted : (s.removeFreeBlock i).listed
        { v with bins := eraseBin v.bins (s.binOf i) i, holes := insert i v.holes } =
        (s.listed v).erase i := by
      ext j
      rw [mem_listed, Finset.mem_erase, mem_listed, free_of_core (hcore j), Finset.mem_insert]
      tauto
    rw [hlisted]
    exact h.freeLists.remove hi (h.length_lt hlayout)

/-- Listing a FREE block fills its hole. -/
lemma Inv.insertFreeBlock (h : Inv s v) (hi : i ∈ v.layout)
    (hfree : (s.blockAt i).flags.free = true) (hhole : i ∈ v.holes) :
    Inv (s.insertFreeBlock i)
      { v with bins := pushBin v.bins (s.binOf i) i, holes := v.holes.erase i } := by
  have hcore := s.core_insertFreeBlock i
  refine h.of_core (s.outline_insertFreeBlock i) hcore (fun j hj => ?_) ?_
  · rw [s.blockAt_insertFreeBlock, s.blockAt_linkFree]
    show (if j = i then _ else _) = _
    rw [if_neg (h.layout_unused_disjoint hi hj).symm]
  have hlisted : (s.insertFreeBlock i).listed
      { v with bins := pushBin v.bins (s.binOf i) i, holes := v.holes.erase i } =
      insert i (s.listed v) := by
    ext j
    rw [mem_listed, Finset.mem_insert, mem_listed, free_of_core (hcore j), Finset.mem_erase]
    by_cases hj : j = i
    · subst hj
      simp [hi, hfree]
    · simp [hj]
  rw [hlisted]
  have hnot : i ∉ s.listed v := fun hmem => (mem_listed.mp hmem).2.2 hhole
  exact h.freeLists.insert hnot (h.ne_none (Inv.mem_nodes_of_layout hi))

/-! ### Steps on dependency metadata -/

/-- The block without its dependency metadata: frontier and TAINTED flag. -/
def Block.skeleton (b : Block) : Block :=
  { b with flags := { b.flags with tainted := false }, frontier := Block.zero.frontier }

/-- A step that changes dependency metadata only. -/
structure MetadataStep (s s' : Allocator) : Prop where
  outline : s'.outline = s.outline
  matrix : s'.matrix = s.matrix
  skeleton : ∀ j, (s'.blockAt j).skeleton = (s.blockAt j).skeleton

namespace MetadataStep

variable {s s' s'' : Allocator}

lemma refl (s : Allocator) : MetadataStep s s := ⟨rfl, rfl, fun _ => rfl⟩

lemma trans (h : MetadataStep s s') (h' : MetadataStep s' s'') : MetadataStep s s'' :=
  ⟨h'.outline.trans h.outline, h'.matrix.trans h.matrix,
    fun j => (h'.skeleton j).trans (h.skeleton j)⟩

/-- A field that is no metadata keeps its value. -/
lemma field (h : MetadataStep s s') {α : Type} (f : Block → α) (hf : ∀ b, f b.skeleton = f b)
    (j : ℕ) : f (s'.blockAt j) = f (s.blockAt j) := by
  rw [← hf (s'.blockAt j), h.skeleton j, hf]

variable (s) (i : ℕ)

lemma modifyBlock {f : Block → Block} (hf : ∀ b, (f b).skeleton = b.skeleton) :
    MetadataStep s (s.modifyBlock i f) := by
  refine ⟨rfl, rfl, fun j => ?_⟩
  rw [blockAt_modifyBlock]
  split
  · exact hf _
  · rfl

lemma clearTaint : MetadataStep s (s.clearTaint i) := modifyBlock s i fun _ => rfl

lemma clearFrontier : MetadataStep s (s.clearFrontier i) := modifyBlock s i fun _ => rfl

lemma mergeFrontiers (source : Frontier) : MetadataStep s (s.mergeFrontiers i source) := by
  unfold Allocator.mergeFrontiers
  split
  · exact refl s
  split
  · exact refl s
  dsimp only
  split
  · exact modifyBlock s i fun _ => rfl
  split
  · exact modifyBlock s i fun _ => rfl
  have hstep := modifyBlock s i (f := fun b => { b with
    flags := { b.flags with tainted := true }
    frontier := ((s.blockAt i).frontier.merge s.frontierCapacity source).1.clear }) fun _ => rfl
  exact ⟨hstep.1, hstep.2, hstep.3⟩

lemma setDeathFrontier (death : Option Frontier) :
    MetadataStep s (s.setDeathFrontier i death) := by
  have htaint := clearTaint s i
  have hclear := htaint.trans (clearFrontier (s.clearTaint i) i)
  unfold Allocator.setDeathFrontier
  dsimp only
  split
  · exact hclear
  split
  · exact hclear
  split
  · exact htaint.trans (modifyBlock _ i fun _ => rfl)
  · exact hclear.trans (mergeFrontiers _ i _)

end MetadataStep

/-- The invariant does not look at dependency metadata. -/
lemma Inv.of_metadata (h : Inv s v) (hstep : MetadataStep s s') : Inv s' v := by
  refine h.of_placement rfl (outline_setUnused hstep.outline)
    (fun j _ => hstep.field placement (fun _ => rfl) j) ?_
    (h.nodes.congr hstep.outline fun j _ => hstep.field nextFree (fun _ => rfl) j)
  rw [listed_congr fun j _ => hstep.field (fun b => b.flags.free) (fun _ => rfl) j]
  exact h.freeLists.congr hstep.matrix fun j _ => hstep.field listing (fun _ => rfl) j

/-! ### Steps on nodes -/

/-- A step that moves nodes between the unused chain and the detached nodes, and leaves the blocks
of the layout alone. -/
lemma Inv.of_nodes {unused detached : List ℕ} (h : Inv s v)
    (houtline : { s' with unusedNodeHead := s.unusedNodeHead }.outline = s.outline)
    (hmatrix : s'.matrix = s.matrix) (hlayout : ∀ j ∈ v.layout, s'.blockAt j = s.blockAt j)
    (hchain : IsChain (fun i => (s'.blockAt i).nextFree) indexNone s'.unusedNodeHead unused)
    (hperm : (View.nodes { v with unused := unused, detached := detached }).Perm v.nodes) :
    Inv s' { v with unused := unused, detached := detached } := by
  have hcap := blockCapacity_of_outline houtline
  have hlisted : s'.listed { v with unused := unused, detached := detached } = s.listed v :=
    listed_congr (v := v) fun j hj => by rw [hlayout j hj]
  refine h.of_placement rfl houtline (fun j hj => by rw [hlayout j hj]) ?_
    ⟨hchain, hperm.nodup_iff.mpr h.nodes.nodup, fun j => ?_⟩
  · rw [hlisted]
    exact h.freeLists.congr hmatrix fun j hj => by rw [hlayout j (Inv.listed_subset hj)]
  · rw [hperm.mem_iff, h.nodes.mem_iff j, ← hcap]

/-- Popping an unused node detaches it, zeroed. -/
lemma Inv.allocNode {r : ℕ} {unused : List ℕ} (h : Inv s v) (hunused : v.unused = r :: unused) :
    s.allocNode.2 = r ∧
      (∀ j, s.allocNode.1.blockAt j = if j = r then zero else s.blockAt j) ∧
      Inv s.allocNode.1 { v with unused := unused, detached := r :: v.detached } := by
  have hchain := h.nodes.chain
  rw [hunused] at hchain
  obtain ⟨hhead, htail⟩ := hchain
  have hat : ∀ j, s.allocNode.1.blockAt j = if j = r then zero else s.blockAt j := by
    intro j
    show (modifyBlock _ s.unusedNodeHead fun _ => zero).blockAt j = _
    rw [blockAt_modifyBlock, hhead]
    rfl
  refine ⟨hhead, hat, h.of_nodes rfl rfl (fun j hj => ?_) ?_ ?_⟩
  · rw [hat, if_neg (h.layout_unused_disjoint hj (hunused ▸ mem_cons_self ..))]
  · -- The rest of the chain does not contain the popped node.
    have hnodup : (r :: unused).Nodup := by
      have hn := h.nodes.nodup
      rw [View.nodes, append_assoc, nodup_append, hunused, nodup_append] at hn
      exact hn.2.1.1
    show IsChain _ _ (s.blockAt s.unusedNodeHead).nextFree unused
    rw [hhead]
    refine htail.congr fun j hj => ?_
    rw [hat, if_neg fun hjr : j = r => (nodup_cons.mp hnodup).1 (hjr ▸ hj)]
  · unfold View.nodes
    rw [hunused, append_assoc, append_assoc]
    exact List.Perm.append_left _ perm_middle

/-- Releasing a detached node makes it the first unused one. -/
lemma Inv.freeNode {r : ℕ} {detached : List ℕ} (h : Inv s v)
    (hdetached : v.detached = r :: detached) :
    (∀ j, j ≠ r → (s.freeNode r).blockAt j = s.blockAt j) ∧
      Inv (s.freeNode r) { v with unused := r :: v.unused, detached := detached } := by
  have hat : ∀ j, (s.freeNode r).blockAt j =
      if j = r then { zero with nextFree := s.unusedNodeHead } else s.blockAt j := by
    intro j
    show (modifyBlock _ _ _).blockAt j = _
    rw [blockAt_modifyBlock]
  refine ⟨fun j hj => (hat j).trans (if_neg hj), h.of_nodes rfl rfl (fun j hj => ?_) ⟨rfl, ?_⟩ ?_⟩
  · rw [hat, if_neg (h.layout_detached_disjoint hj (hdetached ▸ mem_cons_self ..))]
  · show IsChain _ _ ((s.freeNode r).blockAt r).nextFree v.unused
    rw [hat, if_pos rfl]
    refine h.nodes.chain.congr fun j hj => ?_
    -- The released node was detached, hence not yet in the chain.
    have hjr : j ≠ r := by
      have hn := h.nodes.nodup
      rw [View.nodes, nodup_append] at hn
      exact hn.2.2 j (mem_append_right _ hj) r (hdetached ▸ mem_cons_self ..)
    rw [hat, if_neg hjr]
  · unfold View.nodes
    rw [hdetached, append_assoc, append_assoc]
    exact List.Perm.append_left _ perm_middle.symm

end Hrx.Tlsf
