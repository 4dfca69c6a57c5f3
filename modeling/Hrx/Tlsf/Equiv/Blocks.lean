import Hrx.Tlsf.Equiv.Primitives

/-!
# Steps on the physical layout

Splitting a block, absorbing a block into its left neighbour and flipping the FREE flag, each as a
change of the tiling with the links and counters that go with it.
-/

namespace Hrx.Tlsf

open Allocator Block DoublyLinked List

@[simp] lemma Allocator.extents_append (s : Allocator) (l₁ l₂ : List ℕ) :
    s.extents (l₁ ++ l₂) = s.extents l₁ ++ s.extents l₂ :=
  map_append

@[simp] lemma Allocator.extents_nil (s : Allocator) : s.extents [] = [] := rfl

@[simp] lemma Allocator.extents_cons (s : Allocator) (i : ℕ) (l : List ℕ) :
    s.extents (i :: l) = (s.blockAt i).extent :: s.extents l := rfl

variable {s s' : Allocator} {v : View} {l₁ l₂ : List ℕ} {x a b : ℕ}

/-- The right neighbour of a block is another block. -/
lemma Inv.nextPhysical_ne {y : ℕ} (h : Inv s v) (hlayout : v.layout = l₁ ++ x :: l₂)
    (hy : y ∈ v.nodes) (hy' : y ∉ l₂) : (s.blockAt x).nextPhysical ≠ y := by
  have hlinked := h.physical.linked
  rw [hlayout] at hlinked
  rintro rfl
  exact hy' (hlinked.next_mem (h.ne_none hy))

/-- Different blocks share no byte. -/
lemma Inv.disjoint (h : Inv s v) (ha : a ∈ v.layout) (hb : b ∈ v.layout) (hne : a ≠ b) :
    (s.blockAt a).offset + (s.blockAt a).length ≤ (s.blockAt b).offset ∨
      (s.blockAt b).offset + (s.blockAt b).length ≤ (s.blockAt a).offset := by
  have htiles := h.physical.tiles
  obtain ⟨l₁, l₂, hl⟩ := append_of_mem hb
  rw [hl, extents_append, extents_cons] at htiles
  have hmem : (s.blockAt a).extent ∈ s.extents l₁ ++ s.extents l₂ := by
    rw [← extents_append]
    exact mem_map_of_mem (by simpa [hl, hne] using ha)
  exact htiles.disjoint hmem

lemma Inv.nodup_split (h : Inv s v) (hlayout : v.layout = l₁ ++ x :: l₂) : x ∉ l₁ ∧ x ∉ l₂ := by
  have hlinked := h.physical.linked
  rw [hlayout] at hlinked
  exact ⟨hlinked.not_mem_left, hlinked.not_mem_right⟩

/-- A step that lays some holes out anew.  It changes neither what is listed nor the totals. -/
lemma Inv.relayout {v' : View} (holes holes' : List ℕ) (h : Inv s v)
    (hlayout : v.layout = l₁ ++ (holes ++ l₂)) (hlayout' : v'.layout = l₁ ++ (holes' ++ l₂))
    (hframe : s'.outline = s.outline ∧ s'.matrix = s.matrix)
    (hbins : v'.bins = v.bins) (hunused : v'.unused = v.unused) (hperm : v'.nodes.Perm v.nodes)
    (hholes : ∀ j ∈ holes, j ∈ v.holes) (hholes' : ∀ j ∈ holes', j ∈ v'.holes)
    (hother : ∀ j ∈ l₁ ++ l₂, j ∈ v'.holes ↔ j ∈ v.holes)
    (hextent : ∀ j ∈ l₁ ++ l₂, (s'.blockAt j).extent = (s.blockAt j).extent)
    (hlisting : ∀ j, j ∈ v.unused ∨ j ∈ l₁ ++ l₂ →
      (s'.blockAt j).listing = (s.blockAt j).listing)
    (hlinked : IsList (fun i => (s'.blockAt i).nextPhysical) (fun i => (s'.blockAt i).prevPhysical)
      indexNone 0 v'.layout)
    (htiles : Tiles s.alignment 0 (s.extents l₁ ++ (s'.extents holes' ++ s.extents l₂))
      s.rangeLength)
    (hlast : LastOnly (s.extents l₁ ++ (s'.extents holes' ++ s.extents l₂)))
    (hfree : freeBytes (s'.extents holes') = freeBytes (s.extents holes))
    (hallocated : allocatedBytes (s'.extents holes') = allocatedBytes (s.extents holes))
    (hcount : allocatedCount (s'.extents holes') = allocatedCount (s.extents holes)) :
    Inv s' v' := by
  obtain ⟨houtline, hmatrix⟩ := hframe
  have hext : ∀ l, l ⊆ l₁ ++ l₂ → s'.extents l = s.extents l :=
    fun l hl => map_congr_left fun j hj => hextent j (hl hj)
  have hnew : s'.extents v'.layout = s.extents l₁ ++ (s'.extents holes' ++ s.extents l₂) := by
    rw [hlayout', extents_append, extents_append, hext l₁ (subset_append_left ..),
      hext l₂ (subset_append_right ..)]
  have hold : s.extents v.layout = s.extents l₁ ++ (s.extents holes ++ s.extents l₂) := by
    rw [hlayout, extents_append, extents_append]
  have hmem : ∀ j l, j ∈ l₁ ++ (l ++ l₂) ↔ j ∈ l ∨ j ∈ l₁ ++ l₂ := by
    intro j l
    simp only [mem_append]
    tauto
  have hlisted : s'.listed v' = s.listed v := by
    ext j
    rw [mem_listed, mem_listed, hlayout, hlayout', hmem, hmem]
    by_cases hj : j ∈ l₁ ++ l₂
    · have hflag : (s'.blockAt j).flags.free = (s.blockAt j).flags.free :=
        (congrArg Extent.free (hextent j hj) :)
      rw [hflag, hother j hj]
      simp only [hj, or_true]
    · exact iff_of_false (fun hc => hc.2.2 (hholes' j (hc.1.resolve_right hj)))
        fun hc => hc.2.2 (hholes j (hc.1.resolve_right hj))
  have hlisting' : ∀ j ∈ s.listed v, (s'.blockAt j).listing = (s.blockAt j).listing := by
    intro j hj
    obtain ⟨hj, -, hjh⟩ := mem_listed.mp hj
    rw [hlayout, hmem] at hj
    exact hlisting j (.inr (hj.resolve_left fun hj => hjh (hholes j hj)))
  refine ⟨⟨hlinked, ?_, hnew ▸ hlast⟩, ?_, ⟨?_, hperm.nodup_iff.mpr h.nodes.nodup, fun j => ?_⟩,
    ⟨?_, ?_, ?_⟩, h.shape.congr houtline, h.geometry.congr (alignment_of_outline houtline)
      (rangeLength_of_outline houtline)⟩
  · rw [alignment_of_outline houtline, rangeLength_of_outline houtline, hnew]
    exact htiles
  · rw [hlisted, hbins]
    exact h.freeLists.congr hmatrix hlisting'
  · rw [unusedNodeHead_of_outline houtline, hunused]
    exact h.nodes.chain.congr fun j hj => congrArg (fun p => p.2.2) (hlisting j (.inl hj))
  · rw [blockCapacity_of_outline houtline, ← h.nodes.mem_iff]
    exact hperm.mem_iff
  · rw [bytesAllocated_of_outline houtline, h.counters.bytesAllocated, hold, hnew]
    simp only [allocatedBytes_append, hallocated]
  · rw [bytesFree_of_outline houtline, h.counters.bytesFree, hold, hnew]
    simp only [freeBytes_append, hfree]
  · rw [allocationCount_of_outline houtline, h.counters.allocationCount, hold, hnew]
    simp only [allocatedCount_append, hcount]

lemma Inv.detached_unused_disjoint {i j : ℕ} (h : Inv s v) (hi : i ∈ v.unused)
    (hj : j ∈ v.detached) : i ≠ j := by
  have hn := h.nodes.nodup
  rw [View.nodes, nodup_append] at hn
  exact hn.2.2 i (mem_append_right _ hi) j hj

/-! ### Splitting -/

lemma Allocator.blockAt_splitBlock (s : Allocator) {r : ℕ} (n : ℕ) (hxr : x ≠ r)
    (hx : (s.blockAt x).nextPhysical ≠ x) (hr : (s.blockAt x).nextPhysical ≠ r) (j : ℕ) :
    (s.splitBlock x r n).blockAt j =
      if j = r then
        { s.blockAt r with
          offset := (s.blockAt x).offset + n
          length := (s.blockAt x).length - n
          prevPhysical := x
          nextPhysical := (s.blockAt x).nextPhysical
          flags := ⟨true, (s.blockAt x).flags.last, (s.blockAt x).flags.tainted⟩
          frontier := (s.blockAt r).frontier.copyOver (s.blockAt x).frontier }
      else if j = x then
        { s.blockAt x with
          length := n
          nextPhysical := r
          flags := { (s.blockAt x).flags with last := false } }
      else if (s.blockAt x).nextPhysical ≠ indexNone ∧ j = (s.blockAt x).nextPhysical then
        { s.blockAt j with prevPhysical := r }
      else s.blockAt j := by
  have hxr' : r ≠ x := hxr.symm
  unfold splitBlock
  by_cases hnone : (s.blockAt x).nextPhysical ≠ indexNone
  · by_cases hjr : j = r
    · subst hjr
      simp [hxr', hr.symm, hnone]
    by_cases hjx : j = x
    · subst hjx
      simp [hjr, hx.symm, hnone]
    · simp [hjr, hjx, hnone]
  · by_cases hjr : j = r
    · subst hjr
      simp [hxr', not_not.mp hnone]
    by_cases hjx : j = x
    · subst hjx
      simp [hjr, not_not.mp hnone]
    · simp [hjr, hjx, not_not.mp hnone]

lemma Allocator.splitBlock_frame (s : Allocator) (x r n : ℕ) :
    (s.splitBlock x r n).outline = s.outline ∧ (s.splitBlock x r n).matrix = s.matrix := by
  unfold splitBlock
  dsimp only
  split <;> simp only [outline_modifyBlock, matrix_modifyBlock, and_self]

/-- **Splitting** a block that has left its list inserts the detached node behind it as the free
rest; both parts are holes. -/
lemma Inv.splitBlock {detached : List ℕ} {r n : ℕ} (h : Inv s v)
    (hlayout : v.layout = l₁ ++ x :: l₂) (hdetached : v.detached = r :: detached)
    (hfree : (s.blockAt x).flags.free = true) (hhole : x ∈ v.holes) (hpos : 0 < n)
    (halign : s.alignment ∣ n) (hlt : n < (s.blockAt x).length) :
    Inv (s.splitBlock x r n)
      { v with layout := l₁ ++ x :: r :: l₂, detached := detached, holes := insert r v.holes } := by
  have hlinked := h.physical.linked
  rw [hlayout] at hlinked
  have hx_mem : x ∈ v.layout := by rw [hlayout]; simp
  have hr_node : r ∈ v.nodes := by
    rw [View.nodes, hdetached]; simp
  have hr_layout : ∀ j ∈ v.layout, j ≠ r :=
    fun j hj => h.layout_detached_disjoint hj (hdetached ▸ mem_cons_self ..)
  have hr : r ∉ l₁ ++ x :: l₂ := fun hmem => hr_layout r (hlayout ▸ hmem) rfl
  have hxr : x ≠ r := hr_layout x hx_mem
  obtain ⟨hx₁, hx₂⟩ := h.nodup_split hlayout
  have hne_x : ∀ y ∈ l₁ ++ l₂, y ≠ x := fun y hy => ne_of_mem_of_not_mem hy (by simp [hx₁, hx₂])
  have hsub : ∀ y ∈ l₁ ++ l₂, y ∈ v.layout := by
    intro y hy
    rw [hlayout]
    rcases mem_append.mp hy with hy | hy <;> simp [hy]
  have hat := s.blockAt_splitBlock n hxr
    (h.nextPhysical_ne hlayout (Inv.mem_nodes_of_layout hx_mem) hx₂)
    (h.nextPhysical_ne hlayout hr_node fun hmem => hr (by simp [hmem]))
  -- Every other block keeps its extent.
  have hother : ∀ y ∈ l₁ ++ l₂, (s.splitBlock x r n).blockAt y =
      if (s.blockAt x).nextPhysical ≠ indexNone ∧ y = (s.blockAt x).nextPhysical then
        { s.blockAt y with prevPhysical := r } else s.blockAt y :=
    fun y hy => by rw [hat, if_neg (hr_layout y (hsub y hy)), if_neg (hne_x y hy)]
  have hextent : ∀ y ∈ l₁ ++ l₂,
      ((s.splitBlock x r n).blockAt y).extent = (s.blockAt y).extent := by
    intro y hy
    rw [hother y hy]
    split <;> rfl
  have hfront : ((s.splitBlock x r n).blockAt x).extent =
      ⟨(s.blockAt x).offset, n, true, false⟩ := by
    rw [hat, if_neg hxr, if_pos rfl, ← hfree]
    rfl
  have hrest : ((s.splitBlock x r n).blockAt r).extent =
      ⟨(s.blockAt x).offset + n, (s.blockAt x).length - n, true, (s.blockAt x).flags.last⟩ := by
    rw [hat, if_pos rfl]
    rfl
  have hwhole := extent_of_free hfree
  have htiles := h.physical.tiles
  have hlast := h.physical.last
  rw [hlayout, extents_append, extents_cons, hwhole] at htiles hlast
  refine h.relayout [x] [x, r] hlayout rfl (s.splitBlock_frame x r n) rfl rfl ?_ (by simp [hhole])
    (by simp [hhole]) (fun j hj => ?_) hextent ?_ ?_ ?_ ?_ ?_ ?_ ?_
  · unfold View.nodes
    rw [hlayout, hdetached]
    grind
  · rw [Finset.mem_insert, or_iff_right (hr_layout j (hsub j hj))]
  · rintro j (hj | hj)
    · rw [hat, if_neg (h.detached_unused_disjoint hj (hdetached ▸ mem_cons_self ..)),
        if_neg (h.layout_unused_disjoint hx_mem hj).symm]
      split <;> rfl
    · rw [hother j hj]
      split <;> rfl
  · refine hlinked.insertAfter hr (h.ne_none hr_node) ?_ ?_ ?_ (fun y hy => ?_) (fun y hy => ?_)
    · rw [hat, if_neg hxr, if_pos rfl]
    · rw [hat, if_pos rfl]
    · rw [hat, if_pos rfl]
    · rw [hother y hy]
      split <;> rfl
    · rw [hat, if_neg (hr_layout y (hlayout ▸ hy))]
      by_cases hyx : y = x
      · subst hyx
        rw [if_pos rfl,
          if_neg (h.nextPhysical_ne hlayout (Inv.mem_nodes_of_layout hx_mem) hx₂).symm]
      have hynone := h.ne_none (Inv.mem_nodes_of_layout (hlayout ▸ hy))
      rw [if_neg hyx]
      by_cases hynext : y = (s.blockAt x).nextPhysical
      · rw [if_pos ⟨hynext ▸ hynone, hynext⟩, if_pos hynext]
      · rw [if_neg fun hc => hynext hc.2, if_neg hynext]
  · rw [extents_cons, extents_cons, hfront, hrest]
    exact htiles.split hpos halign rfl rfl (by dsimp only; omega) (by dsimp only; omega)
  · rw [extents_cons, extents_cons, hfront, hrest]
    exact hlast.split rfl rfl
  · simp only [extents_cons, extents_nil, hfront, hrest, hwhole, freeBytes_cons, if_true]
    omega
  · simp [hfront, hrest, hwhole]
  · simp [hfront, hrest, hwhole]

/-! ### Absorbing -/

/-- The geometric part of `absorbInto`: everything but the dependency metadata. -/
def Allocator.absorbLinks (s : Allocator) (target source : ℕ) : Allocator :=
  let sourceBlock := s.blockAt source
  let s := s.modifyBlock target fun b =>
    { b with
      length := b.length + sourceBlock.length
      flags := { b.flags with last := b.flags.last || sourceBlock.flags.last } }
  let s := s.modifyBlock target fun b => { b with nextPhysical := sourceBlock.nextPhysical }
  if sourceBlock.nextPhysical ≠ indexNone then
    s.modifyBlock sourceBlock.nextPhysical fun b => { b with prevPhysical := target }
  else s

/-- Equal writes keep states equal up to metadata. -/
lemma MetadataStep.modifyBlock_congr (h : MetadataStep s s') (i : ℕ) {f : Block → Block}
    (hf : ∀ b, (f b).skeleton = (f b.skeleton).skeleton) :
    MetadataStep (s.modifyBlock i f) (s'.modifyBlock i f) := by
  refine ⟨h.outline, h.matrix, fun j => ?_⟩
  rw [blockAt_modifyBlock, blockAt_modifyBlock]
  split
  · rw [hf (s'.blockAt j), h.skeleton j, ← hf]
  · exact h.skeleton j

lemma MetadataStep.absorbInto (s : Allocator) (a b : ℕ) :
    MetadataStep (s.absorbLinks a b) (s.absorbInto a b) := by
  unfold Allocator.absorbLinks Allocator.absorbInto
  dsimp only
  have hlink : ∀ {t t' : Allocator} {next : ℕ}, MetadataStep t t' →
      MetadataStep
        (if next ≠ indexNone then t.modifyBlock next fun c => { c with prevPhysical := a } else t)
        (if next ≠ indexNone then t'.modifyBlock next fun c => { c with prevPhysical := a }
          else t') := by
    intro t t' next h
    split
    · exact h.modifyBlock_congr _ fun _ => rfl
    · exact h
  refine hlink (MetadataStep.modifyBlock_congr ?_ a fun _ => rfl)
  have hmerge := MetadataStep.mergeFrontiers s a (s.blockAt b).frontier
  split
  · -- Propagating the taint is a metadata step of its own.
    refine MetadataStep.trans ?_ (MetadataStep.modifyBlock _ a fun _ => rfl)
    exact hmerge.modifyBlock_congr a fun _ => rfl
  · exact hmerge.modifyBlock_congr a fun _ => rfl

lemma Allocator.blockAt_absorbLinks (s : Allocator) (ha : (s.blockAt b).nextPhysical ≠ a)
    (j : ℕ) :
    (s.absorbLinks a b).blockAt j =
      if j = a then
        { s.blockAt a with
          length := (s.blockAt a).length + (s.blockAt b).length
          nextPhysical := (s.blockAt b).nextPhysical
          flags := { (s.blockAt a).flags with
            last := (s.blockAt a).flags.last || (s.blockAt b).flags.last } }
      else if (s.blockAt b).nextPhysical ≠ indexNone ∧ j = (s.blockAt b).nextPhysical then
        { s.blockAt j with prevPhysical := a }
      else s.blockAt j := by
  unfold absorbLinks
  by_cases hnone : (s.blockAt b).nextPhysical ≠ indexNone
  · by_cases hja : j = a
    · subst hja
      simp [ha.symm, hnone]
    · simp [hja, hnone]
  · by_cases hja : j = a
    · subst hja
      simp [not_not.mp hnone]
    · simp [hja, not_not.mp hnone]

lemma Allocator.absorbLinks_frame (s : Allocator) (a b : ℕ) :
    (s.absorbLinks a b).outline = s.outline ∧ (s.absorbLinks a b).matrix = s.matrix := by
  unfold absorbLinks
  dsimp only
  split <;> simp only [outline_modifyBlock, matrix_modifyBlock, and_self]

section

variable (h : Inv s v) (hlayout : v.layout = l₁ ++ a :: b :: l₂)
  (hfree_a : (s.blockAt a).flags.free = true) (hfree_b : (s.blockAt b).flags.free = true)
  (hhole_a : a ∈ v.holes) (hhole_b : b ∈ v.holes)
include h hlayout hfree_a hfree_b hhole_a hhole_b

/-- Joining a block with its right neighbour, both holes, detaches the neighbour's node. -/
lemma Inv.absorbLinks : Inv (s.absorbLinks a b) { v with
        layout := l₁ ++ a :: l₂, detached := b :: v.detached, holes := v.holes.erase b } := by
  have hlayout_b : v.layout = (l₁ ++ [a]) ++ b :: l₂ := by rw [hlayout]; simp
  have hlinked := h.physical.linked
  rw [hlayout_b] at hlinked
  have ha_mem : a ∈ v.layout := by rw [hlayout]; simp
  obtain ⟨ha₁, ha₂⟩ := h.nodup_split hlayout
  obtain ⟨hb₁, hb₂⟩ := h.nodup_split hlayout_b
  have hab : a ≠ b := fun hab => ha₂ (hab ▸ mem_cons_self ..)
  have hprev_b : (s.blockAt b).prevPhysical = a := by
    rw [hlinked.prev_eq]
    simp
  have hat := s.blockAt_absorbLinks (h.nextPhysical_ne hlayout_b (Inv.mem_nodes_of_layout ha_mem)
    fun hmem => ha₂ (mem_cons_of_mem _ hmem))
  have hne_a : ∀ y ∈ l₁ ++ l₂, y ≠ a := fun y hy => ne_of_mem_of_not_mem hy (by simp_all)
  have hextent : ∀ y ∈ l₁ ++ l₂, ((s.absorbLinks a b).blockAt y).extent = (s.blockAt y).extent := by
    intro y hy
    rw [hat, if_neg (hne_a y hy)]
    split <;> rfl
  have hjoined : ((s.absorbLinks a b).blockAt a).extent =
      ⟨(s.blockAt a).offset, (s.blockAt a).length + (s.blockAt b).length, true,
        (s.blockAt a).flags.last || (s.blockAt b).flags.last⟩ := by
    rw [hat, if_pos rfl, ← hfree_a]
    rfl
  have hleft := extent_of_free hfree_a
  have hright := extent_of_free hfree_b
  have htiles := h.physical.tiles
  have hlast := h.physical.last
  rw [hlayout, extents_append, extents_cons, extents_cons, hleft, hright] at htiles hlast
  refine h.relayout [a, b] [a] hlayout rfl (s.absorbLinks_frame a b) rfl rfl ?_
    (by simp [hhole_a, hhole_b]) (by simp [hhole_a, hab]) (fun j hj => ?_) hextent ?_ ?_ ?_ ?_ ?_ ?_
    ?_
  · unfold View.nodes
    rw [hlayout]
    grind
  · rw [Finset.mem_erase, and_iff_right (ne_of_mem_of_not_mem hj (by simp_all))]
  · rintro j (hj | hj)
    · rw [hat, if_neg (h.layout_unused_disjoint ha_mem hj).symm]
      split <;> rfl
    · rw [hat, if_neg (hne_a j hj)]
      split <;> rfl
  · -- Physically, absorbing is unlinking the right block.
    have hunlink : IsList (fun i => ((s.absorbLinks a b).blockAt i).nextPhysical)
        (fun i => ((s.absorbLinks a b).blockAt i).prevPhysical) indexNone
        (if (s.blockAt b).prevPhysical = indexNone then (s.blockAt b).nextPhysical else 0)
        (l₁ ++ [a] ++ l₂) := by
      refine hlinked.unlink (fun y _ => ?_) (fun y hy => ?_)
      · rw [hat, hprev_b]
        by_cases hya : y = a
        · rw [if_pos hya, if_pos hya]
        · rw [if_neg hya, if_neg hya]
          split <;> rfl
      rw [hat, hprev_b]
      by_cases hya : y = a
      · have hne := h.nextPhysical_ne hlayout_b (Inv.mem_nodes_of_layout ha_mem)
          fun hmem => ha₂ (mem_cons_of_mem _ hmem)
        rw [if_pos hya, hya, if_neg hne.symm]
      have hy' : y ∈ v.layout := by
        rw [hlayout_b]
        rcases mem_append.mp hy with hy | hy
        · exact mem_append_left _ hy
        · exact mem_append_right _ (mem_cons_of_mem _ hy)
      have hynone := h.ne_none (Inv.mem_nodes_of_layout hy')
      rw [if_neg hya]
      by_cases hynext : y = (s.blockAt b).nextPhysical
      · rw [if_pos ⟨hynext ▸ hynone, hynext⟩, if_pos hynext]
      · rw [if_neg fun hc => hynext hc.2, if_neg hynext]
    rw [hprev_b, if_neg (h.ne_none (Inv.mem_nodes_of_layout ha_mem))] at hunlink
    simpa using hunlink
  · rw [extents_cons, hjoined]
    exact htiles.join rfl rfl
  · rw [extents_cons, hjoined]
    exact hlast.join rfl
  · simp only [extents_cons, extents_nil, hjoined, hleft, hright, freeBytes_cons, if_true]
    omega
  · simp [hjoined, hleft, hright]
  · simp [hjoined, hleft, hright]

/-- **Absorbing** a block into its left neighbour, both holes: the neighbour stays a hole. -/
lemma Inv.absorb : Inv (s.absorb a b)
      { v with layout := l₁ ++ a :: l₂, unused := b :: v.unused, holes := v.holes.erase b } := by
  have hlinks := h.absorbLinks hlayout hfree_a hfree_b hhole_a hhole_b
  exact ((hlinks.of_metadata (MetadataStep.absorbInto s a b)).freeNode rfl).2

end

/-! ### Flipping the FREE flag -/

def Flipped (s s' : Allocator) (x : ℕ) : Prop :=
  ∀ j, s'.blockAt j = if j = x then { s.blockAt x with flags := { (s.blockAt x).flags with
    free := !(s.blockAt x).flags.free } } else s.blockAt j

lemma Flipped.extents_eq (hat : Flipped s s' x) {l : List ℕ} (hl : x ∉ l) :
    s'.extents l = s.extents l := by
  refine map_congr_left fun j hj => ?_
  rw [hat, if_neg fun hjx : j = x => hl (hjx ▸ hj)]

/-- The bytes and the count of a flipped block change sides. -/
lemma Flipped.totals (hat : Flipped s s' x) (hx₁ : x ∉ l₁) (hx₂ : x ∉ l₂) :
    let old := s.extents (l₁ ++ x :: l₂)
    let new := s'.extents (l₁ ++ x :: l₂)
    if (s.blockAt x).flags.free then
      freeBytes old = freeBytes new + (s.blockAt x).length ∧
        allocatedBytes new = allocatedBytes old + (s.blockAt x).length ∧
        allocatedCount new = allocatedCount old + 1
    else
      freeBytes new = freeBytes old + (s.blockAt x).length ∧
        allocatedBytes old = allocatedBytes new + (s.blockAt x).length ∧
        allocatedCount old = allocatedCount new + 1 := by
  have hnew : (s'.blockAt x).extent = ⟨(s.blockAt x).offset, (s.blockAt x).length,
      !(s.blockAt x).flags.free, (s.blockAt x).flags.last⟩ := by
    rw [hat, if_pos rfl]
    rfl
  have hold : (s.blockAt x).extent = ⟨(s.blockAt x).offset, (s.blockAt x).length,
      (s.blockAt x).flags.free, (s.blockAt x).flags.last⟩ := rfl
  simp only [extents_append, extents_cons, hat.extents_eq hx₁, hat.extents_eq hx₂, hnew, hold,
    freeBytes_append, freeBytes_cons, allocatedBytes_append, allocatedBytes_cons,
    allocatedCount_append, allocatedCount_cons]
  cases (s.blockAt x).flags.free <;> simp <;> omega

/-- The counters move one block's length from one side to the other. -/
lemma Inv.flip {holes : Finset ℕ} (h : Inv s v) (hlayout : v.layout = l₁ ++ x :: l₂)
    (hat : Flipped s s' x) (hmatrix : s'.matrix = s.matrix) (halign : s'.alignment = s.alignment)
    (hrange : s'.rangeLength = s.rangeLength) (hhead : s'.unusedNodeHead = s.unusedNodeHead)
    (hcap : s'.pool.blockCapacity = s.pool.blockCapacity) (hshape : PoolShape s'.pool)
    (hlisted : ∀ j, j ∈ s'.listed { v with holes := holes } ↔ j ∈ s.listed v)
    (hcounters : Counters s' v.layout) : Inv s' { v with holes := holes } := by
  have hlisted' : s'.listed { v with holes := holes } = s.listed v := Finset.ext hlisted
  have hsame : ∀ {α : Type} (f : Block → α),
      (∀ b flag, f { b with flags := { b.flags with free := flag } } = f b) →
      ∀ j, f (s'.blockAt j) = f (s.blockAt j) := by
    intro α f hf j
    rw [hat]
    split
    · rename_i hjx
      rw [hf, hjx]
    · rfl
  have hx := h.nodup_split hlayout
  have htiles := h.physical.tiles
  have hlast := h.physical.last
  rw [hlayout, extents_append, extents_cons] at htiles hlast
  refine ⟨⟨?_, ?_, ?_⟩, ?_, ⟨?_, h.nodes.nodup, ?_⟩, hcounters, hshape,
    h.geometry.congr halign hrange⟩
  · exact h.physical.linked.congr (fun j _ => hsame nextPhysical (fun _ _ => rfl) j)
      (fun j _ => hsame prevPhysical (fun _ _ => rfl) j)
  · rw [halign, hrange, hlayout, extents_append, extents_cons, hat.extents_eq hx.1,
      hat.extents_eq hx.2]
    exact htiles.replace (hsame offset (fun _ _ => rfl) x)
      (hsame length (fun _ _ => rfl) x)
  · rw [hlayout, extents_append, extents_cons, hat.extents_eq hx.1,
      hat.extents_eq hx.2]
    exact hlast.replace (hsame (fun b => b.flags.last) (fun _ _ => rfl) x)
  · rw [hlisted']
    exact h.freeLists.congr hmatrix fun j _ => hsame listing (fun _ _ => rfl) j
  · rw [hhead]
    exact h.nodes.chain.congr fun j _ => hsame nextFree (fun _ _ => rfl) j
  · rw [hcap]
    exact h.nodes.mem_iff

/-- The block graph after a commit: only the FREE flag of the block has changed. -/
lemma Allocator.blockAt_commitBlock (s : Allocator) (n x j : ℕ) :
    (({ s with bytesFree := n }.commitBlock x).1).blockAt j =
      if j = x then { s.blockAt j with flags := { (s.blockAt j).flags with free := false } }
      else s.blockAt j := by
  show (modifyBlock _ x _).blockAt j = _
  rw [blockAt_modifyBlock]
  rfl

/-- **Committing** a free block that has left its list makes it an allocation. -/
lemma Inv.commitBlock (h : Inv s v) (hlayout : v.layout = l₁ ++ x :: l₂)
    (hfree : (s.blockAt x).flags.free = true) (hhole : x ∈ v.holes) :
    Inv ({ s with bytesFree := s.bytesFree - (s.blockAt x).length }.commitBlock x).1
      { v with holes := v.holes.erase x } := by
  set s' := ({ s with bytesFree := s.bytesFree - (s.blockAt x).length }.commitBlock x).1 with hs'
  have hat : Flipped s s' x := by
    intro j
    rw [hs', s.blockAt_commitBlock, hfree]
    split
    · rename_i hjx
      rw [hjx]
      rfl
    · rfl
  obtain ⟨hx₁, hx₂⟩ := h.nodup_split hlayout
  refine h.flip hlayout hat rfl rfl rfl rfl rfl
    ⟨h.shape.1, h.shape.2, h.shape.3, h.shape.4, h.shape.5⟩ (fun j => ?_) ?_
  · rw [mem_listed, mem_listed, Finset.mem_erase, hat]
    by_cases hjx : j = x
    · subst hjx
      simp [hfree, hhole]
    · simp [hjx]
  have htotals := hat.totals hx₁ hx₂
  have hlen : (s'.blockAt x).length = (s.blockAt x).length := by
    rw [hat, if_pos rfl]
  obtain ⟨hba, hbf, hac⟩ := h.counters
  rw [if_pos hfree, ← hlayout] at htotals
  constructor
  · show s.bytesAllocated + (s'.blockAt x).length = _
    omega
  · show s.bytesFree - (s.blockAt x).length = _
    omega
  · show s.allocationCount + 1 = _
    omega

/-- The block graph after a release: only the FREE flag of the block has changed. -/
lemma Allocator.blockAt_releaseBlock (s : Allocator) (x j : ℕ) :
    (s.releaseBlock x).blockAt j =
      if j = x then { s.blockAt j with flags := { (s.blockAt j).flags with free := true } }
      else s.blockAt j := by
  show (modifyBlock _ x _).blockAt j = _
  rw [blockAt_modifyBlock]
  rfl

/-- **Releasing** an allocation flags it FREE and leaves it unlisted. -/
lemma Inv.releaseBlock (h : Inv s v) (hlayout : v.layout = l₁ ++ x :: l₂)
    (hfree : (s.blockAt x).flags.free = false) :
    Inv (s.releaseBlock x) { v with holes := insert x v.holes } ∧
      Flipped s (s.releaseBlock x) x := by
  have hat : Flipped s (s.releaseBlock x) x := by
    intro j
    rw [s.blockAt_releaseBlock, hfree]
    split
    · rename_i hjx
      rw [hjx]
      rfl
    · rfl
  obtain ⟨hx₁, hx₂⟩ := h.nodup_split hlayout
  refine ⟨h.flip hlayout hat rfl rfl rfl rfl rfl
    ⟨h.shape.1, h.shape.2, h.shape.3, h.shape.4, h.shape.5⟩ (fun j => ?_) ?_, hat⟩
  · rw [mem_listed, mem_listed, Finset.mem_insert, hat]
    by_cases hjx : j = x
    · subst hjx
      simp [hfree]
    · simp [hjx]
  have htotals := hat.totals hx₁ hx₂
  obtain ⟨hba, hbf, hac⟩ := h.counters
  rw [if_neg (by simp [hfree]), ← hlayout] at htotals
  constructor
  · show s.bytesAllocated - (s.blockAt x).length = _
    omega
  · show s.bytesFree + (s.blockAt x).length = _
    omega
  · show s.allocationCount - 1 = _
    omega

end Hrx.Tlsf
