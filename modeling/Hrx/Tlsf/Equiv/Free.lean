import Hrx.Tlsf.Equiv.Allocate

/-!
# Freeing and coalescing

A free turns a block into a FREE block that no list holds yet, joins it with a free right and then
with a free left neighbour, and lists what has become of it.  `Pending` is the state in between: one
unlisted FREE block, and no two free neighbours on either side of it.
-/

namespace Hrx.Tlsf

open Allocator Block DoublyLinked List

/-- The block `x` is FREE and unlisted, everything else is at rest. -/
structure Pending (s : Allocator) (l₁ : List ℕ) (x : ℕ) (l₂ : List ℕ) : Prop where
  inv : ∃ unused bins, Inv s ⟨l₁ ++ x :: l₂, unused, [], bins, {x}⟩
  free : (s.blockAt x).flags.free = true
  left : NoAdjacentFree (s.extents l₁)
  right : NoAdjacentFree (s.extents l₂)

/-- A step that keeps the allocated blocks and what the blocks cover. -/
structure Preserves (s : Allocator) (layout : List ℕ) (s' : Allocator) (layout' : List ℕ) :
    Prop where
  allocated_eq : s'.allocated layout' = s.allocated layout
  covered : ∀ need, Covered s layout need → Covered s' layout' need

lemma Preserves.refl (s : Allocator) (layout : List ℕ) : Preserves s layout s layout :=
  ⟨rfl, fun _ h => h⟩

lemma Preserves.trans {s s' s'' : Allocator} {layout layout' layout'' : List ℕ}
    (h : Preserves s layout s' layout') (h' : Preserves s' layout' s'' layout'') :
    Preserves s layout s'' layout'' :=
  ⟨h'.allocated_eq.trans h.allocated_eq, fun need hcov => h'.covered need (h.covered need hcov)⟩

/-- Relinking blocks preserves all. -/
lemma Preserves.of_payload {s s' : Allocator} {layout : List ℕ} (hpolicy : s'.policy = s.policy)
    (hpayload : ∀ j, (s'.blockAt j).payload = (s.blockAt j).payload) :
    Preserves s layout s' layout where
  allocated_eq := by
    ext j
    rw [mem_allocated, mem_allocated, free_of_payload (hpayload j)]
  covered _ hcov := hcov.of_blocks hpolicy fun j hj => (hcov.covers j hj).of_payload (hpayload j)

/-! ### Joining neighbours -/

section join

variable {s : Allocator} {l₁ l₂ unused : List ℕ} {bins : ℕ → ℕ → List ℕ} {a b : ℕ}

lemma Allocator.blockAt_freeNode_of_ne (s : Allocator) {i j : ℕ} (hj : j ≠ i) :
    (s.freeNode i).blockAt j = s.blockAt j := by
  show (s.modifyBlock i _).blockAt j = _
  rw [blockAt_modifyBlock, if_neg hj]

/-- Absorbing a block into its left neighbour, both unlisted: the blocks elsewhere are untouched,
and the allocated blocks and what the blocks cover are the same. -/
lemma Inv.absorb_preserves (h : Inv s ⟨l₁ ++ a :: b :: l₂, unused, [], bins, {a, b}⟩)
    (hfree_a : (s.blockAt a).flags.free = true) (hfree_b : (s.blockAt b).flags.free = true) :
    Inv (s.absorb a b) ⟨l₁ ++ a :: l₂, b :: unused, [], bins, {a}⟩ ∧
    (∀ j, j ≠ a → j ≠ b → ((s.absorb a b).blockAt j).payload = (s.blockAt j).payload) ∧
    ((s.absorb a b).blockAt a).flags.free = true ∧
    Preserves s (l₁ ++ a :: b :: l₂) (s.absorb a b) (l₁ ++ a :: l₂) := by
  have hlayout_b := append_cons l₁ a (b :: l₂)
  obtain ⟨ha₁, ha₂⟩ := h.nodup_split (x := a) rfl
  obtain ⟨hb₁, hb₂⟩ := h.nodup_split (x := b) hlayout_b
  have hab : a ≠ b := fun hc => ha₂ (by simp [hc])
  have hinv := h.absorb rfl hfree_a hfree_b (by simp) (by simp)
  have hholes : ({a, b} : Finset ℕ).erase b = {a} := by
    rw [Finset.pair_comm, Finset.erase_insert (by simpa using hab.symm)]
  have hnext : (s.blockAt b).nextPhysical ≠ a :=
    h.nextPhysical_ne hlayout_b (Inv.mem_nodes_of_layout (by simp))
      fun hmem => ha₂ (mem_cons_of_mem _ hmem)
  have hother : ∀ j, j ≠ a → j ≠ b →
      ((s.absorb a b).blockAt j).payload = (s.blockAt j).payload := by
    intro j hja hjb
    rw [Allocator.absorb, blockAt_freeNode_of_ne _ hjb, s.payload_absorbInto_of_ne hja]
  have hat_a : (s.absorb a b).blockAt a = (s.absorbInto a b).blockAt a :=
    blockAt_freeNode_of_ne _ hab
  have hfree : ((s.absorb a b).blockAt a).flags.free = true := by
    rw [hat_a, (MetadataStep.absorbInto s a b).field (fun b => b.flags.free) (fun _ => rfl),
      s.blockAt_absorbLinks hnext, if_pos rfl]
    exact hfree_a
  refine ⟨hholes ▸ hinv, hother, hfree, ?_, fun need hcov => ?_⟩
  · ext j
    rw [mem_allocated, mem_allocated]
    by_cases hja : j = a
    · subst hja
      simp [hfree, hfree_a]
    by_cases hjb : j = b
    · subst hjb
      have hj : j ∉ l₁ ++ a :: l₂ := by
        simp only [mem_append, mem_cons, not_or]
        exact ⟨fun hc => hb₁ (by simp [hc]), hja, hb₂⟩
      simp [hj, hfree_b]
    · rw [free_of_payload (hother j hja hjb)]
      simp [hjb]
  · have houtline := (MetadataStep.absorbInto s a b).outline.trans (s.absorbLinks_frame a b).1
    refine hcov.of_blocks (policy_of_outline houtline :) fun j hj => ?_
    by_cases hja : j = a
    · subst hja
      have hadjacent := h.physical.tiles
      rw [extents_append, extents_cons, extents_cons] at hadjacent
      rw [hat_a]
      exact covers_absorbInto hcov.handler hnext hadjacent.adjacent
        (hcov.covers j (by simp)) (hcov.covers b (by simp))
    · have hjb : j ≠ b := by
        rintro rfl
        rcases mem_append.mp hj with hj | hj
        · exact hb₁ (by simp [hj])
        · exact hb₂ (by simpa [hja] using hj)
      exact (hcov.covers j (by simp at hj ⊢; tauto)).of_payload (hother j hja hjb)

/-- Joining two free neighbours, one of them the unlisted block and the other listed. -/
lemma Inv.join {x y : ℕ} (h : Inv s ⟨l₁ ++ a :: b :: l₂, unused, [], bins, {x}⟩)
    (hpair : ({y, x} : Finset ℕ) = {a, b}) (hy : y ∈ l₁ ++ a :: b :: l₂)
    (hfree_a : (s.blockAt a).flags.free = true) (hfree_b : (s.blockAt b).flags.free = true) :
    (∃ bins', Inv ((s.removeFreeBlock y).absorb a b)
      ⟨l₁ ++ a :: l₂, b :: unused, [], bins', {a}⟩) ∧
    (∀ j ∈ l₁ ++ l₂,
      (((s.removeFreeBlock y).absorb a b).blockAt j).payload = (s.blockAt j).payload) ∧
    (((s.removeFreeBlock y).absorb a b).blockAt a).flags.free = true ∧
    Preserves s (l₁ ++ a :: b :: l₂) ((s.removeFreeBlock y).absorb a b) (l₁ ++ a :: l₂) := by
  have hnodup := h.nodup_split (x := a) rfl
  have hnodup' := h.nodup_split (x := b) (append_cons l₁ a (b :: l₂))
  rw [mem_append, mem_singleton, not_or] at hnodup'
  have hyx : y ≠ x := by
    rintro rfl
    have ha := hpair ▸ Finset.mem_insert_self a {b}
    have hb := hpair ▸ Finset.mem_insert_of_mem (Finset.mem_singleton_self b)
    simp only [Finset.mem_insert, Finset.mem_singleton, or_self] at ha hb
    exact hnodup'.1.2 (hb.trans ha.symm)
  have hcore := fun j => payload_of_core (s.core_removeFreeBlock y j)
  have hfree_y : (s.blockAt y).flags.free = true := by
    have hmem : y ∈ ({a, b} : Finset ℕ) := hpair ▸ Finset.mem_insert_self y _
    rcases Finset.mem_insert.mp hmem with rfl | hmem
    · exact hfree_a
    · exact Finset.mem_singleton.mp hmem ▸ hfree_b
  have hremove := h.removeFreeBlock (i := y)
    (mem_listed.mpr ⟨hy, hfree_y, by simpa using hyx⟩)
  have hpolicy := policy_of_outline (s.outline_removeFreeBlock y)
  have hpreserves : Preserves s (l₁ ++ a :: b :: l₂) (s.removeFreeBlock y) (l₁ ++ a :: b :: l₂) :=
    Preserves.of_payload hpolicy hcore
  rw [hpair] at hremove
  obtain ⟨hinv, hother, hfree, habsorb⟩ := hremove.absorb_preserves
    ((free_of_payload (hcore a)).trans hfree_a)
    ((free_of_payload (hcore b)).trans hfree_b)
  refine ⟨⟨_, hinv⟩, fun j hj => (hother j ?_ ?_).trans (hcore j), hfree, hpreserves.trans habsorb⟩
  · rintro rfl
    exact (mem_append.mp hj).elim hnodup.1 fun hj => hnodup.2 (mem_cons_of_mem _ hj)
  · rintro rfl
    exact (mem_append.mp hj).elim hnodup'.1.1 hnodup'.2

end join

/-! ### The two directions -/

section coalesce

variable {s : Allocator} {l₁ l₂ : List ℕ} {x : ℕ}

/-- Joining with a free right neighbour. -/
lemma Pending.join_right {y : ℕ} (h : Pending s l₁ x (y :: l₂))
    (hfree : (s.blockAt y).flags.free = true) :
    Pending ((s.removeFreeBlock y).absorb x y) l₁ x l₂ ∧
    (∀ z ∈ l₂.head?, (((s.removeFreeBlock y).absorb x y).blockAt z).flags.free = false) ∧
    Preserves s (l₁ ++ x :: y :: l₂) ((s.removeFreeBlock y).absorb x y) (l₁ ++ x :: l₂) := by
  obtain ⟨unused, bins, hinv⟩ := h.inv
  obtain ⟨⟨bins', hinv'⟩, hother, hfree_x, hpreserves⟩ :=
    hinv.join (Finset.pair_comm y x) (by simp) h.free hfree
  generalize (s.removeFreeBlock y).absorb x y = s' at *
  have hleft := fun j hj => hother j (mem_append_left l₂ hj)
  have hright := fun j hj => hother j (mem_append_right l₁ hj)
  have hchain := h.right
  rw [extents_cons, ← nil_append (_ :: _)] at hchain
  obtain ⟨-, htail, -, hhead⟩ := noAdjacentFree_append_cons.mp hchain
  refine ⟨⟨⟨_, bins', hinv'⟩, hfree_x, ?_, ?_⟩, fun z hz => ?_, hpreserves⟩
  · rw [extents_of_payload hleft]
    exact h.left
  · rw [extents_of_payload hright]
    exact htail
  have hz_mem : z ∈ l₂ := mem_of_mem_head? hz
  rw [free_of_payload (hright z hz_mem), ← Bool.not_eq_true]
  intro hz_free
  refine hhead (s.blockAt z).extent ?_ ⟨hfree, hz_free⟩
  show _ ∈ (l₂.map _).head?
  rw [List.head?_map]
  exact Option.mem_map_of_mem _ hz

/-- Joining with a free left neighbour. -/
lemma Pending.join_left {y : ℕ} (h : Pending s (l₁ ++ [y]) x l₂)
    (hfree : (s.blockAt y).flags.free = true) :
    Pending ((s.removeFreeBlock y).absorb y x) l₁ y l₂ ∧
    (∀ z ∈ l₁.getLast?, (((s.removeFreeBlock y).absorb y x).blockAt z).flags.free = false) ∧
    (∀ z ∈ l₂, (((s.removeFreeBlock y).absorb y x).blockAt z).flags.free =
      (s.blockAt z).flags.free) ∧
    Preserves s (l₁ ++ y :: x :: l₂) ((s.removeFreeBlock y).absorb y x) (l₁ ++ y :: l₂) := by
  obtain ⟨unused, bins, hinv⟩ := h.inv
  rw [← append_cons] at hinv
  obtain ⟨⟨bins', hinv'⟩, hother, hfree_y, hpreserves⟩ := hinv.join rfl (by simp) hfree h.free
  generalize (s.removeFreeBlock y).absorb y x = s' at *
  have hleft := fun j hj => hother j (mem_append_left l₂ hj)
  have hright := fun j hj => hother j (mem_append_right l₁ hj)
  have hchain := h.left
  rw [extents_append, extents_cons] at hchain
  obtain ⟨hinit, -, hlast, -⟩ := noAdjacentFree_append_cons.mp hchain
  refine ⟨⟨⟨_, bins', hinv'⟩, hfree_y, ?_, ?_⟩, fun z hz => ?_,
    fun z hz => free_of_payload (hright z hz), hpreserves⟩
  · rw [extents_of_payload hleft]
    exact hinit
  · rw [extents_of_payload hright]
    exact h.right
  have hz_mem : z ∈ l₁ := mem_of_mem_getLast? hz
  rw [free_of_payload (hleft z hz_mem), ← Bool.not_eq_true]
  intro hz_free
  refine hlast (s.blockAt z).extent ?_ ⟨hz_free, hfree⟩
  show _ ∈ (l₁.map _).getLast?
  rw [List.getLast?_map]
  exact Option.mem_map_of_mem _ hz

variable (h : Pending s l₁ x l₂)
include h

/-- **Coalescing to the right**: afterwards the right neighbour is not free. -/
lemma Pending.coalesceRight : ∃ l₂', Pending (s.coalesceRight x) l₁ x l₂' ∧
      (∀ z ∈ l₂'.head?, ((s.coalesceRight x).blockAt z).flags.free = false) ∧
      Preserves s (l₁ ++ x :: l₂) (s.coalesceRight x) (l₁ ++ x :: l₂') := by
  obtain ⟨unused, bins, hinv⟩ := h.inv
  have hlast := hinv.physical.last
  rw [extents_append, extents_cons] at hlast
  have hlast_iff : (s.blockAt x).flags.last = true ↔ s.extents l₂ = [] := hlast.last_iff
  have hnext : (s.blockAt x).nextPhysical = l₂.headD indexNone := hinv.physical.linked.next_eq
  unfold Allocator.coalesceRight
  dsimp only
  cases l₂ with
  | nil =>
    -- The block is LAST.
    rw [if_neg fun hc => hc.1 (hlast_iff.mpr rfl)]
    exact ⟨[], h, by simp, .refl _ _⟩
  | cons y l₂ =>
    have hnext' : (s.blockAt x).nextPhysical = y := hnext
    have hy : y ≠ indexNone := hinv.ne_none (Inv.mem_nodes_of_layout (by simp))
    have hnot_last : ¬ (s.blockAt x).flags.last = true := fun hc =>
      cons_ne_nil _ _ (hlast_iff.mp hc)
    rw [hnext']
    by_cases hfree : (s.blockAt y).flags.free = true
    · rw [if_pos ⟨hnot_last, hy, hfree⟩]
      exact ⟨l₂, h.join_right hfree⟩
    rw [if_neg fun hc => hfree hc.2.2]
    refine ⟨y :: l₂, h, fun z hz => ?_, .refl _ _⟩
    obtain rfl : y = z := Option.some.inj hz
    exact Bool.not_eq_true _ ▸ hfree

/-- **Coalescing to the left**: afterwards the left neighbour is not free, and the right one is as
it was. -/
lemma Pending.coalesceLeft : ∃ l₁', Pending (s.coalesceLeft x).1 l₁' (s.coalesceLeft x).2 l₂ ∧
      (∀ z ∈ l₁'.getLast?, ((s.coalesceLeft x).1.blockAt z).flags.free = false) ∧
      (∀ z ∈ l₂, ((s.coalesceLeft x).1.blockAt z).flags.free = (s.blockAt z).flags.free) ∧
      Preserves s (l₁ ++ x :: l₂) (s.coalesceLeft x).1 (l₁' ++ (s.coalesceLeft x).2 :: l₂) := by
  obtain ⟨unused, bins, hinv⟩ := h.inv
  have hprev : (s.blockAt x).prevPhysical = l₁.getLastD indexNone := hinv.physical.linked.prev_eq
  unfold Allocator.coalesceLeft
  dsimp only
  rcases eq_nil_or_concat l₁ with rfl | ⟨l, y, hl⟩
  · rw [if_neg fun hc => hc.1 hprev]
    exact ⟨[], h, by simp, fun _ _ => rfl, .refl _ _⟩
  rw [concat_eq_append] at hl
  subst hl
  have hprev' : (s.blockAt x).prevPhysical = y := by rw [hprev, getLastD_concat]
  have hy : y ≠ indexNone := hinv.ne_none (Inv.mem_nodes_of_layout (by simp))
  rw [hprev']
  by_cases hfree : (s.blockAt y).flags.free = true
  · rw [if_pos ⟨hy, hfree⟩, ← append_cons]
    exact ⟨l, h.join_left hfree⟩
  · rw [if_neg fun hc => hfree hc.2]
    refine ⟨l ++ [y], h, fun z hz => ?_, fun _ _ => rfl, .refl _ _⟩
    rw [List.getLast?_concat] at hz
    obtain rfl : y = z := Option.some.inj hz
    exact Bool.not_eq_true _ ▸ hfree

/-- Listing the pending block between two neighbours that are not free. -/
lemma Pending.insertFreeBlock (hleft : ∀ z ∈ l₁.getLast?, (s.blockAt z).flags.free = false)
    (hright : ∀ z ∈ l₂.head?, (s.blockAt z).flags.free = false) :
    AtRest (s.insertFreeBlock x) (l₁ ++ x :: l₂) ∧
      Preserves s (l₁ ++ x :: l₂) (s.insertFreeBlock x) (l₁ ++ x :: l₂) := by
  obtain ⟨unused, bins, hinv⟩ := h.inv
  have hcore := fun j => payload_of_core (s.core_insertFreeBlock x j)
  have hinsert := hinv.insertFreeBlock (i := x) (by simp) h.free (Finset.mem_singleton_self x)
  have hholes : ({x} : Finset ℕ).erase x = ∅ := by simp
  refine ⟨⟨⟨unused, _, hholes ▸ hinsert⟩, ?_⟩, ?_⟩
  · rw [extents_of_payload fun j _ => hcore j, extents_append,
      extents_cons, noAdjacentFree_append_cons]
    refine ⟨h.left, h.right, fun e he hc => ?_, fun e he hc => ?_⟩
    · obtain ⟨z, hz, rfl⟩ : ∃ z ∈ l₁.getLast?, (s.blockAt z).extent = e := by
        simpa [Allocator.extents] using he
      have hz_free : (s.blockAt z).flags.free = true := hc.1
      exact absurd hz_free (by simp [hleft z hz])
    · obtain ⟨z, hz, rfl⟩ : ∃ z ∈ l₂.head?, (s.blockAt z).extent = e := by
        simpa [Allocator.extents] using he
      have hz_free : (s.blockAt z).flags.free = true := hc.2
      exact absurd hz_free (by simp [hright z hz])
  · exact .of_payload (policy_of_outline (s.outline_insertFreeBlock x)) hcore

/-- Both directions and the listing. -/
lemma Pending.coalesce : ∃ layout', AtRest (((s.coalesceRight x).coalesceLeft x).1.insertFreeBlock
        ((s.coalesceRight x).coalesceLeft x).2) layout' ∧
      Preserves s (l₁ ++ x :: l₂) (((s.coalesceRight x).coalesceLeft x).1.insertFreeBlock
        ((s.coalesceRight x).coalesceLeft x).2) layout' := by
  obtain ⟨l₂', hright, hright_head, hpreserves⟩ := h.coalesceRight
  obtain ⟨l₁', hleft, hleft_last, hkeep, hpreserves'⟩ := hright.coalesceLeft
  obtain ⟨hrest, hpreserves''⟩ := hleft.insertFreeBlock hleft_last fun z hz => by
    rw [hkeep z (mem_of_mem_head? hz)]
    exact hright_head z hz
  exact ⟨_, hrest, (hpreserves.trans hpreserves').trans hpreserves''⟩

end coalesce

/-! ### Freeing -/

variable {s : Allocator} {layout : List ℕ} {x : ℕ}

/-- **Releasing** an allocated block makes it the pending block. -/
lemma AtRest.releaseBlock {l₁ l₂ : List ℕ} (h : AtRest s (l₁ ++ x :: l₂))
    (hfree : (s.blockAt x).flags.free = false) :
    Pending (s.releaseBlock x) l₁ x l₂ ∧
      (s.releaseBlock x).allocated (l₁ ++ x :: l₂) = (s.allocated (l₁ ++ x :: l₂)).erase x ∧
      ∀ need, Covered s (l₁ ++ x :: l₂) need → Covered (s.releaseBlock x) (l₁ ++ x :: l₂) need := by
  obtain ⟨unused, bins, hinv⟩ := h.inv
  obtain ⟨hx₁, hx₂⟩ := hinv.nodup_split rfl
  obtain ⟨hrelease, hat⟩ := hinv.releaseBlock rfl hfree
  have hfree_x : ((s.releaseBlock x).blockAt x).flags.free = true := by
    rw [hat, if_pos rfl, hfree]
    rfl
  have hchain := h.noAdjacentFree
  rw [extents_append, extents_cons] at hchain
  obtain ⟨hleft, hright, -⟩ := noAdjacentFree_append_cons.mp hchain
  refine ⟨⟨⟨unused, bins, hrelease⟩, hfree_x, ?_, ?_⟩, ?_, fun need hcov => ?_⟩
  · rwa [hat.extents_eq hx₁]
  · rwa [hat.extents_eq hx₂]
  · ext j
    rw [Finset.mem_erase, mem_allocated, mem_allocated]
    by_cases hjx : j = x
    · subst hjx
      simp [hfree_x]
    · rw [hat, if_neg hjx]
      simp [hjx]
  · refine hcov.of_blocks rfl fun j hj => ?_
    rw [hat]
    split
    · next hjx =>
      exact (hcov.covers x (hjx ▸ hj)).shrink rfl rfl rfl fun byte hbyte => hbyte
    · exact hcov.covers j hj

/-- **Recording the death frontier** of the pending block. -/
lemma Pending.setDeathFrontier {l₁ l₂ : List ℕ} (h : Pending s l₁ x l₂)
    (death : Option Frontier) :
    Pending (s.setDeathFrontier x death) l₁ x l₂ ∧
      (s.setDeathFrontier x death).allocated (l₁ ++ x :: l₂) = s.allocated (l₁ ++ x :: l₂) ∧
      ∀ need, (∀ f ∈ death, f.Valid) → Covered s (l₁ ++ x :: l₂) need →
        Covered (s.setDeathFrontier x death) (l₁ ++ x :: l₂)
          (need.record (s.blockAt x) death) := by
  obtain ⟨unused, bins, hinv⟩ := h.inv
  obtain ⟨hx₁, hx₂⟩ := hinv.nodup_split rfl
  have hstep := MetadataStep.setDeathFrontier s x death
  have hextent : ∀ l, (s.setDeathFrontier x death).extents l = s.extents l := fun l =>
    map_congr_left fun j _ => hstep.field Block.extent (fun _ => rfl) j
  have hflag := fun j => hstep.field (fun b => b.flags.free) (fun _ => rfl) j
  refine ⟨⟨⟨unused, bins, hinv.of_metadata hstep⟩, (hflag x).trans h.free, ?_, ?_⟩, ?_,
    fun need hvalid hcov => hcov.of_blocks (policy_of_outline hstep.outline)
      fun j hj => ?_⟩
  · rw [hextent]
    exact h.left
  · rw [hextent]
    exact h.right
  · ext j
    rw [mem_allocated, mem_allocated, hflag]
  · by_cases hjx : j = x
    · subst hjx
      exact covers_setDeathFrontier hcov.handler hvalid
    -- The other blocks share no byte with the freed one.
    rw [s.blockAt_setDeathFrontier_of_ne death hjx]
    have hcovers := hcov.covers j hj
    refine ⟨hcovers.valid, hcovers.fits, fun htaint byte hbyte axis => ?_⟩
    have hdisjoint := hinv.disjoint hj (mem_append_right l₁ (mem_cons_self ..)) hjx
    have hnot : ¬ (s.blockAt x).Holds byte := by
      unfold Block.Holds at hbyte ⊢
      omega
    unfold Prerequisites.record
    rw [if_neg hnot]
    exact hcovers.dominates htaint byte hbyte axis

/-- **Freeing** an allocated block leads from rest to rest; a valid frontier is covered from then
on. -/
lemma AtRest.free (h : AtRest s layout) (hx : x ∈ s.allocated layout)
    (death : Option Frontier) :
    ∃ layout', AtRest (s.free x death) layout' ∧
      (s.free x death).allocated layout' = (s.allocated layout).erase x ∧
      ∀ need, (∀ f ∈ death, f.Valid) → Covered s layout need →
        Covered (s.free x death) layout' (need.record (s.blockAt x) death) := by
  obtain ⟨hmem, hfree⟩ := mem_allocated.mp hx
  obtain ⟨l₁, l₂, rfl⟩ := append_of_mem hmem
  obtain ⟨hpending, hallocated, hcovered⟩ := h.releaseBlock hfree
  obtain ⟨hpending', hallocated', hcovered'⟩ := hpending.setDeathFrontier death
  obtain ⟨layout', hrest, hpreserves⟩ := hpending'.coalesce
  refine ⟨layout', hrest, ?_, fun need hvalid hcov => hpreserves.covered _ ?_⟩
  · exact (hpreserves.allocated_eq.trans hallocated').trans hallocated
  have hrecord := hcovered' need hvalid (hcovered need hcov)
  have hholds : ((s.releaseBlock x).blockAt x).Holds = (s.blockAt x).Holds := by
    rw [s.blockAt_releaseBlock, if_pos rfl]
    rfl
  unfold Prerequisites.record at hrecord ⊢
  simp only [hholds] at hrecord
  exact hrecord

/-- **Restoring** an allocated block leads from rest to rest and requires nothing new. -/
lemma AtRest.restore (h : AtRest s layout) (hx : x ∈ s.allocated layout) :
    ∃ layout', Served s layout (s.restore x) layout' ((s.allocated layout).erase x) := by
  obtain ⟨hmem, hfree⟩ := mem_allocated.mp hx
  obtain ⟨l₁, l₂, rfl⟩ := append_of_mem hmem
  obtain ⟨hpending, hallocated, hcovered⟩ := h.releaseBlock hfree
  obtain ⟨layout', hrest, hpreserves⟩ := hpending.coalesce
  exact ⟨layout', hrest, hpreserves.allocated_eq.trans hallocated,
    fun need hcov => hpreserves.covered _ (hcovered need hcov)⟩

end Hrx.Tlsf
