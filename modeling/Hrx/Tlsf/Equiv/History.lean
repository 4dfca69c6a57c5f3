import Hrx.Tlsf.Equiv.Initialize

/-!
# Invariants of allocator histories

Every call leads from rest to rest, so that the physical list, the segregated lists, the bitmaps and
the counters agree after any number of calls, and every block covers what its bytes were last freed
with.
-/

namespace Hrx.Tlsf

open DoublyLinked

/-- What a reachable history satisfies: the allocator is at rest, the live handles are its allocated
blocks, and, where frontiers are tracked, its blocks cover what their bytes require. -/
def Sound (tracked : Prop) (h : History) : Prop :=
  ∃ layout, AtRest h.tlsf layout ∧ h.tlsf.allocated layout = h.live ∧
    (tracked → Covered h.tlsf layout h.death)

/-- Serving a call that records no frontier. -/
lemma Sound.of_served {tracked : Prop} {h : History} {s' : Allocator} {live' : Finset ℕ}
    {layout layout' : List ℕ} (hcov : tracked → Covered h.tlsf layout h.death)
    (hserved : Served h.tlsf layout s' layout' live') :
    Sound tracked { h with tlsf := s', live := live' } :=
  ⟨layout', hserved.rest, hserved.allocated_eq, fun ht => hserved.covered _ (hcov ht)⟩

/-- One call keeps a history sound. -/
lemma Sound.step {tracked : Prop} {accepts : Option Frontier → Prop} {h h' : History}
    (hvalid : tracked → ∀ death, accepts death → ∀ f ∈ death, f.Valid) (hsound : Sound tracked h)
    (hstep : Step accepts h h') : Sound tracked h' := by
  obtain ⟨layout, hrest, hlive, hcov⟩ := hsound
  cases hstep with
  | allocate hcall =>
    obtain ⟨⟨layout', hserved⟩, -⟩ := hrest.tryAllocate hcall
    rw [hlive] at hserved
    exact .of_served hcov hserved
  | exhausted hcall =>
    obtain ⟨-, -, ⟨rfl, -⟩ | ⟨_, _, -, -, -, -, hresult⟩⟩ := Allocator.tryAllocate_ok hcall
    · exact ⟨layout, hrest, hlive, hcov⟩
    · cases hresult
  | failed => exact ⟨layout, hrest, hlive, hcov⟩
  | @free blockIndex death hmem haccepts =>
    rw [← hlive] at hmem ⊢
    obtain ⟨layout', hrest', hallocated, hcovered⟩ := hrest.free hmem death
    exact ⟨layout', hrest', hallocated, fun ht => hcovered _ (hvalid ht death haccepts) (hcov ht)⟩
  | restore hmem =>
    rw [← hlive] at hmem ⊢
    obtain ⟨layout', hserved⟩ := hrest.restore hmem
    exact .of_served hcov hserved
  | grow hgrowth =>
    have hserved := hrest.applyGrowth hgrowth
    rw [hlive] at hserved
    exact .of_served hcov hserved

/-- A handler does not matter to an allocator at rest. -/
lemma AtRest.setHandler {s : Allocator} {layout : List ℕ} (h : AtRest s layout)
    (handler : Option (Frontier → Frontier → Frontier)) :
    AtRest { s with frontierOverflow := handler } layout := by
  obtain ⟨⟨unused, bins, hinv⟩, hchain⟩ := h
  obtain ⟨⟨hlinked, htiles, hlast⟩, ⟨hlists, hmem, hsl, hfl, hcount⟩, ⟨hfree, hnodup, hnodes⟩,
    ⟨hba, hbf, hac⟩, hshape, ⟨hpos, hpow, hrange⟩⟩ := hinv
  exact ⟨⟨unused, bins, ⟨hlinked, htiles, hlast⟩, ⟨hlists, hmem, hsl, hfl, hcount⟩,
    ⟨hfree, hnodup, hnodes⟩, ⟨hba, hbf, hac⟩, hshape, ⟨hpos, hpow, hrange⟩⟩, hchain⟩

/-! ### A small run -/

/-- 256 bytes in units of 16, freed before with epoch 5 of axis 1. -/
def smallOptions : Options := ⟨256, by decide, 16, 4, 2, some (.ofList [⟨1, 5⟩])⟩

/-- Epoch 7 of axis 2. -/
def smallDeath : Option Frontier := some (.ofList [⟨2, 7⟩])

lemma exists_ok {α β : Type} {e : Except Status α} {f : α → Option β} {x : β}
    (h : e.toOption.bind f = some x) : ∃ a, e = .ok a ∧ f a = some x := by
  cases e with
  | error => cases h
  | ok a => exact ⟨a, rfl, h⟩

/-- Two allocations of 100 bytes; and one that finds the first freed again, joined with the rest of
the range. -/
lemma exists_smallRun : ∃ (s s₁ s₂ s₃ : Allocator) (a b c : Allocation),
    tlsfInitialize smallOptions true = .ok s ∧ s.tryAllocate 100 true = .ok (s₁, some a) ∧
      s₁.tryAllocate 100 true = .ok (s₂, some b) ∧
      (s₁.free a.blockIndex smallDeath).tryAllocate 100 true = .ok (s₃, some c) ∧
      (s₁.free a.blockIndex smallDeath).allocationCount = 0 ∧
      (s₁.blockAt a.blockIndex).Holds c.offset ∧ 0 < c.length := by
  have h : ((tlsfInitialize smallOptions true).toOption.bind fun s =>
      (s.tryAllocate 100 true).toOption.bind fun r => r.2.bind fun a =>
      (r.1.tryAllocate 100 true).toOption.bind fun r' => r'.2.bind fun _ =>
      ((r.1.free a.blockIndex smallDeath).tryAllocate 100 true).toOption.bind fun r' =>
      r'.2.map fun c => decide ((r.1.free a.blockIndex smallDeath).allocationCount = 0 ∧
        (r.1.blockAt a.blockIndex).Holds c.offset ∧ 0 < c.length)) = some true := by
    decide +kernel
  obtain ⟨s, hinit, h⟩ := exists_ok h
  obtain ⟨⟨s₁, _ | a⟩, ha, h⟩ := exists_ok h
  · cases h
  obtain ⟨⟨s₂, _ | b⟩, hb, h⟩ := exists_ok h
  · cases h
  obtain ⟨⟨s₃, _ | c⟩, hc, h⟩ := exists_ok h
  · cases h
  exact ⟨s, s₁, s₂, s₃, a, b, c, hinit, ha, hb, hc, of_decide_eq_true (Option.some.inj h)⟩

/-! ### The physical and the segregated lists -/

/-- The physical list, the free lists, the unused nodes, the bitmaps and the counters agree. -/
structure Consistent (s : Allocator) (layout unused : List ℕ) (bins : ℕ → ℕ → List ℕ) : Prop where
  /-- Following `next_physical` from block 0 yields the layout, and `prev_physical` inverts it. -/
  physical : IsList (fun i => (s.blockAt i).nextPhysical) (fun i => (s.blockAt i).prevPhysical)
    indexNone 0 layout
  tiles : Tiles s.alignment 0 (s.extents layout) s.rangeLength
  last : LastOnly (s.extents layout)
  coalesced : NoAdjacentFree (s.extents layout)
  lists : ∀ fl sl, IsList (fun i => (s.blockAt i).nextFree) (fun i => (s.blockAt i).prevFree)
    indexNone (s.freeLists fl sl) (bins fl sl)
  /-- A node is on a list exactly when it is a FREE block whose length maps to the list. -/
  mem_lists : ∀ fl sl i, i ∈ bins fl sl ↔
    i ∈ layout ∧ (s.blockAt i).flags.free = true ∧ mappingInsert (s.blockAt i).length = (fl, sl)
  unusedNodes : IsChain (fun i => (s.blockAt i).nextFree) indexNone s.unusedNodeHead unused
  nodup : (layout ++ unused).Nodup
  nodes : ∀ i, i ∈ layout ++ unused ↔ i < s.pool.blockCapacity
  slBitmaps : ∀ fl sl, fl < 64 → sl < 32 →
    ((s.slBitmaps fl).getLsbD sl = true ↔ bins fl sl ≠ [])
  flBitmap : ∀ fl, fl < 64 → (s.flBitmap.getLsbD fl = true ↔ s.slBitmaps fl ≠ 0)
  bytesAllocated : s.bytesAllocated = allocatedBytes (s.extents layout)
  bytesFree : s.bytesFree = freeBytes (s.extents layout)
  allocationCount : s.allocationCount = allocatedCount (s.extents layout)
  freeBlockCount : s.freeBlockCount = (s.extents layout).countP fun e => e.free

/-- An allocator at rest is consistent. -/
lemma AtRest.consistent {s : Allocator} {layout : List ℕ} (h : AtRest s layout) :
    ∃ unused bins, Consistent s layout unused bins := by
  obtain ⟨⟨unused, bins, hinv⟩, hchain⟩ := h
  have hlists := hinv.freeLists.linked
  refine ⟨unused, bins, hinv.physical.linked, hinv.physical.tiles, hinv.physical.last, hchain,
    hlists, fun fl sl i => ?_, hinv.nodes.chain, ?_, fun i => ?_, fun fl sl hfl hsl => ?_,
    hinv.freeLists.flBit, hinv.counters.bytesAllocated, hinv.counters.bytesFree,
    hinv.counters.allocationCount, ?_⟩
  · rw [hinv.freeLists.mem_iff fl sl i, Allocator.mem_listed]
    simp [and_assoc]
  · have := hinv.nodes.nodup
    rwa [View.nodes, List.append_nil] at this
  · have := hinv.nodes.mem_iff i
    rwa [View.nodes, List.append_nil] at this
  · rw [hinv.freeLists.slBit fl sl hfl hsl, (hlists fl sl).head_eq]
    rcases headD_mem_or (bins fl sl) indexNone with hmem | ⟨hnil, -⟩
    · refine iff_of_true (fun hc => (hlists fl sl).nil_not_mem (hc ▸ hmem)) fun hc => ?_
      rw [hc] at hmem
      exact List.not_mem_nil hmem
    · simp [hnil]
  · rw [hinv.freeLists.count]
    have hnodup := hinv.physical.linked.nodup
    unfold Allocator.listed Allocator.extents
    rw [Finset.sdiff_empty, List.toFinset_card_of_nodup (hnodup.filter _), List.countP_map,
      List.countP_eq_length_filter]
    rfl

/-- **The physical and segregated-list invariant.**  After every accepted initialization and every
finite sequence of calls, under any handler for frontiers that do not fit, the physical list tiles
the range, the free lists hold exactly the FREE blocks, and bitmaps and counters agree with them. -/
theorem reachable_consistent {options : Options} {hostAllocates : Bool} {s : Allocator}
    (hinit : tlsfInitialize options hostAllocates = .ok s)
    (handler : Option (Frontier → Frontier → Frontier)) {h : History}
    (hreach : Reachable (fun _ => True) options { s with frontierOverflow := handler } h) :
    ∃ layout unused bins, Consistent h.tlsf layout unused bins := by
  obtain ⟨hrest, hallocated, -⟩ := AtRest.tlsfInitialize hinit
  have hsound : Sound False h := by
    refine Transition.Reachable.invariant (p := Sound False) ?_
      (fun _ _ hsound hstep => hsound.step (fun ht => ht.elim) hstep) hreach
    rintro _ rfl
    exact ⟨[0], hrest.setHandler handler, hallocated, fun ht => ht.elim⟩
  obtain ⟨layout, hrest', -⟩ := hsound
  exact ⟨layout, hrest'.consistent⟩

/-- The invariant after an allocation has split the initial block and a free has joined it again. -/
theorem reachable_consistent_allocate_free : ∃ (s : Allocator) (h : History),
    tlsfInitialize smallOptions true = .ok s ∧ h.live = ∅ ∧
      ∃ layout unused bins, Consistent h.tlsf layout unused bins := by
  obtain ⟨s, s₁, -, -, a, -, -, hinit, hcall, -⟩ := exists_smallRun
  have hmem : a.blockIndex ∈ insert a.blockIndex (∅ : Finset ℕ) := Finset.mem_insert_self _ _
  refine ⟨s, _, hinit, ?_, reachable_consistent hinit s.frontierOverflow
    (.step (.step (.init rfl) (.allocate hcall)) (@Step.free _ _ a.blockIndex none hmem trivial))⟩
  show (insert a.blockIndex (∅ : Finset ℕ)).erase a.blockIndex = ∅
  simp

/-! ### Death frontiers -/

/-- **Death-frontier safety.**  Without a handler and with valid frontiers only, every FREE block is
tainted or its frontier dominates what each of its bytes was last freed with; and so does what an
allocation hands out. -/
theorem reachable_dominates {options : Options} {hostAllocates : Bool} {s : Allocator}
    (hinit : tlsfInitialize options hostAllocates = .ok s)
    (hinitial : ∀ f ∈ options.initialFrontier, f.Valid) {h : History}
    (hreach : Reachable (fun death => ∀ f ∈ death, f.Valid) options s h) :
    (∃ layout, IsList (fun i => (h.tlsf.blockAt i).nextPhysical)
        (fun i => (h.tlsf.blockAt i).prevPhysical) indexNone 0 layout ∧
      Tiles h.tlsf.alignment 0 (h.tlsf.extents layout) h.tlsf.rangeLength ∧
      ∀ i ∈ layout, (h.tlsf.blockAt i).flags.free = true →
        (h.tlsf.blockAt i).flags.tainted = false → ∀ byte, (h.tlsf.blockAt i).Holds byte →
          ∀ axis, h.death byte axis ≤ (h.tlsf.blockAt i).frontier.epochAt axis) ∧
    ∀ length hostAllocates s' a, h.tlsf.tryAllocate length hostAllocates = .ok (s', some a) →
      ∀ byte, a.offset ≤ byte → byte < a.offset + a.length →
        a.blockFlags.tainted = true ∨
          ∀ axis, h.death byte axis ≤ requiredEpoch a.deathFrontier axis := by
  obtain ⟨hrest, hallocated, hcovered⟩ := AtRest.tlsfInitialize hinit
  have hsound : Sound True h := by
    refine Transition.Reachable.invariant (p := Sound True) ?_
      (fun _ _ hsound hstep => hsound.step (fun _ _ hvalid => hvalid) hstep) hreach
    rintro _ rfl
    exact ⟨[0], hrest, hallocated, fun _ => hcovered hinitial⟩
  obtain ⟨layout, hrest', hlive, hcov⟩ := hsound
  have hcov := hcov trivial
  constructor
  · obtain ⟨unused, bins, hinv⟩ := hrest'.inv
    exact ⟨layout, hinv.physical.linked, hinv.physical.tiles,
      fun i hi _ htaint => (hcov.covers i hi).dominates htaint⟩
  intro length hostAllocates s' a hcall byte hlo hhi
  obtain ⟨⟨layout', hserved⟩, hrecord, -⟩ := hrest'.tryAllocate hcall
  have hmem : a.blockIndex ∈ layout' := by
    have : a.blockIndex ∈ s'.allocated layout' := by
      rw [hserved.allocated_eq]
      exact Finset.mem_insert_self _ _
    exact (Allocator.mem_allocated.mp this).1
  have hcovers := (hserved.covered _ hcov).covers a.blockIndex hmem
  generalize a.blockIndex = x at hrecord hcovers
  subst hrecord
  by_cases htaint : (s'.blockAt x).flags.tainted = true
  · exact .inl htaint
  refine .inr fun axis => ?_
  have hdom := hcovers.dominates (Bool.not_eq_true _ ▸ htaint) byte ⟨hlo, hhi⟩ axis
  show h.death byte axis ≤ requiredEpoch (s'.blockDeathFrontier x) axis
  unfold Allocator.blockDeathFrontier
  split_ifs with hempty
  · rwa [Frontier.epochAt_of_entryCount hempty] at hdom
  · exact hdom

/-- The range is freed with epoch 7 of axis 2 and joined with its free neighbour; whoever gets it
next is told so. -/
theorem reachable_dominates_reuse : ∃ (s s₁ s₃ : Allocator) (a c : Allocation),
    tlsfInitialize smallOptions true = .ok s ∧ s.tryAllocate 100 true = .ok (s₁, some a) ∧
      (s₁.free a.blockIndex smallDeath).tryAllocate 100 true = .ok (s₃, some c) ∧
      (c.blockFlags.tainted = true ∨ 7 ≤ requiredEpoch c.deathFrontier 2) := by
  obtain ⟨s, s₁, -, s₃, a, -, c, hinit, ha, -, hc, -, hholds, hpos⟩ := exists_smallRun
  have hinitial : ∀ f ∈ smallOptions.initialFrontier, f.Valid := by
    rintro f ⟨⟩
    unfold Frontier.Valid VectorClock.IsClock
    decide
  have hdeath : ∀ f ∈ smallDeath, f.Valid := by
    rintro f ⟨⟩
    unfold Frontier.Valid VectorClock.IsClock
    decide
  have hmem : a.blockIndex ∈ insert a.blockIndex (∅ : Finset ℕ) := Finset.mem_insert_self _ _
  have h := (reachable_dominates hinit hinitial (.step (.step (.init rfl) (.allocate ha))
    (.free hmem hdeath))).2 100 true s₃ c hc c.offset le_rfl (by omega)
  refine ⟨s, s₁, s₃, a, c, hinit, ha, hc, h.imp_right fun h => ?_⟩
  have hepoch := h 2
  dsimp only [Prerequisites.record] at hepoch
  rw [if_pos hholds] at hepoch
  exact hepoch

end Hrx.Tlsf
