import Hrx.Tlsf.Equiv.Candidates
import Hrx.Tlsf.Equiv.History

/-!
# The whole interface

Every call of the interface leads from rest to rest (`Sound.call`).  In every state reached the
enumeration visits exactly the free blocks that are long enough, an allocation takes free bytes only
and a call that takes none leaves the allocator as it was, and block 0 is the leftmost block, so
that the operations on a completely free range may address it without a search.
-/

namespace Hrx.Tlsf

open Allocator DoublyLinked List

/-! ### Enumerating free blocks -/

section candidates

variable {s : Allocator} {layout : List ℕ} {minimumLength : ℕ}

/-- The blocks that the enumeration visits: with enough rounds it reaches the end, and wherever it
does it has visited the free blocks that are long enough. -/
lemma AtRest.candidates (h : AtRest s layout) (hpos : 0 < minimumLength)
    (hlt : minimumLength < 2 ^ 64) :
    ∃ (blocks : List ℕ) (bound : ℕ), blocks.Nodup ∧
      (∀ i, i ∈ blocks ↔
        i ∈ layout ∧ (s.blockAt i).flags.free = true ∧ minimumLength ≤ (s.blockAt i).length) ∧
      ∀ fuel queries, (bound < fuel → bound < queries →
          s.candidates fuel minimumLength queries indexNone = some (blocks.map s.candidateOf)) ∧
        ∀ visited, s.candidates fuel minimumLength queries indexNone = some visited →
          visited = blocks.map s.candidateOf := by
  obtain ⟨unused, bins, hinv⟩ := h.inv
  have hlists : FreeLists s bins (s.listed ⟨layout, unused, [], bins, ∅⟩) := hinv.freeLists
  cases hbin : mappingInsert minimumLength with
  | mk fl sl =>
    have hsl : sl < 32 := by
      have := mappingInsert_snd_lt minimumLength
      rwa [hbin] at this
    have hfl : fl < 64 := by
      have := mappingInsert_fst_lt hlt
      rwa [hbin] at this
    obtain ⟨hnodup, hmem⟩ := hlists.eligible_remaining hpos.ne'
      (fun i hi => hinv.length_lt (Inv.listed_subset hi)) hsl hbin
    refine ⟨_, (remaining bins fl sl (bins fl sl)).length + 2047, hnodup, fun i => ?_, ?_⟩
    · rw [hmem i, mem_listed]
      simp [and_assoc]
    intro fuel queries
    have hquery : s.queryFreeBlock fuel minimumLength indexNone =
        s.queryLoop minimumLength fuel fl sl (s.freeLists fl sl) := by
      unfold Allocator.queryFreeBlock
      rw [if_pos rfl, hbin]
    rcases hlists.candidates_spec (hlists.place hfl hsl) hquery queries with
      ⟨hnone, hbound⟩ | hsome
    · refine ⟨fun hfuel hqueries => absurd hbound (by omega), fun visited hvisited => ?_⟩
      rw [hnone] at hvisited
      cases hvisited
    · exact ⟨fun _ _ => hsome, fun visited hvisited => (Option.some.inj (hsome ▸ hvisited)).symm⟩

/-- A selected block is a free block that is long enough. -/
lemma AtRest.selects (h : AtRest s layout) (hpos : 0 < minimumLength)
    (hlt : minimumLength < 2 ^ 64) {i : ℕ} (hselects : s.Selects minimumLength i) :
    i ∈ layout ∧ (s.blockAt i).flags.free = true ∧ minimumLength ≤ (s.blockAt i).length := by
  obtain ⟨blocks, bound, -, hmem, hspec⟩ := h.candidates hpos hlt
  obtain ⟨fuel, queries, visited, hvisited, candidate, hcandidate, rfl⟩ := hselects
  rw [(hspec fuel queries).2 visited hvisited, mem_map] at hcandidate
  obtain ⟨i, hi, rfl⟩ := hcandidate
  exact (hmem i).mp hi

end candidates

/-! ### Calls lead from rest to rest -/

/-- A step on dependency metadata keeps an allocator at rest, with the same blocks allocated. -/
lemma AtRest.of_metadata {s s' : Allocator} {layout : List ℕ} (h : AtRest s layout)
    (hstep : MetadataStep s s') :
    AtRest s' layout ∧ s'.allocated layout = s.allocated layout := by
  obtain ⟨unused, bins, hinv⟩ := h.inv
  have hextents : s'.extents layout = s.extents layout :=
    extents_congr fun j _ => hstep.field Block.placement (fun _ => rfl) j
  refine ⟨⟨⟨unused, bins, hinv.of_metadata hstep⟩, hextents ▸ h.noAdjacentFree⟩, ?_⟩
  ext j
  rw [mem_allocated, mem_allocated, hstep.field (fun b => b.flags.free) (fun _ => rfl)]

lemma MetadataStep.mergeFullFreeFrontier (s : Allocator) (frontier : Option Frontier) :
    MetadataStep s (s.mergeFullFreeFrontier frontier) := by
  cases frontier with
  | none => exact .refl s
  | some frontier => exact .mergeFrontiers s 0 frontier

/-- Resetting writes the metadata of block 0 only, if that block is free and the last one. -/
lemma MetadataStep.reset {s : Allocator} (hfree : (s.blockAt 0).flags.free = true)
    (hlast : (s.blockAt 0).flags.last = true) (initialFrontier : Option Frontier) :
    MetadataStep s (s.reset initialFrontier) := by
  refine ⟨rfl, rfl, fun j => ?_⟩
  show ((s.modifyBlock 0 _).blockAt j).skeleton = _
  rw [blockAt_modifyBlock]
  split_ifs with hj
  · subst hj
    unfold Block.skeleton
    dsimp only
    rw [hfree, hlast]
  · rfl

/-- Without allocations all extents are free, and free neighbours have been coalesced. -/
lemma eq_singleton_of_allocatedCount {l : List Extent} (hne : l ≠ []) (hchain : NoAdjacentFree l)
    (hcount : allocatedCount l = 0) : ∃ e, l = [e] ∧ e.free = true := by
  have hfree : ∀ e ∈ l, e.free = true := by
    intro e he
    have := countP_eq_zero.mp hcount e he
    simpa using this
  match l, hne with
  | [e], _ => exact ⟨e, rfl, hfree e (mem_cons_self ..)⟩
  | e :: e' :: l, _ =>
    have := (isChain_cons_cons.mp hchain).1
    exact absurd ⟨hfree e (by simp), hfree e' (by simp)⟩ this

/-- Without allocations block 0 is the only one. -/
lemma AtRest.layout_of_allocationCount {s : Allocator} {layout : List ℕ} (h : AtRest s layout)
    (hcount : s.allocationCount = 0) : layout = [0] ∧ (s.blockAt 0).extent =
      ⟨0, s.rangeLength, true, true⟩ := by
  obtain ⟨unused, bins, hinv⟩ := h.inv
  obtain ⟨l, rfl⟩ : ∃ l, layout = 0 :: l := hinv.layout_eq
  have hne : s.extents (0 :: l) ≠ [] := cons_ne_nil _ _
  obtain ⟨e, he, hfree⟩ := eq_singleton_of_allocatedCount hne h.noAdjacentFree
    (hinv.counters.allocationCount ▸ hcount)
  obtain ⟨hzero, hnil⟩ := List.cons.inj he
  obtain rfl : l = [] := map_eq_nil_iff.mp hnil
  refine ⟨rfl, ?_⟩
  have htiles : Tiles s.alignment 0 [e] s.rangeLength := he ▸ hinv.physical.tiles
  have hlast : LastOnly [e] := he ▸ hinv.physical.last
  obtain ⟨hoffset, -, -, -, hstop⟩ := htiles
  refine Eq.trans hzero ?_
  obtain ⟨offset, length, free, last⟩ := e
  obtain rfl : offset = 0 := hoffset
  obtain rfl : free = true := hfree
  obtain rfl : last = true := hlast
  have hlength : 0 + length = s.rangeLength := hstop
  rw [← hlength, Nat.zero_add]

lemma Block.flags_of_extent {b : Block} {offset length : ℕ} {free last : Bool}
    (h : b.extent = ⟨offset, length, free, last⟩) :
    b.offset = offset ∧ b.length = length ∧ b.flags.free = free ∧ b.flags.last = last :=
  ⟨congrArg Extent.offset h, congrArg Extent.length h, congrArg Extent.free h,
    congrArg Extent.last h⟩

/-- **One call** of the interface keeps a history sound. -/
theorem Sound.call {accepts : Option Frontier → Prop} {h h' : History} (hsound : Sound False h)
    (hcall : Call accepts h h') : Sound False h' := by
  cases hcall with
  | step hstep => exact hsound.step (fun ht => ht.elim) hstep
  | @allocateBlock blockIndex alignedLength hdvd hpos hlt hselects hgrowth =>
    obtain ⟨layout, hrest, hlive, -⟩ := hsound
    obtain ⟨hmem, hfree, hle⟩ := hrest.selects hpos hlt hselects
    obtain ⟨unused, bins, hinv⟩ := hrest.inv
    obtain ⟨⟨layout', hserved⟩, -⟩ := hrest.allocateBlock hmem hfree hpos hdvd hle
      (hinv.node_of_queryGrowth hgrowth)
    refine ⟨layout', hserved.rest, ?_, fun ht => ht.elim⟩
    rw [hserved.allocated_eq, hlive]
  | mergeFullFreeFrontier =>
    obtain ⟨layout, hrest, hlive, -⟩ := hsound
    obtain ⟨hrest', halloc⟩ := hrest.of_metadata (.mergeFullFreeFrontier _ _)
    exact ⟨layout, hrest', halloc.trans hlive, fun ht => ht.elim⟩
  | reset hfull =>
    obtain ⟨layout, hrest, hlive, -⟩ := hsound
    obtain ⟨-, hextent⟩ := hrest.layout_of_allocationCount hfull.1
    obtain ⟨-, -, hfree, hlast⟩ := Block.flags_of_extent hextent
    obtain ⟨hrest', halloc⟩ := hrest.of_metadata (.reset hfree hlast _)
    exact ⟨layout, hrest', halloc.trans hlive, fun ht => ht.elim⟩

section called

variable {options : Options} {hostAllocates : Bool} {s : Allocator}
  {accepts : Option Frontier → Prop} {h : History}

/-- **Every history** of calls is sound. -/
lemma Called.sound (hinit : tlsfInitialize options hostAllocates = .ok s)
    {handler : Option (Frontier → Frontier → Frontier)}
    (hreach : Called accepts options { s with frontierOverflow := handler } h) : Sound False h := by
  obtain ⟨hrest, hallocated, -⟩ := AtRest.tlsfInitialize hinit
  refine Transition.Reachable.invariant (p := Sound False) ?_
    (fun _ _ hsound hcall => hsound.call hcall) hreach
  rintro _ rfl
  exact ⟨[0], hrest.setHandler handler, hallocated, fun ht => ht.elim⟩

/-- **Candidate enumeration is exact.**  After every initialization and every finite sequence of
calls, iterating the query for a positive length terminates, and visits every FREE block of at least
that length exactly once and no other block. -/
theorem candidates_exact (hinit : tlsfInitialize options hostAllocates = .ok s)
    (handler : Option (Frontier → Frontier → Frontier))
    (hreach : Called accepts options { s with frontierOverflow := handler } h) (minimumLength : ℕ)
    (hpos : 0 < minimumLength) (hlt : minimumLength < 2 ^ 64) :
    ∃ layout, IsList (fun i => (h.tlsf.blockAt i).nextPhysical)
        (fun i => (h.tlsf.blockAt i).prevPhysical) indexNone 0 layout ∧
      ∃ bound visited, (∀ fuel queries, bound < fuel → bound < queries →
          h.tlsf.candidates fuel minimumLength queries indexNone = some visited) ∧
        (visited.map fun candidate => candidate.blockIndex).Nodup ∧
        (∀ i, (∃ candidate ∈ visited, candidate.blockIndex = i) ↔
          i ∈ layout ∧ (h.tlsf.blockAt i).flags.free = true ∧
            minimumLength ≤ (h.tlsf.blockAt i).length) ∧
        ∀ candidate ∈ visited, candidate = h.tlsf.candidateOf candidate.blockIndex := by
  obtain ⟨layout, hrest, -⟩ := Called.sound hinit hreach
  obtain ⟨unused, bins, hinv⟩ := hrest.inv
  obtain ⟨blocks, bound, hnodup, hmem, hspec⟩ := hrest.candidates hpos hlt
  refine ⟨layout, hinv.physical.linked, bound, blocks.map h.tlsf.candidateOf,
    fun fuel queries hfuel hqueries => (hspec fuel queries).1 hfuel hqueries, ?_, fun i => ?_, ?_⟩
  · rw [map_map]
    exact (map_id'' (fun _ => rfl) blocks).symm ▸ hnodup
  · rw [← hmem i]
    constructor
    · rintro ⟨candidate, hcandidate, rfl⟩
      obtain ⟨j, hj, rfl⟩ := mem_map.mp hcandidate
      exact hj
    · exact fun hi => ⟨_, mem_map_of_mem hi, rfl⟩
  · intro candidate hcandidate
    obtain ⟨j, -, rfl⟩ := mem_map.mp hcandidate
    rfl

end called

/-- The enumeration after an allocation has split the initial block: the rest is offered for 64
bytes. -/
theorem candidates_exact_allocate : ∃ (s s₁ : Allocator) (visited : List Allocator.Candidate),
    tlsfInitialize smallOptions true = .ok s ∧
      (∃ a, s.tryAllocate 100 true = .ok (s₁, some a)) ∧
      ∃ bound, ∀ fuel queries, bound < fuel → bound < queries →
        s₁.candidates fuel 64 queries indexNone = some visited := by
  obtain ⟨s, s₁, -, -, a, -, -, hinit, hcall, -⟩ := exists_smallRun
  have hreach : Called (fun _ => True) smallOptions s _ :=
    .step (.init rfl) (.step (.allocate hcall))
  obtain ⟨-, -, bound, visited, hvisited, -⟩ :=
    candidates_exact hinit s.frontierOverflow hreach 64 (by decide) (by decide)
  exact ⟨s, s₁, visited, hinit, ⟨a, hcall⟩, bound, hvisited⟩

/-! ### Allocating -/

section allocation

variable {s : Allocator} {layout : List ℕ} {length : ℕ}

/-- For a positive length the clamp to one unit does nothing. -/
lemma Geometry.alignedLength_eq (h : Geometry s) (hzero : length ≠ 0)
    (hle : length ≤ deviceSizeMax - (s.alignment - 1)) :
    s.alignedLength length = deviceAlign length s.alignment := by
  obtain ⟨k, hk, hpow⟩ := h.alignment_pow
  have hmax : deviceSizeMax = 2 ^ 64 - 1 := rfl
  unfold Allocator.alignedLength
  rw [hpow] at hle ⊢
  obtain ⟨hdvd, hlen, -⟩ := deviceAlign_two_pow (by omega : length + (2 ^ k - 1) < 2 ^ 64)
  exact max_eq_left (Nat.le_of_dvd (by omega) hdvd)

/-- A call that finds no block has looked at the head of the containing bin and at every bin above
it. -/
lemma AtRest.tryAllocate_none {host : Bool} {s' : Allocator} (h : AtRest s layout)
    (hcall : s.tryAllocate length host = .ok (s', none)) :
    s' = s ∧ length ≠ 0 ∧ length ≤ deviceSizeMax - (s.alignment - 1) ∧
      s.findSuitableBlock (deviceAlign length s.alignment) = indexNone := by
  obtain ⟨unused, bins, hinv⟩ := h.inv
  obtain ⟨hzero, hle, ⟨rfl, -, hfound⟩ | ⟨_, _, -, -, -, -, hresult⟩⟩ := tryAllocate_ok hcall
  · rw [hinv.geometry.alignedLength_eq hzero hle] at hfound
    exact ⟨rfl, hzero, hle, hfound⟩
  · cases hresult

end allocation

/-- **Allocation is correct and atomic.**  In every state reached and for every length: a range that
is handed out is aligned, long enough, was free and is disjoint from every live allocation, and the
allocator is consistent afterwards with that block allocated besides the live ones; a call that
hands out none, exhausted or with an error, leaves the allocator exactly as it was; an error is that
of the length or of the growth the call asks for; and it is not exhausted while a free block is in a
size class above that of the aligned length, or in the class the search rounds to or above, or while
the head of the containing class fits. -/
theorem tryAllocate_correct_atomic {options : Options} {hostAllocates : Bool} {s : Allocator}
    {accepts : Option Frontier → Prop} {h : History}
    (hinit : tlsfInitialize options hostAllocates = .ok s)
    (handler : Option (Frontier → Frontier → Frontier))
    (hreach : Called accepts options { s with frontierOverflow := handler } h)
    (length : ℕ) (hostServes : Bool) :
    ∃ layout, IsList (fun i => (h.tlsf.blockAt i).nextPhysical)
        (fun i => (h.tlsf.blockAt i).prevPhysical) indexNone 0 layout ∧
      (∀ i, i ∈ h.live ↔ i ∈ layout ∧ (h.tlsf.blockAt i).flags.free = false) ∧
      -- a range was handed out
      (∀ a, (h.tlsf.runTryAllocate length hostServes).1 = .ok (some a) →
        h.tlsf.alignment ∣ a.offset ∧ length ≤ a.length ∧ h.tlsf.alignment ∣ a.length ∧
        (∃ i ∈ layout, (h.tlsf.blockAt i).flags.free = true ∧ (h.tlsf.blockAt i).offset ≤ a.offset ∧
          a.offset + a.length ≤ (h.tlsf.blockAt i).offset + (h.tlsf.blockAt i).length) ∧
        ∀ i ∈ h.live, (h.tlsf.blockAt i).offset + (h.tlsf.blockAt i).length ≤ a.offset ∨
          a.offset + a.length ≤ (h.tlsf.blockAt i).offset) ∧
      (∀ a, (h.tlsf.runTryAllocate length hostServes).1 = .ok (some a) →
        let s' := (h.tlsf.runTryAllocate length hostServes).2
        a = s'.allocationOf a.blockIndex ∧ ∃ layout' unused bins,
          Consistent s' layout' unused bins ∧ ∀ i, i ∈ insert a.blockIndex h.live ↔
            i ∈ layout' ∧ (s'.blockAt i).flags.free = false) ∧
      -- no range was handed out
      ((h.tlsf.runTryAllocate length hostServes).1 = .ok none →
        (h.tlsf.runTryAllocate length hostServes).2 = h.tlsf ∧
        (∀ i ∈ layout, (h.tlsf.blockAt i).flags.free = true →
          ¬binRank (mappingInsert (deviceAlign length h.tlsf.alignment)) <
            binRank (mappingInsert (h.tlsf.blockAt i).length) ∧
          ∀ bin, mappingSearch (deviceAlign length h.tlsf.alignment) = some bin →
            ¬binRank bin ≤ binRank (mappingInsert (h.tlsf.blockAt i).length)) ∧
        ∀ fl sl, mappingInsert (deviceAlign length h.tlsf.alignment) = (fl, sl) →
          h.tlsf.freeLists fl sl ≠ indexNone →
            ¬deviceAlign length h.tlsf.alignment ≤
              (h.tlsf.blockAt (h.tlsf.freeLists fl sl)).length) ∧
      -- an error
      ∀ status, (h.tlsf.runTryAllocate length hostServes).1 = .error status →
        (h.tlsf.runTryAllocate length hostServes).2 = h.tlsf ∧
          (length = 0 ∧ status.code = .invalidArgument ∨
          deviceSizeMax - (h.tlsf.alignment - 1) < length ∧ status.code = .outOfRange ∨
          prepareGrowth (h.tlsf.queryGrowth
            (h.tlsf.findSuitableBlock (h.tlsf.alignedLength length)) (h.tlsf.alignedLength length))
            hostServes = .error status) := by
  obtain ⟨layout, hrest, hlive, -⟩ := Called.sound hinit hreach
  obtain ⟨unused, bins, hinv⟩ := hrest.inv
  have hlive_iff : ∀ i, i ∈ h.live ↔ i ∈ layout ∧ (h.tlsf.blockAt i).flags.free = false := by
    intro i
    rw [← hlive]
    exact mem_allocated
  refine ⟨layout, hinv.physical.linked, hlive_iff, ?_⟩
  have hcases := h.tlsf.runTryAllocate_cases length hostServes
  have hcall : ∀ result t, h.tlsf.runTryAllocate length hostServes = (.ok result, t) →
      h.tlsf.tryAllocate length hostServes = .ok (t, result) := by
    intro result t hrun
    rw [tryAllocate, hrun]
  generalize h.tlsf.runTryAllocate length hostServes = run at hcases hcall ⊢
  obtain ⟨status | _ | a, s'⟩ := run
  · refine ⟨fun a ha => ?_, fun a ha => ?_, fun hnone => ?_, fun e he => ?_⟩
    · cases ha
    · cases ha
    · cases hnone
    obtain rfl := Except.error.inj he
    rcases hcases with ⟨e, hrun, hcause⟩ | ⟨-, -, ⟨-, hrun⟩ | ⟨-, t, -, hrun⟩⟩
    · cases hrun
      exact ⟨rfl, hcause⟩
    · cases hrun
    · cases hrun
  · refine ⟨fun a ha => ?_, fun a ha => ?_, fun _ => ?_, fun status hstatus => ?_⟩
    · cases ha
    · cases ha
    · obtain ⟨rfl, hzero, hle, hnone⟩ := hrest.tryAllocate_none (hcall _ _ rfl)
      have hspec := hinv.geometry.alignedLength_spec hle
      rw [hinv.geometry.alignedLength_eq hzero hle] at hspec
      obtain ⟨hpos, -, -, hlt⟩ := hspec
      have hlists : FreeLists h.tlsf bins (h.tlsf.listed ⟨layout, unused, [], bins, ∅⟩) :=
        hinv.freeLists
      obtain ⟨hhead, hempty⟩ := hlists.findSuitableBlock_none hlt hnone
      refine ⟨rfl, fun i hi hfree => ?_, fun fl sl hbin hne => ?_⟩
      · have hlisted : i ∈ h.tlsf.listed ⟨layout, unused, [], bins, ∅⟩ :=
          mem_listed.mpr ⟨hi, hfree, Finset.notMem_empty i⟩
        have hlength := hinv.length_lt hi
        refine ⟨not_lt.mpr (hlists.binRank_le_of_findSuitableBlock_none hpos.ne' hlt
          hnone hlisted hlength), fun bin hsearch hge => ?_⟩
        have hnil := hempty bin.1 bin.2 hsearch _ _ (mappingInsert_fst_lt hlength)
          (mappingInsert_snd_lt _) hge
        have hmem : i ∈ bins (mappingInsert (h.tlsf.blockAt i).length).1
            (mappingInsert (h.tlsf.blockAt i).length).2 := (hlists.mem_iff _ _ i).mpr ⟨hlisted, rfl⟩
        rw [hnil] at hmem
        exact not_mem_nil hmem
      · rw [hbin] at hhead
        exact (hhead hne).not_ge
    · cases hstatus
  · refine ⟨fun b hb => ?_, fun b hb => ?_, fun hnone => ?_, fun status hstatus => ?_⟩
    · obtain rfl : a = b := Option.some.inj (Except.ok.inj hb)
      obtain ⟨-, -, hlen, hdvd, x, hx, hfree, hoffset, hle⟩ := hrest.tryAllocate (hcall _ _ rfl)
      have hbounds := hinv.physical.tiles.mem_bounds (mem_map_of_mem hx)
      have hoff : h.tlsf.alignment ∣ (h.tlsf.blockAt x).offset := hbounds.2.1
      refine ⟨hoffset ▸ hoff, hlen, hdvd, ⟨x, hx, hfree, by omega, by omega⟩, fun i hi => ?_⟩
      obtain ⟨hi_layout, hi_free⟩ := (hlive_iff i).mp hi
      have hne : i ≠ x := by
        rintro rfl
        rw [hfree] at hi_free
        cases hi_free
      have hdisjoint := hinv.disjoint hi_layout hx hne
      omega
    · obtain rfl : a = b := Option.some.inj (Except.ok.inj hb)
      obtain ⟨⟨layout', hserved⟩, hrecord, -⟩ := hrest.tryAllocate (hcall _ _ rfl)
      obtain ⟨unused', bins', hconsistent⟩ := hserved.rest.consistent
      refine ⟨hrecord, layout', unused', bins', hconsistent, fun i => ?_⟩
      rw [← hlive, ← hserved.allocated_eq]
      exact mem_allocated
    · cases hnone
    · cases hstatus

/-- A second range while the first is live. -/
theorem tryAllocate_correct_atomic_second : ∃ (s s₁ s₂ : Allocator) (a b : Allocation),
    tlsfInitialize smallOptions true = .ok s ∧ s.tryAllocate 100 true = .ok (s₁, some a) ∧
      s₁.tryAllocate 100 true = .ok (s₂, some b) ∧ s₁.alignment ∣ b.offset ∧ 100 ≤ b.length ∧
      let block := s₁.blockAt a.blockIndex
      (block.offset + block.length ≤ b.offset ∨ b.offset + b.length ≤ block.offset) := by
  obtain ⟨s, s₁, s₂, -, a, b, -, hinit, ha, hb, -⟩ := exists_smallRun
  have hreach : Called (fun _ => True) smallOptions s _ :=
    .step (.init rfl) (.step (.allocate ha))
  obtain ⟨layout, -, -, hok, -⟩ :=
    tryAllocate_correct_atomic hinit s.frontierOverflow hreach 100 true
  have hrun : (s₁.runTryAllocate 100 true).1 = .ok (some b) := by
    unfold tryAllocate at hb
    generalize s₁.runTryAllocate 100 true = run at hb ⊢
    obtain ⟨_ | result, s'⟩ := run
    · cases hb
    · cases hb
      rfl
  obtain ⟨hoffset, hlength, -, -, hdisjoint⟩ := hok b hrun
  exact ⟨s, s₁, s₂, a, b, hinit, ha, hb, hoffset, hlength,
    hdisjoint a.blockIndex (Finset.mem_insert_self _ _)⟩

/-! ### Block 0 -/

/-- The range is one free block, and block 0 is that block. -/
structure IsWhole (s : Allocator) : Prop where
  offset : (s.blockAt 0).offset = 0
  length : (s.blockAt 0).length = s.rangeLength
  free : (s.blockAt 0).flags.free = true
  last : (s.blockAt 0).flags.last = true
  prevPhysical : (s.blockAt 0).prevPhysical = indexNone
  nextPhysical : (s.blockAt 0).nextPhysical = indexNone
  freeBlockCount : s.freeBlockCount = 1
  bytesFree : s.bytesFree = s.rangeLength

/-- Without allocations the range is one free block. -/
lemma AtRest.isWhole {s : Allocator} {layout : List ℕ} (h : AtRest s layout)
    (hcount : s.allocationCount = 0) : IsWhole s := by
  obtain ⟨unused, bins, hinv⟩ := h.inv
  obtain ⟨rfl, hextent⟩ := h.layout_of_allocationCount hcount
  obtain ⟨hoffset, hlength, hfree, hlast⟩ := Block.flags_of_extent hextent
  have hextents : s.extents [0] = [⟨0, s.rangeLength, true, true⟩] := congrArg (· :: []) hextent
  obtain ⟨hprev, hnext, -⟩ := hinv.physical.linked.segment
  refine ⟨hoffset, hlength, hfree, hlast, hprev, hnext, ?_, ?_⟩
  · obtain ⟨unused', bins', hconsistent⟩ := h.consistent
    rw [hconsistent.freeBlockCount, hextents]
    rfl
  · rw [hinv.counters.bytesFree, hextents]
    exact Nat.add_zero _

/-- Metadata does not matter to that. -/
lemma IsWhole.of_metadata {s s' : Allocator} (h : IsWhole s) (hstep : MetadataStep s s') :
    IsWhole s' := by
  have hmatrix : s'.freeBlockCount = s.freeBlockCount := congrArg (fun m => m.2.2.2) hstep.matrix
  have hrange := rangeLength_of_outline hstep.outline
  constructor
  · exact (hstep.field Block.offset (fun _ => rfl) 0).trans h.offset
  · exact (hstep.field Block.length (fun _ => rfl) 0).trans (h.length.trans hrange.symm)
  · exact (hstep.field (fun b => b.flags.free) (fun _ => rfl) 0).trans h.free
  · exact (hstep.field (fun b => b.flags.last) (fun _ => rfl) 0).trans h.last
  · exact (hstep.field Block.prevPhysical (fun _ => rfl) 0).trans h.prevPhysical
  · exact (hstep.field Block.nextPhysical (fun _ => rfl) 0).trans h.nextPhysical
  · exact hmatrix.trans h.freeBlockCount
  · exact (bytesFree_of_outline hstep.outline).trans (h.bytesFree.trans hrange.symm)

/-! ### Storage slots -/

/-- The number of nodes of a segment: the initial capacity, and then one power of two each, the last
one cut off at the handle limit. -/
def BlockPool.segmentLength (pool : BlockPool) (segment : ℕ) : ℕ :=
  if segment = 0 then pool.initialBlockCapacity
  else
    min (2 ^ (pool.initialBlockShift + (segment - 1)))
      (indexNone - 2 ^ (pool.initialBlockShift + (segment - 1)))

/-- The slot of an index below the capacity is one of a published segment. -/
lemma PoolShape.locate_bounds {pool : BlockPool} (h : PoolShape pool) {i : ℕ}
    (hi : i < pool.blockCapacity) :
    (pool.locate i).1 < pool.blockSegmentCount ∧
      (pool.locate i).2 < pool.segmentLength (pool.locate i).1 := by
  refine ⟨h.locate_lt i hi, ?_⟩
  have hcap := h.capacity_le
  unfold BlockPool.segmentLength
  rcases lt_or_ge i pool.initialBlockCapacity with hlt | hge
  · rw [BlockPool.locate_of_lt hlt, if_pos rfl]
    exact hlt
  rw [BlockPool.locate_of_le hge, if_neg (Nat.succ_ne_zero _), Nat.add_sub_cancel]
  have hpos := pool.capacity_pos
  have hlow := Nat.log2_self_le (n := i) (by omega)
  have hhigh := Nat.lt_log2_self (n := i)
  have hshift : pool.initialBlockShift ≤ Nat.log2 i := by
    rw [pool.shift_eq]
    exact log2_mono hge
  rw [Nat.pow_succ] at hhigh
  rw [show pool.initialBlockShift + (Nat.log2 i - pool.initialBlockShift) = Nat.log2 i by omega]
  exact lt_min (by omega) (by omega)

/-- A growth that is accepted brings the nodes of the next segment. -/
lemma PoolShape.blockCount_of_applyGrowth {s : Allocator} {growth : Growth}
    (h : PoolShape s.pool) (hg : growth.Prepared) (haccept : (s.applyGrowth growth).2 = true) :
    growth.blockCount = s.pool.segmentLength s.pool.blockSegmentCount := by
  obtain ⟨hpos, hcount, -⟩ := hg.spec
  unfold Allocator.applyGrowth at haccept
  split_ifs at haccept with hmatch
  rw [not_or, not_not, not_not] at hmatch
  have hnone : indexNone = 2 ^ 32 - 1 := rfl
  have hseg := h.segments_pos
  rw [hmatch.1] at hcount
  have hcap : s.pool.blockCapacity < indexNone := by omega
  unfold BlockPool.segmentLength
  rw [if_neg hseg.ne', ← (h.growable hcap).2, hcount, hnone]

/-- Publishing a segment leaves the others where they are. -/
lemma AtRest.applyGrowths {s : Allocator} {layout : List ℕ} (h : AtRest s layout)
    {growths : List Growth} (hg : ∀ growth ∈ growths, growth.Prepared) :
    AtRest (growths.foldl (fun s growth => (s.applyGrowth growth).1) s) layout ∧
    s.pool.blockCapacity ≤
      (growths.foldl (fun s growth => (s.applyGrowth growth).1) s).pool.blockCapacity ∧
    ∀ i, (growths.foldl (fun s growth => (s.applyGrowth growth).1) s).pool.locate i =
        s.pool.locate i ∧
      (i < s.pool.blockCapacity →
        (growths.foldl (fun s growth => (s.applyGrowth growth).1) s).pool.blockSegments
          (s.pool.locate i).1 = s.pool.blockSegments (s.pool.locate i).1) := by
  induction growths generalizing s with
  | nil => exact ⟨h, le_rfl, fun i => ⟨rfl, fun _ => rfl⟩⟩
  | cons growth growths ih =>
    obtain ⟨unused, bins, hinv⟩ := h.inv
    have hshape := hinv.shape
    have hserved := h.applyGrowth (hg growth (mem_cons_self ..))
    obtain ⟨hrest, hcap, hslots⟩ := ih hserved.rest fun g hmem => hg g (mem_cons_of_mem _ hmem)
    have hcap_le : s.pool.blockCapacity ≤ (s.applyGrowth growth).1.pool.blockCapacity := by
      unfold Allocator.applyGrowth
      split_ifs
      · exact le_rfl
      · exact Nat.le_add_right _ _
    have hlocate : ∀ i, (s.applyGrowth growth).1.pool.locate i = s.pool.locate i := by
      intro i
      unfold Allocator.applyGrowth
      split_ifs
      · rfl
      · rfl
    have hsegment : ∀ i < s.pool.blockCapacity,
        (s.applyGrowth growth).1.pool.blockSegments (s.pool.locate i).1 =
          s.pool.blockSegments (s.pool.locate i).1 := by
      intro i hi
      unfold Allocator.applyGrowth
      split_ifs
      · rfl
      · exact Function.update_of_ne (hshape.locate_lt i hi).ne _ _
    refine ⟨hrest, hcap_le.trans hcap, fun i => ⟨(hslots i).1.trans (hlocate i), fun hi => ?_⟩⟩
    have := (hslots i).2 (hi.trans_le hcap_le)
    rw [hlocate i] at this
    exact this.trans (hsegment i hi)

/-- **Block 0 is the leftmost block, and handles are stable.**  In every state reached: node 0 heads
the physical list at offset 0 and is not on the unused list; without allocations the range is one
free block, and what addresses block 0 without a search acts on the whole range, so that a merge
taints it or leaves a frontier that dominates both; growing the pool leaves every handle on its
storage slot, and distinct handles on distinct slots. -/
theorem block_zero_leftmost {options : Options} {hostAllocates : Bool} {s : Allocator}
    {accepts : Option Frontier → Prop} {h : History}
    (hinit : tlsfInitialize options hostAllocates = .ok s)
    (handler : Option (Frontier → Frontier → Frontier))
    (hreach : Called accepts options { s with frontierOverflow := handler } h) :
    (∃ layout unused, IsList (fun i => (h.tlsf.blockAt i).nextPhysical)
        (fun i => (h.tlsf.blockAt i).prevPhysical) indexNone 0 layout ∧
      IsChain (fun i => (h.tlsf.blockAt i).nextFree) indexNone h.tlsf.unusedNodeHead unused ∧
      0 ∈ layout ∧ (h.tlsf.blockAt 0).offset = 0 ∧ 0 ∉ unused ∧
      (h.tlsf.allocationCount = 0 → layout = [0])) ∧
    -- the completely free range
    (h.tlsf.allocationCount = 0 → IsWhole h.tlsf) ∧
    (h.tlsf.queryFullFreeBlock = if h.tlsf.allocationCount = 0 then
      some (h.tlsf.blockDeathFrontier 0, (h.tlsf.blockAt 0).flags) else none) ∧
    (∀ frontier, h.tlsf.IsFullFree → IsWhole (h.tlsf.mergeFullFreeFrontier frontier)) ∧
    (∀ frontier : Frontier, h.tlsf.frontierOverflow = none → (h.tlsf.blockAt 0).frontier.Valid →
      (h.tlsf.blockAt 0).frontier.entryCount ≤ h.tlsf.frontierCapacity → frontier.Valid →
      let merged := (h.tlsf.mergeFullFreeFrontier (some frontier)).blockAt 0
      merged.flags.tainted = false → ∀ axis,
        (h.tlsf.blockAt 0).frontier.epochAt axis ≤ merged.frontier.epochAt axis ∧
          frontier.epochAt axis ≤ merged.frontier.epochAt axis) ∧
    (∀ initialFrontier, h.tlsf.IsFullFree → IsWhole (h.tlsf.reset initialFrontier) ∧
      ((h.tlsf.reset initialFrontier).blockAt 0).flags = ⟨true, true, false⟩ ∧
      ∀ axis, ((h.tlsf.reset initialFrontier).blockAt 0).frontier.epochAt axis =
        requiredEpoch initialFrontier axis) ∧
    -- storage slots
    (∀ growths : List Growth, (∀ growth ∈ growths, growth.Prepared) →
      ∀ i < h.tlsf.pool.blockCapacity,
        (growths.foldl (fun s growth => (s.applyGrowth growth).1) h.tlsf).pool.locate i =
            h.tlsf.pool.locate i ∧
          (growths.foldl (fun s growth => (s.applyGrowth growth).1) h.tlsf).pool.blockSegments
            (h.tlsf.pool.locate i).1 = h.tlsf.pool.blockSegments (h.tlsf.pool.locate i).1) ∧
    (∀ i < h.tlsf.pool.blockCapacity,
      (h.tlsf.pool.locate i).1 < h.tlsf.pool.blockSegmentCount ∧
        (h.tlsf.pool.locate i).2 < h.tlsf.pool.segmentLength (h.tlsf.pool.locate i).1) ∧
    (∀ growth : Growth, growth.Prepared → (h.tlsf.applyGrowth growth).2 = true →
      growth.blockCount = h.tlsf.pool.segmentLength h.tlsf.pool.blockSegmentCount) ∧
    ∀ i j, h.tlsf.pool.locate i = h.tlsf.pool.locate j → i = j := by
  obtain ⟨layout, hrest, -⟩ := Called.sound hinit hreach
  obtain ⟨unused, bins, hinv⟩ := hrest.inv
  obtain ⟨l, hl⟩ : ∃ l, layout = 0 :: l := hinv.layout_eq
  have hmem : 0 ∈ layout := hl ▸ mem_cons_self ..
  have htiles : Tiles h.tlsf.alignment 0 (h.tlsf.extents layout) h.tlsf.rangeLength :=
    hinv.physical.tiles
  rw [hl] at htiles
  refine ⟨⟨layout, unused, hinv.physical.linked, hinv.nodes.chain, hmem, htiles.1, ?_,
    fun hcount => (hrest.layout_of_allocationCount hcount).1⟩, hrest.isWhole, ?_, ?_, ?_, ?_, ?_,
    fun i hi => hinv.shape.locate_bounds hi,
    fun growth hg haccept => hinv.shape.blockCount_of_applyGrowth hg haccept,
    fun i j hij => h.tlsf.pool.locate_injective hij⟩
  · exact fun hunused => hinv.layout_unused_disjoint hmem hunused rfl
  · unfold Allocator.queryFullFreeBlock
    by_cases hcount : h.tlsf.allocationCount = 0
    · have hwhole := hrest.isWhole hcount
      rw [if_pos hcount, if_neg]
      rw [not_or, not_or]
      exact ⟨not_not.mpr hcount, not_not.mpr hwhole.freeBlockCount, not_not.mpr hwhole.bytesFree⟩
    · rw [if_neg hcount, if_pos (.inl hcount)]
  · exact fun frontier hfull => (hrest.isWhole hfull.1).of_metadata (.mergeFullFreeFrontier _ _)
  · intro frontier hhandler hzero hfits hvalid merged htaint axis
    exact ((mergeFrontiers_spec hhandler hzero hfits hvalid).2.2 htaint).2 axis
  · intro initialFrontier hfull
    have hwhole := hrest.isWhole hfull.1
    refine ⟨hwhole.of_metadata (.reset hwhole.free hwhole.last _), ?_, fun axis => ?_⟩
    · show ((h.tlsf.modifyBlock 0 _).blockAt 0).flags = _
      rw [blockAt_modifyBlock, if_pos rfl]
    show ((h.tlsf.modifyBlock 0 _).blockAt 0).frontier.epochAt axis = _
    rw [blockAt_modifyBlock, if_pos rfl]
    cases initialFrontier with
    | none => exact Frontier.epochAt_of_entryCount rfl axis
    | some frontier =>
      show VectorClock.epochAt (Frontier.copyOver _ frontier).toList axis = _
      rw [Frontier.toList_copyOver]
      rfl
  · intro growths hg i hi
    obtain ⟨-, -, hslots⟩ := hrest.applyGrowths hg
    exact ⟨(hslots i).1, (hslots i).2 hi⟩

/-- After an allocation has been freed again the range is one free block. -/
theorem block_zero_leftmost_allocate_free : ∃ (s s₁ : Allocator) (a : Allocation),
    tlsfInitialize smallOptions true = .ok s ∧ s.tryAllocate 100 true = .ok (s₁, some a) ∧
      (s₁.free a.blockIndex smallDeath).allocationCount = 0 ∧
      IsWhole (s₁.free a.blockIndex smallDeath) := by
  obtain ⟨s, s₁, -, -, a, -, -, hinit, hcall, -, -, hcount, -⟩ := exists_smallRun
  have hmem : a.blockIndex ∈ insert a.blockIndex (∅ : Finset ℕ) := Finset.mem_insert_self _ _
  have hreach : Called (fun _ => True) smallOptions s _ :=
    .step (.step (.init rfl) (.step (.allocate hcall)))
      (.step (@Step.free _ _ a.blockIndex smallDeath hmem trivial))
  exact ⟨s, s₁, a, hinit, hcall, hcount,
    (block_zero_leftmost hinit s.frontierOverflow hreach).2.1 hcount⟩

end Hrx.Tlsf
