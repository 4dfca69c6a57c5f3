import Hrx.Tlsf.Equiv.Free

/-!
# Initialization

An accepted initialization leaves an allocator at rest, with block 0 free over the whole range and
every other node unused.
-/

namespace Hrx.Tlsf

open Allocator DoublyLinked List

/-! ### Options -/

structure Options.Validated (options given : Options) : Prop where
  alignment_pow : ∃ k, k < 64 ∧ options.alignment = 2 ^ k
  range_pos : 0 < options.rangeLength
  range_aligned : options.alignment ∣ options.rangeLength
  frontier_eq : options.initialFrontier = given.initialFrontier
  frontier_fits : ∀ f ∈ options.initialFrontier, f.entryCount ≤ options.frontierCapacity

lemma Options.validate_ok {given options : Options} (h : given.validate = .ok options) :
    options.Validated given := by
  unfold validate at h
  dsimp only at h
  split_ifs at h with hzero hsmall hpow hshort hwide hmany
  cases h
  have halign : given.withAlignment.rounded.alignment = given.withAlignment.alignment := rfl
  have hpow' : given.withAlignment.alignment.isPowerOfTwo :=
    (Nat.and_sub_one_eq_zero_iff_isPowerOfTwo hpow.1).mp hpow.2
  obtain ⟨k, hk⟩ := hpow'
  have hrange := given.withAlignment.rangeLength_lt
  have hk_lt : k < 64 := by
    refine (Nat.pow_lt_pow_iff_right (a := 2) (by decide)).mp ?_
    rw [← hk]
    omega
  have hrounded : given.withAlignment.rounded.rangeLength =
      given.withAlignment.rangeLength / 2 ^ k * 2 ^ k := by
    rw [← maskAlignment_two_pow hrange, ← hk]
    rfl
  refine ⟨⟨k, hk_lt, halign.trans hk⟩, ?_, ?_, rfl, fun f hf => ?_⟩
  · rw [hrounded]
    have hpos : 0 < given.withAlignment.rangeLength / 2 ^ k :=
      Nat.div_pos (by omega) (Nat.two_pow_pos k)
    exact Nat.mul_pos hpos (Nat.two_pow_pos k)
  · rw [hrounded, halign, hk]
    exact Nat.dvd_mul_left _ _
  · have hf' : given.withAlignment.rounded.initialFrontier = some f := hf
    rw [hf', Option.map_some, Option.any_some, decide_eq_true_eq, UInt8.not_lt] at hwide
    exact hwide

/-! ### The node pool -/

lemma roundBlockCapacity_le {requested : ℕ} : roundBlockCapacity requested ≤ indexNone := by
  unfold roundBlockCapacity
  generalize (if requested = 0 then 64 else requested) = capacity
  dsimp only
  split_ifs with hlarge hone
  · exact le_rfl
  · rw [Nat.one_shiftLeft]
    have hlog : Nat.log2 (capacity - 1) < 31 := (Nat.log2_lt (by omega)).mpr (by omega)
    exact (Nat.pow_le_pow_right (by decide) (by omega : _ ≤ 31)).trans (by decide)
  · exact (not_lt.mp hone).trans (by decide)

/-- A capacity below the limit is a power of two. -/
lemma roundBlockCapacity_eq_pow {requested : ℕ} (h : roundBlockCapacity requested < indexNone) :
    roundBlockCapacity requested = 2 ^ Nat.log2 (roundBlockCapacity requested) := by
  have hpos := roundBlockCapacity_pos requested
  unfold roundBlockCapacity at h hpos ⊢
  generalize (if requested = 0 then 64 else requested) = capacity at h hpos ⊢
  dsimp only at h hpos ⊢
  split_ifs at h hpos ⊢ with hlarge hone
  · exact absurd h (lt_irrefl _)
  · rw [Nat.one_shiftLeft, Nat.log2_two_pow]
  · obtain rfl : capacity = 1 := by omega
    rfl

lemma PoolShape.initial (requested : ℕ) : PoolShape
    (BlockPool.initial (roundBlockCapacity requested) (roundBlockCapacity_pos requested)) where
  segments_pos := Nat.one_pos
  segments_le := by show 1 ≤ 33; decide
  capacity_le := roundBlockCapacity_le
  locate_lt i hi := by
    rw [BlockPool.locate_of_lt hi]
    exact Nat.one_pos
  growable h := ⟨le_rfl, roundBlockCapacity_eq_pow h⟩

/-- Chaining the nodes changes the chain only. -/
lemma Allocator.linkUnused_spec (s : Allocator) (n : ℕ) :
    (∀ j, (s.linkUnused n).blockAt j =
      if 1 ≤ j ∧ j ≤ n then
        { s.blockAt j with nextFree := if j = 1 then s.unusedNodeHead else j - 1 }
      else s.blockAt j) ∧
    (s.linkUnused n).unusedNodeHead = (if n = 0 then s.unusedNodeHead else n) ∧
    (s.linkUnused n).matrix = s.matrix ∧
    { s.linkUnused n with unusedNodeHead := s.unusedNodeHead }.outline = s.outline := by
  induction n with
  | zero =>
    refine ⟨fun j => ?_, rfl, rfl, rfl⟩
    rw [if_neg (by omega)]
    rfl
  | succ n ih =>
    obtain ⟨hat, hhead, hmatrix, houtline⟩ := ih
    refine ⟨fun j => ?_, rfl, hmatrix, houtline⟩
    show ((s.linkUnused n).modifyBlock (n + 1) _).blockAt j = _
    rw [blockAt_modifyBlock, hat, hhead]
    by_cases hj : j = n + 1
    · subst hj
      have hbelow : ¬ (1 ≤ n + 1 ∧ n + 1 ≤ n) := by omega
      have hwithin : 1 ≤ n + 1 ∧ n + 1 ≤ n + 1 := by omega
      rw [if_pos rfl, if_neg hbelow, if_pos hwithin]
      by_cases hn : n = 0
      · simp [hn]
      · simp [hn]
    · rw [if_neg hj]
      have hiff : (1 ≤ j ∧ j ≤ n + 1) ↔ (1 ≤ j ∧ j ≤ n) := by omega
      simp only [hiff]

/-! ### The initial block -/

variable {options given : Options}

/-- The pool with its nodes chained and block 0 set up, before block 0 is listed. -/
def Allocator.unlisted (options : Options) : Allocator :=
  ((Allocator.empty options).linkUnused
    ((Allocator.empty options).pool.initialBlockCapacity - 1)).modifyBlock 0 (initialBlock options)

lemma Allocator.outline_unlisted (options : Options) : { unlisted options with
    unusedNodeHead := (empty options).unusedNodeHead }.outline = (empty options).outline :=
  ((empty options).linkUnused_spec _).2.2.2

lemma Allocator.blockAt_unlisted (options : Options) (j : ℕ) :
    (unlisted options).blockAt j =
      if j = 0 then initialBlock options Block.zero
      else if j < roundBlockCapacity options.initialBlockCapacity then
        { Block.zero with nextFree := if j = 1 then indexNone else j - 1 }
      else Block.zero := by
  have hat := ((empty options).linkUnused_spec
    ((empty options).pool.initialBlockCapacity - 1)).1
  have hcap : (empty options).pool.initialBlockCapacity =
    roundBlockCapacity options.initialBlockCapacity := rfl
  have hzero : ∀ i, (empty options).blockAt i = Block.zero := fun _ => rfl
  unfold unlisted
  rw [blockAt_modifyBlock, hat, hcap, hzero]
  by_cases hj : j = 0
  · rw [hj, if_pos rfl, if_pos rfl, if_neg (by omega)]
  have hiff : (1 ≤ j ∧ j ≤ roundBlockCapacity options.initialBlockCapacity - 1) ↔
      j < roundBlockCapacity options.initialBlockCapacity := by omega
  simp only [if_neg hj, hiff]
  rfl

/-- A pool of unused nodes and one free block over the range. -/
lemma Inv.unlisted (h : options.Validated given) : Inv (Allocator.unlisted options)
    ⟨[0], (List.range' 1 (roundBlockCapacity options.initialBlockCapacity - 1)).reverse, [],
      fun _ _ => [], {0}⟩ := by
  obtain ⟨k, hk, hpow⟩ := h.alignment_pow
  obtain ⟨-, hhead, hmatrix, -⟩ := (Allocator.empty options).linkUnused_spec
    (roundBlockCapacity options.initialBlockCapacity - 1)
  have hpos := roundBlockCapacity_pos options.initialBlockCapacity
  have hat := blockAt_unlisted options
  have hout := outline_unlisted options
  have hmat : (Allocator.unlisted options).matrix = (Allocator.empty options).matrix := hmatrix
  have hhead' : (Allocator.unlisted options).unusedNodeHead =
      if roundBlockCapacity options.initialBlockCapacity - 1 = 0 then indexNone
      else roundBlockCapacity options.initialBlockCapacity - 1 := hhead
  have hshape : PoolShape (Allocator.unlisted options).pool := by
    have hinit : PoolShape (Allocator.empty options).pool :=
      PoolShape.initial options.initialBlockCapacity
    exact (hinit.congr hout :)
  have hcapacity : (Allocator.unlisted options).pool.blockCapacity =
      roundBlockCapacity options.initialBlockCapacity := blockCapacity_of_outline hout
  have halign : (Allocator.unlisted options).alignment = options.alignment :=
    alignment_of_outline hout
  have hrange : (Allocator.unlisted options).rangeLength = options.rangeLength :=
    rangeLength_of_outline hout
  have hcounters : (Allocator.unlisted options).bytesAllocated = 0 ∧
      (Allocator.unlisted options).bytesFree = options.rangeLength ∧
      (Allocator.unlisted options).allocationCount = 0 :=
    ⟨bytesAllocated_of_outline hout, bytesFree_of_outline hout,
      allocationCount_of_outline hout⟩
  generalize Allocator.unlisted options = s at *
  have hat₀ : s.blockAt 0 = initialBlock options Block.zero := by rw [hat, if_pos rfl]
  have hextents : s.extents [0] = [⟨0, options.rangeLength, true, true⟩] := by
    show [(s.blockAt 0).extent] = _
    rw [hat₀]
    rfl
  have hlisted : ∀ unused, s.listed ⟨[0], unused, [], fun _ _ => [], {0}⟩ = ∅ := by
    intro unused
    ext j
    rw [mem_listed]
    simp +contextual
  obtain ⟨hlists, hsl, hfl, hcount⟩ := by
    simpa only [matrix, Prod.mk.injEq] using hmat
  refine ⟨⟨?_, ?_, ?_⟩, ?_, ⟨?_, ?_, ?_⟩, ⟨?_, ?_, ?_⟩, hshape, ⟨?_, ?_, ?_⟩⟩
  · refine ⟨rfl, nodup_singleton 0, ?_, ?_, ?_, trivial⟩
    · show indexNone ∉ [0]
      decide
    · show (s.blockAt 0).prevPhysical = indexNone
      rw [hat₀]
      rfl
    · show (s.blockAt 0).nextPhysical = indexNone
      rw [hat₀]
      rfl
  · rw [hextents, halign, hrange]
    exact ⟨rfl, h.range_pos, Nat.dvd_zero _, h.range_aligned, Nat.zero_add _⟩
  · rw [hextents]
    rfl
  · rw [hlisted]
    refine ⟨fun fl sl => ?_, fun fl sl i => by simp, fun fl sl _ _ => ?_, fun fl _ => ?_, ?_⟩
    · exact ⟨congrFun (congrFun hlists fl) sl, nodup_nil, by simp, trivial⟩
    · rw [hlists, hsl]
      simp [empty]
    · rw [hfl, hsl]
      simp [empty]
    · exact hcount
  · rw [hhead']
    by_cases hone : roundBlockCapacity options.initialBlockCapacity - 1 = 0
    · rw [if_pos hone, hone]
      exact rfl
    rw [if_neg hone]
    obtain ⟨m, hm⟩ : ∃ m, roundBlockCapacity options.initialBlockCapacity - 1 = m + 1 :=
      ⟨roundBlockCapacity options.initialBlockCapacity - 2, by omega⟩
    have hnil : IsChain (fun i => (s.blockAt i).nextFree) indexNone indexNone [] := rfl
    have hfirst : (s.blockAt 1).nextFree = indexNone := by
      rw [hat, if_neg (by decide), if_pos (by omega)]
      rfl
    have hnext : ∀ i < m, (s.blockAt (1 + i + 1)).nextFree = 1 + i := by
      intro i hi
      rw [hat, if_neg (by omega), if_pos (by omega), if_neg (by omega)]
      rfl
    have hchain := hnil.descending hfirst m hnext
    rw [append_nil, Nat.add_comm] at hchain
    rw [hm]
    exact hchain
  · unfold View.nodes
    simp only [nodup_append, mem_append, mem_reverse, mem_range'_1, nodup_reverse]
    grind
  · intro i
    rw [hcapacity]
    unfold View.nodes
    simp only [mem_append, mem_reverse, mem_range'_1, mem_singleton, not_mem_nil, or_false]
    omega
  · rw [hextents, hcounters.1]
    rfl
  · rw [hextents, hcounters.2.1]
    rfl
  · rw [hextents, hcounters.2.2]
    rfl
  · rw [halign, hpow]
    exact Nat.two_pow_pos k
  · exact ⟨k, hk, halign.trans hpow⟩
  · rw [hrange]
    exact options.rangeLength_lt

/-- Block 0 covers the initial frontier. -/
lemma Covered.unlisted (h : options.Validated given)
    (hvalid : ∀ f ∈ given.initialFrontier, f.Valid) :
    Covered (Allocator.unlisted options) [0] fun _ => requiredEpoch given.initialFrontier := by
  have hpolicy : (Allocator.unlisted options).policy = (Allocator.empty options).policy :=
    (policy_of_outline (outline_unlisted options) :)
  obtain ⟨hcapacity, hhandler⟩ := Prod.mk.injEq .. ▸ hpolicy
  refine ⟨hhandler, fun i hi => ?_⟩
  obtain rfl := mem_singleton.mp hi
  rw [blockAt_unlisted, if_pos rfl, hcapacity]
  rw [← h.frontier_eq] at hvalid ⊢
  have hfits := h.frontier_fits
  unfold initialBlock
  cases hfrontier : options.initialFrontier with
  | none => exact ⟨Frontier.valid_clear _, UInt8.le_iff_toNat_le.mpr (Nat.zero_le _),
      fun _ _ _ _ => Nat.zero_le _⟩
  | some f =>
    have hlist : (Block.zero.frontier.copyOver f).toList = f.toList := Frontier.toList_copyOver _ _
    refine ⟨Frontier.valid_of_toList_eq hlist (hvalid f hfrontier), hfits f hfrontier,
      fun _ _ _ axis => ?_⟩
    show f.epochAt axis ≤ (Block.zero.frontier.copyOver f).epochAt axis
    rw [Frontier.epochAt_of_toList_eq hlist]

/-- **An accepted initialization** leaves an allocator at rest in which nothing is allocated. -/
lemma AtRest.tlsfInitialize {host : Bool} {s : Allocator}
    (h : tlsfInitialize given host = .ok s) :
    AtRest s [0] ∧ s.allocated [0] = ∅ ∧
      ((∀ f ∈ given.initialFrontier, f.Valid) →
        Covered s [0] fun _ => requiredEpoch given.initialFrontier) := by
  unfold Hrx.Tlsf.tlsfInitialize at h
  cases hvalidate : given.validate with
  | error =>
    rw [hvalidate] at h
    cases h
  | ok options =>
    rw [hvalidate] at h
    have hvalidated := Options.validate_ok hvalidate
    change (if ¬ host = true then _ else Except.ok (fresh options)) = _ at h
    split_ifs at h with hhost
    cases h
    have hfree : ((unlisted options).blockAt 0).flags.free = true := by
      rw [blockAt_unlisted, if_pos rfl]
      rfl
    have hpending : Pending (unlisted options) [] 0 [] :=
      ⟨⟨_, _, Inv.unlisted hvalidated⟩, hfree, List.IsChain.nil, List.IsChain.nil⟩
    obtain ⟨hrest, hpreserves⟩ := hpending.insertFreeBlock (by simp) (by simp)
    refine ⟨hrest, ?_, fun hvalid => hpreserves.covered _ (Covered.unlisted hvalidated hvalid)⟩
    refine hpreserves.allocated_eq.trans ?_
    ext j
    rw [mem_allocated]
    simp only [nil_append, mem_singleton, Finset.notMem_empty, iff_false, not_and]
    rintro rfl
    simp [hfree]

end Hrx.Tlsf
