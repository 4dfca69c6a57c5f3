import Hrx.Lib.Transition
import Hrx.Semaphore.Basic
import Mathlib.Data.Multiset.Filter
import Mathlib.Data.Multiset.Range

/-!
# The pending index over a semaphore's life

The calls that change the pending index, each a section under the semaphore's mutex, run in any
order.  Beside the semaphore stands a record of what the callers did: the entries registered and not
yet removed.  The index holds exactly these entries, in heap order, with the position of each
written back to its timepoint (`reachable_pendingIndex`).

A caller hands a timepoint over only while the semaphore does not own it, so an insertion is of a
timepoint that is not registered.
-/

namespace Hrx.Semaphore

open IndexedHeap Multiset

/-- Doubles the index storage and moves the entries there (`grow_timepoints_locked`).  Both the
`memcpy` out of the inline storage, which is full of `inlineTimepointCapacity` entries, and the
`realloc` copy the old capacity; behind it the new `storage` is uninitialized. -/
def growEntries (s : Semaphore) (allocation : Option Status) (storage : ℕ → Entry ℕ Timepoint) :
    Except Status Semaphore := do
  let grown ← s.growTimepoints allocation
  return { grown with timepoints := { grown.timepoints with
    entries := fun i => if i < s.capacity then s.timepoints.entries i else storage i } }

/-- The storage check of `acquire_timepoint`, with the entries moved. -/
def reserveEntry (s : Semaphore) (allocation : Option Status) (storage : ℕ → Entry ℕ Timepoint) :
    Except Status Semaphore :=
  if s.timepoints.count = s.capacity then s.growEntries allocation storage else .ok s

/-- A semaphore and the entries that were registered and not yet removed. -/
structure PendingIndex where
  semaphore : Semaphore
  registered : Multiset (Entry ℕ Timepoint)

namespace PendingIndex

inductive Step : PendingIndex → PendingIndex → Prop where
  | insert (s reserved registered allocation storage) (minimumValue : ℕ) (timepoint : Timepoint)
      (hnew : ∀ e ∈ registered, e.item ≠ timepoint)
      (hreserve : s.reserveEntry allocation storage = .ok reserved) :
      Step ⟨s, registered⟩
        ⟨reserved.insertTimepoint minimumValue timepoint, ⟨minimumValue, timepoint⟩ ::ₘ registered⟩
  | grow (s grown registered allocation storage)
      (hgrow : s.growEntries allocation storage = .ok grown) :
      Step ⟨s, registered⟩ ⟨grown, registered⟩
  | remove (s registered) (timepoint : Timepoint) :
      Step ⟨s, registered⟩
        ⟨(s.cancelTimepoint timepoint).1, registered.filter (·.item ≠ timepoint)⟩
  | extractMin (s registered) (hpos : 0 < s.timepoints.count) :
      Step ⟨s, registered⟩ ⟨s.removeTimepoint 0 (s.timepoints.entries 0).item,
        registered.filter (·.item ≠ (s.timepoints.entries 0).item)⟩
  | dispatch (s registered) (value : ℕ) :
      Step ⟨s, registered⟩ ⟨(s.takeSatisfied value).2, registered.filter (value < ·.key)⟩
  | detachAll (s registered) : Step ⟨s, registered⟩ ⟨s.detachAll.2, 0⟩

/-- The states of a semaphore that was created with any arguments. -/
def Reachable : PendingIndex → Prop :=
  Transition.Reachable (fun x => ∃ initialValue capacity, x =
    ⟨create initialValue capacity, 0⟩) Step

structure Inv (x : PendingIndex) : Prop where
  index : x.semaphore.timepoints.WellFormed 4
  members : ∀ e, e ∈ x.registered ↔ x.semaphore.Pending e.key e.item
  nodup : x.registered.Nodup
  storage : 0 < x.semaphore.capacity
  fits : x.registered.card ≤ x.semaphore.capacity

variable {x : PendingIndex} {s : Semaphore} {registered : Multiset (Entry ℕ Timepoint)}
  {allocation : Option Status} {storage : ℕ → Entry ℕ Timepoint}

section

variable (hi : Inv ⟨s, registered⟩)
include hi

/-- The entries of the index are those registered. -/
lemma Inv.entries_eq :
    (Multiset.range s.timepoints.count).map s.timepoints.entries = registered := by
  refine (Multiset.Nodup.ext ?_ hi.nodup).mpr fun e => ?_
  · refine Multiset.Nodup.map_on (fun i hic j hjc heq => ?_) (nodup_range _)
    exact hi.index.indexed.injective (mem_range.mp hic) (mem_range.mp hjc)
      (by rw [heq])
  · rw [hi.members, mem_map]
    simp only [mem_range]
    rfl

lemma Inv.count_eq : s.timepoints.count = registered.card := by
  rw [← hi.entries_eq, card_map, card_range]

/-- Growing moves every used entry and changes no other field. -/
lemma Inv.growEntries {grown : Semaphore} (hgrow : s.growEntries allocation storage = .ok grown) :
    Inv ⟨grown, registered⟩ ∧ s.capacity < grown.capacity := by
  have hcount : s.timepoints.count ≤ s.capacity := hi.count_eq.trans_le hi.fits
  have hentries : ∀ i < s.timepoints.count,
      (if i < s.capacity then s.timepoints.entries i else storage i) = s.timepoints.entries i :=
    fun i hlt => if_pos (hlt.trans_le hcount)
  have hroom : s.capacity < s.capacity * 2 := by
    have := hi.storage
    dsimp only at this
    omega
  unfold Semaphore.growEntries growTimepoints at hgrow
  split_ifs at hgrow
  · cases hgrow
  cases allocation with
  | some => cases hgrow
  | none =>
    cases hgrow
    refine ⟨⟨hi.index.congr hentries, fun e => (hi.members e).trans ?_, hi.nodup,
      hi.storage.trans hroom, hi.fits.trans hroom.le⟩, hroom⟩
    exact exists_congr fun i => and_congr_right fun hlt => by rw [← hentries i hlt]

/-- A call that removes entries keeps the rest registered. -/
lemma Inv.filter {heap : Heap ℕ Timepoint}
    {kept : Entry ℕ Timepoint → Prop} [DecidablePred kept] (hindex : heap.WellFormed 4)
    (hholds : ∀ e : Entry ℕ Timepoint,
      heap.Holds e.key e.item ↔ s.timepoints.Holds e.key e.item ∧ kept e) :
    Inv ⟨{ s with timepoints := heap }, registered.filter kept⟩ where
  index := hindex
  members e := by
    rw [mem_filter, hi.members]
    exact (hholds e).symm
  nodup := hi.nodup.filter kept
  storage := hi.storage
  fits := (card_le_card (filter_le kept registered)).trans hi.fits

lemma Inv.removeTimepoint {i : ℕ} (hlt : i < s.timepoints.count) :
    Inv ⟨s.removeTimepoint i (s.timepoints.entries i).item,
      registered.filter (·.item ≠ (s.timepoints.entries i).item)⟩ := by
  obtain ⟨hindex, -, hholds⟩ := hi.index.removeAt (by decide) hlt
  exact hi.filter hindex fun e => hholds e.key e.item

/-- A registration that found storage. -/
lemma Inv.insertTimepoint {minimumValue : ℕ} {timepoint : Timepoint}
    (hnew : ∀ e ∈ registered, e.item ≠ timepoint) (hroom : registered.card < s.capacity) :
    Inv ⟨s.insertTimepoint minimumValue timepoint, ⟨minimumValue, timepoint⟩ ::ₘ registered⟩ := by
  have hposition : s.timepoints.position timepoint = none :=
    (hi.index.indexed.position_eq_none_iff timepoint).mpr fun key hheld =>
      hnew ⟨key, timepoint⟩ ((hi.members _).mpr hheld) rfl
  obtain ⟨hindex, -, hholds⟩ := hi.index.insert (e := ⟨minimumValue, timepoint⟩) hposition
  refine ⟨hindex, fun e => ?_, ?_, hi.storage, ?_⟩
  · rw [mem_cons, hi.members, or_comm]
    exact (hholds e.key e.item).symm
  · exact nodup_cons.mpr ⟨fun hmem => hnew _ hmem rfl, hi.nodup⟩
  · rw [card_cons]
    exact hroom

lemma Inv.reserveEntry {reserved : Semaphore}
    (hreserve : s.reserveEntry allocation storage = .ok reserved) :
    Inv ⟨reserved, registered⟩ ∧ registered.card < reserved.capacity := by
  have hcount := hi.count_eq
  have hfits := hi.fits
  dsimp only at hcount hfits
  unfold Semaphore.reserveEntry at hreserve
  split_ifs at hreserve with hfull
  · obtain ⟨hgrown, hlt⟩ := hi.growEntries hreserve
    exact ⟨hgrown, by omega⟩
  · cases hreserve
    exact ⟨hi, by omega⟩

omit hi in
/-- Every call keeps the index. -/
lemma Inv.step {y : PendingIndex} (hi : x.Inv) (hstep : Step x y) : y.Inv := by
  cases hstep with
  | insert s reserved registered allocation storage minimumValue timepoint hnew hreserve =>
    obtain ⟨hreserved, hroom⟩ := hi.reserveEntry hreserve
    exact hreserved.insertTimepoint hnew hroom
  | grow s grown registered allocation storage hgrow => exact (hi.growEntries hgrow).1
  | remove s registered timepoint =>
    unfold cancelTimepoint
    cases hposition : s.timepoints.position timepoint with
    | some i =>
      obtain ⟨hlt, rfl⟩ := (hi.index.indexed timepoint i).mp hposition
      exact hi.removeTimepoint hlt
    | none =>
      -- nothing of this name was registered
      refine hi.filter hi.index fun e => (and_iff_left_of_imp fun hheld heq => ?_).symm
      exact (hi.index.indexed.position_eq_none_iff timepoint).mp hposition e.key (heq ▸ hheld)
  | extractMin s registered hpos => exact hi.removeTimepoint hpos
  | dispatch s registered value =>
    obtain ⟨hindex, -, -, hholds⟩ :=
      hi.index.takeUpTo (by decide) (le_refl s.timepoints.count) value
    exact hi.filter hindex fun e => hholds e.key e.item
  | detachAll =>
    obtain ⟨hindex, hcount, -⟩ := hi.index.drainAll
    refine ⟨hindex, fun e => ?_, nodup_zero, hi.storage, Nat.zero_le _⟩
    refine iff_of_false (notMem_zero e) ?_
    rintro ⟨i, hlt, -⟩
    exact absurd (hcount ▸ hlt : i < 0) (Nat.not_lt_zero i)

omit hi in
lemma Reachable.inv (h : Reachable x) : x.Inv := by
  refine Transition.Reachable.invariant ?_ (fun x y hi hstep => hi.step hstep) h
  rintro _ ⟨initialValue, capacity, rfl⟩
  refine ⟨⟨fun i _ hlt => absurd hlt (Nat.not_lt_zero i), fun t i => ?_⟩, fun e => ?_,
    nodup_zero, Nat.succ_pos 3, Nat.zero_le _⟩
  · exact iff_of_false (Option.some_ne_none i).symm fun hc => absurd hc.1 (Nat.not_lt_zero i)
  · refine iff_of_false (notMem_zero e) ?_
    rintro ⟨i, hlt, -⟩
    exact absurd hlt (Nat.not_lt_zero i)

/-- Dispatching detaches what the value satisfies, the least minimum value first. -/
lemma Inv.takeSatisfied (value : ℕ) : ∃ satisfied : List (Entry ℕ Timepoint),
      (s.takeSatisfied value).1 = satisfied.map Entry.item ∧
      satisfied.Pairwise (fun a b => a.key ≤ b.key) ∧
      (satisfied : Multiset (Entry ℕ Timepoint)) = registered.filter (·.key ≤ value) := by
  obtain ⟨-, hnodup, hmem, -⟩ := hi.index.takeUpTo (by decide) (le_refl s.timepoints.count) value
  obtain ⟨satisfied, heq, hsorted, hheld⟩ :=
    hi.index.takeUpTo_sorted (by decide) value s.timepoints.count
  -- an item is held under one key only
  have hkey : ∀ {a b : Entry ℕ Timepoint}, s.timepoints.Holds a.key a.item →
      s.timepoints.Holds b.key b.item → a.item = b.item → a = b := by
    rintro a b ⟨i, hlt, ha⟩ ⟨j, hjlt, hb⟩ hitem
    have hij : i = j := hi.index.indexed.injective hlt hjlt (by rw [ha, hb]; exact hitem)
    exact ha.symm.trans (hij ▸ hb)
  rw [heq] at hnodup
  refine ⟨satisfied, heq, hsorted, (Multiset.Nodup.ext ?_ (hi.nodup.filter _)).mpr fun e => ?_⟩
  · exact coe_nodup.mpr hnodup.of_map
  rw [mem_coe, mem_filter, hi.members]
  constructor
  · intro he
    obtain ⟨key, hle, hkeyed⟩ := (hmem e.item).mp (heq ▸ List.mem_map_of_mem he)
    have hsame := hkey (b := ⟨key, e.item⟩) (hheld e he) hkeyed rfl
    exact ⟨hheld e he, (congrArg Entry.key hsame).trans_le hle⟩
  · rintro ⟨hpending, hle⟩
    have hitem := (hmem e.item).mpr ⟨e.key, hle, hpending⟩
    rw [heq] at hitem
    obtain ⟨e', he', hsame⟩ := List.mem_map.mp hitem
    rwa [← hkey (hheld e' he') hpending hsame]

end

/-- **The pending index** is an indexed four-way heap of exactly the registered entries, and a
dispatch detaches the satisfied ones in order. -/
theorem reachable_pendingIndex (s : Semaphore) (registered : Multiset (Entry ℕ Timepoint))
    (h : Reachable ⟨s, registered⟩) :
    (∀ i, 0 < i → i < s.timepoints.count →
      (s.timepoints.entries ((i - 1) / 4)).key ≤ (s.timepoints.entries i).key) ∧
    (∀ i < s.timepoints.count, s.timepoints.position (s.timepoints.entries i).item = some i) ∧
    (∀ timepoint, (∀ i < s.timepoints.count, (s.timepoints.entries i).item ≠ timepoint) →
      s.timepoints.position timepoint = none) ∧
    (Multiset.range s.timepoints.count).map s.timepoints.entries = registered ∧
    ∀ value, ∃ satisfied : List (Entry ℕ Timepoint),
      (s.takeSatisfied value).1 = satisfied.map Entry.item ∧
      satisfied.Pairwise (fun a b => a.key ≤ b.key) ∧
      (satisfied : Multiset (Entry ℕ Timepoint)) = registered.filter (·.key ≤ value) := by
  have hi := h.inv
  refine ⟨hi.index.ordered, fun i hlt => (hi.index.indexed _ i).mpr ⟨hlt, rfl⟩,
    fun timepoint hnot => ?_, hi.entries_eq, hi.takeSatisfied⟩
  refine (hi.index.indexed.position_eq_none_iff timepoint).mpr ?_
  rintro key ⟨i, hlt, heq⟩
  exact hnot i hlt (by rw [heq])

/-- Two timepoints registered out of order come back in order. -/
theorem reachable_pendingIndex_two :
    ∃ s, Reachable ⟨s, {⟨3, 1⟩, ⟨5, 0⟩}⟩ ∧ (s.takeSatisfied 9).1 = [1, 0] ∧
      (Multiset.range s.timepoints.count).map s.timepoints.entries = {⟨3, 1⟩, ⟨5, 0⟩} := by
  have hempty : Reachable ⟨create 0 0, 0⟩ := .init ⟨0, 0, rfl⟩
  have hone := hempty.step (.insert _ _ _ none (fun _ => ⟨0, 0⟩) 5 0 (by simp) rfl)
  have htwo := hone.step (.insert _ _ _ none (fun _ => ⟨0, 0⟩) 3 1 (by simp) rfl)
  exact ⟨_, htwo, by decide, (reachable_pendingIndex _ _ htwo).2.2.2.1⟩

end PendingIndex

end Hrx.Semaphore
