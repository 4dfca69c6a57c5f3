import Hrx.Tracker.Equiv.Index
import Hrx.Tracker.Session

/-!
# The tracker invariant

While a call moves waiters between axes, some of them are in the inventory and in no index; these
are *loose*.  While it advances an axis, waiters indexed there may have been reached; its slot is
*busy*.  At rest nothing is loose and nothing busy.
-/

namespace Hrx.Tracker

open Function List

namespace FrontierTracker

variable {t t' : FrontierTracker}

/-! ### Frame lemmas -/

@[simp] lemma entry_setEntry (t : FrontierTracker) (slot : ℕ) (e : AxisEntry) :
    (t.setEntry slot e).entry = update t.entry slot e := rfl

@[simp] lemma lookup_setEntry (t : FrontierTracker) (slot : ℕ) (e : AxisEntry) :
    (t.setEntry slot e).table.lookup = t.table.lookup := rfl

@[simp] lemma entry_setWaiter (t : FrontierTracker) (waiter : ℕ) (w : Waiter) :
    (t.setWaiter waiter w).entry = t.entry := rfl

@[simp] lemma inventory_setWaiter (t : FrontierTracker) (waiter : ℕ) (w : Waiter) :
    (t.setWaiter waiter w).inventory = t.inventory := rfl

@[simp] lemma waiters_setWaiter (t : FrontierTracker) (waiter : ℕ) (w : Waiter) :
    (t.setWaiter waiter w).waiters = update t.waiters waiter w := rfl

/-- Two trackers with the same axes at the same progress; their waiters may differ. -/
structure SameAxes (t t' : FrontierTracker) : Prop where
  axes : t'.table.axes = t.table.axes
  slotCount : t'.table.slotCount = t.table.slotCount
  currentEpoch : ∀ slot, (t'.entry slot).currentEpoch = (t.entry slot).currentEpoch
  failureStatus : ∀ slot, (t'.entry slot).failureStatus = (t.entry slot).failureStatus
  timeline : ∀ slot, (t'.entry slot).timeline = (t.entry slot).timeline

namespace SameAxes

lemma of_table_eq (h : t'.table = t.table) : SameAxes t t' := by
  exact ⟨by rw [h], by rw [h], fun _ => by rw [entry, h]; rfl, fun _ => by rw [entry, h]; rfl,
    fun _ => by rw [entry, h]; rfl⟩

lemma refl (t : FrontierTracker) : SameAxes t t := of_table_eq rfl

lemma trans {t₁ t₂ t₃ : FrontierTracker} (h : SameAxes t₁ t₂) (h' : SameAxes t₂ t₃) :
    SameAxes t₁ t₃ :=
  ⟨h'.axes.trans h.axes, h'.slotCount.trans h.slotCount,
    fun slot => (h'.currentEpoch slot).trans (h.currentEpoch slot),
    fun slot => (h'.failureStatus slot).trans (h.failureStatus slot),
    fun slot => (h'.timeline slot).trans (h.timeline slot)⟩

variable (h : SameAxes t t')
include h

lemma lookup (axis : ℕ) : t'.table.lookup axis = t.table.lookup axis := by
  unfold AxisTable.lookup AxisTable.nextSlot AxisTable.homeSlot AxisTable.slotMask
  rw [h.axes, h.slotCount]

lemma reached_iff {point : FrontierEntry} : t'.Reached point ↔ t.Reached point := by
  unfold Reached
  simp only [h.lookup, h.currentEpoch]

lemma failure (slot axis epoch : ℕ) :
    (t'.entry slot).failure axis epoch = (t.entry slot).failure axis epoch := by
  unfold AxisEntry.failure
  rw [h.timeline, h.failureStatus]

lemma failed_iff {point : FrontierEntry} : t'.Failed point ↔ t.Failed point := by
  unfold Failed
  simp only [h.lookup, h.failure]

lemma epochOf (axis : ℕ) : t'.epochOf axis = t.epochOf axis := by
  unfold FrontierTracker.epochOf
  rw [h.lookup]
  split
  · rfl
  · exact h.currentEpoch _

lemma consistent (ht : LinearProbing.Consistent t.table.axes t.table.nextSlot t.table.homeSlot
      t.table.slotCount) :
    LinearProbing.Consistent t'.table.axes t'.table.nextSlot t'.table.homeSlot
      t'.table.slotCount := by
  unfold AxisTable.nextSlot AxisTable.homeSlot AxisTable.slotMask at ht ⊢
  rwa [h.axes, h.slotCount]

end SameAxes

lemma index_setIndex (t : FrontierTracker) (slot : ℕ) (index : AxisIndex ℕ) (s : ℕ) :
    ((t.setIndex slot index).entry s).index = if s = slot then index else (t.entry s).index := by
  rw [setIndex, entry_setEntry, update_apply]
  split_ifs <;> rfl

/-- Writing the index of a slot leaves the axes alone. -/
lemma sameAxes_setIndex (t : FrontierTracker) (slot : ℕ) (index : AxisIndex ℕ) :
    SameAxes t (t.setIndex slot index) := by
  refine ⟨rfl, rfl, fun s => ?_, fun s => ?_, fun s => ?_⟩
  all_goals
    rw [setIndex, entry_setEntry]
    rcases eq_or_ne s slot with rfl | hne
    · rw [update_self]
    · rw [update_of_ne hne]

lemma sameAxes_setWaiter (t : FrontierTracker) (waiter : ℕ) (w : Waiter) :
    SameAxes t (t.setWaiter waiter w) := .of_table_eq rfl

lemma sameAxes_indexInsert (t : FrontierTracker) (waiter slot ordinal epoch : ℕ) :
    SameAxes t (t.indexInsert waiter slot ordinal epoch) :=
  (sameAxes_setWaiter t waiter _).trans (sameAxes_setIndex _ _ _)

lemma sameAxes_unlinkWaiter (t : FrontierTracker) (waiter : ℕ) :
    SameAxes t (t.unlinkWaiter waiter) := .of_table_eq rfl

/-! ### The invariant -/

/-- A wait the tracker may keep: a valid frontier of registered axes. -/
structure Waiting (t : FrontierTracker) (w : Waiter) : Prop where
  valid : w.frontier.Valid
  known : ∀ point ∈ w.frontier.toList, ∃ slot, t.table.lookup point.axis = some slot

/-- The index record of a waiter names a point of its frontier, and all points before it are
reached. -/
structure Placed (t : FrontierTracker) (w : Waiter) : Prop where
  point : ∃ axis, w.frontier.toList[w.frontierOrdinal]? = some ⟨axis, w.epoch⟩ ∧
    t.table.lookup axis = some w.axisSlot
  before : ∀ j < w.frontierOrdinal, ∀ point, w.frontier.toList[j]? = some point →
    t.Reached point

lemma Waiting.congr {w w' : Waiter} (h : t.Waiting w) (hsame : SameAxes t t')
    (hfrontier : w'.frontier = w.frontier) : t'.Waiting w' := by
  refine ⟨hfrontier ▸ h.valid, fun point hpoint => ?_⟩
  rw [hsame.lookup]
  exact h.known point (hfrontier ▸ hpoint)

lemma Placed.congr {w : Waiter} (h : t.Placed w) (hsame : SameAxes t t') : t'.Placed w := by
  obtain ⟨axis, hpoint, hslot⟩ := h.point
  refine ⟨⟨axis, hpoint, (hsame.lookup axis).trans hslot⟩, fun j hj point hp => ?_⟩
  exact hsame.reached_iff.mpr (h.before j hj point hp)

lemma Placed.mem {w : Waiter} (h : t.Placed w) :
    ∃ axis, (⟨axis, w.epoch⟩ : FrontierEntry) ∈ w.frontier.toList ∧
      t.table.lookup axis = some w.axisSlot := by
  obtain ⟨axis, hpoint, hslot⟩ := h.point
  exact ⟨axis, mem_of_getElem? hpoint, hslot⟩

/-- The tracker invariant, with loose waiters and busy slots. -/
structure Inv (t : FrontierTracker) (loose : List ℕ) (busy : ℕ → Prop) : Prop where
  table : LinearProbing.Consistent t.table.axes t.table.nextSlot t.table.homeSlot t.table.slotCount
  index : ∀ slot, (t.entry slot).index.WellFormed
  nodup : t.inventory.Nodup
  holds : ∀ slot epoch waiter, (t.entry slot).index.Holds epoch waiter ↔
    (waiter ∈ t.inventory ∧ waiter ∉ loose) ∧
      (t.waiters waiter).axisSlot = slot ∧ (t.waiters waiter).epoch = epoch
  indexed : ∀ waiter, waiter ∉ loose →
    ((t.waiters waiter).indexed = true ↔ waiter ∈ t.inventory)
  waiting : ∀ waiter ∈ t.inventory, t.Waiting (t.waiters waiter)
  placed : ∀ waiter ∈ t.inventory, waiter ∉ loose → t.Placed (t.waiters waiter)
  unreached : ∀ waiter ∈ t.inventory, waiter ∉ loose → ¬ busy (t.waiters waiter).axisSlot →
    (t.entry (t.waiters waiter).axisSlot).currentEpoch < (t.waiters waiter).epoch

abbrev AtRest (t : FrontierTracker) : Prop := t.Inv [] fun _ => False

def Healthy (t : FrontierTracker) : Prop :=
  ∀ x ∈ t.inventory, ∀ point ∈ (t.waiters x).frontier.toList, ¬ t.Failed point

namespace Inv

variable {waiter : ℕ} {loose : List ℕ} {busy : ℕ → Prop}

/-- Indexing a loose waiter at an unreached point. -/
lemma indexInsert {slot ordinal epoch : ℕ} (h : t.Inv (waiter :: loose) busy)
    (hw : waiter ∈ t.inventory) (hfresh : waiter ∉ loose)
    (hplaced : t.Placed { t.waiters waiter with
      axisSlot := slot, frontierOrdinal := ordinal, epoch, indexed := true })
    (hepoch : (t.entry slot).currentEpoch < epoch) :
    (t.indexInsert waiter slot ordinal epoch).Inv loose busy := by
  have hsame := sameAxes_indexInsert t waiter slot ordinal epoch
  have hindex : ∀ s, ((t.indexInsert waiter slot ordinal epoch).entry s).index =
      if s = slot then (t.entry slot).index.insert epoch waiter else (t.entry s).index :=
    index_setIndex _ _ _
  have hwaiters : (t.indexInsert waiter slot ordinal epoch).waiters =
      update t.waiters waiter { t.waiters waiter with
        axisSlot := slot, frontierOrdinal := ordinal, epoch, indexed := true } := rfl
  have hinventory : (t.indexInsert waiter slot ordinal epoch).inventory = t.inventory := rfl
  have habsent : ∀ s e, ¬ (t.entry s).index.Holds e waiter := by
    intro s e hc
    exact ((h.holds s e waiter).mp hc).1.2 (mem_cons_self ..)
  -- what is said of another waiter is what was said before
  have hother : ∀ x ≠ waiter, x ∉ loose → x ∉ waiter :: loose := by
    intro x hx hl hc
    exact (mem_cons.mp hc).elim hx hl
  refine ⟨hsame.consistent h.table, fun s => ?_, h.nodup, fun s e x => ?_, fun x hx => ?_,
    fun x hx => ?_, fun x hx hl => ?_, fun x hx hl hbusy => ?_⟩
  · rw [hindex]
    split_ifs
    · exact (h.index slot).insert (habsent slot)
    · exact h.index s
  · have hinsert : ((t.indexInsert waiter slot ordinal epoch).entry s).index.Holds e x ↔
        (s = slot ∧ e = epoch ∧ x = waiter) ∨ (t.entry s).index.Holds e x := by
      rw [hindex]
      split_ifs with hs
      · subst hs
        rw [(h.index s).holds_insert]
        simp
      · simp [hs]
    rw [hinsert, hinventory, hwaiters]
    rcases eq_or_ne x waiter with rfl | hne
    · simp only [habsent s e, or_false, update_self]
      tauto
    · rw [update_of_ne hne, h.holds, mem_cons]
      tauto
  · rw [hinventory, hwaiters]
    rcases eq_or_ne x waiter with rfl | hne
    · simp [hw]
    · rw [update_of_ne hne]
      exact h.indexed x (hother x hne hx)
  · rw [hwaiters]
    rcases eq_or_ne x waiter with rfl | hne
    · rw [update_self]
      exact (h.waiting x hx).congr hsame rfl
    · rw [update_of_ne hne]
      exact (h.waiting x hx).congr hsame rfl
  · rw [hwaiters]
    rcases eq_or_ne x waiter with rfl | hne
    · rw [update_self]
      exact hplaced.congr hsame
    · rw [update_of_ne hne]
      exact (h.placed x hx (hother x hne hl)).congr hsame
  · rw [hwaiters, hsame.currentEpoch] at *
    rcases eq_or_ne x waiter with rfl | hne
    · rw [update_self]
      exact hepoch
    · rw [update_of_ne hne] at hbusy ⊢
      exact h.unreached x hx (hother x hne hl) hbusy

/-- A change that takes waiters out of indexes, or out of the inventory, and writes no index record
but its flag. -/
lemma remove {loose' : List ℕ} (h : t.Inv loose busy) (hsame : SameAxes t t')
    (hrecord : ∀ x, ∃ indexed, t'.waiters x = { t.waiters x with indexed })
    (hinventory : ∀ x ∈ t'.inventory, x ∈ t.inventory)
    (hloose : ∀ x ∈ t'.inventory, x ∉ loose' → x ∉ loose)
    (hnodup : t'.inventory.Nodup) (hindex : ∀ slot, (t'.entry slot).index.WellFormed)
    (hholds : ∀ slot epoch x, (t'.entry slot).index.Holds epoch x ↔
      (t.entry slot).index.Holds epoch x ∧ x ∈ t'.inventory ∧ x ∉ loose')
    (hindexed : ∀ x, x ∉ loose' → ((t'.waiters x).indexed = true ↔ x ∈ t'.inventory)) :
    t'.Inv loose' busy := by
  refine ⟨hsame.consistent h.table, hindex, hnodup, fun slot epoch x => ?_, hindexed,
    fun x hx => ?_, fun x hx hl => ?_, fun x hx hl => ?_⟩
  · obtain ⟨b, hb⟩ := hrecord x
    rw [hholds, h.holds, hb]
    constructor
    · rintro ⟨⟨-, hat⟩, hin⟩
      exact ⟨hin, hat⟩
    · rintro ⟨hin, hat⟩
      exact ⟨⟨⟨hinventory x hin.1, hloose x hin.1 hin.2⟩, hat⟩, hin⟩
  · obtain ⟨b, hb⟩ := hrecord x
    exact (h.waiting x (hinventory x hx)).congr hsame (by rw [hb])
  · obtain ⟨b, hb⟩ := hrecord x
    obtain ⟨hpoint, hbefore⟩ := (h.placed x (hinventory x hx) (hloose x hx hl)).congr hsame
    rw [hb]
    exact ⟨hpoint, hbefore⟩
  · obtain ⟨b, hb⟩ := hrecord x
    rw [hb, hsame.currentEpoch]
    exact h.unreached x (hinventory x hx) (hloose x hx hl)

/-- A waiter that is indexed somewhere is indexed where its record says. -/
lemma holds_record (h : t.Inv loose busy) (hw : waiter ∈ t.inventory) (hl : waiter ∉ loose) :
    (t.entry (t.waiters waiter).axisSlot).index.Holds (t.waiters waiter).epoch waiter :=
  (h.holds _ _ _).mpr ⟨⟨hw, hl⟩, rfl, rfl⟩

/-- Writing the storage of a waiter but for its flag keeps its record. -/
lemma record_of_update (waiters : ℕ → Waiter) (waiter : ℕ) (b : Bool) (x : ℕ) :
    ∃ indexed, update waiters waiter { waiters waiter with indexed := b } x =
      { waiters x with indexed } := by
  rcases eq_or_ne x waiter with rfl | hne
  · exact ⟨b, update_self ..⟩
  · exact ⟨(waiters x).indexed, update_of_ne hne ..⟩

/-- Erasing an indexed waiter makes it loose. -/
lemma indexErase (h : t.Inv loose busy) (hw : waiter ∈ t.inventory) (hl : waiter ∉ loose) :
    (t.indexErase waiter).Inv (waiter :: loose) busy := by
  have hholds := h.holds_record hw hl
  have herase := (h.index _).erase hholds
  have hindex : ∀ s, ((t.indexErase waiter).entry s).index =
      if s = (t.waiters waiter).axisSlot then
        (t.entry (t.waiters waiter).axisSlot).index.erase (t.waiters waiter).epoch waiter
      else (t.entry s).index := index_setIndex _ _ _
  refine h.remove ((sameAxes_setWaiter t waiter _).trans (sameAxes_setIndex _ _ _))
    (record_of_update t.waiters waiter false)
    (fun x hx => hx) (fun x _ hx hc => hx (mem_cons_of_mem _ hc)) h.nodup (fun s => ?_)
    (fun s e x => ?_) (fun x hx => ?_)
  · rw [hindex]
    split_ifs
    · exact herase.1
    · exact h.index s
  · rw [hindex]
    have hx : (t.entry s).index.Holds e x → x ∈ t.inventory ∧ x ∉ loose :=
      fun hc => ((h.holds s e x).mp hc).1
    split_ifs with hs
    · subst hs
      rw [herase.2, mem_cons]
      constructor
      · rintro ⟨hold, hne⟩
        refine ⟨hold, (hx hold).1, not_or.mpr ⟨?_, (hx hold).2⟩⟩
        rintro rfl
        exact hne ⟨((h.holds _ _ _).mp hold).2.2.symm, rfl⟩
      · rintro ⟨hold, -, hne⟩
        exact ⟨hold, fun hc => hne (.inl hc.2)⟩
    · rw [mem_cons]
      refine ⟨fun hold => ⟨hold, (hx hold).1, not_or.mpr ⟨?_, (hx hold).2⟩⟩, And.left⟩
      rintro rfl
      exact hs ((h.holds _ _ _).mp hold).2.1.symm
  · have hne : x ≠ waiter := fun hc => hx (hc ▸ mem_cons_self ..)
    show (update t.waiters waiter _ x).indexed = true ↔ x ∈ t.inventory
    rw [update_of_ne hne]
    exact h.indexed x fun hc => hx (mem_cons_of_mem _ hc)

/-- Unlinking a loose waiter. -/
lemma unlinkWaiter (h : t.Inv (waiter :: loose) busy)
    (hflag : (t.waiters waiter).indexed = false) : (t.unlinkWaiter waiter).Inv loose busy := by
  have hmem : ∀ x, x ∈ t.inventory.erase waiter ↔ x ≠ waiter ∧ x ∈ t.inventory :=
    fun x => h.nodup.mem_erase_iff
  have hother : ∀ x ≠ waiter, x ∉ loose → x ∉ waiter :: loose :=
    fun x hx hl hc => (mem_cons.mp hc).elim hx hl
  refine h.remove (sameAxes_unlinkWaiter t waiter) (fun x => ⟨(t.waiters x).indexed, rfl⟩)
    (fun x hx => ((hmem x).mp hx).2) (fun x hx => hother x ((hmem x).mp hx).1)
    (h.nodup.erase waiter) h.index (fun s e x => ?_) (fun x hx => ?_)
  · refine ⟨fun hc => ⟨hc, ?_⟩, And.left⟩
    obtain ⟨hin, hl⟩ := ((h.holds s e x).mp hc).1
    rw [mem_cons, not_or] at hl
    exact ⟨(hmem x).mpr ⟨hl.1, hin⟩, hl.2⟩
  · show (t.waiters x).indexed = true ↔ x ∈ t.inventory.erase waiter
    rw [hmem]
    rcases eq_or_ne x waiter with rfl | hne
    · simp [hflag]
    · rw [h.indexed x (hother x hne hx)]
      simp [hne]

/-- Clearing the flag of a loose waiter. -/
lemma clearFlag (h : t.Inv (waiter :: loose) busy) :
    (t.setWaiter waiter { t.waiters waiter with indexed := false }).Inv (waiter :: loose) busy := by
  refine h.remove (sameAxes_setWaiter t waiter _) (record_of_update t.waiters waiter false)
    (fun x hx => hx) (fun x _ hx => hx) h.nodup h.index (fun s e x => ?_) (fun x hx => ?_)
  · exact ⟨fun hc => ⟨hc, ((h.holds s e x).mp hc).1⟩, And.left⟩
  · have hne : x ≠ waiter := fun hc => hx (hc ▸ mem_cons_self ..)
    rw [waiters_setWaiter, update_of_ne hne]
    exact h.indexed x hx

/-- Taking out the earliest node of a slot makes its waiters loose. -/
lemma takeNode {slot epoch : ℕ} (h : t.Inv [] busy)
    (hmin : (t.entry slot).index.minimum = some (epoch, waiter)) :
    (t.setIndex slot ((t.entry slot).index.takeNode epoch waiter).2).Inv
      ((t.entry slot).index.takeNode epoch waiter).1 busy := by
  obtain ⟨-, hready, hindex', hholds'⟩ := (h.index slot).takeNode hmin
  refine h.remove (sameAxes_setIndex t slot _) (fun x => ⟨(t.waiters x).indexed, rfl⟩)
    (fun x hx => hx) (fun x _ _ => not_mem_nil) h.nodup (fun s => ?_) (fun s e x => ?_)
    (fun x _ => h.indexed x not_mem_nil)
  · rw [index_setIndex]
    split_ifs
    · exact hindex'
    · exact h.index s
  rw [index_setIndex, hready]
  split_ifs with hs
  · rw [hs, hholds']
    constructor
    · rintro ⟨hold, hne⟩
      obtain ⟨⟨hin, -⟩, -, rfl⟩ := (h.holds _ _ _).mp hold
      exact ⟨hold, hin, fun hc => hne ((h.holds _ _ _).mp hc).2.2⟩
    · rintro ⟨hold, -, hne⟩
      exact ⟨hold, fun hc => hne (hc ▸ hold)⟩
  · refine ⟨fun hold => ?_, And.left⟩
    obtain ⟨⟨hin, -⟩, rfl, -⟩ := (h.holds _ _ _).mp hold
    exact ⟨hold, hin, fun hc => hs ((h.holds _ _ _).mp hc).2.1⟩

end Inv

end FrontierTracker

end Hrx.Tracker
