import Hrx.Tracker.Equiv.Invariant

/-!
# Moving waiters along their frontiers

`indexNext` either places a loose waiter at its first unreached point or finds all points reached.
From that the two loops of `advance` are followed: each waiter of a ready epoch is placed on a later
axis or leaves the tracker with its frontier reached, and the advanced slot is left without ready
waiters.
-/

namespace Hrx.Tracker

open Function List

namespace FrontierTracker

variable {t t' : FrontierTracker} {waiter : ℕ} {loose : List ℕ} {busy : ℕ → Prop}

/-! ### Waiters that leave -/

/-- The waiters `gone` left the inventory; nobody's frontier or token changed. -/
structure Leaves (t t' : FrontierTracker) (gone : List ℕ) : Prop where
  frontier : ∀ x, (t'.waiters x).frontier = (t.waiters x).frontier
  userData : ∀ x, (t'.waiters x).userData = (t.waiters x).userData
  nodup : gone.Nodup
  mem : ∀ x ∈ gone, x ∈ t.inventory
  inventory : ∀ x, x ∈ t'.inventory ↔ x ∈ t.inventory ∧ x ∉ gone

/-- The waiters `gone` left while no axis changed. -/
structure Settles (t t' : FrontierTracker) (gone : List ℕ) : Prop extends Leaves t t' gone where
  same : SameAxes t t'

/-- A change of the same inventory that keeps frontiers and tokens. -/
lemma Leaves.of_inventory_eq (hfrontier : ∀ x, (t'.waiters x).frontier = (t.waiters x).frontier)
    (huserData : ∀ x, (t'.waiters x).userData = (t.waiters x).userData)
    (hinventory : t'.inventory = t.inventory) : Leaves t t' [] :=
  ⟨hfrontier, huserData, nodup_nil, by simp, by simp [hinventory]⟩

variable {gone : List ℕ} {slot epoch : ℕ}

lemma Leaves.trans {t₁ t₂ t₃ : FrontierTracker} {gone' : List ℕ} (h : Leaves t₁ t₂ gone)
    (h' : Leaves t₂ t₃ gone') : Leaves t₁ t₃ (gone ++ gone') := by
  refine ⟨fun x => (h'.frontier x).trans (h.frontier x),
    fun x => (h'.userData x).trans (h.userData x), ?_, fun x hx => ?_, fun x => ?_⟩
  · refine nodup_append.mpr ⟨h.nodup, h'.nodup, fun x hx y hy => ?_⟩
    rintro rfl
    exact ((h.inventory x).mp (h'.mem x hy)).2 hx
  · rcases mem_append.mp hx with hx | hx
    · exact h.mem x hx
    · exact ((h.inventory x).mp (h'.mem x hx)).1
  · rw [h'.inventory, h.inventory, mem_append]
    tauto

namespace Settles

lemma refl (t : FrontierTracker) : Settles t t [] :=
  ⟨.of_inventory_eq (fun _ => rfl) (fun _ => rfl) rfl, .refl t⟩

lemma trans {t₁ t₂ t₃ : FrontierTracker} {gone gone' : List ℕ} (h : Settles t₁ t₂ gone)
    (h' : Settles t₂ t₃ gone') : Settles t₁ t₃ (gone ++ gone') :=
  ⟨h.toLeaves.trans h'.toLeaves, h.same.trans h'.same⟩

end Settles

lemma Healthy.leaves (h : t.Healthy) (hleaves : Leaves t t' gone)
    (hfailed : ∀ point, t'.Failed point → t.Failed point) : t'.Healthy := by
  intro x hx point hpoint hc
  rw [hleaves.frontier] at hpoint
  exact h x ((hleaves.inventory x).mp hx).1 point hpoint (hfailed point hc)

lemma settles_setWaiter {w : Waiter} (hfrontier : w.frontier = (t.waiters waiter).frontier)
    (huserData : w.userData = (t.waiters waiter).userData) :
    Settles t (t.setWaiter waiter w) [] := by
  refine ⟨.of_inventory_eq (fun x => ?_) (fun x => ?_) rfl, sameAxes_setWaiter t waiter w⟩
  all_goals
    rw [waiters_setWaiter]
    rcases eq_or_ne x waiter with rfl | hne
    · rwa [update_self]
    · rw [update_of_ne hne]

lemma settles_setIndex (t : FrontierTracker) (slot : ℕ) (index : AxisIndex ℕ) :
    Settles t (t.setIndex slot index) [] :=
  ⟨.of_inventory_eq (fun _ => rfl) (fun _ => rfl) rfl, sameAxes_setIndex t slot index⟩

lemma settles_indexInsert (t : FrontierTracker) (waiter slot ordinal epoch : ℕ) :
    Settles t (t.indexInsert waiter slot ordinal epoch) [] := by
  show Settles t _ ([] ++ [])
  refine Settles.trans ?_ (settles_setIndex _ _ _)
  exact settles_setWaiter rfl rfl

lemma settles_indexErase (t : FrontierTracker) (waiter : ℕ) :
    Settles t (t.indexErase waiter) [] := by
  show Settles t _ ([] ++ [])
  refine Settles.trans ?_ (settles_setIndex _ _ _)
  exact settles_setWaiter rfl rfl

lemma settles_unlinkWaiter (hnodup : t.inventory.Nodup) (hw : waiter ∈ t.inventory) :
    Settles t (t.unlinkWaiter waiter) [waiter] := by
  refine ⟨⟨fun _ => rfl, fun _ => rfl, nodup_singleton _,
    fun x hx => mem_singleton.mp hx ▸ hw, fun x => ?_⟩, sameAxes_unlinkWaiter t waiter⟩
  show x ∈ t.inventory.erase waiter ↔ _
  rw [hnodup.mem_erase_iff, mem_singleton, and_comm]

/-! ### The next dependency -/

lemma getElem?_pointsFrom (w : Waiter) (start k : ℕ) :
    (w.pointsFrom start)[k]? = w.frontier.toList[start + k]?.map fun p => (p, start + k) := by
  unfold Waiter.pointsFrom
  rw [List.getElem?_drop, List.getElem?_zipIdx]
  simp

/-- What `indexNext` does to a list of points on known axes. -/
lemma indexNext_cases (t : FrontierTracker) (waiter : ℕ) (points : List (FrontierEntry × ℕ))
    (hknown : ∀ p ∈ points, ∃ slot, t.table.lookup p.1.axis = some slot) :
    (t.indexNext waiter points = (t, false) ∧ ∀ p ∈ points, t.Reached p.1) ∨
    ∃ done point ordinal rest slot, points = done ++ (point, ordinal) :: rest ∧
      (∀ p ∈ done, t.Reached p.1) ∧ t.table.lookup point.axis = some slot ∧
      (t.entry slot).currentEpoch < point.epoch ∧
      t.indexNext waiter points = (t.indexInsert waiter slot ordinal point.epoch, true) := by
  induction points with
  | nil => exact .inl ⟨rfl, by simp⟩
  | cons p points ih =>
    obtain ⟨point, ordinal⟩ := p
    obtain ⟨slot, hslot⟩ := hknown (point, ordinal) (mem_cons_self ..)
    rw [indexNext, hslot]
    dsimp only
    split_ifs with hreached hrecheck
    · have hpoint : t.Reached point := ⟨slot, hslot, hreached⟩
      rcases ih fun p hp => hknown p (mem_cons_of_mem _ hp) with ⟨heq, hall⟩ |
        ⟨done, point', ordinal', rest, slot', rfl, hdone, hslot', hlt, heq⟩
      · exact .inl ⟨heq, forall_mem_cons.mpr ⟨hpoint, hall⟩⟩
      · exact .inr ⟨(point, ordinal) :: done, point', ordinal', rest, slot', rfl,
          forall_mem_cons.mpr ⟨hpoint, hdone⟩, hslot', hlt, heq⟩
    · exact .inr ⟨[], point, ordinal, points, slot, rfl, by simp, hslot, not_le.mp hreached, rfl⟩
    · -- nothing else runs in between, so the recheck agrees with the first read
      rw [(sameAxes_indexInsert ..).currentEpoch] at hrecheck
      exact absurd (not_le.mp hreached) hrecheck

/-- Placing a loose waiter whose points before `start` are reached. -/
theorem Inv.indexNext {start : ℕ} (h : t.Inv (waiter :: loose) busy) (hw : waiter ∈ t.inventory)
    (hfresh : waiter ∉ loose)
    (hbefore : ∀ j < start, ∀ point, (t.waiters waiter).frontier.toList[j]? = some point →
      t.Reached point) :
    (t.indexNext waiter ((t.waiters waiter).pointsFrom start) = (t, false) ∧
      ∀ point ∈ (t.waiters waiter).frontier.toList, t.Reached point) ∨
    ∃ point ordinal slot, start ≤ ordinal ∧
      (t.waiters waiter).frontier.toList[ordinal]? = some point ∧
      t.table.lookup point.axis = some slot ∧
      t.indexNext waiter ((t.waiters waiter).pointsFrom start) =
        (t.indexInsert waiter slot ordinal point.epoch, true) ∧
      (t.indexInsert waiter slot ordinal point.epoch).Inv loose busy := by
  have hknown : ∀ p ∈ (t.waiters waiter).pointsFrom start,
      ∃ slot, t.table.lookup p.1.axis = some slot := by
    intro p hp
    obtain ⟨k, hk⟩ := mem_iff_getElem?.mp hp
    rw [getElem?_pointsFrom, Option.map_eq_some_iff] at hk
    obtain ⟨point, hpoint, rfl⟩ := hk
    exact (h.waiting waiter hw).known point (mem_of_getElem? hpoint)
  -- a point between `start` and an index into the remaining points is one of those points
  have hpoints : ∀ k point, (t.waiters waiter).frontier.toList[start + k]? = some point →
      ((t.waiters waiter).pointsFrom start)[k]? = some (point, start + k) := by
    intro k point hpoint
    rw [getElem?_pointsFrom, hpoint, Option.map_some]
  rcases indexNext_cases t waiter _ hknown with ⟨heq, hall⟩ |
    ⟨done, point, ordinal, rest, slot, hsplit, hdone, hslot, hlt, heq⟩
  · refine .inl ⟨heq, fun point hpoint => ?_⟩
    obtain ⟨j, hj⟩ := mem_iff_getElem?.mp hpoint
    rcases Nat.lt_or_ge j start with hjs | hjs
    · exact hbefore j hjs point hj
    · obtain ⟨k, rfl⟩ := Nat.exists_eq_add_of_le hjs
      exact hall _ (mem_of_getElem? (hpoints k point hj))
  have hat : ((t.waiters waiter).pointsFrom start)[done.length]? = some (point, ordinal) := by
    rw [hsplit, List.getElem?_append_right le_rfl, Nat.sub_self]
    rfl
  rw [getElem?_pointsFrom, Option.map_eq_some_iff] at hat
  obtain ⟨point', hpoint, hpair⟩ := hat
  obtain ⟨rfl, rfl⟩ := Prod.mk.inj hpair
  refine .inr ⟨point', start + done.length, slot, Nat.le_add_right .., hpoint, hslot, heq, ?_⟩
  refine h.indexInsert hw hfresh ⟨⟨point'.axis, hpoint, hslot⟩, fun j hj p hp => ?_⟩ hlt
  rcases Nat.lt_or_ge j start with hjs | hjs
  · exact hbefore j hjs p hp
  obtain ⟨k, rfl⟩ := Nat.exists_eq_add_of_le hjs
  have hk : start + k < start + done.length := hj
  have hmem := hpoints k p hp
  rw [hsplit, List.getElem?_append_left (by omega)] at hmem
  exact hdone _ (mem_of_getElem? hmem)

/-! ### One ready epoch -/

/-- The points of a waiter behind the one it is indexed at are on other slots. -/
lemma Waiting.slot_ne {w : Waiter} (h : t.Waiting w) (hplaced : t.Placed w) {ordinal : ℕ}
    {point : FrontierEntry} (hlt : w.frontierOrdinal < ordinal)
    (hpoint : w.frontier.toList[ordinal]? = some point)
    (hslot : t.table.lookup point.axis = some slot) : slot ≠ w.axisSlot := by
  obtain ⟨axis, hat, hat_slot⟩ := hplaced.point
  obtain ⟨hi, hgi⟩ := List.getElem?_eq_some_iff.mp hat
  obtain ⟨hj, hgj⟩ := List.getElem?_eq_some_iff.mp hpoint
  have hascending := pairwise_iff_getElem.mp h.valid.1 _ _ hi hj hlt
  rw [hgi, hgj] at hascending
  rintro rfl
  have hkey := LinearProbing.keys_of_probe hslot
  rw [LinearProbing.keys_of_probe hat_slot] at hkey
  exact absurd (Option.some.inj hkey) hascending.ne

/-- A waiter of the inventory is indexed at a slot, at a point that is reached. -/
structure Ready (t : FrontierTracker) (slot waiter : ℕ) : Prop where
  mem : waiter ∈ t.inventory
  placed : t.Placed (t.waiters waiter)
  axisSlot_eq : (t.waiters waiter).axisSlot = slot
  reached : (t.waiters waiter).epoch ≤ (t.entry slot).currentEpoch

lemma Ready.congr (h : t.Ready slot waiter) (hsame : SameAxes t t')
    (hwaiter : t'.waiters waiter = t.waiters waiter) (hmem : waiter ∈ t'.inventory) :
    t'.Ready slot waiter := by
  refine ⟨hmem, ?_, ?_, ?_⟩
  · rw [hwaiter]
    exact h.placed.congr hsame
  · rw [hwaiter]
    exact h.axisSlot_eq
  · rw [hwaiter, hsame.currentEpoch]
    exact h.reached

/-- Up to its own point a ready waiter is reached. -/
lemma Ready.before (h : t.Ready slot waiter) {j : ℕ}
    (hj : j < (t.waiters waiter).frontierOrdinal + 1) {point : FrontierEntry}
    (hpoint : (t.waiters waiter).frontier.toList[j]? = some point) : t.Reached point := by
  rcases Nat.lt_succ_iff_lt_or_eq.mp hj with hj | rfl
  · exact h.placed.before j hj point hpoint
  obtain ⟨axis, hat, hslot⟩ := h.placed.point
  rw [hat] at hpoint
  cases hpoint
  exact ⟨_, hslot, h.axisSlot_eq ▸ h.reached⟩

/-- What a turn of the inner loop does with one ready waiter: it is placed on another slot, or all
its points are reached and it is left loose. -/
lemma Inv.redispatchOne (h : t.Inv (waiter :: loose) busy) (hready : t.Ready slot waiter)
    (hfresh : waiter ∉ loose) :
    let cleared := t.setWaiter waiter { t.waiters waiter with indexed := false }
    let points := (t.waiters waiter).pointsFrom ((t.waiters waiter).frontierOrdinal + 1)
    (cleared.indexNext waiter points = (cleared, false) ∧
      (∀ point ∈ (t.waiters waiter).frontier.toList, t.Reached point) ∧
      (cleared.unlinkWaiter waiter).Inv loose busy) ∨
    ∃ other ordinal epoch, other ≠ slot ∧
      cleared.indexNext waiter points = (cleared.indexInsert waiter other ordinal epoch, true) ∧
      (cleared.indexInsert waiter other ordinal epoch).Inv loose busy := by
  intro cleared points
  have hwaiter : cleared.waiters waiter = { t.waiters waiter with indexed := false } :=
    update_self ..
  have hsame : SameAxes t cleared := sameAxes_setWaiter t waiter _
  have hcleared : cleared.Inv (waiter :: loose) busy := h.clearFlag
  have hpoints : points =
      (cleared.waiters waiter).pointsFrom ((t.waiters waiter).frontierOrdinal + 1) := by
    rw [hwaiter]
    rfl
  rw [hpoints]
  rcases hcleared.indexNext hready.mem hfresh fun j hj point hpoint => by
      rw [hwaiter] at hpoint
      exact hsame.reached_iff.mpr (hready.before hj hpoint) with
    ⟨heq, hall⟩ | ⟨point, ordinal, other, hle, hpoint, hslot, heq, hinv⟩
  · refine .inl ⟨heq, fun point hmem => ?_, hcleared.unlinkWaiter (by rw [hwaiter])⟩
    rw [hwaiter] at hall
    exact hsame.reached_iff.mp (hall point hmem)
  · refine .inr ⟨other, ordinal, point.epoch, ?_, heq, hinv⟩
    rw [hwaiter] at hpoint
    rw [← hready.axisSlot_eq]
    exact (h.waiting waiter hready.mem).slot_ne hready.placed hle hpoint
      ((hsame.lookup _).symm.trans hslot)

/-- A waiter and its tokens leave with everything reached. -/
def Delivered (t : FrontierTracker) (gone : List ℕ) : Prop :=
  ∀ x ∈ gone, ∀ point ∈ (t.waiters x).frontier.toList, t.Reached point

lemma Delivered.nil (t : FrontierTracker) : t.Delivered [] := fun _ hx => absurd hx not_mem_nil

lemma Delivered.append {t₂ : FrontierTracker} {gone' gone'' : List ℕ} (h : t.Delivered gone)
    (h' : t₂.Delivered gone') (hleaves : Settles t t₂ gone'') : t.Delivered (gone ++ gone') := by
  intro x hx point hpoint
  rcases mem_append.mp hx with hx | hx
  · exact h x hx point hpoint
  · exact hleaves.same.reached_iff.mp (h' x hx point (hleaves.frontier x ▸ hpoint))

/-- The inner loop of `advance`: every ready waiter is placed elsewhere or delivered. -/
lemma Inv.redispatch {ready : List ℕ} (h : t.Inv ready busy) (hnodup : ready.Nodup)
    (hready : ∀ x ∈ ready, t.Ready slot x) :
    ∃ gone, (t.redispatch ready).2 = gone.map (fun x => (t.waiters x).userData) ∧
      Settles t (t.redispatch ready).1 gone ∧ t.Delivered gone ∧
      (t.redispatch ready).1.Inv [] busy ∧
      ((t.redispatch ready).1.entry slot).index = (t.entry slot).index := by
  induction ready generalizing t with
  | nil => exact ⟨[], rfl, .refl t, .nil t, h, rfl⟩
  | cons waiter rest ih =>
    obtain ⟨hfresh, hrest⟩ := nodup_cons.mp hnodup
    have hwaiter := hready waiter (mem_cons_self ..)
    have hne : ∀ x ∈ rest, x ≠ waiter := fun x hx hc => hfresh (hc ▸ hx)
    have hready' : ∀ x ∈ rest, t.Ready slot x := fun x hx => hready x (mem_cons_of_mem _ hx)
    have hclear : Settles t (t.setWaiter waiter { t.waiters waiter with indexed := false }) [] :=
      settles_setWaiter rfl rfl
    rw [FrontierTracker.redispatch]
    rcases h.redispatchOne hwaiter hfresh with ⟨heq, hall, hinv⟩ | ⟨other, ordinal, epoch, hother,
      heq, hinv⟩
    · -- the waiter is done: it is unlinked and its token returned
      rw [heq]
      have hunlink : Settles (t.setWaiter waiter { t.waiters waiter with indexed := false })
          (FrontierTracker.unlinkWaiter _ waiter) [waiter] :=
            settles_unlinkWaiter h.nodup hwaiter.mem
      have hstep := hclear.trans hunlink
      obtain ⟨gone, htokens, hsettles, hdelivered, hrest_inv, hindex⟩ := ih hinv hrest
        fun x hx => (hready' x hx).congr hstep.same (update_of_ne (hne x hx) ..)
          ((hstep.inventory x).mpr ⟨(hready' x hx).mem, by simpa using hne x hx⟩)
      refine ⟨waiter :: gone, ?_, hstep.trans hsettles, ?_, hrest_inv, hindex⟩
      · dsimp only
        rw [htokens, map_cons]
        congr 1
        exact map_congr_left fun x _ => hstep.userData x
      · have hfirst : t.Delivered [waiter] := by
          intro x hx
          rw [mem_singleton.mp hx]
          exact hall
        exact hfirst.append hdelivered hstep
    · -- the waiter waits on, indexed on a later axis
      rw [heq]
      have hstep := hclear.trans (settles_indexInsert
        (t.setWaiter waiter { t.waiters waiter with indexed := false }) waiter other ordinal epoch)
      obtain ⟨gone, htokens, hsettles, hdelivered, hrest_inv, hindex⟩ := ih hinv hrest
        fun x hx => (hready' x hx).congr hstep.same
          ((update_of_ne (hne x hx) ..).trans (update_of_ne (hne x hx) ..))
          ((hstep.inventory x).mpr ⟨(hready' x hx).mem, by simp⟩)
      refine ⟨gone, ?_, hstep.trans hsettles, ?_, hrest_inv, ?_⟩
      · rw [htokens]
        exact map_congr_left fun x _ => hstep.userData x
      · exact (Delivered.nil t).append hdelivered hstep
      · rw [hindex]
        exact (index_setIndex _ _ _ _).trans (if_neg hother.symm)

/-! ### All ready epochs -/

/-- The waiters of the earliest node of a slot are ready if its epoch is reached. -/
lemma Inv.ready_of_minimum (h : t.Inv [] busy)
    (hmin : (t.entry slot).index.minimum = some (epoch, waiter))
    (hepoch : epoch ≤ (t.entry slot).currentEpoch) :
    ∀ x ∈ ((t.entry slot).index.takeNode epoch waiter).1,
      (t.setIndex slot ((t.entry slot).index.takeNode epoch waiter).2).Ready slot x := by
  intro x hx
  have hholds := (((h.index slot).takeNode hmin).2.1 x).mp hx
  obtain ⟨⟨hin, -⟩, hslot, hx_epoch⟩ := (h.holds slot epoch x).mp hholds
  refine Ready.congr ⟨hin, h.placed x hin not_mem_nil, hslot, ?_⟩ (sameAxes_setIndex ..) rfl hin
  rwa [hx_epoch]

/-- Taking a node out shortens the list of nodes. -/
lemma length_takeNode_lt {ix : AxisIndex ℕ} (h : ix.WellFormed)
    (hmin : ix.minimum = some (epoch, waiter)) :
    (ix.takeNode epoch waiter).2.root.toList.length < ix.root.toList.length := by
  obtain ⟨peers, hfirst⟩ := h.minimum_eq_some_iff.mp hmin
  have hmem := (h.ordered.first?_eq_some_iff.mp hfirst).1
  have hroot : (ix.takeNode epoch waiter).2.root = ix.root.erase epoch := rfl
  rw [hroot, h.ordered.toList_erase, length_filter_lt_length_iff_exists]
  exact ⟨_, hmem, by simp⟩

/-- The outer loop of `advance`: with a turn for every node, no waiter of a reached epoch is left at
the slot. -/
lemma Inv.dispatchReady {fuel : ℕ} (h : t.Inv [] busy)
    (hepoch : epoch ≤ (t.entry slot).currentEpoch)
    (hfuel : (t.entry slot).index.root.toList.length ≤ fuel) :
    ∃ gone, (dispatchReady slot epoch fuel t).2 = gone.map (fun x => (t.waiters x).userData) ∧
      Settles t (dispatchReady slot epoch fuel t).1 gone ∧ t.Delivered gone ∧
      (dispatchReady slot epoch fuel t).1.Inv [] busy ∧
      ∀ e x, ((dispatchReady slot epoch fuel t).1.entry slot).index.Holds e x → epoch < e := by
  induction fuel generalizing t with
  | zero =>
    refine ⟨[], rfl, .refl t, .nil t, h, fun e x ⟨node, hfind, _⟩ => ?_⟩
    have hmem := (h.index slot).ordered.find?_eq_some_iff.mp hfind
    rw [length_eq_zero_iff.mp (Nat.le_zero.mp hfuel)] at hmem
    exact absurd hmem not_mem_nil
  | succ fuel ih =>
    rw [FrontierTracker.dispatchReady]
    cases hmin : (t.entry slot).index.minimum with
    | none =>
      exact ⟨[], rfl, .refl t, .nil t, h,
        fun e x hholds => absurd hholds ((h.index slot).minimum_none hmin)⟩
    | some m =>
      obtain ⟨minimumEpoch, waiter⟩ := m
      dsimp only
      split_ifs with hle
      · have hready := h.ready_of_minimum hmin (hle.trans hepoch)
        obtain ⟨gone, htokens, hsettles, hdelivered, hinv, hindex⟩ :=
          (h.takeNode hmin).redispatch ((h.index slot).takeNode hmin).1 hready
        have htake := settles_setIndex t slot ((t.entry slot).index.takeNode minimumEpoch waiter).2
        have hstep := htake.trans hsettles
        have hshorter := length_takeNode_lt (h.index slot) hmin
        rw [index_setIndex, if_pos rfl] at hindex
        obtain ⟨gone', htokens', hsettles', hdelivered', hinv', hleft⟩ := ih hinv
          (by rw [hstep.same.currentEpoch]; exact hepoch) (by rw [hindex]; omega)
        refine ⟨gone ++ gone', ?_, hstep.trans hsettles', ?_, hinv', hleft⟩
        · dsimp only
          rw [htokens, htokens', map_append]
          congr 1
          exact map_congr_left fun x _ => hstep.userData x
        · exact Delivered.append ((Delivered.nil t).append hdelivered htake) hdelivered' hstep
      · exact ⟨[], rfl, .refl t, .nil t, h, fun e x hholds =>
          (not_le.mp hle).trans_le (((h.index slot).minimum_spec hmin).2 e x hholds)⟩

/-! ### Advancing an axis -/

variable {e : AxisEntry}

lemma currentEpoch_setEntry (hepoch : (t.entry slot).currentEpoch ≤ e.currentEpoch) (s : ℕ) :
    (t.entry s).currentEpoch ≤ ((t.setEntry slot e).entry s).currentEpoch := by
  rw [entry_setEntry, update_apply]
  split_ifs with hs
  · exact hs ▸ hepoch
  · exact le_rfl

/-- Writing a slot but for its index.  If its epoch is raised it becomes busy. -/
lemma Inv.setEntry (h : t.AtRest) (hindex : e.index = (t.entry slot).index)
    (hepoch : (t.entry slot).currentEpoch ≤ e.currentEpoch)
    (hbusy : busy slot ∨ e.currentEpoch = (t.entry slot).currentEpoch) :
    (t.setEntry slot e).Inv [] busy := by
  have hindex' : ∀ s, ((t.setEntry slot e).entry s).index = (t.entry s).index := by
    intro s
    rw [entry_setEntry, update_apply]
    split_ifs with hs
    · rw [hs, hindex]
    · rfl
  refine ⟨h.table, fun s => (hindex' s).symm ▸ h.index s, h.nodup, fun s e x => ?_, h.indexed,
    fun x hx => ⟨(h.waiting x hx).valid, (h.waiting x hx).known⟩, fun x hx hl => ?_,
    fun x hx hl hfree => ?_⟩
  · rw [hindex']
    exact h.holds s e x
  · obtain ⟨hpoint, hbefore⟩ := h.placed x hx hl
    refine ⟨hpoint, fun j hj point hp => ?_⟩
    obtain ⟨s, hs, hle⟩ := hbefore j hj point hp
    exact ⟨s, hs, hle.trans (currentEpoch_setEntry hepoch s)⟩
  · have hold := h.unreached x hx hl not_false
    rw [entry_setEntry, update_apply]
    split_ifs with hs
    · rw [hs] at hfree
      rw [hbusy.resolve_left hfree, ← hs]
      exact hold
    · exact hold

/-- A slot whose waiters are all unreached is not busy. -/
lemma Inv.unbusy (h : t.Inv [] (· = slot))
    (hunreached : ∀ e x, (t.entry slot).index.Holds e x → (t.entry slot).currentEpoch < e) :
    t.AtRest := by
  refine { h with unreached := fun x hx hl _ => ?_ }
  rcases eq_or_ne (t.waiters x).axisSlot slot with heq | hne
  · have hholds := h.holds_record hx hl
    rw [heq] at hholds ⊢
    exact hunreached _ _ hholds
  · exact h.unreached x hx hl hne

lemma failed_of_raise (t : FrontierTracker) (slot epoch : ℕ) (point : FrontierEntry)
    (h : (t.setEntry slot { t.entry slot with currentEpoch := epoch }).Failed point) :
    t.Failed point := by
  obtain ⟨s, hs, hf⟩ := h
  refine ⟨s, hs, ?_⟩
  rw [entry_setEntry] at hf
  rcases eq_or_ne s slot with rfl | hne
  · rw [update_self] at hf
    exact hf
  · rwa [update_of_ne hne] at hf

lemma epochOf_setEntry (hepoch : (t.entry slot).currentEpoch ≤ e.currentEpoch) (axis : ℕ) :
    t.epochOf axis ≤ (t.setEntry slot e).epochOf axis := by
  unfold epochOf
  rw [lookup_setEntry]
  split
  · exact le_rfl
  · exact currentEpoch_setEntry hepoch _

/-- One slot holds one axis. -/
lemma epochOf_setEntry_eq (hslot : t.table.lookup axis = some slot) (a : ℕ) :
    (t.setEntry slot e).epochOf a = if a = axis then e.currentEpoch else t.epochOf a := by
  unfold epochOf
  rw [lookup_setEntry]
  split_ifs with ha
  · rw [ha, hslot]
    simp
  cases hs : t.table.lookup a with
  | none => rfl
  | some s =>
    have hne : s ≠ slot := by
      rintro rfl
      have hkey := LinearProbing.keys_of_probe hs
      rw [LinearProbing.keys_of_probe hslot] at hkey
      exact ha (Option.some.inj hkey).symm
    simp [hne]

/-- `advance` keeps the invariant, delivers waiters whose frontier is reached and moves the epoch of
a registered axis forward. -/
theorem Inv.advance (h : t.AtRest) (axis epoch : ℕ) :
    ∃ gone, (t.advance axis epoch).2 = gone.map (fun x => ((t.waiters x).userData, Status.ok)) ∧
      Leaves t (t.advance axis epoch).1 gone ∧ (t.advance axis epoch).1.Delivered gone ∧
      (t.advance axis epoch).1.AtRest ∧
      (∀ point, (t.advance axis epoch).1.Failed point → t.Failed point) ∧
      ∀ a, (t.advance axis epoch).1.epochOf a =
        if a = axis ∧ (t.table.lookup axis).isSome then max (t.epochOf a) epoch
        else t.epochOf a := by
  have hstay := (Settles.refl t).toLeaves
  unfold FrontierTracker.advance
  cases hslot : t.table.lookup axis with
  | none => exact ⟨[], rfl, hstay, .nil t, h, fun _ => id, fun _ => (if_neg (by simp)).symm⟩
  | some slot =>
    dsimp only
    have hepochOf : t.epochOf axis = (t.entry slot).currentEpoch := by
      rw [epochOf, hslot]
    split_ifs with hold hnext
    · refine ⟨[], rfl, hstay, .nil t, h, fun _ => id, fun a => ?_⟩
      split_ifs with ha
      · rw [ha.1, hepochOf, max_eq_left hold]
      · rfl
    all_goals
      have hle : (t.entry slot).currentEpoch ≤ epoch := (not_le.mp hold).le
      have hraised : (t.setEntry slot { t.entry slot with currentEpoch := epoch }).Inv []
        (· = slot) := h.setEntry rfl hle (.inl rfl)
      have hepoch : ∀ a, (t.setEntry slot { t.entry slot with currentEpoch := epoch }).epochOf a =
          if a = axis ∧ (some slot).isSome then max (t.epochOf a) epoch else t.epochOf a := by
        intro a
        simp only [epochOf_setEntry_eq hslot, Option.isSome_some, and_true]
        split_ifs with ha
        · rw [ha, hepochOf, max_eq_right hle]
        · rfl
      have hfailed := failed_of_raise t slot epoch
      have hleaves : Leaves t (t.setEntry slot { t.entry slot with currentEpoch := epoch }) [] :=
        .of_inventory_eq (fun _ => rfl) (fun _ => rfl) rfl
      have hcurrent : ((t.setEntry slot { t.entry slot with currentEpoch := epoch }).entry
          slot).currentEpoch = epoch := by
        rw [entry_setEntry, update_self]
      generalize t.setEntry slot { t.entry slot with currentEpoch := epoch } = raised at *
    · -- the published epoch is later, so no waiter of the slot is reached
      refine ⟨[], rfl, hleaves, .nil _,
        hraised.unbusy fun e x hholds => ?_, fun _ => hfailed _, hepoch⟩
      rw [hcurrent]
      exact hnext.trans_le ((hraised.index slot).nextWaitEpoch_le hholds)
    obtain ⟨gone, htokens, hsettles, hdelivered, hinv, hleft⟩ :=
      hraised.dispatchReady hcurrent.ge le_rfl
    refine ⟨gone, ?_, ?_, fun x hx point hpoint => ?_, hinv.unbusy fun e x hholds => ?_,
      fun point hpoint => hfailed _ (hsettles.same.failed_iff.mp hpoint), fun a => ?_⟩
    · rw [htokens, map_map]
      exact map_congr_left fun x _ => by
        rw [comp_apply, hleaves.userData]
    · exact hleaves.trans hsettles.toLeaves
    · rw [hsettles.frontier] at hpoint
      exact hsettles.same.reached_iff.mpr (hdelivered x hx point hpoint)
    · rw [hsettles.same.currentEpoch, hcurrent]
      exact hleft e x hholds
    · rw [hsettles.same.epochOf]
      exact hepoch a

end FrontierTracker

end Hrx.Tracker
