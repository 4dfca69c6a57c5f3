import Hrx.Tracker.Equiv.Operations

/-!
# Every wait is delivered exactly once

Along every run of the tracker the ledger agrees with the inventory: a ticket is called back,
cancelled, or held by the waiter it was given to, and never two of these.  From that a wait is
pending exactly as long as it was neither delivered nor cancelled, and then it has an unreached
point and no failed one.
-/

namespace Hrx.Tracker

open FrontierTracker List

namespace Session

variable {s s' : Session}

structure Ledger (s : Session) : Prop where
  inv : s.tracker.Inv [] fun _ => False
  healthy : s.tracker.Healthy
  owner : ∀ x ∈ s.tracker.inventory, s.waits[(s.tracker.waiters x).userData]? =
    some (x, (s.tracker.waiters x).frontier)
  undelivered : ∀ x ∈ s.tracker.inventory, (s.tracker.waiters x).userData ∉ s.called ∧
    (s.tracker.waiters x).userData ∉ s.cancelled
  settled : ∀ (n x : ℕ) f, s.waits[n]? = some (x, f) → n ∈ s.called ∨ n ∈ s.cancelled ∨
    (x ∈ s.tracker.inventory ∧ (s.tracker.waiters x).userData = n)
  nodup : s.called.Nodup
  called_lt : ∀ n ∈ s.called, n < s.waits.length
  cancelled_lt : ∀ n ∈ s.cancelled, n < s.waits.length
  disjoint : ∀ n ∈ s.called, n ∉ s.cancelled

namespace Ledger

lemma init (h : Init s) : Ledger s := by
  obtain ⟨⟨_, _, _, hcreate⟩, hwaits, hcallbacks, hcancelled⟩ := h
  obtain ⟨hinv, hinventory⟩ := inv_create hcreate
  have hcalled : s.called = [] := by
    unfold called
    rw [hcallbacks]
    rfl
  refine ⟨hinv, ?_, ?_, ?_, ?_, ?_, ?_, ?_, ?_⟩
  all_goals simp [Healthy, hinventory, hwaits, hcalled, hcancelled]

/-- Tickets in the inventory belong to different waiters. -/
lemma userData_injective (h : Ledger s) {x y : ℕ} (hx : x ∈ s.tracker.inventory)
    (hy : y ∈ s.tracker.inventory)
    (heq : (s.tracker.waiters x).userData = (s.tracker.waiters y).userData) : x = y := by
  have hown := h.owner x hx
  rw [heq, h.owner y hy] at hown
  exact (Prod.mk.inj (Option.some.inj hown)).1.symm

/-- The tickets of waiters that leave are new in the ledger. -/
lemma nodup_tokens (h : Ledger s) {gone : List ℕ} (hnodup : gone.Nodup)
    (hmem : ∀ x ∈ gone, x ∈ s.tracker.inventory) :
    (gone.map fun x => (s.tracker.waiters x).userData).Nodup :=
  (nodup_map_iff_inj_on hnodup).mpr fun x hx y hy =>
    h.userData_injective (hmem x hx) (hmem y hy)

variable {result : FrontierTracker × List Callback} {t : FrontierTracker} {axis : ℕ} (h : Ledger s)
include h

/-- A call that delivers keeps the ledger. -/
lemma after (hdelivers : Delivers s.tracker result) : Ledger (s.after result) := by
  obtain ⟨hinv, hhealthy, -, gone, status, hleaves, hcallbacks, -⟩ := hdelivers
  have hcalled : (s.after result).called =
      s.called ++ gone.map fun x => (s.tracker.waiters x).userData := by
    show (s.callbacks ++ result.2).map Prod.fst = _
    rw [map_append, hcallbacks, map_map]
    rfl
  have htracker : (s.after result).tracker = result.1 := rfl
  have hgone : ∀ n ∈ gone.map fun x => (s.tracker.waiters x).userData,
      ∃ x ∈ s.tracker.inventory, (s.tracker.waiters x).userData = n := by
    intro n hn
    obtain ⟨x, hx, rfl⟩ := mem_map.mp hn
    exact ⟨x, hleaves.mem x hx, rfl⟩
  refine ⟨hinv, hhealthy, fun x hx => ?_, fun x hx => ?_, fun n x f hn => ?_, ?_, fun n hn => ?_,
    h.cancelled_lt, fun n hn => ?_⟩
  · rw [htracker] at hx ⊢
    rw [hleaves.userData, hleaves.frontier]
    exact h.owner x ((hleaves.inventory x).mp hx).1
  · rw [htracker] at hx ⊢
    obtain ⟨hmem, hstays⟩ := (hleaves.inventory x).mp hx
    rw [hleaves.userData, hcalled, mem_append, not_or]
    refine ⟨⟨(h.undelivered x hmem).1, fun hc => ?_⟩, (h.undelivered x hmem).2⟩
    obtain ⟨y, hy, heq⟩ := mem_map.mp hc
    exact hstays (h.userData_injective (hleaves.mem y hy) hmem heq ▸ hy)
  · rw [hcalled, htracker, mem_append]
    rcases h.settled n x f hn with hc | hc | ⟨hmem, rfl⟩
    · exact .inl (.inl hc)
    · exact .inr (.inl hc)
    · rcases Decidable.em (x ∈ gone) with hx | hx
      · exact .inl (.inr (mem_map_of_mem hx))
      · exact .inr (.inr ⟨(hleaves.inventory x).mpr ⟨hmem, hx⟩, hleaves.userData x⟩)
  · rw [hcalled]
    refine nodup_append.mpr ⟨h.nodup, h.nodup_tokens hleaves.nodup hleaves.mem, fun n hn m hm => ?_⟩
    rintro rfl
    obtain ⟨x, hx, rfl⟩ := hgone n hm
    exact (h.undelivered x hx).1 hn
  · rw [hcalled, mem_append] at hn
    rcases hn with hn | hn
    · exact h.called_lt n hn
    · obtain ⟨x, hx, rfl⟩ := hgone n hn
      exact (List.getElem?_eq_some_iff.mp (h.owner x hx)).1
  · rw [hcalled, mem_append] at hn
    rcases hn with hn | hn
    · exact h.disjoint n hn
    · obtain ⟨x, hx, rfl⟩ := hgone n hn
      exact (h.undelivered x hx).2

/-- The next ticket is in no part of the ledger. -/
lemma fresh : s.waits.length ∉ s.called ∧ s.waits.length ∉ s.cancelled :=
  ⟨fun hc => Nat.lt_irrefl _ (h.called_lt _ hc), fun hc => Nat.lt_irrefl _ (h.cancelled_lt _ hc)⟩

/-- An accepted wait keeps the ledger: its ticket is held by the waiter or called back at once. -/
lemma afterWait {frontier : Frontier} {waiter : ℕ} (hw : waiter ∉ s.tracker.inventory)
    (hentered : Entered
      (s.tracker.setWaiter waiter ⟨frontier, s.waits.length, 0, 0, 0, false⟩)
      result.1 waiter result.2) :
    Ledger (s.afterWait waiter frontier result) := by
  obtain ⟨hinv, hsame, hfrontier, huserData, houtcome⟩ := hentered
  have hself : (s.tracker.setWaiter waiter ⟨frontier, s.waits.length, 0, 0, 0, false⟩).waiters
      waiter = ⟨frontier, s.waits.length, 0, 0, 0, false⟩ := Function.update_self ..
  rw [hself] at houtcome
  have hold : ∀ x ∈ s.tracker.inventory, (result.1.waiters x).frontier =
      (s.tracker.waiters x).frontier ∧
      (result.1.waiters x).userData = (s.tracker.waiters x).userData := by
    intro x hx
    rw [hfrontier, huserData, waiters_setWaiter,
      Function.update_of_ne fun hc : x = waiter => hw (hc ▸ hx)]
    exact ⟨rfl, rfl⟩
  have hnew : (result.1.waiters waiter).frontier = frontier ∧
      (result.1.waiters waiter).userData = s.waits.length := by
    rw [hfrontier, huserData, hself]
    exact ⟨rfl, rfl⟩
  have hwaits : ∀ (n : ℕ) y, s.waits[n]? = some y →
      (s.waits ++ [(waiter, frontier)])[n]? = some y :=
    fun n y hn => List.getElem?_append_left (List.getElem?_eq_some_iff.mp hn).1 ▸ hn
  have hlast : ∀ (n : ℕ) y, (s.waits ++ [(waiter, frontier)])[n]? = some y →
      s.waits[n]? = some y ∨ (n = s.waits.length ∧ y = (waiter, frontier)) := by
    intro n y hn
    rcases Nat.lt_or_ge n s.waits.length with hlt | hge
    · rw [List.getElem?_append_left hlt] at hn
      exact .inl hn
    · rw [List.getElem?_append_right hge, List.getElem?_singleton] at hn
      split_ifs at hn with hzero
      exact .inr ⟨by omega, (Option.some.inj hn).symm⟩
  have hlength : (s.waits ++ [(waiter, frontier)]).length = s.waits.length + 1 := by simp
  have hfailed : ∀ point, result.1.Failed point ↔ s.tracker.Failed point :=
    fun point => hsame.failed_iff.trans (sameAxes_setWaiter ..).failed_iff
  have hlt : ∀ n, n < s.waits.length → n < (s.waits ++ [(waiter, frontier)]).length := by
    intro n hn
    rw [hlength]
    exact Nat.lt_succ_of_lt hn
  -- the waiter is pending, or its ticket is called back
  obtain ⟨pending, hin, hmem, hnodup, hhealthy⟩ : ∃ pending : Prop,
      (∀ x, x ∈ result.1.inventory ↔ x ∈ s.tracker.inventory ∨ pending ∧ x = waiter) ∧
      (∀ n, n ∈ (s.afterWait waiter frontier result).called ↔
        n ∈ s.called ∨ ¬pending ∧ n = s.waits.length) ∧
      (s.afterWait waiter frontier result).called.Nodup ∧
      (pending → ∀ point ∈ frontier.toList, ¬ result.1.Failed point) := by
    have hcalled : (s.afterWait waiter frontier result).called =
        s.called ++ result.2.map Prod.fst := map_append
    rw [hcalled]
    rcases houtcome with ⟨hcallbacks, hinventory, hhealthy⟩ | ⟨status, hcallbacks, hinventory, -⟩
    · refine ⟨True, fun x => ?_, fun n => ?_, ?_, fun _ point hpoint hc => ?_⟩
      · rw [hinventory, true_and, or_comm, inventory_setWaiter]
      · simp [hcallbacks]
      · simpa [hcallbacks] using h.nodup
      · exact hhealthy point hpoint (hsame.failed_iff.mp hc)
    · refine ⟨False, fun x => ?_, fun n => ?_, ?_, False.elim⟩
      · simp [hinventory]
      · simp [hcallbacks]
      · rw [hcallbacks]
        exact concat_eq_append ▸ h.nodup.concat h.fresh.1
  refine ⟨hinv, fun x hx => ?_, fun x hx => ?_, fun x hx => ?_, fun n x f hn => ?_, hnodup,
    fun n hn => ?_, fun n hn => hlt n (h.cancelled_lt n hn), fun n hn => ?_⟩
  · show ∀ point ∈ (result.1.waiters x).frontier.toList, ¬ result.1.Failed point
    rcases (hin x).mp hx with hx | ⟨hp, rfl⟩
    · rw [(hold x hx).1]
      exact fun point hpoint hc => h.healthy x hx point hpoint ((hfailed point).mp hc)
    · rw [hnew.1]
      exact hhealthy hp
  · show (s.waits ++ [(waiter, frontier)])[(result.1.waiters x).userData]? =
      some (x, (result.1.waiters x).frontier)
    rcases (hin x).mp hx with hx | ⟨-, rfl⟩
    · rw [(hold x hx).1, (hold x hx).2]
      exact hwaits _ _ (h.owner x hx)
    · rw [hnew.1, hnew.2, List.getElem?_concat_length]
  · show (result.1.waiters x).userData ∉ _ ∧ (result.1.waiters x).userData ∉ s.cancelled
    rw [hmem]
    rcases (hin x).mp hx with hx | ⟨hp, rfl⟩
    · rw [(hold x hx).2, not_or]
      refine ⟨⟨(h.undelivered x hx).1, fun hc => ?_⟩, (h.undelivered x hx).2⟩
      exact (List.getElem?_eq_some_iff.mp (h.owner x hx)).1.ne hc.2
    · rw [hnew.2]
      exact ⟨fun hc => hc.elim h.fresh.1 fun hc => hc.1 hp, h.fresh.2⟩
  · rw [hmem]
    rcases hlast n (x, f) hn with hn | ⟨rfl, heq⟩
    · rcases h.settled n x f hn with hc | hc | ⟨hx, rfl⟩
      · exact .inl (.inl hc)
      · exact .inr (.inl hc)
      · exact .inr (.inr ⟨(hin x).mpr (.inl hx), (hold x hx).2⟩)
    · obtain ⟨rfl, rfl⟩ := Prod.mk.inj heq
      by_cases hp : pending
      · exact .inr (.inr ⟨(hin x).mpr (.inr ⟨hp, rfl⟩), hnew.2⟩)
      · exact .inl (.inr ⟨hp, rfl⟩)
  · show n < (s.waits ++ [(waiter, frontier)]).length
    rcases (hmem n).mp hn with hn | ⟨-, rfl⟩
    · exact hlt n (h.called_lt n hn)
    · rw [hlength]
      exact Nat.lt_succ_self _
  · rcases (hmem n).mp hn with hn | ⟨-, rfl⟩
    · exact h.disjoint n hn
    · exact h.fresh.2

/-- Cancelling keeps the ledger: a pending waiter's ticket is cancelled. -/
lemma afterCancel (waiter : ℕ) : Ledger (s.afterCancel waiter) := by
  cases hflag : (s.tracker.waiters waiter).indexed with
  | false =>
    have hstay : s.afterCancel waiter = s := by
      unfold Session.afterCancel cancelWait
      rw [hflag]
      rfl
    rw [hstay]
    exact h
  | true =>
    obtain ⟨hsettles, hinv, htrue⟩ := h.inv.cancelWait hflag
    have hw := (h.inv.indexed waiter not_mem_nil).mp hflag
    have hafter : s.afterCancel waiter = { s with
        tracker := (s.tracker.cancelWait waiter).1
        cancelled := s.cancelled ++ [(s.tracker.waiters waiter).userData] } := by
      unfold Session.afterCancel
      dsimp only
      rw [htrue, if_pos rfl]
    rw [hafter]
    generalize (s.tracker.cancelWait waiter).1 = t at hsettles hinv
    have hmem : ∀ n, n ∈ s.cancelled ++ [(s.tracker.waiters waiter).userData] ↔
        n ∈ s.cancelled ∨ n = (s.tracker.waiters waiter).userData := by
      intro n
      rw [mem_append, mem_singleton]
    have hstays : ∀ x ∈ t.inventory, x ∈ s.tracker.inventory ∧ x ≠ waiter := by
      intro x hx
      obtain ⟨hx, hne⟩ := (hsettles.inventory x).mp hx
      exact ⟨hx, fun hc => hne (mem_singleton.mpr hc)⟩
    refine ⟨hinv, h.healthy.leaves hsettles.toLeaves fun point => hsettles.same.failed_iff.mp,
      fun x hx => ?_, fun x hx => ?_, fun n x f hn => ?_, h.nodup, h.called_lt, fun n hn => ?_,
      fun n hn => ?_⟩
    · rw [hsettles.userData, hsettles.frontier]
      exact h.owner x (hstays x hx).1
    · rw [hsettles.userData, hmem, not_or]
      obtain ⟨hx', hne⟩ := hstays x hx
      exact ⟨(h.undelivered x hx').1, (h.undelivered x hx').2,
        fun hc => hne (h.userData_injective hx' hw hc)⟩
    · rcases h.settled n x f hn with hc | hc | ⟨hx, rfl⟩
      · exact .inl hc
      · exact .inr (.inl ((hmem n).mpr (.inl hc)))
      · rcases eq_or_ne x waiter with rfl | hne
        · exact .inr (.inl ((hmem _).mpr (.inr rfl)))
        · refine .inr (.inr ⟨(hsettles.inventory x).mpr ⟨hx, ?_⟩, hsettles.userData x⟩)
          exact fun hc => hne (mem_singleton.mp hc)
    · rcases (hmem n).mp hn with hn | rfl
      · exact h.cancelled_lt n hn
      · exact (List.getElem?_eq_some_iff.mp (h.owner waiter hw)).1
    · rw [hmem, not_or]
      refine ⟨h.disjoint n hn, fun hc => (h.undelivered waiter hw).1 (hc ▸ hn)⟩

/-- Acquiring a timeline registers at most one axis. -/
lemma delivers_acquireTimeline (hacquire : s.tracker.acquireTimeline = .ok (t, axis)) :
    Delivers s.tracker (t, []) := by
  unfold acquireTimeline at hacquire
  split at hacquire
  · obtain ⟨rfl, -⟩ := Prod.mk.inj (Except.ok.inj hacquire)
    exact (Delivers.refl h.inv h.healthy).of_eq _ _
  dsimp only at hacquire
  split at hacquire
  · exact nomatch hacquire
  · next hreg =>
    obtain ⟨rfl, -⟩ := Prod.mk.inj (Except.ok.inj hacquire)
    exact (delivers_register h.inv h.healthy hreg).of_eq _ _

lemma delivers_registerAxis (hregister : s.tracker.registerAxis axis = .ok t) :
    Delivers s.tracker (t, []) := by
  unfold registerAxis at hregister
  split_ifs at hregister
  split at hregister
  · exact nomatch hregister
  · next hreg =>
    cases hregister
    exact delivers_register h.inv h.healthy hreg

lemma delivers_dropTimeline (axis : ℕ) : Delivers s.tracker (s.tracker.dropTimeline axis, []) := by
  have hrefl := Delivers.refl h.inv h.healthy
  unfold dropTimeline
  split
  · exact hrefl
  · split_ifs
    · exact hrefl.of_eq _ _
    · exact hrefl

end Ledger

/-- A step's new callbacks are justified by the state it leaves, cancellations stay, and no epoch
goes back. -/
structure Advances (s s' : Session) : Prop where
  callbacks : ∃ new, s'.callbacks = s.callbacks ++ new ∧ ∀ callback ∈ new,
    ∃ waiter frontier, s'.waits[callback.1]? = some (waiter, frontier) ∧
      s'.tracker.Justified frontier callback.2
  cancelled : ∀ ticket ∈ s.cancelled, ticket ∈ s'.cancelled
  epochs : ∀ axis, s.tracker.epochOf axis ≤ s'.tracker.epochOf axis

lemma Ledger.advances_after {result : FrontierTracker × List Callback} (h : Ledger s)
    (hdelivers : Delivers s.tracker result) : Advances s (s.after result) := by
  obtain ⟨-, -, hepochs, gone, status, hleaves, hcallbacks, hjustified⟩ := hdelivers
  refine ⟨⟨result.2, rfl, fun callback hc => ?_⟩, fun _ hc => hc, hepochs⟩
  rw [hcallbacks] at hc
  obtain ⟨x, hx, rfl⟩ := mem_map.mp hc
  exact ⟨x, _, h.owner x (hleaves.mem x hx), hjustified x hx⟩

/-- One call keeps the ledger and delivers only what is justified. -/
lemma Ledger.step (h : Ledger s) (hstep : Step s s') : Ledger s' ∧ Advances s s' := by
  have hdeliver : ∀ {result}, Delivers s.tracker result →
      Ledger (s.after result) ∧ Advances s (s.after result) :=
    fun hd => ⟨h.after hd, h.advances_after hd⟩
  cases hstep with
  | register hregister => exact hdeliver (h.delivers_registerAxis hregister)
  | acquire hacquire => exact hdeliver (h.delivers_acquireTimeline hacquire)
  | drop axis => exact hdeliver (h.delivers_dropTimeline axis)
  | advance axis epoch => exact hdeliver (delivers_advance h.inv h.healthy axis epoch)
  | fail axis hstatus => exact hdeliver (delivers_failAxisImpl h.inv h.healthy hstatus (.inr rfl))
  | retire axis hstatus =>
    exact hdeliver (delivers_failAxisImpl h.inv h.healthy hstatus (.inr rfl))
  | failJoin epoch hjoin hstatus =>
    exact hdeliver (delivers_failAxisImpl h.inv h.healthy hstatus (.inl hjoin))
  | @wait frontier waiter result hvalid hflag hwait =>
    have hentered := h.inv.wait hvalid hflag hwait
    have hw : waiter ∉ s.tracker.inventory := by
      rw [← h.inv.indexed waiter not_mem_nil, hflag]
      exact Bool.false_ne_true
    have hself : (s.tracker.setWaiter waiter ⟨frontier, s.waits.length, 0, 0, 0, false⟩).waiters
        waiter = ⟨frontier, s.waits.length, 0, 0, 0, false⟩ := Function.update_self ..
    refine ⟨h.afterWait hw hentered, ⟨result.2, rfl, fun callback hc => ?_⟩, fun _ hc => hc,
      fun axis => ?_⟩
    · rcases hentered.outcome with ⟨hnone, -⟩ | ⟨status, hone, -, hok, hbad⟩
      · rw [hnone] at hc
        exact absurd hc not_mem_nil
      rw [hone] at hc
      rw [mem_singleton.mp hc, hself]
      rw [hself] at hok hbad
      refine ⟨waiter, frontier, ?_, fun hst point hpoint => ?_, fun hst => ?_⟩
      · show (s.waits ++ [(waiter, frontier)])[s.waits.length]? = _
        rw [List.getElem?_append_right le_rfl, Nat.sub_self]
        rfl
      · exact hentered.same.reached_iff.mpr (hok hst point hpoint)
      · obtain ⟨point, hpoint, hfailed⟩ := hbad hst
        exact ⟨point, hpoint, hentered.same.failed_iff.mpr hfailed⟩
    · exact (hentered.same.epochOf axis).ge
  | cancel waiter =>
    refine ⟨h.afterCancel waiter, ⟨[], (append_nil _).symm, by simp⟩, fun ticket hc => ?_,
      fun axis => ?_⟩
    · show ticket ∈ if _ then _ else s.cancelled
      split_ifs
      · exact mem_append_left _ hc
      · exact hc
    · show s.tracker.epochOf axis ≤ (s.tracker.cancelWait waiter).1.epochOf axis
      unfold cancelWait
      split_ifs with hflag
      · obtain ⟨hsettles, -⟩ := h.inv.removeWaiter ((h.inv.indexed waiter not_mem_nil).mp hflag)
        exact (hsettles.same.epochOf axis).ge
      · exact le_rfl

section pending

variable {ticket waiter : ℕ} {frontier : Frontier}

end pending

end Session

end Hrx.Tracker
