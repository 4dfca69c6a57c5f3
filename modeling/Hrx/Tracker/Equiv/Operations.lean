import Hrx.Tracker.Equiv.Dispatch

/-!
# The tracker calls

What each public call other than `advance` does to the invariant, to the inventory and to progress:
registration, waiting, cancellation and failure.
-/

namespace Hrx.Tracker

open AxisEntry FrontierTracker Function LinearProbing List

namespace FrontierTracker

variable {t t' : FrontierTracker} {waiter : ℕ}

/-! ### Creation and registration -/

lemma inv_create {sessionEpoch machineIndex capacity : ℕ}
    (h : create sessionEpoch machineIndex capacity = .ok t) :
    t.AtRest ∧ t.inventory = [] := by
  unfold create at h
  split at h
  · exact nomatch h
  cases h
  refine ⟨⟨fun _ _ hc => (nomatch hc), fun _ => .empty, nodup_nil, fun s e x => ?_,
    fun x _ => ?_, by simp, by simp, by simp⟩, rfl⟩
  · exact ⟨fun hc => absurd hc AxisIndex.not_holds_empty, fun hc => absurd hc.1.1 not_mem_nil⟩
  · simp [Waiter.unused]

variable {table' : AxisTable} {axis slot i failureEpoch : ℕ} {point : FrontierEntry}
  {points : List FrontierEntry} {e : AxisEntry}

/-- A successful registration fills the first free slot of the probe sequence. -/
lemma register_ok {table : AxisTable} (h : table.register axis = .ok table') :
    ∃ slot, table.lookup axis = none ∧ table.count < table.capacity ∧
      firstFree table.axes table.nextSlot table.slotCount
        (table.homeSlot axis) = some slot ∧
      table' = { table with
        axes := update table.axes slot (some axis)
        entries := update table.entries slot .registered
        count := table.count + 1 } := by
  unfold AxisTable.register at h
  split_ifs at h with hknown hfull
  split at h
  · exact nomatch h
  · next slot hfree =>
    exact ⟨slot, by simpa using hknown, Nat.not_le.mp hfull, hfree, (Except.ok.inj h).symm⟩

/-- A table never registers more axes than its capacity. -/
lemma count_add_length_le {table : AxisTable} {registered : List ℕ}
    (h : registered.foldlM AxisTable.register table = .ok table')
    (hcount : table.count ≤ table.capacity) :
    table.count + registered.length ≤ table.capacity := by
  induction registered generalizing table with
  | nil => exact hcount
  | cons axis rest ih =>
    rw [foldlM_cons] at h
    cases hregister : table.register axis with
    | error =>
      rw [hregister] at h
      exact nomatch h
    | ok next =>
      rw [hregister] at h
      obtain ⟨slot, -, hlt, -, rfl⟩ := register_ok hregister
      have hle : table.count + 1 + rest.length ≤ table.capacity := ih h hlt
      rw [length_cons]
      omega

/-- Every registered axis keeps its slot and its payload. -/
def Extends (t t' : FrontierTracker) : Prop :=
  ∀ axis slot, t.table.lookup axis = some slot →
    t'.table.lookup axis = some slot ∧ t'.entry slot = t.entry slot

lemma Extends.epochOf_le (h : Extends t t') (axis : ℕ) : t.epochOf axis ≤ t'.epochOf axis := by
  unfold epochOf
  cases hslot : t.table.lookup axis with
  | none => exact Nat.zero_le _
  | some slot =>
    obtain ⟨hslot', hentry⟩ := h axis slot hslot
    rw [hslot']
    exact (congrArg currentEpoch hentry).ge

lemma Extends.reached (h : Extends t t') (hp : t.Reached point) : t'.Reached point := by
  obtain ⟨slot, hslot, hle⟩ := hp
  obtain ⟨hslot', hentry⟩ := h _ slot hslot
  exact ⟨slot, hslot', hentry ▸ hle⟩

lemma Extends.failed (h : Extends t t') (hslot : t.table.lookup point.axis = some slot)
    (hp : t'.Failed point) : t.Failed point := by
  obtain ⟨slot', hslot', hfailure⟩ := hp
  obtain ⟨hsame, hentry⟩ := h _ slot hslot
  rw [hsame] at hslot'
  cases hslot'
  rw [hentry] at hfailure
  exact ⟨slot, hslot, hfailure⟩

/-- Registering an axis keeps the invariant and everything registered before. -/
lemma Inv.register (h : t.AtRest) (hreg : t.table.register axis = .ok table') :
    ({ t with table := table' } : FrontierTracker).AtRest ∧
      Extends t { t with table := table' } := by
  obtain ⟨free, hnone, -, hfree, rfl⟩ := register_ok hreg
  have hconsistent := h.table.insert hnone hfree
  have hunused := keys_of_firstFree hfree
  have hne : ∀ a s, t.table.lookup a = some s → s ≠ free := by
    rintro a s hs rfl
    rw [keys_of_probe hs] at hunused
    exact nomatch hunused
  have hentry : ∀ s ≠ free, (update t.table.entries free registered) s =
      t.table.entries s := fun s hs => update_of_ne hs ..
  have hextends : Extends t { t with table := { t.table with
      axes := update t.table.axes free (some axis)
      entries := update t.table.entries free .registered
      count := t.table.count + 1 } } := by
    intro a s hs
    refine ⟨probe_update_of_probe hunused hs, hentry s (hne a s hs)⟩
  -- a waiter of the inventory is indexed at a slot that was occupied
  have hplaced_ne : ∀ x ∈ t.inventory, (t.waiters x).axisSlot ≠ free := by
    intro x hx
    obtain ⟨a, -, hslot⟩ := (h.placed x hx not_mem_nil).point
    exact hne a _ hslot
  refine ⟨⟨hconsistent, fun s => ?_, h.nodup, fun s e x => ?_, h.indexed, fun x hx => ?_,
    fun x hx hl => ?_, fun x hx hl _ => ?_⟩, hextends⟩
  · show ((update t.table.entries free registered) s).index.WellFormed
    rcases eq_or_ne s free with rfl | hs
    · rw [update_self]
      exact .empty
    · rw [hentry s hs]
      exact h.index s
  · show ((update t.table.entries free registered) s).index.Holds e x ↔ _
    rcases eq_or_ne s free with rfl | hs
    · rw [update_self]
      exact ⟨fun hc => absurd hc AxisIndex.not_holds_empty,
        fun hc => absurd hc.2.1 (hplaced_ne x hc.1.1)⟩
    · rw [hentry s hs]
      exact h.holds s e x
  · refine ⟨(h.waiting x hx).valid, fun point hpoint => ?_⟩
    obtain ⟨s, hs⟩ := (h.waiting x hx).known point hpoint
    exact ⟨s, (hextends _ s hs).1⟩
  · obtain ⟨⟨a, hpoint, hslot⟩, hbefore⟩ := h.placed x hx hl
    exact ⟨⟨a, hpoint, (hextends a _ hslot).1⟩,
      fun j hj point hp => hextends.reached (hbefore j hj point hp)⟩
  · show ((update t.table.entries free registered) _).currentEpoch < _
    rw [hentry _ (hplaced_ne x hx)]
    exact h.unreached x hx hl not_false

/-! ### Waiting -/

lemma validateAxes_ok (h : t.validateAxes i points = .ok ()) :
    ∀ point ∈ points, ∃ slot, t.table.lookup point.axis = some slot := by
  induction points generalizing i with
  | nil => simp
  | cons point rest ih =>
    rw [validateAxes] at h
    split_ifs at h with hnone
    refine forall_mem_cons.mpr ⟨?_, ih h⟩
    exact Option.ne_none_iff_exists'.mp (by simpa using hnone)

/-- What a check of the points from index `i` on knows about those before: none has failed, and
they are reached up to the pending ordinal. -/
structure Scanned (t : FrontierTracker) (points : List FrontierEntry) (i : ℕ)
    (pendingOrdinal : Option ℕ) : Prop where
  lt : ∀ ordinal, pendingOrdinal = some ordinal → ordinal < i
  healthy : ∀ j < i, ∀ point, points[j]? = some point → ¬ t.Failed point
  reached : ∀ j < i, (∀ ordinal, pendingOrdinal = some ordinal → j < ordinal) →
    ∀ point, points[j]? = some point → t.Reached point

/-- The answer of a check: satisfied with everything reached, failed at a failed point, or pending
behind reached points with no failed one. -/
def CheckCorrect (t : FrontierTracker) (points : List FrontierEntry) : WaiterCheck → Prop
  | .satisfied => ∀ point ∈ points, t.Reached point
  | .failed status => status.isOk = false ∧ ∃ point ∈ points, t.Failed point
  | .pending ordinal => (∀ point ∈ points, ¬ t.Failed point) ∧
      ∀ j < ordinal, ∀ point, points[j]? = some point → t.Reached point

/-- One more point is scanned. -/
lemma Scanned.succ {pending pending' : Option ℕ} (h : t.Scanned points i pending)
    (hpoint : points[i]? = some point) (hhealthy : ¬ t.Failed point)
    (hpending : ∀ ordinal, pending = some ordinal → pending' = some ordinal)
    (hlt : ∀ ordinal, pending' = some ordinal → ordinal < i + 1)
    (hreached : (∀ ordinal, pending' = some ordinal → i < ordinal) → t.Reached point) :
    t.Scanned points (i + 1) pending' := by
  refine ⟨hlt, ?_, ?_⟩
  · intro j hj p hp
    rcases Nat.lt_succ_iff_lt_or_eq.mp hj with hj | rfl
    · exact h.healthy j hj p hp
    · rw [hpoint] at hp
      exact Option.some.inj hp ▸ hhealthy
  · intro j hj hord p hp
    rcases Nat.lt_succ_iff_lt_or_eq.mp hj with hj | rfl
    · exact h.reached j hj (fun ordinal ho => hord ordinal (hpending ordinal ho)) p hp
    · rw [hpoint] at hp
      exact Option.some.inj hp ▸ hreached hord

/-- The check of a frontier on known axes is correct. -/
lemma checkFrontier_correct {rest : List FrontierEntry} {pending : Option ℕ}
    (hknown : ∀ point ∈ points, ∃ slot, t.table.lookup point.axis = some slot)
    (hrest : rest = points.drop i) (hscanned : t.Scanned points i pending) :
    t.CheckCorrect points (t.checkFrontier i pending rest) := by
  induction rest generalizing i pending with
  | nil =>
    have hlength : points.length ≤ i := drop_eq_nil_iff.mp hrest.symm
    have hindex : ∀ point ∈ points, ∃ j < i, points[j]? = some point := by
      intro point hpoint
      obtain ⟨j, hj, hget⟩ := mem_iff_getElem.mp hpoint
      exact ⟨j, hj.trans_le hlength, List.getElem?_eq_some_iff.mpr ⟨hj, hget⟩⟩
    cases pending with
    | none =>
      intro point hpoint
      obtain ⟨j, hj, hget⟩ := hindex point hpoint
      exact hscanned.reached j hj (by simp) point hget
    | some =>
      refine ⟨fun point hpoint => ?_, fun j hj point hget => ?_⟩
      · obtain ⟨j, hj, hget⟩ := hindex point hpoint
        exact hscanned.healthy j hj point hget
      · obtain ⟨hlt, -⟩ := List.getElem?_eq_some_iff.mp hget
        exact hscanned.reached j (hlt.trans_le hlength)
          (fun o ho => Option.some.inj ho ▸ hj) point hget
  | cons point rest ih =>
    have hpoint : points[i]? = some point := by
      have hhead := congrArg (fun l : List FrontierEntry => l[0]?) hrest
      simpa using hhead.symm
    have hrest' : rest = points.drop (i + 1) := by
      rw [← tail_drop, ← hrest, tail_cons]
    have hmem := mem_of_getElem? hpoint
    obtain ⟨slot, hslot⟩ := hknown point hmem
    rw [checkFrontier, hslot]
    dsimp only
    split_ifs with hfailure hpending
    · have hbad : ((t.entry slot).failure point.axis point.epoch).isOk = false := by
        simpa using hfailure
      exact ⟨hbad, point, hmem, slot, hslot, hbad⟩
    all_goals
      have hhealthy : ¬ t.Failed point := by
        rintro ⟨s, hs, hf⟩
        rw [hslot] at hs
        rw [← Option.some.inj hs] at hf
        exact hfailure (by rw [hf]; rfl)
    · -- the ordinal now pending is this one or an earlier one
      have hle : ∃ o, pending.or (some i) = some o ∧ o ≤ i := by
        cases hp : pending with
        | none => exact ⟨i, rfl, Nat.le_refl i⟩
        | some o => exact ⟨o, rfl, (hscanned.lt o hp).le⟩
      obtain ⟨o, ho, hoi⟩ := hle
      refine ih hrest' (hscanned.succ hpoint hhealthy (fun o ho => by rw [ho]; rfl)
        (fun o' ho' => ?_) fun hord => absurd (hord o ho) hoi.not_gt)
      rw [ho] at ho'
      exact Nat.lt_succ_of_le (Option.some.inj ho' ▸ hoi)
    · exact ih hrest' (hscanned.succ hpoint hhealthy (fun o ho => ho)
        (fun o ho => (hscanned.lt o ho).trans (Nat.lt_succ_self i))
        fun _ => ⟨slot, hslot, not_lt.mp hpending⟩)

/-- Storage outside the inventory may be written freely, unless as indexed. -/
lemma Inv.setWaiter {w : Waiter} (h : t.AtRest) (hw : waiter ∉ t.inventory)
    (hflag : w.indexed = false) : (t.setWaiter waiter w).AtRest := by
  have hne : ∀ x ∈ t.inventory, x ≠ waiter := fun x hx hc => hw (hc ▸ hx)
  have hsame := sameAxes_setWaiter t waiter w
  refine ⟨h.table, h.index, h.nodup, fun s e x => ?_, fun x hx => ?_, fun x hx => ?_,
    fun x hx hl => ?_, fun x hx hl hbusy => ?_⟩
  · rw [entry_setWaiter, inventory_setWaiter, waiters_setWaiter, h.holds]
    refine and_congr_right fun hx => ?_
    rw [update_of_ne (hne x hx.1)]
  · rw [inventory_setWaiter, waiters_setWaiter]
    rcases eq_or_ne x waiter with rfl | hx'
    · simp [hflag, hw]
    · rw [update_of_ne hx']
      exact h.indexed x hx
  all_goals
    rw [waiters_setWaiter, update_of_ne (hne x hx)] at *
  · exact (h.waiting x hx).congr hsame rfl
  · exact (h.placed x hx hl).congr hsame
  · exact h.unreached x hx hl hbusy

/-- A waiter enters the inventory loose. -/
lemma Inv.push (h : t.AtRest) (hw : waiter ∉ t.inventory)
    (hwaiting : t.Waiting (t.waiters waiter)) :
    ({ t with inventory := waiter :: t.inventory } : FrontierTracker).Inv [waiter]
      fun _ => False := by
  have hsame : SameAxes t { t with inventory := waiter :: t.inventory } := .of_table_eq rfl
  have hmem : ∀ x, x ∈ waiter :: t.inventory → x ∉ [waiter] → x ∈ t.inventory := by
    intro x hx hne
    exact (mem_cons.mp hx).resolve_left fun hc => hne (mem_singleton.mpr hc)
  have hnil : ∀ x : ℕ, x ∉ ([] : List ℕ) := fun _ => not_mem_nil
  refine ⟨h.table, h.index, nodup_cons.mpr ⟨hw, h.nodup⟩, fun s e x => ?_, fun x hx => ?_,
    fun x hx => ?_, fun x hx hl => ?_, fun x hx hl hbusy => ?_⟩
  · refine (h.holds s e x).trans (and_congr_left fun _ => ?_)
    constructor
    · rintro ⟨hx, -⟩
      exact ⟨mem_cons_of_mem _ hx, fun hc => hw (mem_singleton.mp hc ▸ hx)⟩
    · rintro ⟨hx, hne⟩
      exact ⟨hmem x hx hne, hnil x⟩
  · exact (h.indexed x (hnil x)).trans ⟨mem_cons_of_mem _, fun hc => hmem x hc hx⟩
  · rcases mem_cons.mp hx with rfl | hx
    · exact hwaiting.congr hsame rfl
    · exact (h.waiting x hx).congr hsame rfl
  · exact (h.placed x (hmem x hx hl) (hnil x)).congr hsame
  · exact h.unreached x (hmem x hx hl) (hnil x) hbusy

/-- What entering a wait leaves behind: the waiter is pending, or it was called back. -/
structure Entered (t t' : FrontierTracker) (waiter : ℕ) (callbacks : List Callback) : Prop where
  inv : t'.Inv [] fun _ => False
  same : SameAxes t t'
  frontier : ∀ x, (t'.waiters x).frontier = (t.waiters x).frontier
  userData : ∀ x, (t'.waiters x).userData = (t.waiters x).userData
  outcome : (callbacks = [] ∧ (∀ x, x ∈ t'.inventory ↔ x = waiter ∨ x ∈ t.inventory) ∧
      ∀ point ∈ (t.waiters waiter).frontier.toList, ¬ t.Failed point) ∨
    ∃ status, callbacks = [((t.waiters waiter).userData, status)] ∧
      (∀ x, x ∈ t'.inventory ↔ x ∈ t.inventory) ∧
      t.Justified (t.waiters waiter).frontier status

lemma Inv.enterWait (h : t.AtRest) (hflag : (t.waiters waiter).indexed = false)
    (hwaiting : t.Waiting (t.waiters waiter)) :
    Entered t (t.enterWait waiter).1 waiter (t.enterWait waiter).2 := by
  have hw : waiter ∉ t.inventory := by
    rw [← h.indexed waiter not_mem_nil, hflag]
    exact Bool.false_ne_true
  have hcheck : t.CheckCorrect (t.waiters waiter).frontier.toList
      (t.checkFrontier 0 none (t.waiters waiter).frontier.toList) :=
    checkFrontier_correct hwaiting.known drop_zero.symm ⟨by simp, by simp, by simp⟩
  unfold FrontierTracker.enterWait
  dsimp only
  split
  · next heq =>
    rw [heq] at hcheck
    exact ⟨h, .refl t, fun _ => rfl, fun _ => rfl, .inr ⟨.ok, rfl, fun _ => Iff.rfl,
      fun _ => hcheck, fun hc => nomatch hc⟩⟩
  · next status heq =>
    rw [heq] at hcheck
    exact ⟨h, .refl t, fun _ => rfl, fun _ => rfl, .inr ⟨status, rfl, fun _ => Iff.rfl,
      fun hc => absurd (hcheck.1.symm.trans hc) Bool.false_ne_true, fun _ => hcheck.2⟩⟩
  next ordinal heq =>
  rw [heq] at hcheck
  obtain ⟨hhealthy, hbefore⟩ := hcheck
  have hsame : SameAxes t { t with inventory := waiter :: t.inventory } := .of_table_eq rfl
  have hpush := h.push hw hwaiting
  rcases hpush.indexNext (mem_cons_self ..) not_mem_nil hbefore with
    ⟨hnext, hall⟩ | ⟨point, o, slot, -, -, -, hnext, hinv⟩
  · -- everything is reached after all: the waiter leaves again
    rw [hnext]
    have herase : (waiter :: t.inventory).erase waiter = t.inventory := erase_cons_head ..
    refine ⟨hpush.unlinkWaiter hflag, hsame.trans (sameAxes_unlinkWaiter _ waiter),
      fun _ => rfl, fun _ => rfl, .inr ⟨.ok, rfl, fun x => ?_, fun _ point hpoint => ?_,
      fun hc => nomatch hc⟩⟩
    · show x ∈ (waiter :: t.inventory).erase waiter ↔ _
      rw [herase]
    · exact hsame.reached_iff.mp (hall point hpoint)
  · rw [hnext]
    have hsettles := settles_indexInsert
      ({ t with inventory := waiter :: t.inventory } : FrontierTracker) waiter slot o point.epoch
    exact ⟨hinv, hsame.trans hsettles.same, hsettles.frontier, hsettles.userData,
      .inl ⟨rfl, fun x => mem_cons, hhealthy⟩⟩

/-- An accepted wait enters with its storage written, on registered axes. -/
lemma Inv.wait {frontier : Frontier} {userData : ℕ} {result : FrontierTracker × List Callback}
    (h : t.AtRest) (hvalid : frontier.Valid)
    (hflag : (t.waiters waiter).indexed = false)
    (hwait : t.wait frontier userData waiter = .ok result) :
    Entered (t.setWaiter waiter ⟨frontier, userData, 0, 0, 0, false⟩) result.1 waiter
      result.2 := by
  have hw : waiter ∉ t.inventory := by
    rw [← h.indexed waiter not_mem_nil, hflag]
    exact Bool.false_ne_true
  unfold FrontierTracker.wait at hwait
  split at hwait
  · exact nomatch hwait
  next hknown =>
  have hself : (t.setWaiter waiter ⟨frontier, userData, 0, 0, 0, false⟩).waiters waiter =
      ⟨frontier, userData, 0, 0, 0, false⟩ := update_self ..
  rw [← Except.ok.inj hwait]
  refine (h.setWaiter hw rfl).enterWait (by rw [hself]) ?_
  have haxes := validateAxes_ok hknown
  rw [hself]
  exact ⟨hvalid, haxes⟩

/-! ### Cancelling -/

/-- Erasing and unlinking a pending waiter. -/
lemma Inv.removeWaiter (h : t.AtRest) (hw : waiter ∈ t.inventory) :
    Settles t ((t.indexErase waiter).unlinkWaiter waiter) [waiter] ∧
      ((t.indexErase waiter).unlinkWaiter waiter).AtRest := by
  have herased := h.indexErase hw not_mem_nil
  have hunlink : Settles (t.indexErase waiter) (FrontierTracker.unlinkWaiter _ waiter) [waiter] :=
    settles_unlinkWaiter h.nodup hw
  refine ⟨(settles_indexErase t waiter).trans hunlink, herased.unlinkWaiter ?_⟩
  show (update t.waiters waiter _ waiter).indexed = false
  rw [update_self]

/-- A pending waiter is in the inventory, and cancelling takes it out. -/
lemma Inv.cancelWait (h : t.AtRest)
    (hflag : (t.waiters waiter).indexed = true) :
    Settles t (t.cancelWait waiter).1 [waiter] ∧ (t.cancelWait waiter).1.AtRest ∧
      (t.cancelWait waiter).2 = true := by
  have hcancel : t.cancelWait waiter = ((t.indexErase waiter).unlinkWaiter waiter, true) :=
    if_pos hflag
  rw [hcancel]
  obtain ⟨hsettles, hinv⟩ := h.removeWaiter ((h.indexed waiter not_mem_nil).mp hflag)
  exact ⟨hsettles, hinv, rfl⟩

/-! ### Failing -/

/-- A frontier's requirement on an axis is the epoch of its entry there. -/
lemma findAxis_eq_some_iff {frontier : Frontier} (hvalid : frontier.Valid) {epoch : ℕ} :
    findAxis frontier axis = some epoch ↔ (⟨axis, epoch⟩ : FrontierEntry) ∈ frontier.toList := by
  have hunique := hvalid.1
  unfold findAxis
  generalize frontier.toList = points at hunique
  induction points with
  | nil => simp
  | cons point rest ih =>
    obtain ⟨hfirst, hrest⟩ := pairwise_cons.mp hunique
    rw [List.find?_cons, mem_cons]
    rcases eq_or_ne point.axis axis with rfl | hne
    · simp only [beq_self_eq_true, Option.map_some, Option.some.injEq]
      constructor
      · rintro rfl
        exact .inl rfl
      · rintro (heq | hmem)
        · rw [← heq]
        · exact absurd (hfirst _ hmem) (Nat.lt_irrefl _)
    · have hbeq : (point.axis == axis) = false := by simpa using hne
      rw [hbeq]
      refine (ih hrest).trans ⟨.inr, fun hmem => hmem.resolve_left fun heq => hne ?_⟩
      rw [← heq]

/-- The inventory loop of a failure takes out exactly the waiters at or behind it. -/
lemma Inv.failWaiters {waiters : List ℕ} (h : t.AtRest)
    (axis failureEpoch : ℕ) (hnodup : waiters.Nodup)
    (hmem : ∀ x ∈ waiters, x ∈ t.inventory) :
    ∃ gone, (failWaiters axis failureEpoch waiters t).2 =
        gone.map (fun x => (t.waiters x).userData) ∧
      Settles t (failWaiters axis failureEpoch waiters t).1 gone ∧
      (failWaiters axis failureEpoch waiters t).1.AtRest ∧
      (∀ x ∈ gone, x ∈ waiters) ∧
      ∀ x ∈ waiters, (x ∈ gone ↔
        ∃ epoch ≥ failureEpoch, findAxis (t.waiters x).frontier axis = some epoch) := by
  induction waiters generalizing t with
  | nil => exact ⟨[], rfl, .refl t, h, by simp, by simp⟩
  | cons waiter rest ih =>
    obtain ⟨hfresh, hrest⟩ := nodup_cons.mp hnodup
    obtain ⟨hw, hrest_mem⟩ := forall_mem_cons.mp hmem
    by_cases hfails : ∃ epoch ≥ failureEpoch,
        findAxis (t.waiters waiter).frontier axis = some epoch
    · obtain ⟨epoch, hepoch, hsome⟩ := hfails
      rw [failWaiters, hsome]
      dsimp only
      rw [if_pos hepoch]
      obtain ⟨hremoved, hinv⟩ := h.removeWaiter hw
      have hne : ∀ x ∈ rest, x ∉ [waiter] := fun x hx hc => hfresh (mem_singleton.mp hc ▸ hx)
      obtain ⟨gone, htokens, hsettles, hinv', hgone, hiff⟩ := ih hinv hrest
        fun x hx => (hremoved.inventory x).mpr ⟨hrest_mem x hx, hne x hx⟩
      refine ⟨waiter :: gone, ?_, hremoved.trans hsettles, hinv', fun x hx => ?_,
        forall_mem_cons.mpr ⟨?_, fun x hx => ?_⟩⟩
      · dsimp only
        rw [htokens, map_cons]
        congr 1
        exact map_congr_left fun x _ => hremoved.userData x
      · exact (mem_cons.mp hx).elim (fun hc => hc ▸ mem_cons_self ..)
          fun hc => mem_cons_of_mem _ (hgone x hc)
      · exact ⟨fun _ => ⟨epoch, hepoch, hsome⟩, fun _ => mem_cons_self ..⟩
      · rw [mem_cons, hiff x hx, hremoved.frontier x]
        exact or_iff_right fun hc => hfresh (hc ▸ hx)
    · -- a waiter that is not affected is passed over
      have hskip : failWaiters axis failureEpoch (waiter :: rest) t =
          failWaiters axis failureEpoch rest t := by
        rw [failWaiters]
        split
        · rfl
        · next epoch hsome => exact if_neg fun hepoch => hfails ⟨epoch, hepoch, hsome⟩
      rw [hskip]
      obtain ⟨gone, htokens, hsettles, hinv, hgone, hiff⟩ := ih h hrest hrest_mem
      refine ⟨gone, htokens, hsettles, hinv, fun x hx => mem_cons_of_mem _ (hgone x hx),
        forall_mem_cons.mpr ⟨?_, hiff⟩⟩
      exact ⟨fun hc => absurd (hgone waiter hc) hfresh, fun hc => absurd hc hfails⟩

/-- A recorded failure is a real one, and a point sees it exactly from the failure epoch on. -/
lemma recordFailure_spec {e' : AxisEntry} {status status' : Status}
    (hstatus : status.isOk = false) (hepoch : isJoin axis = true ∨ failureEpoch = 0)
    (h : recordFailure e axis status failureEpoch = some (e', status')) :
    status'.isOk = false ∧ e'.currentEpoch = e.currentEpoch ∧ e'.index = e.index ∧
      ∀ epoch, (e'.failure axis epoch).isOk = false ↔ failureEpoch ≤ epoch := by
  unfold recordFailure at h
  split_ifs at h with hjoin hearlier hfailed
  · cases h
    have hkept : (keepFirst e.timeline.failureStatus status).isOk = false := by
      unfold keepFirst
      split_ifs with hok
      · exact hstatus
      · simpa using hok
    refine ⟨hkept, rfl, rfl, fun epoch => ?_⟩
    unfold AxisEntry.failure
    rw [if_pos hjoin]
    split_ifs with hle
    · exact ⟨fun _ => hle, fun _ => hkept⟩
    · exact ⟨fun hc => (nomatch hc), fun hc => absurd hc hle⟩
  · cases h
    refine ⟨hstatus, rfl, rfl, fun epoch => ?_⟩
    unfold AxisEntry.failure
    rw [if_neg hjoin, hepoch.resolve_left hjoin]
    exact ⟨fun _ => Nat.zero_le _, fun _ => hstatus⟩

/-! ### Calls that deliver -/

/-- A call that delivers: the waiters `gone` leave, each called back with a status justified in the
state the call leaves; everything else goes on. -/
structure Delivers (t : FrontierTracker) (result : FrontierTracker × List Callback) : Prop where
  inv : result.1.Inv [] fun _ => False
  healthy : result.1.Healthy
  epochs : ∀ axis, t.epochOf axis ≤ result.1.epochOf axis
  delivery : ∃ gone status, Leaves t result.1 gone ∧
    result.2 = gone.map (fun x => ((t.waiters x).userData, status)) ∧
    ∀ x ∈ gone, result.1.Justified (t.waiters x).frontier status

/-- A call that delivers nothing. -/
lemma Delivers.silent (hinv : t'.AtRest) (hhealthy : t'.Healthy)
    (hepochs : ∀ axis, t.epochOf axis ≤ t'.epochOf axis) (hleaves : Leaves t t' []) :
    Delivers t (t', []) :=
  ⟨hinv, hhealthy, hepochs, [], .ok, hleaves, rfl, by simp⟩

lemma Delivers.refl (h : t.AtRest) (hhealthy : t.Healthy) : Delivers t (t, []) :=
  .silent h hhealthy (fun _ => le_rfl) (Settles.refl t).toLeaves

lemma delivers_advance (h : t.AtRest) (hhealthy : t.Healthy) (axis epoch : ℕ) :
    Delivers t (t.advance axis epoch) := by
  obtain ⟨gone, hcallbacks, hleaves, hdelivered, hinv, hfailed, hepochs⟩ := h.advance axis epoch
  refine ⟨hinv, hhealthy.leaves hleaves hfailed, fun a => ?_, gone, .ok, hleaves, hcallbacks,
    fun x hx => ⟨fun _ => ?_, fun hc => nomatch hc⟩⟩
  · rw [hepochs a]
    split_ifs
    · exact le_max_left _ _
    · exact le_rfl
  · rw [← hleaves.frontier x]
    exact hdelivered x hx

/-- Registering an axis delivers nothing. -/
lemma delivers_register (h : t.AtRest) (hhealthy : t.Healthy)
    (hreg : t.table.register axis = .ok table') : Delivers t ({ t with table := table' }, []) := by
  obtain ⟨hinv, hextends⟩ := h.register hreg
  refine .silent hinv (fun x hx point hpoint hc => ?_) hextends.epochOf_le
    (.of_inventory_eq (fun _ => rfl) (fun _ => rfl) rfl)
  obtain ⟨slot, hslot⟩ := (h.waiting x hx).known point hpoint
  exact hhealthy x hx point hpoint (hextends.failed hslot hc)

/-- A change of the timeline leases only. -/
lemma Delivers.of_eq (h : Delivers t (t', [])) (idle : List ℕ) (next : ℕ) :
    Delivers t ({ t' with idleTimelines := idle, nextTimelineOrdinal := next }, []) := by
  have hsame : SameAxes t' { t' with idleTimelines := idle, nextTimelineOrdinal := next } :=
    .of_table_eq rfl
  obtain ⟨hinv, hhealthy, hepochs, gone, status, hleaves, hcallbacks, hjustified⟩ := h
  obtain rfl : gone = [] := map_eq_nil_iff.mp hcallbacks.symm
  refine .silent ⟨hinv.table, hinv.index, hinv.nodup, hinv.holds, hinv.indexed, ?_, ?_,
    hinv.unreached⟩ hhealthy hepochs ⟨hleaves.1, hleaves.2, hleaves.3, hleaves.4, hleaves.5⟩
  · exact fun x hx => (hinv.waiting x hx).congr hsame rfl
  · exact fun x hx hl => (hinv.placed x hx hl).congr hsame

/-- After a failure is written, a point of a waiter sees a failure only if the waiter is at or
behind it. -/
lemma failed_setFailure (point : FrontierEntry) (hslot : t.table.lookup axis = some slot)
    (hfailure : ∀ epoch, (e.failure axis epoch).isOk = false ↔ failureEpoch ≤ epoch)
    (h : (t.setEntry slot e).Failed point) :
    t.Failed point ∨ (point.axis = axis ∧ failureEpoch ≤ point.epoch) := by
  obtain ⟨s, hs, hf⟩ := h
  rw [lookup_setEntry] at hs
  rw [entry_setEntry] at hf
  rcases eq_or_ne s slot with rfl | hne
  · -- one slot holds one axis
    have hkey := keys_of_probe hs
    rw [keys_of_probe hslot] at hkey
    have haxis : point.axis = axis := (Option.some.inj hkey).symm
    rw [update_self, haxis, hfailure] at hf
    exact .inr ⟨haxis, hf⟩
  · rw [update_of_ne hne] at hf
    exact .inl ⟨s, hs, hf⟩

lemma delivers_failAxisImpl {status : Status} (h : t.AtRest) (hhealthy : t.Healthy)
    (hstatus : status.isOk = false) (hepoch : isJoin axis = true ∨ failureEpoch = 0) :
    Delivers t (t.failAxisImpl axis status failureEpoch) := by
  unfold failAxisImpl
  cases hslot : t.table.lookup axis with
  | none => exact .refl h hhealthy
  | some slot =>
    dsimp only
    cases hrecord : recordFailure (t.entry slot) axis status failureEpoch with
    | none => exact .refl h hhealthy
    | some result =>
      obtain ⟨e, status'⟩ := result
      obtain ⟨hstatus', hcurrent, hindex, hfailure⟩ := recordFailure_spec hstatus hepoch hrecord
      have hfailed_set := fun point => failed_setFailure point hslot hfailure
      obtain ⟨gone, htokens, hsettles, hinv, -, hgone⟩ :=
        (h.setEntry hindex hcurrent.ge (.inr hcurrent)).failWaiters axis failureEpoch h.nodup
          fun x hx => hx
      have hleaves : Leaves t (failWaiters axis failureEpoch t.inventory (t.setEntry slot e)).1
          gone := ⟨hsettles.frontier, hsettles.userData, hsettles.nodup, hsettles.mem,
        hsettles.inventory⟩
      have hvalid : ∀ x ∈ t.inventory, (t.waiters x).frontier.Valid :=
        fun x hx => (h.waiting x hx).valid
      refine ⟨hinv, fun x hx point hpoint hc => ?_, fun a => ?_, gone, status', hleaves, ?_,
        fun x hx => ⟨fun hc => ?_, fun _ => ?_⟩⟩
      · -- a waiter that stays is not at or behind the failure
        obtain ⟨hold_mem, hstays⟩ := (hleaves.inventory x).mp hx
        rw [hleaves.frontier x] at hpoint
        rcases hfailed_set point (hsettles.same.failed_iff.mp hc) with hold | ⟨rfl, hle⟩
        · exact hhealthy x hold_mem point hpoint hold
        · refine hstays ((hgone x hold_mem).mpr ⟨point.epoch, hle, ?_⟩)
          exact (findAxis_eq_some_iff (hvalid x hold_mem)).mpr hpoint
      · rw [hsettles.same.epochOf]
        exact epochOf_setEntry hcurrent.ge a
      · dsimp only
        rw [htokens, map_map]
        rfl
      · exact absurd (hstatus'.symm.trans hc) Bool.false_ne_true
      · have hx' := hsettles.mem x hx
        obtain ⟨epoch, hle, hfind⟩ := (hgone x hx').mp hx
        refine ⟨⟨axis, epoch⟩, (findAxis_eq_some_iff (hvalid x hx')).mp hfind, ?_⟩
        refine hsettles.same.failed_iff.mpr ⟨slot, hslot, ?_⟩
        rw [entry_setEntry, update_self, hfailure]
        exact hle

end FrontierTracker

end Hrx.Tracker
