import Hrx.Semaphore.Equiv.Invariant

/-!
# Every step keeps the invariant

Most steps move no timepoint: they load or exchange a word and change only what the thread knows.
The others hand timepoints over, from the caller to a thread, from a thread to the index, from the
index to a dispatching thread and from a thread to its callback.
-/

namespace Hrx.Semaphore.System

open Function List

variable {θ : Type*} [DecidableEq θ] {s : System θ} {thread : θ}

/-! ### Steps that move no timepoint -/

variable {pc pc' : Pc} {status : Status} {t : Timepoint} (hi : s.Inv)
include hi

omit [DecidableEq θ] in
lemma Inv.asserts_of (hpc : s.pc thread = pc) : s.Asserts pc := hpc ▸ hi.asserts thread

/-- A step that moves no timepoint keeps the invariant if the thread goes on with what it has
published. -/
lemma Inv.silent (semaphore : Semaphore) (hpc : s.pc thread = pc')
    (hindex : semaphore.timepoints = s.semaphore.timepoints)
    (he : s.Evolves { s.goto thread pc with semaphore }) (hheld : pc.held = pc'.held)
    (hself : { s.goto thread pc with semaphore }.Asserts pc)
    (htimeline : semaphore.timelineValue = s.semaphore.timelineValue ∨
      pc.publishes = some semaphore.timelineValue)
    (hpublishes : ∀ value, pc'.publishes = some value → pc.publishes = some value ∨
      semaphore.failureStatus.isOk = false)
    (hfailure : semaphore.failureStatus.isOk = false → s.semaphore.failureStatus.isOk = false ∨
      pc.detaches = true)
    (hdetaches : pc'.detaches = false) : { s.goto thread pc with semaphore }.Inv := by
  subst hpc
  have hpending : ∀ key t, semaphore.Pending key t ↔ s.semaphore.Pending key t := by
    intro key t
    unfold Semaphore.Pending
    rw [hindex]
  have hheld_eq : ∀ other, ((s.goto thread pc).pc other).held = (s.pc other).held :=
    forall_pc_update (p := fun other pc => pc.held = (s.pc other).held) rfl hheld fun _ _ => rfl
  refine ⟨?_, fun key t hkey => ?_, ?_, fun other => ?_, hi.calledNodup, fun t status ht => ?_,
    fun t => ?_, ?_⟩
  · rw [hindex]
    exact hi.index
  · exact hi.minimum key t ((hpending key t).mp hkey)
  · exact hi.asserts_update rfl he rfl (fun _ _ => rfl) hself
  · rw [hheld_eq]
    exact hi.nodup other
  · exact (hi.justified t status ht).mono he rfl
  · obtain ⟨owner, ho⟩ := hi.owned t
    refine ⟨owner, ho.congr ⟨rfl, fun other => ?_, ?_, Iff.rfl⟩⟩
    · rw [hheld_eq]
    · exact exists_congr fun key => hpending key t
  · refine hi.covered.update rfl he (fun key t hkey => Or.inl ((hpending key t).mp hkey)) htimeline
      (fun value hvalue => ?_) hfailure fun hc => ?_
    · exact (hpublishes value hvalue).imp_right Or.inl
    · rw [hdetaches] at hc
      exact absurd hc (by simp)

/-- A step that only moves the thread, which has published nothing or goes on with it. -/
lemma Inv.goto (hpc : s.pc thread = pc') (hheld : pc.held = pc'.held)
    (hself : (s.goto thread pc).Asserts pc)
    (hpublishes : pc.publishes = pc'.publishes ∨ s.semaphore.failureStatus.isOk = false)
    (hdetaches : pc'.detaches = false) : (s.goto thread pc).Inv :=
  hi.silent s.semaphore hpc rfl (.of_semaphore_eq rfl) hheld hself (Or.inl rfl)
    (fun _ hvalue => hpublishes.imp_left (·.trans hvalue)) Or.inl hdetaches

omit hi in
lemma mergeFrontier_timepoints (semaphore : Semaphore) (frontier : Option Frontier) :
    (semaphore.mergeFrontier frontier).1.timepoints = semaphore.timepoints ∧
      (semaphore.mergeFrontier frontier).1.timelineValue = semaphore.timelineValue ∧
      (semaphore.mergeFrontier frontier).1.failureStatus = semaphore.failureStatus := by
  unfold mergeFrontier
  split
  · exact ⟨rfl, rfl, rfl⟩
  · split_ifs <;> exact ⟨rfl, rfl, rfl⟩

omit hi in
/-- What a thread has published once the timeline value is exchanged. -/
lemma published_publishes (p : Publication) :
    p.published.publishes = some p.value ∧ p.published.held = [] := by
  unfold Publication.published
  cases p.kind <;> exact ⟨rfl, rfl⟩

omit hi in
lemma merged_publishes (p : Publication) (fits : Bool) :
    (p.merged fits).publishes = some p.value ∧ (p.merged fits).held = [] := by
  unfold Publication.merged
  cases p.kind <;> cases fits <;> exact ⟨rfl, rfl⟩

omit hi in
omit [DecidableEq θ] in
lemma asserts_of_publishes {value : ℕ} (hvalue : pc.publishes = some value)
    (hle : value ≤ s.semaphore.timelineValue) : s.Asserts pc := by
  cases pc <;> simp only [Pc.publishes, Option.some.injEq, reduceCtorEq] at hvalue <;>
    subst hvalue <;>
    exact hle

/-- The exchange of the timeline value: the new value is covered by the thread itself. -/
lemma Inv.exchangeTimeline {p : Publication}
    (hpc : s.pc thread = .exchangeTimeline p s.semaphore.timelineValue) :
    { s.goto thread p.published with
      semaphore := { s.semaphore with timelineValue := p.value } }.Inv := by
  have hlt : s.semaphore.timelineValue < p.value := hi.asserts_of hpc
  obtain ⟨hpublishes, hheld⟩ := published_publishes p
  apply hi.silent _ hpc
  · rfl
  · exact ⟨hlt.le, fun _ => rfl⟩
  · exact hheld
  · exact asserts_of_publishes hpublishes le_rfl
  · exact Or.inr hpublishes
  · exact fun _ hvalue => absurd hvalue (by simp [Pc.publishes])
  · exact Or.inl
  · rfl

/-- The merge of the frontier. -/
lemma Inv.merge {p : Publication} (hpc : s.pc thread = .merge p) :
    { s.goto thread (p.merged (s.semaphore.mergeFrontier p.frontier).2) with
      semaphore := (s.semaphore.mergeFrontier p.frontier).1 }.Inv := by
  have hle : p.value ≤ s.semaphore.timelineValue := hi.asserts_of hpc
  obtain ⟨hindex, htimeline, hfailure⟩ := mergeFrontier_timepoints s.semaphore p.frontier
  obtain ⟨hpublishes, hheld⟩ := merged_publishes p (s.semaphore.mergeFrontier p.frontier).2
  apply hi.silent _ hpc hindex
  · exact ⟨htimeline.ge, fun _ => hfailure⟩
  · exact hheld
  · exact asserts_of_publishes hpublishes (hle.trans htimeline.ge)
  · exact Or.inl htimeline
  · exact fun _ hvalue => Or.inl (hpublishes.trans hvalue)
  · rw [hfailure]
    exact Or.inl
  · rfl

/-- The exchange of the failure: the thread itself covers whatever is pending. -/
lemma Inv.exchangeFailure (hpc : s.pc thread = .exchangeFailure status)
    (hok : s.semaphore.failureStatus.isOk = true) :
    { s.goto thread (.detach status) with
      semaphore := { s.semaphore with failureStatus := status } }.Inv := by
  have hstatus : status.isOk = false := hi.asserts_of hpc
  apply hi.silent _ hpc
  · rfl
  · refine ⟨le_rfl, fun hfail => ?_⟩
    rw [hok] at hfail
    exact absurd hfail (by simp)
  · rfl
  · exact ⟨hstatus, rfl⟩
  · exact Or.inl rfl
  · exact fun _ hvalue => absurd hvalue (by simp [Pc.publishes])
  · exact fun _ => Or.inr rfl
  · rfl

/-! ### From the index to a dispatching thread -/

/-- A dispatching thread takes timepoints out of the index. -/
lemma Inv.take {semaphore : Semaphore} {taken : List Timepoint} (hpc : s.pc thread = pc')
    (hheld : pc'.held = []) (hindex : semaphore.timepoints.WellFormed 4)
    (htimeline : semaphore.timelineValue = s.semaphore.timelineValue)
    (hfailure : semaphore.failureStatus = s.semaphore.failureStatus) (hnodup : taken.Nodup)
    (hmem : ∀ t ∈ taken, s.IsPending t ∧ s.Justified t status)
    (hrest : ∀ key t, semaphore.Pending key t ↔ s.semaphore.Pending key t ∧ t ∉ taken)
    (hpublishes : ∀ value, pc'.publishes = some value →
      ∀ key t, semaphore.Pending key t → value < key)
    (hdetaches : pc'.detaches = true → ∀ key t, ¬semaphore.Pending key t) :
    { s.goto thread (.callbacks taken status) with semaphore }.Inv := by
  subst hpc
  have he : s.Evolves { s.goto thread (.callbacks taken status) with semaphore } :=
    ⟨htimeline.ge, fun _ => hfailure⟩
  refine ⟨hindex, fun key t hkey => hi.minimum key t ((hrest key t).mp hkey).1, ?_, fun other => ?_,
    hi.calledNodup, fun t status ht => (hi.justified t status ht).mono he rfl, fun t => ?_, ?_⟩
  · exact hi.asserts_update rfl he rfl (fun _ _ => rfl) fun t ht => (hmem t ht).2.mono he rfl
  · refine forall_pc_update (p := fun _ pc => pc.held.Nodup) rfl ?_ (fun other _ => hi.nodup other)
      other
    exact hnodup
  · obtain ⟨owner, ho⟩ := hi.owned t
    by_cases ht : t ∈ taken
    · obtain rfl := ho.index.mp (hmem t ht).1
      refine ⟨.thread thread, ho.free.trans (by simp), fun other => ?_, ?_,
        ho.fired.trans (by simp),
        ho.released.trans (by simp)⟩
      · refine forall_pc_update (p := fun other pc => t ∈ pc.held ↔
          Owner.thread thread = .thread other)
          rfl ?_ (fun other hne => ?_) other
        · exact iff_of_true ht rfl
        · exact (ho.thread other).trans (by simpa using hne.symm)
      · refine iff_of_false ?_ (by simp)
        rintro ⟨key, hkey⟩
        exact ((hrest key t).mp hkey).2 ht
    · refine ⟨owner, ho.congr ⟨rfl, ?_, ?_, Iff.rfl⟩⟩
      · refine forall_pc_update (p := fun other pc => t ∈ pc.held ↔ t ∈ (s.pc other).held) rfl ?_
          fun _ _ => Iff.rfl
        rw [hheld]
        exact iff_of_false ht not_mem_nil
      · exact exists_congr fun key => (hrest key t).trans (and_iff_left ht)
  · refine hi.covered.update rfl he (fun key t hkey => Or.inl ((hrest key t).mp hkey).1)
      (Or.inl htimeline) (fun value hvalue => Or.inr (Or.inr (hpublishes value hvalue)))
      (fun hfail => Or.inl ?_) hdetaches
    rw [← hfailure]
    exact hfail

/-- The section of `dispatch_timepoints` under the mutex. -/
lemma Inv.dispatch {value : ℕ} (hpc : s.pc thread = .dispatch value) :
    { s.goto thread (.callbacks (s.semaphore.takeSatisfied value).1 .ok) with
      semaphore := (s.semaphore.takeSatisfied value).2 }.Inv := by
  have hle : value ≤ s.semaphore.timelineValue := hi.asserts_of hpc
  obtain ⟨hindex, hnodup, hmem, hrest⟩ :=
    hi.index.takeUpTo (by decide) (le_refl s.semaphore.timepoints.count) value
  apply hi.take hpc
  · rfl
  · exact hindex
  · rfl
  · rfl
  · exact hnodup
  · intro t ht
    obtain ⟨key, hkey, hpending⟩ := (hmem t).mp ht
    refine ⟨⟨key, hpending⟩, fun _ => ?_, fun hfail => absurd hfail (by decide)⟩
    rw [← hi.minimum key t hpending]
    exact hkey.trans hle
  · intro key t
    refine (hrest key t).trans (and_congr_right fun hpending => ?_)
    rw [show t ∉ (s.semaphore.takeSatisfied value).1 ↔ _ from not_congr (hmem t), ← not_le]
    refine not_congr ⟨fun hkey => ⟨key, hkey, hpending⟩, ?_⟩
    rintro ⟨key', hkey', hpending'⟩
    rwa [hi.minimum key t hpending, ← hi.minimum key' t hpending']
  · intro value' hvalue' key t hkey
    cases hvalue'
    exact ((hrest key t).mp hkey).2
  · exact fun hdetaches => absurd hdetaches (by simp [Pc.detaches])

/-- The section of `dispatch_timepoints_failed` under the mutex. -/
lemma Inv.detach (hpc : s.pc thread = .detach status) :
    { s.goto thread (.callbacks s.semaphore.detachAll.1 status) with
      semaphore := s.semaphore.detachAll.2 }.Inv := by
  obtain ⟨hstatus, hfailure⟩ := hi.asserts_of hpc
  obtain ⟨hindex, hcount, hnodup, hmem⟩ := hi.index.drainAll
  have hnone : ∀ key t, ¬s.semaphore.detachAll.2.Pending key t := by
    rintro key t ⟨i, hlt, -⟩
    exact absurd hlt (by rw [show s.semaphore.detachAll.2.timepoints.count = 0 from hcount]; omega)
  apply hi.take hpc
  · rfl
  · exact hindex
  · rfl
  · rfl
  · exact hnodup
  · intro t ht
    refine ⟨(hmem t).mp ht, fun hok => ?_, fun _ => hfailure⟩
    rw [hstatus] at hok
    exact absurd hok (by simp)
  · intro key t
    refine iff_of_false (hnone key t) fun hc => hc.2 ((hmem t).mpr ⟨key, hc.1⟩)
  · exact fun _ _ key t hkey => absurd hkey (hnone key t)
  · exact fun _ => hnone

/-! ### From a thread to a callback -/

/-- A thread runs the callback of a timepoint it holds. -/
lemma Inv.fire {rest : List Timepoint} {stage : Timepoint → Stage} (hpc : s.pc thread = pc')
    (hheld : pc'.held = t :: rest) (hrest : pc.held = rest)
    (hself : ∀ s' : System θ, s.Evolves s' → s'.minimumValue = s.minimumValue → s'.Asserts pc)
    (hjustified : s.Justified t status) (hother : ∀ t' ≠ t, stage t' = s.stage t')
    (hstage : stage t = s.stage t ∨ stage t = .acquired)
    (hpublishes : pc'.publishes = none) (hdetaches : pc'.detaches = false) :
    { (s.fire t status).goto thread pc with stage }.Inv := by
  subst hpc
  have he : s.Evolves { (s.fire t status).goto thread pc with stage } := .of_semaphore_eq rfl
  have hmem : t ∈ (s.pc thread).held := by
    rw [hheld]
    exact mem_cons_self
  have hnodup := hi.nodup thread
  rw [hheld, nodup_cons] at hnodup
  obtain ⟨owner, ho⟩ := hi.owned t
  obtain rfl := (ho.thread thread).mp hmem
  have hcalled : { (s.fire t status).goto thread pc with stage }.called = s.called ++ [t] := by
    simp [called, System.fire, System.goto]
  refine ⟨hi.index, hi.minimum, ?_, fun other => ?_, ?_, fun t' status' ht' => ?_, fun t' => ?_, ?_⟩
  · refine hi.asserts_update rfl he rfl (fun t' ht' => hother t' fun hc => ht' ?_) (hself _ he rfl)
    rwa [hc]
  · refine forall_pc_update (p := fun _ pc => pc.held.Nodup) rfl ?_ (fun other _ => hi.nodup other)
      other
    rw [hrest]
    exact hnodup.2
  · rw [hcalled]
    refine nodup_append.mpr ⟨hi.calledNodup, nodup_singleton t, ?_⟩
    rintro a ha b hb rfl
    rw [mem_singleton.mp hb] at ha
    exact absurd (ho.fired.mp ha) (by simp)
  · rcases mem_append.mp ht' with ht' | ht'
    · exact (hi.justified t' status' ht').mono he rfl
    · obtain ⟨rfl, rfl⟩ := Prod.mk.inj (mem_singleton.mp ht')
      exact hjustified.mono he rfl
  · rcases eq_or_ne t' t with rfl | hne
    · refine ⟨.fired, ?_, fun other => ?_, ho.index.trans (by simp), ?_, ?_⟩
      · show stage t' = .unused ↔ _
        rcases hstage with hsame | hnew
        · rw [hsame]
          exact ho.free.trans (by simp)
        · rw [hnew]
          simp
      · refine forall_pc_update (p := fun other pc => t' ∈ pc.held ↔
          Owner.fired = .thread other) rfl
          ?_ (fun other hne => ?_) other
        · rw [hrest]
          exact iff_of_false hnodup.1 (by simp)
        · refine (ho.thread other).trans (iff_of_false ?_ (by simp))
          simpa using hne.symm
      · rw [hcalled]
        simp
      · show stage t' = .refused ∨ stage t' = .cancelled ↔ _
        rcases hstage with hsame | hnew
        · rw [hsame]
          exact ho.released.trans (by simp)
        · rw [hnew]
          simp
    · obtain ⟨owner', ho'⟩ := hi.owned t'
      refine ⟨owner', ho'.congr ⟨hother t' hne, ?_, Iff.rfl, ?_⟩⟩
      · refine forall_pc_update (p := fun other pc => t' ∈ pc.held ↔ t' ∈ (s.pc other).held) rfl ?_
          fun _ _ => Iff.rfl
        rw [hrest, hheld, mem_cons]
        simp only [hne, false_or]
      · rw [hcalled, mem_append, mem_singleton]
        simp only [hne, or_false]
  · refine hi.covered.update rfl he (fun _ _ => Or.inl) (Or.inl rfl) (fun value hvalue => ?_) Or.inl
      fun hc => ?_
    · rw [hpublishes] at hvalue
      exact absurd hvalue (by simp)
    · rw [hdetaches] at hc
      exact absurd hc (by simp)

/-! ### Between the caller and the index -/

omit hi in
/-- Storage for one more entry changes nothing else. -/
lemma reserveTimepoint_eq {semaphore reserved : Semaphore} {allocation : Option Status}
    (h : semaphore.reserveTimepoint allocation = .ok reserved) :
    reserved.timepoints = semaphore.timepoints ∧ reserved.timelineValue = semaphore.timelineValue ∧
      reserved.failureStatus = semaphore.failureStatus := by
  unfold reserveTimepoint growTimepoints at h
  split_ifs at h
  · cases allocation with
    | some => exact absurd h (by simp)
    | none =>
      cases h
      exact ⟨rfl, rfl, rfl⟩
  · cases h
    exact ⟨rfl, rfl, rfl⟩

/-- A thread that holds one timepoint gives it to the index or back to the caller. -/
lemma Inv.handOver (semaphore : Semaphore) (owner : Owner θ) {stage : Stage}
    {result : Status} (hpc : s.pc thread = pc') (hheld : pc'.held = [t])
    (hindex : semaphore.timepoints.WellFormed 4)
    (htimeline : semaphore.timelineValue = s.semaphore.timelineValue)
    (hfailure : semaphore.failureStatus = s.semaphore.failureStatus)
    (hother : ∀ key, ∀ t' ≠ t, semaphore.Pending key t' ↔ s.semaphore.Pending key t')
    (hself : ∀ key, semaphore.Pending key t → key = s.minimumValue t ∧
      s.semaphore.timelineValue < key ∧ s.semaphore.failureStatus.isOk = true)
    (howner : { (s.mark t stage).goto thread (.ready result) with semaphore }.OwnedBy t owner)
    (hpublishes : pc'.publishes = none) (hdetaches : pc'.detaches = false) :
    { (s.mark t stage).goto thread (.ready result) with semaphore }.Inv := by
  subst hpc
  have he : s.Evolves { (s.mark t stage).goto thread (.ready result) with semaphore } :=
    ⟨htimeline.ge, fun _ => hfailure⟩
  have hstage : ∀ t' ≠ t, update s.stage t stage t' = s.stage t' :=
    fun t' hne => update_of_ne hne ..
  refine ⟨hindex, fun key t' hkey => ?_, ?_, fun other => ?_, hi.calledNodup,
    fun t' status ht' => (hi.justified t' status ht').mono he rfl, fun t' => ?_, ?_⟩
  · rcases eq_or_ne t' t with rfl | hne
    · exact (hself key hkey).1
    · exact hi.minimum key t' ((hother key t' hne).mp hkey)
  · refine hi.asserts_update rfl he rfl (fun t' ht' => hstage t' fun hc => ht' ?_) trivial
    rw [hheld, hc]
    exact mem_singleton_self t
  · refine forall_pc_update (p := fun _ pc => pc.held.Nodup) rfl ?_ (fun other _ => hi.nodup other)
      other
    exact nodup_nil
  · rcases eq_or_ne t' t with rfl | hne
    · exact ⟨owner, howner⟩
    obtain ⟨owner', ho'⟩ := hi.owned t'
    refine ⟨owner', ho'.congr ⟨hstage t' hne, ?_, exists_congr fun key => hother key t' hne,
      Iff.rfl⟩⟩
    refine forall_pc_update (p := fun other pc => t' ∈ pc.held ↔ t' ∈ (s.pc other).held) rfl ?_
      fun _ _ => Iff.rfl
    rw [hheld]
    exact iff_of_false not_mem_nil fun hc => hne (mem_singleton.mp hc)
  · refine hi.covered.update rfl he (fun key t' hkey => ?_) (Or.inl htimeline)
      (fun value hvalue => ?_) (fun hfail => Or.inl (hfailure ▸ hfail)) fun hc => ?_
    · rcases eq_or_ne t' t with rfl | hne
      · obtain ⟨-, hlarge, hok⟩ := hself key hkey
        exact Or.inr ⟨htimeline ▸ hlarge, hfailure ▸ hok⟩
      · exact Or.inl ((hother key t' hne).mp hkey)
    · rw [hpublishes] at hvalue
      exact absurd hvalue (by simp)
    · rw [hdetaches] at hc
      exact absurd hc (by simp)

omit hi in
/-- No thread but the one that holds a timepoint holds it. -/
lemma OwnedBy.not_held (ho : s.OwnedBy t (.thread thread)) (result : Status) (other : θ) :
    t ∉ (update s.pc thread (.ready result) other).held := by
  rcases eq_or_ne other thread with rfl | hne
  · rw [update_self]
    exact not_mem_nil
  · rw [update_of_ne hne]
    intro hc
    exact hne (Owner.thread.inj ((ho.thread other).mp hc)).symm

/-- The section of `acquire_timepoint` under the mutex. -/
lemma Inv.acquireLocked (hpc : s.pc thread = .acquireLocked t)
    (allocation : Option Status) : (s.acquireLocked thread t allocation).Inv := by
  have hstage : s.stage t = .acquiring := hi.asserts_of hpc
  obtain ⟨owner, ho⟩ := hi.owned t
  obtain rfl := (ho.thread thread).mp (by rw [hpc]; exact mem_singleton_self t)
  have hnone : ∀ key, ¬s.semaphore.Pending key t := by
    intro key hkey
    exact absurd (ho.index.mp ⟨key, hkey⟩) (by simp)
  have hnot_called : t ∉ s.called := fun hc => absurd (ho.fired.mp hc) (by simp)
  unfold System.acquireLocked
  split_ifs with hreached hfail
  · exact hi.goto hpc rfl ⟨hstage, fun _ => hreached, fun hc => absurd hc (by decide)⟩
      (.inl rfl) rfl
  · refine hi.goto hpc rfl ⟨hstage, fun hc => ?_, fun _ => rfl⟩ (.inl rfl) rfl
    rw [hfail] at hc
    exact absurd hc (by simp)
  rw [Bool.not_eq_false] at hfail
  have hmarked : ∀ stage : Stage, update s.stage t stage t = stage := fun stage => update_self ..
  split
  case h_1 status hreserve =>
    -- the caller keeps a timepoint there is no room for
    refine hi.handOver s.semaphore .released hpc rfl hi.index rfl rfl (fun _ _ _ => Iff.rfl)
      (fun key hkey => absurd hkey (hnone key)) ⟨?_, fun other => ?_, ?_, ?_, ?_⟩ rfl rfl
    · exact iff_of_false (fun hc => absurd ((hmarked .refused).symm.trans hc) (by simp)) (by simp)
    · exact iff_of_false (ho.not_held status other) (by simp)
    · exact iff_of_false (fun ⟨key, hkey⟩ => hnone key hkey) (by simp)
    · exact iff_of_false hnot_called (by simp)
    · exact iff_of_true (Or.inl (hmarked _)) rfl
  case h_2 reserved hreserve =>
    obtain ⟨hindex, htimeline, hfailure⟩ := reserveTimepoint_eq hreserve
    have hposition : reserved.timepoints.position t = none := by
      rw [hindex]
      exact (hi.index.indexed.position_eq_none_iff t).mpr hnone
    have hold : ∀ key t', reserved.timepoints.Holds key t' ↔ s.semaphore.Pending key t' := by
      intro key t'
      rw [hindex]
      rfl
    obtain ⟨hinserted, -, hholds⟩ := IndexedHeap.Heap.WellFormed.insert (d := 4)
      (h := reserved.timepoints) (e := ⟨s.minimumValue t, t⟩) (hindex ▸ hi.index) hposition
    refine hi.handOver (reserved.insertTimepoint (s.minimumValue t) t) .index hpc rfl hinserted
      htimeline hfailure (fun key t' hne => ?_) (fun key hkey => ?_)
      ⟨?_, fun other => ?_, ?_, ?_, ?_⟩ rfl rfl
    · refine (hholds key t').trans ((or_iff_left fun hc => hne ?_).trans (hold key t'))
      exact (IndexedHeap.Entry.mk.inj hc).2
    · have hkey' := ((hholds key t).mp hkey).resolve_left fun hc => hnone key ((hold key t).mp hc)
      obtain rfl := (IndexedHeap.Entry.mk.inj hkey').1
      exact ⟨rfl, not_le.mp hreached, hfail⟩
    · exact iff_of_false (fun hc => absurd ((hmarked .acquired).symm.trans hc) (by simp)) (by simp)
    · exact iff_of_false (ho.not_held .ok other) (by simp)
    · exact iff_of_true ⟨_, (hholds _ t).mpr (Or.inr rfl)⟩ rfl
    · exact iff_of_false hnot_called (by simp)
    · refine iff_of_false ?_ (by simp)
      rintro (hc | hc) <;> exact absurd ((hmarked .acquired).symm.trans hc) (by simp)

/-- The entry of `acquire_timepoint`. -/
lemma Inv.beginAcquire {result : Status} (minimumValue : ℕ)
    (hpc : s.pc thread = .ready result) (hunused : s.stage t = .unused) :
    (s.beginAcquire thread t minimumValue).Inv := by
  obtain ⟨owner, ho⟩ := hi.owned t
  obtain rfl := ho.free.mp hunused
  have hnone : ∀ key, ¬s.semaphore.Pending key t := by
    intro key hkey
    exact absurd (ho.index.mp ⟨key, hkey⟩) (by simp)
  have hposition := (hi.index.indexed.position_eq_none_iff t).mpr hnone
  have hclear : s.semaphore.timepoints.clear t = s.semaphore.timepoints := by
    unfold IndexedHeap.Heap.clear
    rw [← hposition, update_eq_self]
  have hsemaphore : (s.beginAcquire thread t minimumValue).semaphore = s.semaphore := by
    unfold System.beginAcquire
    rw [hclear]
  have he := Evolves.of_semaphore_eq hsemaphore
  have hpc' : (s.beginAcquire thread t minimumValue).pc =
      update s.pc thread (.acquireFailure t) := rfl
  have hmin : ∀ t' ≠ t, (s.beginAcquire thread t minimumValue).minimumValue t' =
      s.minimumValue t' := fun t' hne => update_of_ne hne ..
  have hstage : ∀ t' ≠ t, (s.beginAcquire thread t minimumValue).stage t' = s.stage t' :=
    fun t' hne => update_of_ne hne ..
  have hmarked : (s.beginAcquire thread t minimumValue).stage t = .acquiring := update_self ..
  have hnot_held : ∀ other, t ∉ (s.pc other).held :=
    fun other hc => absurd ((ho.thread other).mp hc) (by simp)
  have hnot_called : t ∉ s.called := fun hc => absurd (ho.fired.mp hc) (by simp)
  have hready : (s.pc thread).held = [] := by
    rw [hpc]
    rfl
  refine ⟨?_, fun key t' hkey => ?_, ?_, ?_, hi.calledNodup, fun t' status ht' => ?_,
    fun t' => ?_, ?_⟩
  · rw [hsemaphore]
    exact hi.index
  · rw [hsemaphore] at hkey
    rw [hmin t' fun hc => hnone key (hc ▸ hkey)]
    exact hi.minimum key t' hkey
  · refine forall_pc_update (p := fun _ pc =>
      (s.beginAcquire thread t minimumValue).Asserts pc) hpc'
      hmarked fun other _ => (hi.asserts other).mono he ?_ ?_
    · exact fun t' ht' => hmin t' fun hc => hnot_held other (hc ▸ ht')
    · exact fun t' ht' => hstage t' fun hc => hnot_held other (hc ▸ ht')
  · exact forall_pc_update (p := fun _ pc => pc.held.Nodup) hpc' (nodup_singleton t)
      fun other _ => hi.nodup other
  · refine (hi.justified t' status ht').mono he (hmin t' fun hc => hnot_called ?_)
    rw [← hc]
    exact mem_map_of_mem (f := Prod.fst) ht'
  · rcases eq_or_ne t' t with rfl | hne
    · refine ⟨.thread thread, ?_, ?_, ?_, ?_, ?_⟩
      · rw [hmarked]
        simp
      · refine forall_pc_update (p := fun other pc => t' ∈ pc.held ↔
          Owner.thread thread = .thread other)
          hpc' (iff_of_true (mem_singleton_self t') rfl) fun other hne => ?_
        exact iff_of_false (hnot_held other) (by simpa using hne.symm)
      · refine iff_of_false ?_ (by simp)
        rintro ⟨key, hkey⟩
        rw [hsemaphore] at hkey
        exact hnone key hkey
      · exact iff_of_false hnot_called (by simp)
      · rw [hmarked]
        simp
    · obtain ⟨owner', ho'⟩ := hi.owned t'
      refine ⟨owner', ho'.congr ⟨hstage t' hne, ?_, ?_, Iff.rfl⟩⟩
      · refine forall_pc_update (p := fun other pc => t' ∈ pc.held ↔ t' ∈ (s.pc other).held) hpc' ?_
          fun _ _ => Iff.rfl
        rw [hready]
        exact iff_of_false (fun hc => hne (mem_singleton.mp hc)) not_mem_nil
      · unfold IsPending
        rw [hsemaphore]
  · refine hi.covered.update hpc' he (fun key t' hkey => Or.inl (hsemaphore ▸ hkey))
      (Or.inl (by rw [hsemaphore])) (fun value hvalue => ?_)
        (fun hfail => Or.inl (hsemaphore ▸ hfail))
      fun hc => ?_
    · rw [hpc] at hvalue
      exact absurd hvalue (by simp [Pc.publishes])
    · rw [hpc] at hc
      exact absurd hc (by simp [Pc.detaches])

omit [DecidableEq θ] in
/-- A cancellation takes the timepoint out of the index if it is there. -/
lemma Inv.cancel (t : Timepoint) : (s.cancel t).Inv := by
  unfold System.cancel cancelTimepoint
  cases hposition : s.semaphore.timepoints.position t with
  | none => exact hi
  | some i =>
    obtain ⟨hlt, hitem⟩ := (hi.index.indexed t i).mp hposition
    obtain ⟨hindex, -, hholds⟩ := hi.index.removeAt (by decide) hlt
    rw [hitem] at hindex hholds
    have hpending : s.IsPending t := ⟨_, i, hlt, by rw [← hitem]⟩
    obtain ⟨owner, ho⟩ := hi.owned t
    obtain rfl := ho.index.mp hpending
    have hstage : ∀ t' ≠ t, update s.stage t Stage.cancelled t' = s.stage t' :=
      fun t' hne => update_of_ne hne ..
    have hmarked : update s.stage t Stage.cancelled t = .cancelled := update_self ..
    refine ⟨hindex, fun key t' hkey => hi.minimum key t' ((hholds key t').mp hkey).1,
      fun other => ?_,
      hi.nodup, hi.calledNodup, fun t' status ht' => (hi.justified t' status ht').mono ⟨le_rfl,
        fun _ => rfl⟩ rfl,
      fun t' => ?_, ?_⟩
    · refine (hi.asserts other).mono ⟨le_rfl, fun _ => rfl⟩ (fun _ _ => rfl)
        fun t' ht' => hstage t' ?_
      rintro rfl
      exact absurd ((ho.thread other).mp ht') (by simp)
    · rcases eq_or_ne t' t with rfl | hne
      · refine ⟨.released, ?_, fun other => ?_, ?_, ho.fired.trans (by simp), ?_⟩
        · exact iff_of_false (fun hc => absurd (hmarked.symm.trans hc) (by simp)) (by simp)
        · exact (ho.thread other).trans (by simp)
        · exact iff_of_false (fun ⟨key, hkey⟩ => ((hholds key t').mp hkey).2 rfl) (by simp)
        · exact iff_of_true (Or.inr hmarked) rfl
      · obtain ⟨owner', ho'⟩ := hi.owned t'
        refine ⟨owner', ho'.congr ⟨hstage t' hne, fun _ => Iff.rfl, ?_, Iff.rfl⟩⟩
        exact exists_congr fun key => (hholds key t').trans (and_iff_left hne)
    · refine ⟨fun hok key t' hkey hle => ?_, fun hfail => ?_⟩
      · exact hi.covered.dispatching hok key t' ((hholds key t').mp hkey).1 hle
      · exact (hi.covered.failing hfail).imp_right fun hnone key t' hkey =>
          hnone key t' ((hholds key t').mp hkey).1

end Hrx.Semaphore.System
