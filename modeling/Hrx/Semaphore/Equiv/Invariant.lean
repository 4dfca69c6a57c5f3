import Hrx.Semaphore.Threads

/-!
# The invariant of the threads

Every timepoint has one owner: the caller before it acquires it, a thread that acquires it or is to
run its callback, the index, the callback that has run, or the caller again.  So a callback runs at
most once, and a cancellation that finds the timepoint in the index is the last to touch it.

Every pending timepoint whose value is reached is covered: some thread has published a value at or
above it and has not dispatched yet.  After a failure the thread that failed the semaphore covers
whatever is pending until it has detached the index.
-/

namespace Hrx.Semaphore

open Function

inductive Owner (θ : Type*) where
  | free
  | thread (thread : θ)
  | index
  | fired
  | released

/-- The timepoints a thread is responsible for. -/
def Pc.held : Pc → List Timepoint
  | .acquireFailure t => [t]
  | .acquireValue t => [t]
  | .acquireLocked t => [t]
  | .complete t _ => [t]
  | .callbacks l _ => l
  | _ => []

namespace System

variable {θ : Type*}

/-- A status a callback may get: OK once the value is reached, the failure once there is one. -/
structure Justified (s : System θ) (timepoint : Timepoint) (status : Status) : Prop where
  reached : status.isOk = true → s.minimumValue timepoint ≤ s.semaphore.timelineValue
  failed : status.isOk = false → s.semaphore.failureStatus = status

def Asserts (s : System θ) : Pc → Prop
  | .acquireFailure t => s.stage t = .acquiring
  | .acquireValue t => s.stage t = .acquiring
  | .acquireLocked t => s.stage t = .acquiring
  | .complete t status => s.stage t = .acquiring ∧ s.Justified t status
  | .exchangeTimeline p current => current < p.value
  | .recheckFailure p => p.value ≤ s.semaphore.timelineValue
  | .merge p => p.value ≤ s.semaphore.timelineValue
  | .loadWatermark value => value ≤ s.semaphore.timelineValue
  | .exchangeWatermark value _ => value ≤ s.semaphore.timelineValue
  | .dispatch value => value ≤ s.semaphore.timelineValue
  | .exchangeFailure status => status.isOk = false
  | .detach status => status.isOk = false ∧ s.semaphore.failureStatus = status
  | .callbacks l status => ∀ t ∈ l, s.Justified t status
  | _ => True

/-- A timepoint has one owner, and where it is found says which. -/
structure OwnedBy (s : System θ) (t : Timepoint) (owner : Owner θ) : Prop where
  free : s.stage t = .unused ↔ owner = .free
  thread : ∀ thread, t ∈ (s.pc thread).held ↔ owner = .thread thread
  index : s.IsPending t ↔ owner = .index
  fired : t ∈ s.called ↔ owner = .fired
  released : s.stage t = .refused ∨ s.stage t = .cancelled ↔ owner = .released

/-- Pending timepoints whose time has come are on somebody's way. -/
structure Covered (s : System θ) : Prop where
  dispatching : s.semaphore.failureStatus.isOk = true → ∀ key t, s.semaphore.Pending key t →
    key ≤ s.semaphore.timelineValue → ∃ thread value, (s.pc thread).publishes = some value ∧
      key ≤ value
  failing : s.semaphore.failureStatus.isOk = false →
    (∃ thread, (s.pc thread).detaches = true) ∨ ∀ key t, ¬s.semaphore.Pending key t

structure Inv (s : System θ) : Prop where
  index : s.semaphore.timepoints.WellFormed 4
  minimum : ∀ key t, s.semaphore.Pending key t → key = s.minimumValue t
  asserts : ∀ thread, s.Asserts (s.pc thread)
  nodup : ∀ thread, (s.pc thread).held.Nodup
  calledNodup : s.called.Nodup
  justified : ∀ t status, (t, status) ∈ s.fired → s.Justified t status
  owned : ∀ t, ∃ owner, s.OwnedBy t owner
  covered : s.Covered

/-! ### What a step may change -/

/-- The timeline only rises and a failure stays. -/
structure Evolves (s s' : System θ) : Prop where
  timeline : s.semaphore.timelineValue ≤ s'.semaphore.timelineValue
  failure : s.semaphore.failureStatus.isOk = false →
    s'.semaphore.failureStatus = s.semaphore.failureStatus

variable {s s' : System θ} {t : Timepoint} {pc : Pc} {thread : θ}

lemma Evolves.of_semaphore_eq (h : s'.semaphore = s.semaphore) : s.Evolves s' :=
  ⟨by rw [h], fun _ => by rw [h]⟩

lemma Evolves.healthy (he : s.Evolves s') (hok : s'.semaphore.failureStatus.isOk = true) :
    s.semaphore.failureStatus.isOk = true := by
  by_contra hnot
  rw [Bool.not_eq_true] at hnot
  rw [he.failure hnot, hnot] at hok
  exact absurd hok (by simp)

lemma Justified.mono {status : Status} (hj : s.Justified t status) (he : s.Evolves s')
    (hmin : s'.minimumValue t = s.minimumValue t) : s'.Justified t status := by
  refine ⟨fun hok => ?_, fun hfail => ?_⟩
  · rw [hmin]
    exact (hj.reached hok).trans he.timeline
  · have hstatus := hj.failed hfail
    rw [he.failure (by rw [hstatus]; exact hfail), hstatus]

/-- What a thread relies on survives the steps of others. -/
lemma Asserts.mono (ha : s.Asserts pc) (he : s.Evolves s')
    (hmin : ∀ t ∈ pc.held, s'.minimumValue t = s.minimumValue t)
    (hstage : ∀ t ∈ pc.held, s'.stage t = s.stage t) : s'.Asserts pc := by
  cases pc with
  | ready | checkFailure | loadTimeline => exact trivial
  | acquireFailure t | acquireValue t | acquireLocked t =>
    exact (hstage t (List.mem_singleton_self t)).trans ha
  | complete t =>
    have hmem := List.mem_singleton_self t
    exact ⟨(hstage t hmem).trans ha.1, ha.2.mono he (hmin t hmem)⟩
  | exchangeTimeline | exchangeFailure => exact ha
  | recheckFailure | merge | loadWatermark | exchangeWatermark | dispatch =>
    exact ha.trans he.timeline
  | detach => exact ⟨ha.1, by rw [he.failure (by rw [ha.2]; exact ha.1), ha.2]⟩
  | callbacks => exact fun t ht => (ha t ht).mono he (hmin t ht)

/-- Two states that agree on where a timepoint is agree on its owner. -/
structure Agrees (s s' : System θ) (t : Timepoint) : Prop where
  stage : s'.stage t = s.stage t
  held : ∀ thread, t ∈ (s'.pc thread).held ↔ t ∈ (s.pc thread).held
  pending : s'.IsPending t ↔ s.IsPending t
  called : t ∈ s'.called ↔ t ∈ s.called

lemma OwnedBy.congr {owner : Owner θ} (ho : s.OwnedBy t owner) (ha : s.Agrees s' t) :
    s'.OwnedBy t owner where
  free := by rw [ha.stage]; exact ho.free
  thread := fun thread => (ha.held thread).trans (ho.thread thread)
  index := ha.pending.trans ho.index
  fired := ha.called.trans ho.fired
  released := by rw [ha.stage]; exact ho.released

/-- Only one thread holds a timepoint. -/
lemma Inv.held_unique (hi : s.Inv) {a b : θ} (ha : t ∈ (s.pc a).held) (hb : t ∈ (s.pc b).held) :
    a = b := by
  obtain ⟨owner, ho⟩ := hi.owned t
  have howner := (ho.thread a).mp ha
  rw [(ho.thread b).mp hb] at howner
  exact (Owner.thread.inj howner).symm

variable [DecidableEq θ]

/-- What holds of every program counter after one thread has moved. -/
lemma forall_pc_update {p : θ → Pc → Prop} (hpc : s'.pc = update s.pc thread pc)
    (hself : p thread pc) (hother : ∀ other, other ≠ thread → p other (s.pc other)) (other : θ) :
    p other (s'.pc other) := by
  rw [hpc]
  rcases eq_or_ne other thread with rfl | hne
  · rwa [update_self]
  · rw [update_of_ne hne]
    exact hother other hne

/-- A thread's step keeps what the threads rely on when it changes the stage of its own timepoints
only. -/
lemma Inv.asserts_update (hi : s.Inv) (hpc : s'.pc = update s.pc thread pc)
    (he : s.Evolves s') (hmin : s'.minimumValue = s.minimumValue)
    (hstage : ∀ t, t ∉ (s.pc thread).held → s'.stage t = s.stage t) (hself : s'.Asserts pc)
    (other : θ) : s'.Asserts (s'.pc other) := by
  refine forall_pc_update (p := fun _ pc => s'.Asserts pc) hpc hself (fun other hne => ?_) other
  refine (hi.asserts other).mono he (fun t _ => by rw [hmin]) fun t ht => hstage t fun hc => ?_
  exact hne (hi.held_unique ht hc)

/-- A thread's step keeps the pending timepoints covered. -/
lemma Covered.update (hc : s.Covered) (hpc : s'.pc = update s.pc thread pc)
    (he : s.Evolves s')
    (hpending : ∀ key t, s'.semaphore.Pending key t → s.semaphore.Pending key t ∨
      s'.semaphore.timelineValue < key ∧ s'.semaphore.failureStatus.isOk = true)
    (htimeline : s'.semaphore.timelineValue = s.semaphore.timelineValue ∨
      pc.publishes = some s'.semaphore.timelineValue)
    (hpublishes : ∀ value, (s.pc thread).publishes = some value → pc.publishes = some value ∨
      s'.semaphore.failureStatus.isOk = false ∨ ∀ key t, s'.semaphore.Pending key t → value < key)
    (hfailure : s'.semaphore.failureStatus.isOk = false → s.semaphore.failureStatus.isOk = false ∨
      pc.detaches = true)
    (hdetaches : (s.pc thread).detaches = true → ∀ key t, ¬s'.semaphore.Pending key t) :
    s'.Covered := by
  have hself : s'.pc thread = pc := by rw [hpc, update_self]
  have hother : ∀ other, other ≠ thread → s'.pc other = s.pc other := by
    intro other hne
    rw [hpc, update_of_ne hne]
  constructor
  · intro hok key t hkey hle
    rcases hpending key t hkey with hold | ⟨hlarge, -⟩
    · rcases htimeline with hsame | hnew
      · obtain ⟨other, value, hvalue, hcovers⟩ :=
          hc.dispatching (he.healthy hok) key t hold (hsame ▸ hle)
        rcases eq_or_ne other thread with rfl | hne
        · rcases hpublishes value hvalue with hgoes | hfail | habove
          · exact ⟨other, value, by rw [hself, hgoes], hcovers⟩
          · rw [hfail] at hok
            exact absurd hok (by simp)
          · have := habove key t hkey
            omega
        · exact ⟨other, value, by rw [hother other hne, hvalue], hcovers⟩
      · exact ⟨thread, _, by rw [hself, hnew], hle⟩
    · omega
  · intro hfail
    rcases hfailure hfail with hold | hnew
    · rcases hc.failing hold with ⟨other, hother_detaches⟩ | hnone
      · rcases eq_or_ne other thread with rfl | hne
        · exact Or.inr (hdetaches hother_detaches)
        · exact Or.inl ⟨other, by rw [hother other hne, hother_detaches]⟩
      · refine Or.inr fun key t hkey => ?_
        rcases hpending key t hkey with hold' | ⟨-, hok⟩
        · exact hnone key t hold'
        · rw [hok] at hfail
          exact absurd hfail (by simp)
    · exact Or.inl ⟨thread, by rw [hself, hnew]⟩

end System

end Hrx.Semaphore
