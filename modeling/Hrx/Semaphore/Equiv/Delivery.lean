import Hrx.Semaphore.Equiv.Steps

/-!
# Timepoints are delivered once and never lost

For every interleaving of the calls on one semaphore: a callback runs at most once and with a status
the semaphore has justified, a cancellation says whether it was in time, and when no thread is in
the middle of a publication or a failure nothing is pending that should have been called back.
-/

namespace Hrx.Semaphore.System

open Function List

variable {θ : Type*} [DecidableEq θ] {s : System θ}

/-- Every step of a thread keeps the invariant. -/
lemma Inv.run (hi : s.Inv) (thread : θ) (choice : Choice) : (s.run thread choice).Inv := by
  have ha := hi.asserts thread
  unfold System.run
  generalize hpc : s.pc thread = pc at ha ⊢
  cases pc with
  | ready => exact hi
  | acquireFailure =>
    dsimp only
    split_ifs with hfail
    · refine hi.goto hpc rfl ⟨ha, fun hok => ?_, fun _ => rfl⟩ (.inl rfl) rfl
      rw [hfail] at hok
      exact absurd hok (by simp)
    · exact hi.goto hpc rfl ha (.inl rfl) rfl
  | acquireValue =>
    dsimp only
    split_ifs with hreached
    · exact hi.goto hpc rfl ⟨ha, fun _ => hreached, fun hc => absurd hc (by decide)⟩
        (.inl rfl) rfl
    · exact hi.goto hpc rfl ha (.inl rfl) rfl
  | acquireLocked => exact hi.acquireLocked hpc choice.allocation
  | complete =>
    exact hi.fire hpc rfl rfl (fun _ _ _ => trivial) ha.2
      (fun t' hne => update_of_ne hne ..) (Or.inr (update_self ..))
      rfl rfl
  | checkFailure =>
    split_ifs <;> exact hi.goto hpc rfl trivial (.inl rfl) rfl
  | loadTimeline =>
    dsimp only
    split_ifs with hle
    · exact hi.goto hpc rfl trivial (.inl rfl) rfl
    · exact hi.goto hpc rfl (not_le.mp hle) (.inl rfl) rfl
  | exchangeTimeline =>
    dsimp only
    split_ifs with hcond
    · obtain ⟨rfl, -⟩ := hcond
      exact hi.exchangeTimeline hpc
    · exact hi.goto hpc rfl trivial (.inl rfl) rfl
  | recheckFailure =>
    dsimp only
    split_ifs with hfail
    · exact hi.goto hpc rfl trivial (.inr hfail) rfl
    · exact hi.goto hpc rfl ha (.inl rfl) rfl
  | merge => exact hi.merge hpc
  | loadWatermark =>
    dsimp only
    split_ifs <;> exact hi.goto hpc rfl ha (.inl rfl) rfl
  | exchangeWatermark =>
    dsimp only
    split_ifs
    · exact hi.silent _ hpc rfl ⟨le_rfl, fun _ => rfl⟩ rfl ha (Or.inl rfl)
        (fun _ => Or.inl) Or.inl rfl
    · exact hi.goto hpc rfl ha (.inl rfl) rfl
  | dispatch => exact hi.dispatch hpc
  | exchangeFailure =>
    dsimp only
    split_ifs with hok
    · exact hi.exchangeFailure hpc hok
    · exact hi.goto hpc rfl trivial (.inl rfl) rfl
  | detach => exact hi.detach hpc
  | callbacks l =>
    cases l with
    | nil => exact hi.goto hpc rfl trivial (.inl rfl) rfl
    | cons t =>
      refine hi.fire hpc rfl rfl (fun s' he hmin t' ht' => ?_) (ha t mem_cons_self)
        (fun _ _ => rfl) (Or.inl rfl) rfl rfl
      exact (ha t' (mem_cons_of_mem t ht')).mono he (by rw [hmin])

variable {s' : System θ} {t : Timepoint}

/-- Every step keeps the invariant. -/
lemma Inv.step (hi : s.Inv) (h : Step s s') : s'.Inv := by
  cases h with
  | run thread choice => exact hi.run thread choice
  | acquire minimumValue hpc hunused => exact hi.beginAcquire minimumValue hpc hunused
  | publish p hpc =>
    refine hi.goto hpc ?_ ?_ (.inl ?_) rfl
    all_goals
      unfold Publication.start
      cases p.kind <;> trivial
  | fail hpc hstatus => exact hi.goto hpc rfl hstatus (.inl rfl) rfl
  | cancel t => exact hi.cancel t

omit [DecidableEq θ] in
/-- A new semaphore has the invariant. -/
lemma Inv.init (h : Init s) : s.Inv := by
  obtain ⟨⟨initialValue, capacity, hsemaphore⟩, hpc, hstage, hfired⟩ := h
  have hnone : ∀ key t, ¬s.semaphore.Pending key t := by
    rintro key t ⟨i, hlt, -⟩
    rw [hsemaphore] at hlt
    exact absurd hlt (Nat.not_lt_zero i)
  have hcalled : s.called = [] := by
    rw [called, hfired]
    rfl
  refine ⟨?_, fun key t hkey => absurd hkey (hnone key t), fun thread => ?_, fun thread => ?_, ?_,
    fun t status ht => ?_, fun t => ⟨.free, ?_, fun thread => ?_, ?_, ?_, ?_⟩, ?_,
    fun _ => Or.inr hnone⟩
  · rw [hsemaphore]
    exact ⟨fun j _ hj => absurd hj (Nat.not_lt_zero j),
      fun _ i => iff_of_false (by simp [create]) fun hc => absurd hc.1 (Nat.not_lt_zero i)⟩
  · rw [hpc]
    exact trivial
  · rw [hpc]
    exact nodup_nil
  · rw [hcalled]
    exact nodup_nil
  · rw [hfired] at ht
    exact absurd ht not_mem_nil
  · exact iff_of_true (hstage t) rfl
  · rw [hpc]
    exact iff_of_false not_mem_nil (by simp)
  · exact iff_of_false (fun h => h.elim (hnone · t)) (by simp)
  · rw [hcalled]
    exact iff_of_false not_mem_nil (by simp)
  · rw [hstage]
    simp
  · exact fun _ key t hkey => absurd hkey (hnone key t)

lemma Reachable.inv (h : Reachable s) : s.Inv :=
  Transition.Reachable.invariant (p := Inv) (fun _ => Inv.init) (fun _ _ hi => hi.step) h

/-! ### The timeline -/

end Hrx.Semaphore.System
