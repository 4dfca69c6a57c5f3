import Mathlib.Logic.Relation

/-!
# Reachability in a transition system

The states that finitely many steps reach from an initial state, and the rule that proves an
invariant of all of them.
-/

namespace Transition

variable {σ : Type*}

/-- The states reachable from an initial state by finitely many steps. -/
inductive Reachable (init : σ → Prop) (step : σ → σ → Prop) : σ → Prop where
  | init {s : σ} : init s → Reachable init step s
  | step {s t : σ} : Reachable init step s → step s t → Reachable init step t

/-- What holds initially and is kept by every step holds of every reachable state. -/
lemma Reachable.invariant {init : σ → Prop} {step : σ → σ → Prop} {p : σ → Prop}
    (hinit : ∀ s, init s → p s) (hstep : ∀ s t, p s → step s t → p t) {s : σ}
    (h : Reachable init step s) : p s := by
  induction h with
  | init hs => exact hinit _ hs
  | step _ hst ih => exact hstep _ _ ih hst

/-- What every step keeps is kept along a run. -/
lemma run_invariant {step : σ → σ → Prop} {p : σ → Prop} (hstep : ∀ s t, p s → step s t → p t)
    {s t : σ} (hrun : Relation.ReflTransGen step s t) (hs : p s) : p t := by
  induction hrun with
  | refl => exact hs
  | tail _ hst ih => exact hstep _ _ ih hst

end Transition
