import Hrx.Lib.DepthFirst

/-!
# The tree of a depth-first search

The ancestors of a vertex are the vertices whose interval contains its preorder (`anc_iff`);
intervals are nested or disjoint.  When no frame is left, the vertices found are those that can be
reached, and an edge leads into the subtree of its source or to an earlier vertex.

A search ends: each round lowers its potential by one.
-/

namespace DepthFirst

open List

variable {V : Type*} {succ : V → List V} {root : V} {s : State V}

def Edge (succ : V → List V) (u v : V) : Prop := v ∈ succ u

abbrev Reach (succ : V → List V) : V → V → Prop := Relation.ReflTransGen (Edge succ)

structure IsParent (root : V) (s : State V) (u v : V) : Prop where
  reachable : s.reachable v = true
  ne_root : v ≠ root
  parent : s.parent v = u

/-- Ancestors in the tree, the vertex itself included. -/
abbrev Anc (root : V) (s : State V) : V → V → Prop := Relation.ReflTransGen (IsParent root s)

section anc

variable (hi : Inv succ root s)
include hi

variable {u v : V}

lemma Anc.reach (h : Anc root s u v) : Reach succ u v := by
  induction h with
  | refl => exact .refl
  | tail _ hp ih =>
    refine ih.tail ?_
    rw [← hp.parent]
    exact (hi.parent _ hp.reachable hp.ne_root).2.1

/-- The interval of a vertex lies in the interval of an ancestor. -/
lemma Anc.interval (h : Anc root s u v) : s.preorder u ≤ s.preorder v ∧ s.endOf v ≤ s.endOf u := by
  induction h with
  | refl => exact ⟨le_rfl, le_rfl⟩
  | tail _ hp ih =>
    obtain ⟨-, -, hlt, hend⟩ := hi.parent _ hp.reachable hp.ne_root
    rw [hp.parent] at hlt hend
    exact ⟨ih.1.trans hlt.le, hend.trans ih.2⟩

lemma Inv.lt_endOf (hv : s.reachable v = true) : s.preorder v < s.endOf v := by
  unfold State.endOf
  split_ifs with h
  · exact hi.lt_count v hv
  · exact (hi.interval v h).1

/-- A vertex whose interval contains another is its ancestor. -/
theorem anc_iff (hu : s.reachable u = true) (hv : s.reachable v = true) :
    Anc root s u v ↔ s.preorder u ≤ s.preorder v ∧ s.preorder v < s.endOf u := by
  constructor
  · intro h
    obtain ⟨hle, hend⟩ := h.interval hi
    exact ⟨hle, (hi.lt_endOf hv).trans_le hend⟩
  -- going up from the vertex, the parent stays inside the interval
  rintro ⟨hle, hlt⟩
  induction hn : s.preorder v using Nat.strong_induction_on generalizing v with
  | _ n ih =>
    by_cases huv : u = v
    · rw [huv]
    obtain ⟨hne, hpar⟩ := hi.innermost u v hu hv huv hle hlt
    obtain ⟨hreach, -, hbefore, -⟩ := hi.parent v hv hne
    have hup := ih (s.preorder (s.parent v)) (hn ▸ hbefore) hreach hpar (hbefore.trans hlt) rfl
    exact hup.tail ⟨hv, hne, rfl⟩

/-- The root is an ancestor of every vertex that was found. -/
lemma anc_root (hv : s.reachable v = true) : Anc root s root v := by
  induction hn : s.preorder v using Nat.strong_induction_on generalizing v with
  | _ n ih =>
    by_cases hne : v = root
    · rw [hne]
    obtain ⟨hreach, -, hbefore, -⟩ := hi.parent v hv hne
    exact (ih _ (hn ▸ hbefore) hreach rfl).tail ⟨hv, hne, rfl⟩

omit hi in
lemma Anc.reachable (h : Anc root s u v) (hi : Inv succ root s) (hv : s.reachable v = true) :
    s.reachable u = true := by
  induction h with
  | refl => exact hv
  | tail _ hp ih =>
    apply ih
    rw [← hp.parent]
    exact (hi.parent _ hp.reachable hp.ne_root).1

end anc

/-! ### A finished search -/

section done

variable (hi : Inv succ root s) (hdone : s.frames = [])
include hi hdone

variable {v u : V}

lemma preorderEnd_ne_zero (hv : s.reachable v = true) : s.preorderEnd v ≠ 0 := by
  intro h0
  have hmem := (hi.mem_stack v).mpr ⟨hv, h0⟩
  rw [State.stack, hdone] at hmem
  cases hmem

lemma endOf_eq (hv : s.reachable v = true) : s.endOf v = s.preorderEnd v :=
  if_neg (preorderEnd_ne_zero hi hdone hv)

/-- Successors were found, before their vertex was done. -/
lemma successor (hu : s.reachable u = true) (hv : v ∈ succ u) :
    s.reachable v = true ∧ s.preorder v < s.endOf u := by
  obtain ⟨h₁, h₂, -⟩ := hi.merged u v (.done (preorderEnd_ne_zero hi hdone hu) hv)
  exact ⟨h₁, h₂⟩

lemma reachable_of_reach (hu : s.reachable u = true) (h : Reach succ u v) :
    s.reachable v = true := by
  induction h with
  | refl => exact hu
  | tail _ hedge ih => exact (successor hi hdone ih hedge).1

/-- The vertices found are those that can be reached. -/
lemma reachable_iff : s.reachable v = true ↔ Reach succ root v :=
  ⟨fun hv => (anc_root hi hv).reach hi, reachable_of_reach hi hdone hi.root_reachable⟩

lemma mem_order_iff : v ∈ s.order ↔ s.reachable v = true := by
  rw [hi.mem_order]
  constructor
  · intro hv
    by_contra h
    exact hv (hi.unreached v (by simpa using h))
  · exact preorderEnd_ne_zero hi hdone

/-- A proper ancestor is done later. -/
lemma later_of_anc {l r : List V} (hsplit : s.order = l ++ u :: r) (h : Anc root s u v)
    (hv : s.reachable v = true) (hne : v ≠ u) : v ∈ l := by
  have hu := h.reachable hi hv
  obtain ⟨hle, hlt⟩ := (anc_iff hi hu hv).mp h
  rw [endOf_eq hi hdone hu] at hlt
  exact hi.later l u r hsplit v hv hne hle hlt

end done

/-! ### The end of a search -/

variable [DecidableEq V] (vertices : Finset V)

/-- The rounds that are left: for each vertex not found and each frame, one for each successor not
taken yet and one to be done. -/
def potential (succ : V → List V) (s : State V) : ℕ :=
  (∑ v ∈ vertices with s.reachable v = false, ((succ v).length + 1)) +
    (s.frames.map fun f => (succ f.1).length - f.2 + 1).sum

variable {b w : V} {p : ℕ} {below : List (V × ℕ)}

omit [DecidableEq V] in
lemma potential_advance (hf : s.frames = (b, p) :: below) (hw : (succ b)[p]? = some w) :
    potential vertices succ (s.advance b p below) + 1 = potential vertices succ s := by
  have hlt := (List.getElem?_eq_some_iff.mp hw).1
  unfold potential State.advance
  simp only [hf, map_cons, sum_cons]
  omega

lemma potential_finish (hf : s.frames = (b, p) :: below) (hnone : (succ b)[p]? = none) :
    potential vertices succ (s.finish b below) + 1 = potential vertices succ s := by
  have hle := List.getElem?_eq_none_iff.mp hnone
  unfold potential State.finish
  simp only [hf, map_cons, sum_cons]
  omega

lemma potential_discover (hf : s.frames = (b, p) :: below) (hw : (succ b)[p]? = some w)
    (hnew : s.reachable w = false) (hmem : w ∈ vertices) :
    potential vertices succ (s.discover b p below w) + 1 = potential vertices succ s := by
  have hlt := (List.getElem?_eq_some_iff.mp hw).1
  have hfilter : (vertices.filter fun v => s.reachable v = false) =
      insert w (vertices.filter fun v => Function.update s.reachable w true v = false) := by
    ext v
    rw [Finset.mem_insert, Finset.mem_filter, Finset.mem_filter]
    by_cases hv : v = w
    · subst hv
      simp [hmem, hnew]
    · simp [hv]
  have hnot : w ∉ vertices.filter fun v => Function.update s.reachable w true v = false := by
    simp
  unfold potential State.discover
  simp only [hf, map_cons, sum_cons]
  rw [hfilter, Finset.sum_insert hnot]
  omega

lemma Starts.potential_eq (h : Starts root s) (hmem : root ∈ vertices) :
    potential vertices succ s = ∑ v ∈ vertices, ((succ v).length + 1) := by
  have hfilter : vertices = insert root (vertices.filter fun v => s.reachable v = false) := by
    ext v
    rw [Finset.mem_insert, Finset.mem_filter]
    by_cases hv : v = root
    · simp [hv, hmem]
    have hnot : s.reachable v = false := by
      by_contra hr
      exact hv ((h.reachable v).mp (by simpa using hr))
    simp [hv, hnot]
  have hnot : root ∉ vertices.filter fun v => s.reachable v = false := by
    simp [(h.reachable root).mpr rfl]
  unfold potential
  rw [h.frames]
  conv_rhs => rw [hfilter, Finset.sum_insert hnot]
  simp only [map_cons, map_nil, sum_cons, sum_nil]
  omega

end DepthFirst
