import Mathlib.Data.List.Chain

/-!
# Dominators

A vertex dominates another if every path from the root to it passes the vertex.  Equivalently, for a
vertex that is not the root, no path goes around it (`dominates_iff`).
-/

namespace Dominators

open List Relation

variable {V : Type*} {edge : V → V → Prop} {root a b : V}

/-- The vertices of a path, first and last included. -/
structure IsPath (edge : V → V → Prop) (a b : V) (path : List V) : Prop where
  chain : path.IsChain edge
  head : path.head? = some a
  last : path.getLast? = some b

/-- Every path from the root to `b` passes `a`. -/
def Dominates (edge : V → V → Prop) (root a b : V) : Prop :=
  ∀ path, IsPath edge root b path → a ∈ path

def StrictlyDominates (edge : V → V → Prop) (root a b : V) : Prop := Dominates edge root a b ∧ a ≠ b

/-- An edge that does not lead to `a`. -/
def Around (edge : V → V → Prop) (a x y : V) : Prop := edge x y ∧ y ≠ a

lemma IsPath.singleton (a : V) : IsPath edge a a [a] := ⟨isChain_singleton a, rfl, rfl⟩

lemma IsPath.concat {path : List V} {c : V} (h : IsPath edge a b path) (hc : edge b c) :
    IsPath edge a c (path ++ [c]) := by
  refine ⟨?_, ?_, List.getLast?_concat⟩
  · refine isChain_append.mpr ⟨h.chain, isChain_singleton c, ?_⟩
    intro x hx y hy
    obtain rfl : b = x := Option.some.inj (h.last.symm.trans hx)
    obtain rfl : c = y := Option.some.inj hy
    exact hc
  · rw [List.head?_append, h.head]
    rfl

/-- A path around a vertex gives a path without it. -/
lemma exists_path_around (h : ReflTransGen (Around edge a) root b) (hroot : root ≠ a) :
    ∃ path, IsPath edge root b path ∧ a ∉ path := by
  induction h with
  | refl =>
    refine ⟨[root], .singleton root, ?_⟩
    rw [mem_singleton]
    exact hroot.symm
  | tail _ hstep ih =>
    obtain ⟨path, hpath, hmem⟩ := ih
    refine ⟨path ++ [_], hpath.concat hstep.1, ?_⟩
    rw [mem_append, mem_singleton]
    exact not_or.mpr ⟨hmem, hstep.2.symm⟩

/-- A path without a vertex goes around it. -/
lemma IsPath.around {path : List V} (h : IsPath edge root b path) (hmem : a ∉ path) :
    ReflTransGen (Around edge a) root b := by
  induction path generalizing root with
  | nil => cases h.head
  | cons x rest ih =>
    obtain rfl : x = root := Option.some.inj h.head
    cases rest with
    | nil =>
      obtain rfl : x = b := Option.some.inj h.last
      exact .refl
    | cons y rest =>
      obtain ⟨hxy, hchain⟩ := isChain_cons_cons.mp h.chain
      rw [mem_cons, not_or] at hmem
      have hlast : (y :: rest).getLast? = some b := by rw [← h.last, List.getLast?_cons_cons]
      have hne : y ≠ a := by
        rintro rfl
        exact hmem.2 (mem_cons_self ..)
      exact (ih ⟨hchain, rfl, hlast⟩ hmem.2).head ⟨hxy, hne⟩

theorem dominates_iff : Dominates edge root a b ↔
    root = a ∨ ¬ReflTransGen (Around edge a) root b := by
  constructor
  · intro h
    by_contra hnot
    rw [not_or, not_not] at hnot
    obtain ⟨path, hpath, hmem⟩ := exists_path_around hnot.2 hnot.1
    exact hmem (h path hpath)
  · rintro (rfl | h) path hpath
    · exact mem_of_head? hpath.head
    · by_contra hmem
      exact h (hpath.around hmem)

lemma IsPath.upTo {path before after : List V} (h : IsPath edge root b path)
    (hpath : path = before ++ a :: after) : IsPath edge root a (before ++ [a]) := by
  subst hpath
  refine ⟨?_, ?_, List.getLast?_concat⟩
  · have hprefix : (before ++ [a]) <+: before ++ a :: after := ⟨after, by simp⟩
    exact h.chain.prefix hprefix
  · rw [← h.head]
    cases before <;> rfl

lemma Dominates.trans {c : V} (hab : Dominates edge root a b) (hbc : Dominates edge root b c) :
    Dominates edge root a c := by
  intro path hpath
  obtain ⟨before, after, rfl⟩ := append_of_mem (hbc path hpath)
  have hmem := hab _ (hpath.upTo rfl)
  rw [mem_append, mem_singleton] at hmem
  rcases hmem with hmem | rfl
  · exact mem_append_left _ hmem
  · exact mem_append_right _ mem_cons_self

lemma Dominates.refl (a : V) : Dominates edge root a a := by
  intro path hpath
  exact mem_of_getLast? hpath.last

/-- A path either reaches a vertex or goes around it. -/
lemma reaches_or_around (h : ReflTransGen edge root b) :
    ReflTransGen edge root a ∨ ReflTransGen (Around edge a) root b := by
  induction h with
  | refl => exact Or.inr .refl
  | @tail x y hreach hedge ih =>
    by_cases heq : y = a
    · exact Or.inl (heq ▸ hreach.tail hedge)
    · exact ih.imp id fun hround => hround.tail ⟨hedge, heq⟩

/-- A dominator of a reachable vertex is reachable. -/
lemma Dominates.reaches (h : Dominates edge root a b) (hb : ReflTransGen edge root b) :
    ReflTransGen edge root a := by
  rcases dominates_iff.mp h with rfl | hnot
  · exact .refl
  · exact (reaches_or_around hb).resolve_right hnot

/-- A strict dominator of the end of an edge dominates its source. -/
lemma StrictlyDominates.source {c : V} (h : StrictlyDominates edge root a c) (hedge : edge b c) :
    Dominates edge root a b := by
  intro path hpath
  have hmem := h.1 _ (hpath.concat hedge)
  rw [mem_append, mem_singleton] at hmem
  exact hmem.resolve_right h.2

end Dominators
