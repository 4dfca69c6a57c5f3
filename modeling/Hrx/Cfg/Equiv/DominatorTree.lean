import Hrx.Cfg.Equiv.TraversalFacts
import Hrx.Cfg.Regions

/-!
# The dominator tree

What a dominance says of its region (`Dominance.Exact`), and the tree that follows: the subtree of a
block is the block with the subtrees of its children (`subtree_eq`), and an edge lies in a subtree
exactly if the lowest common ancestor of its ends does (`ancestor_mem_iff`).
-/

namespace Hrx.Cfg

open Dominators Finset Relation

/-- The block is reachable and every path to it passes `b`. -/
def Region.InSubtree (r : Region) (b x : ℕ) : Prop :=
  (x < r.blocks.length ∧ ReflTransGen r.Flow 0 x) ∧ Dominates r.Flow 0 b x

lemma Region.entry_dominates (r : Region) (x : ℕ) : Dominates r.Flow 0 0 x := by
  intro path hpath
  exact List.mem_of_head? hpath.head

namespace Dominance

/-- The dominance of a region, as `loom_cfg_dominance_t` documents it. -/
structure Exact (d : Dominance) (r : Region) : Prop where
  nodup : d.preorder.Nodup
  mem : ∀ b, b ∈ d.preorder ↔ b < r.blocks.length ∧ ReflTransGen r.Flow 0 b
  unreachable : ∀ b, b ∉ d.preorder → d.intervals b = uint32Max
  first : ∀ b ∈ d.preorder, d.preorder[d.first b]? = some b
  last : ∀ b ∈ d.preorder, d.last b < d.preorder.length
  /-- Intervals hold the positions of dominated blocks. -/
  dominates : ∀ a ∈ d.preorder, ∀ b ∈ d.preorder,
    (Dominates r.Flow 0 a b ↔ d.first a ≤ d.first b ∧ d.first b ≤ d.last a)
  immediate : ∀ b ∈ d.preorder, b ≠ 0 → d.immediateDominators b ∈ d.preorder ∧
    StrictlyDominates r.Flow 0 (d.immediateDominators b) b ∧
    ∀ a, StrictlyDominates r.Flow 0 a b → Dominates r.Flow 0 a (d.immediateDominators b)

variable (d : Dominance)

/-- The blocks whose positions are in the interval of a block. -/
def subtree (b : ℕ) : Finset ℕ :=
  (d.preorder.filter fun x => d.first b ≤ d.first x ∧ d.first x ≤ d.last b).toFinset

def childrenIn (l : List ℕ) (b : ℕ) : Finset ℕ :=
  (l.filter fun c => c ≠ 0 ∧ d.immediateDominators c = b).toFinset

variable {d} {r : Region} {a b c x : ℕ}

@[simp] lemma mem_childrenIn {l : List ℕ} :
    c ∈ d.childrenIn l b ↔ c ∈ l ∧ c ≠ 0 ∧ d.immediateDominators c = b := by
  simp [childrenIn]

namespace Exact

variable (h : d.Exact r)
include h

variable (hb : b ∈ d.preorder)
include hb

lemma mem_subtree : x ∈ d.subtree b ↔ x ∈ d.preorder ∧ Dominates r.Flow 0 b x := by
  rw [subtree, List.mem_toFinset, List.mem_filter]
  apply and_congr_right
  intro hx
  rw [h.dominates b hb x hx]
  simp

lemma mem_subtree_iff : x ∈ d.subtree b ↔ r.InSubtree b x := by
  rw [h.mem_subtree hb, h.mem]
  rfl

lemma first_lt : d.first b < d.preorder.length := by
  obtain ⟨hlt, -⟩ := List.getElem?_eq_some_iff.mp (h.first b hb)
  exact hlt

omit hb in
lemma first_injective (ha : a ∈ d.preorder) (hb : b ∈ d.preorder) (heq : d.first a = d.first b) :
    a = b := by
  have hab := h.first a ha
  rw [heq, h.first b hb] at hab
  exact (Option.some.inj hab).symm

omit hb in
lemma first_getElem {i : ℕ} (hi : i < d.preorder.length) : d.first d.preorder[i] = i := by
  have hmem := List.getElem_mem hi
  obtain ⟨hlt, heq⟩ := List.getElem?_eq_some_iff.mp (h.first _ hmem)
  exact (h.nodup.getElem_inj_iff).mp heq

omit hb in
lemma antisymm (ha : a ∈ d.preorder) (hb : b ∈ d.preorder) (hab : Dominates r.Flow 0 a b)
    (hba : Dominates r.Flow 0 b a) : a = b := by
  have h₁ := ((h.dominates a ha b hb).mp hab).1
  have h₂ := ((h.dominates b hb a ha).mp hba).1
  exact h.first_injective ha hb (by omega)

lemma first_immediate_lt (hne : b ≠ 0) : d.first (d.immediateDominators b) < d.first b := by
  obtain ⟨hmem, ⟨hdom, hstrict⟩, -⟩ := h.immediate b hb hne
  have hle := ((h.dominates _ hmem b hb).mp hdom).1
  rcases Nat.lt_or_eq_of_le hle with hlt | heq
  · exact hlt
  · exact absurd (h.first_injective hmem hb heq) hstrict

omit hb in
/-- Dominators of one block are comparable. -/
lemma dominates_of_le (ha : a ∈ d.preorder) (hb : b ∈ d.preorder) (hx : x ∈ d.preorder)
    (hax : Dominates r.Flow 0 a x) (hbx : Dominates r.Flow 0 b x) (hle : d.first a ≤ d.first b) :
    Dominates r.Flow 0 a b := by
  have h₁ := (h.dominates a ha x hx).mp hax
  have h₂ := (h.dominates b hb x hx).mp hbx
  exact (h.dominates a ha b hb).mpr ⟨hle, by omega⟩

/-- Below a block there is a child of it. -/
lemma exists_child (hx : x ∈ d.preorder) (hdom : Dominates r.Flow 0 b x)
    (hne : x ≠ b) : ∃ c ∈ d.childrenIn d.preorder b, Dominates r.Flow 0 c x := by
  induction hn : d.first x using Nat.strong_induction_on generalizing x with
  | _ n ih =>
    have hx0 : x ≠ 0 := by
      rintro rfl
      exact hne (h.antisymm hx hb (r.entry_dominates b) hdom)
    obtain ⟨hmem, ⟨hidom, -⟩, hclosest⟩ := h.immediate x hx hx0
    have hup := hclosest b ⟨hdom, hne.symm⟩
    by_cases heq : d.immediateDominators x = b
    · exact ⟨x, mem_childrenIn.mpr ⟨hx, hx0, heq⟩, .refl x⟩
    · have hlt := h.first_immediate_lt hx hx0
      obtain ⟨c, hc, hcx⟩ := ih _ (by omega) hmem hup heq rfl
      exact ⟨c, hc, hcx.trans hidom⟩

omit hb in
lemma child_dominates (hc : c ∈ d.childrenIn d.preorder b) :
    c ∈ d.preorder ∧ b ∈ d.preorder ∧ StrictlyDominates r.Flow 0 b c := by
  obtain ⟨hmem, hne, rfl⟩ := mem_childrenIn.mp hc
  obtain ⟨hb, hstrict, -⟩ := h.immediate c hmem hne
  exact ⟨hmem, hb, hstrict⟩

omit hb in
/-- Two children of a block do not dominate the same block. -/
lemma child_unique {c' : ℕ} (hx : x ∈ d.preorder) (hc : c ∈ d.childrenIn d.preorder b)
    (hc' : c' ∈ d.childrenIn d.preorder b) (hcx : Dominates r.Flow 0 c x)
    (hcx' : Dominates r.Flow 0 c' x) : c = c' := by
  wlog hle : d.first c ≤ d.first c' generalizing c c'
  · exact (this hc' hc hcx' hcx (by omega)).symm
  obtain ⟨hmem, hb, hbc⟩ := h.child_dominates hc
  obtain ⟨hmem', hne', hidom'⟩ := mem_childrenIn.mp hc'
  by_contra hne
  have hdom := h.dominates_of_le hmem hmem' hx hcx hcx' hle
  have hup := (h.immediate c' hmem' hne').2.2 c ⟨hdom, hne⟩
  rw [hidom'] at hup
  exact hbc.2 (h.antisymm hb hmem hbc.1 hup)

/-- A subtree is its root with the subtrees of the root's children. -/
theorem subtree_eq : d.subtree b = insert b ((d.childrenIn d.preorder b).biUnion d.subtree) := by
  ext x
  rw [h.mem_subtree hb, mem_insert, mem_biUnion]
  constructor
  · rintro ⟨hx, hdom⟩
    by_cases hne : x = b
    · exact Or.inl hne
    · obtain ⟨c, hc, hcx⟩ := h.exists_child hb hx hdom hne
      exact Or.inr ⟨c, hc, (h.mem_subtree (h.child_dominates hc).1).mpr ⟨hx, hcx⟩⟩
  · rintro (rfl | ⟨c, hc, hxc⟩)
    · exact ⟨hb, .refl x⟩
    · obtain ⟨hmem, -, hbc⟩ := h.child_dominates hc
      obtain ⟨hx, hcx⟩ := (h.mem_subtree hmem).mp hxc
      exact ⟨hx, hbc.1.trans hcx⟩

/-- A sum over a subtree, child by child. -/
lemma sum_subtree (f : ℕ → ℤ) : ∑ x ∈ d.subtree b, f x =
      f b + ∑ c ∈ d.childrenIn d.preorder b, ∑ x ∈ d.subtree c, f x := by
  have hnot : b ∉ (d.childrenIn d.preorder b).biUnion d.subtree := by
    rw [mem_biUnion]
    rintro ⟨c, hc, hbc⟩
    obtain ⟨hmem, -, hstrict⟩ := h.child_dominates hc
    exact hstrict.2 (h.antisymm hb hmem hstrict.1 ((h.mem_subtree hmem).mp hbc).2)
  have hdisjoint : ((d.childrenIn d.preorder b : Finset ℕ) : Set ℕ).PairwiseDisjoint d.subtree := by
    intro c hc c' hc' hne
    apply disjoint_left.mpr
    intro x hx hx'
    obtain ⟨hmem, hcx⟩ := (h.mem_subtree (h.child_dominates hc).1).mp hx
    obtain ⟨-, hcx'⟩ := (h.mem_subtree (h.child_dominates hc').1).mp hx'
    exact hne (h.child_unique hmem hc hc' hcx hcx')
  rw [h.subtree_eq hb, sum_insert hnot, sum_biUnion hdisjoint]

lemma intervals_ne (hsize : d.preorder.length ≤ uint16Max) : d.intervals b ≠ uint32Max := by
  intro heq
  have hlt := h.first_lt hb
  unfold Dominance.first at hlt
  rw [heq] at hlt
  simp only [uint32Max, uint16Max] at hlt hsize
  omega

omit hb in
/-- The query agrees with the intervals. -/
lemma blockDominates_iff (ha : a ∈ d.preorder) (hb : b ∈ d.preorder)
    (hsize : d.preorder.length ≤ uint16Max) :
    d.blockDominates a b = true ↔ Dominates r.Flow 0 a b := by
  rw [h.dominates a ha b hb, blockDominates]
  simp only [Bool.or_eq_true, beq_iff_eq, Bool.and_eq_true, bne_iff_ne, decide_eq_true_eq]
  constructor
  · rintro (rfl | ⟨⟨-, hle⟩, hge⟩)
    · exact (h.dominates a ha a ha).mp (.refl a)
    · exact ⟨hle, hge⟩
  · rintro ⟨hle, hge⟩
    exact Or.inr ⟨⟨⟨h.intervals_ne ha hsize, h.intervals_ne hb hsize⟩, hle⟩, hge⟩

/-- The ends of an edge are in a subtree exactly if their lowest common ancestor is. -/
theorem ancestor_mem_iff {u v : ℕ} (hu : u ∈ d.preorder) (hv : v ∈ d.preorder)
    (hedge : r.Flow u v) (hsize : d.preorder.length ≤ uint16Max) :
    (if d.blockDominates v u then v else d.immediateDominators v) ∈ d.subtree b ↔
      u ∈ d.subtree b ∧ v ∈ d.subtree b := by
  by_cases hback : d.blockDominates v u = true
  · rw [if_pos hback]
    have hvu := (h.blockDominates_iff hv hu hsize).mp hback
    rw [h.mem_subtree hb, h.mem_subtree hb]
    exact ⟨fun ⟨_, hbv⟩ => ⟨⟨hu, hbv.trans hvu⟩, hv, hbv⟩, And.right⟩
  rw [if_neg hback]
  have hnot : ¬Dominates r.Flow 0 v u := fun hc => hback ((h.blockDominates_iff hv hu hsize).mpr hc)
  have hv0 : v ≠ 0 := by
    rintro rfl
    exact hnot (r.entry_dominates u)
  obtain ⟨hmem, hstrict, hclosest⟩ := h.immediate v hv hv0
  -- a path to the source goes on to the target, so it passes the target's dominator
  have hsource := hstrict.source hedge
  rw [h.mem_subtree hb, h.mem_subtree hb, h.mem_subtree hb]
  constructor
  · rintro ⟨-, hbi⟩
    exact ⟨⟨hu, hbi.trans hsource⟩, hv, hbi.trans hstrict.1⟩
  rintro ⟨⟨-, hbu⟩, -, hbv⟩
  refine ⟨hmem, hclosest b ⟨hbv, ?_⟩⟩
  rintro rfl
  exact hnot hbu

end Exact

end Dominance

end Hrx.Cfg
