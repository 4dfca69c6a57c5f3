import Hrx.Cfg.Equiv.DominatorTree
import Mathlib.Data.Set.Card

/-!
# Dominance regions are exact

The loop over the preorder from its end meets a block after its children, so it leaves at each block
the balance and the targets of its whole subtree (`tables_spec`), and it fills the buckets of
incoming edges in the order of their sources (`edgesTo_eq`).
-/

namespace Hrx.Cfg

open Buckets Dominance Dominators Finset Function Relation

/-! ### Targets -/

namespace RegionTargets

/-- The two lowest positions of a set. -/
structure Lowest (lowest : ℕ × ℕ) (s : Finset ℕ) : Prop where
  mem₁ : lowest.1 ≠ uint32Max → lowest.1 ∈ s
  mem₂ : lowest.2 ≠ uint32Max → lowest.2 ∈ s
  least : ∀ p ∈ s, lowest.1 ≤ p
  next : ∀ p ∈ s, p ≠ lowest.1 → lowest.2 ≤ p
  distinct : lowest.1 < lowest.2 ∨ lowest.2 = uint32Max

/-- The two highest positions of a set, plus one. -/
structure Highest (highest : ℕ × ℕ) (s : Finset ℕ) : Prop where
  mem₁ : highest.1 ≠ 0 → highest.1 - 1 ∈ s
  mem₂ : highest.2 ≠ 0 → highest.2 - 1 ∈ s
  greatest : ∀ p ∈ s, p + 1 ≤ highest.1
  next : ∀ p ∈ s, p + 1 ≠ highest.1 → p + 1 ≤ highest.2
  distinct : highest.2 < highest.1 ∨ highest.2 = 0

/-- The targets of a set of positions. -/
structure Summarizes (t : RegionTargets) (balance : ℤ) (s : Finset ℕ) : Prop where
  lowest : Lowest t.lowest s
  highest : Highest t.highest s
  exitBalance : t.exitBalance = balance
  lt : ∀ p ∈ s, p < uint32Max

variable {t child : RegionTargets} {n m : ℤ} {s s' : Finset ℕ} {position : ℕ}
  {lowest highest other : ℕ × ℕ} {e : Finset ℕ}

lemma Lowest.insert (h : Lowest lowest s) :
    Lowest (insertLowest lowest position) (s ∪ {position}) := by
  obtain ⟨h₁, h₂, h₃, h₄, h₅⟩ := h
  unfold insertLowest
  split_ifs <;> constructor <;> grind

lemma Highest.insert (h : Highest highest s) :
    Highest (insertHighest highest (position + 1)) (s ∪ {position}) := by
  obtain ⟨h₁, h₂, h₃, h₄, h₅⟩ := h
  unfold insertHighest
  split_ifs <;> constructor <;> grind

/-- The two lowest positions of a set stand for the set. -/
lemma Lowest.extend (h : Lowest lowest (s ∪ e)) (hother : Lowest other s') (hsub : e ⊆ s')
    (h₁ : other.1 ≠ uint32Max → other.1 ∈ e) (h₂ : other.2 ≠ uint32Max → other.2 ∈ e)
    (hlt : ∀ p ∈ s', p < uint32Max) : Lowest lowest (s ∪ s') := by
  have hunion : s ∪ e ⊆ s ∪ s' := union_subset_union_right hsub
  have hleast : ∀ p ∈ s', lowest.1 ≤ p := by
    intro p hp
    have hle := hother.least p hp
    have hmem := h₁ (by have := hlt p hp; omega)
    exact (h.least _ (mem_union_right _ hmem)).trans hle
  refine ⟨fun hne => hunion (h.mem₁ hne), fun hne => hunion (h.mem₂ hne), fun p hp => ?_,
    fun p hp hne => ?_, h.distinct⟩
  · rcases mem_union.mp hp with hp | hp
    · exact h.least p (mem_union_left _ hp)
    · exact hleast p hp
  rcases mem_union.mp hp with hp | hp
  · exact h.next p (mem_union_left _ hp) hne
  have hp' := hlt p hp
  by_cases heq : p = other.1
  · exact h.next p (mem_union_right _ (heq ▸ h₁ (by omega))) hne
  -- both positions of the other set are at most `p`, and one of them is not the lowest
  have hle := hother.next p hp heq
  have hmem := h₂ (by omega)
  have hfirst := hleast other.1 (hother.mem₁ (by have := hother.distinct; omega))
  have hne' : other.2 ≠ lowest.1 := by
    have := hother.distinct
    omega
  exact (h.next _ (mem_union_right _ hmem) hne').trans hle

/-- The two highest positions of a set stand for the set. -/
lemma Highest.extend (h : Highest highest (s ∪ e)) (hother : Highest other s') (hsub : e ⊆ s')
    (h₁ : other.1 ≠ 0 → other.1 - 1 ∈ e) (h₂ : other.2 ≠ 0 → other.2 - 1 ∈ e) :
    Highest highest (s ∪ s') := by
  have hunion : s ∪ e ⊆ s ∪ s' := union_subset_union_right hsub
  have hgreatest : ∀ p ∈ s', p + 1 ≤ highest.1 := by
    intro p hp
    have hle := hother.greatest p hp
    have hmem := h.greatest _ (mem_union_right _ (h₁ (by omega)))
    omega
  refine ⟨fun hne => hunion (h.mem₁ hne), fun hne => hunion (h.mem₂ hne), fun p hp => ?_,
    fun p hp hne => ?_, h.distinct⟩
  · rcases mem_union.mp hp with hp | hp
    · exact h.greatest p (mem_union_left _ hp)
    · exact hgreatest p hp
  rcases mem_union.mp hp with hp | hp
  · exact h.next p (mem_union_left _ hp) hne
  by_cases heq : p + 1 = other.1
  · have hmem := h₁ (by omega)
    rw [← heq, Nat.add_sub_cancel] at hmem
    exact h.next p (mem_union_right _ hmem) hne
  · have hle := hother.next p hp heq
    have hmem := h₂ (by omega)
    have hfirst := hgreatest _ (hother.mem₁ (by have := hother.distinct; omega))
    have hnext := h.next _ (mem_union_right _ hmem) (by have := hother.distinct; omega)
    omega

lemma Summarizes.insert (h : t.Summarizes n s) (hlt : position < uint32Max) :
    (t.insert position).Summarizes n (s ∪ {position}) := by
  refine ⟨h.lowest.insert, h.highest.insert, h.exitBalance, fun p hp => ?_⟩
  rcases mem_union.mp hp with hp | hp
  · exact h.lt p hp
  · rwa [mem_singleton.mp hp]

lemma Summarizes.charge (h : t.Summarizes n s) (amount : ℤ) :
    (t.charge amount).Summarizes (n + amount) s :=
  ⟨h.lowest, h.highest, congrArg (· + amount) h.exitBalance, h.lt⟩

lemma Summarizes.insertIf (h : t.Summarizes n s) (present : Bool) (position : ℕ)
    (hlt : present = true → position < uint32Max) :
    (t.insertIf present position).Summarizes n (s ∪ if present then {position} else ∅) := by
  cases present with
  | false =>
    rw [if_neg Bool.false_ne_true, union_empty]
    exact h
  | true => exact h.insert (hlt rfl)

lemma Summarizes.empty : RegionTargets.empty.Summarizes 0 ∅ := by
  refine ⟨⟨fun h => absurd rfl h, fun h => absurd rfl h, by simp, by simp, Or.inr rfl⟩,
    ⟨fun h => absurd rfl h, fun h => absurd rfl h, by simp, by simp, Or.inr rfl⟩, rfl, by simp⟩

lemma ite_subset {present : Bool} (h : present = true → position ∈ s) :
    (if present then {position} else ∅ : Finset ℕ) ⊆ s := by
  cases present with
  | false => simp
  | true => simpa using h

lemma Summarizes.absorb (h : t.Summarizes n s) (hchild : child.Summarizes m s') :
    (t.absorb child).Summarizes (n + m) (s ∪ s') := by
  obtain ⟨hlow, hhigh, hbalance, hlt⟩ := hchild
  have hl₁ : decide (child.lowest.1 ≠ uint32Max) = true → child.lowest.1 ∈ s' :=
    fun hp => hlow.mem₁ (of_decide_eq_true hp)
  have hu₁ : decide (child.highest.1 ≠ 0) = true → child.highest.1 - 1 ∈ s' :=
    fun hp => hhigh.mem₁ (of_decide_eq_true hp)
  have hl₂ : decide (child.lowest.2 ≠ uint32Max) = true → child.lowest.2 ∈ s' :=
    fun hp => hlow.mem₂ (of_decide_eq_true hp)
  have hu₂ : decide (child.highest.2 ≠ 0) = true → child.highest.2 - 1 ∈ s' :=
    fun hp => hhigh.mem₂ (of_decide_eq_true hp)
  have hall := ((((h.charge m).insertIf _ _ fun hp => hlt _ (hl₁ hp)).insertIf _ _
    fun hp => hlt _ (hu₁ hp)).insertIf _ _ fun hp => hlt _ (hl₂ hp)).insertIf _ _
    fun hp => hlt _ (hu₂ hp)
  rw [union_assoc, union_assoc, union_assoc] at hall
  unfold RegionTargets.absorb
  rw [hbalance]
  generalize he : ((if decide (child.lowest.1 ≠ uint32Max) = true then {child.lowest.1} else ∅) ∪
    ((if decide (child.highest.1 ≠ 0) = true then {child.highest.1 - 1} else ∅) ∪
      ((if decide (child.lowest.2 ≠ uint32Max) = true then {child.lowest.2} else ∅) ∪
        if decide (child.highest.2 ≠ 0) = true then {child.highest.2 - 1} else ∅)) : Finset ℕ) =
            e at hall
  have hsub : e ⊆ s' := by
    rw [← he]
    exact union_subset (ite_subset hl₁) (union_subset (ite_subset hu₁)
      (union_subset (ite_subset hl₂) (ite_subset hu₂)))
  refine ⟨hall.lowest.extend hlow hsub ?_ ?_ hlt, hall.highest.extend hhigh hsub ?_ ?_,
    hall.exitBalance, fun p hp => ?_⟩
  · intro hne
    simp [← he, hne]
  · intro hne
    simp [← he, hne]
  · intro hne
    simp [← he, hne]
  · intro hne
    simp [← he, hne]
  · rcases mem_union.mp hp with hp | hp
    · exact h.lt p hp
    · exact hlt p hp

/-- The two lowest and the two highest positions show whether one position is outside an
interval. -/
lemma Summarizes.unique (h : t.Summarizes n s) {first last : ℕ} (hle : first ≤ last)
    (hlast : last < uint32Max) :
    (decide (t.lowest.1 < first) = decide (t.highest.1 > last + 1) ∨ t.lowest.2 < first ∨
        t.highest.2 > last + 1 → ¬∃ q, ∀ p, (p ∈ s ∧ (p < first ∨ last < p)) ↔ p = q) ∧
      (¬(decide (t.lowest.1 < first) = decide (t.highest.1 > last + 1) ∨ t.lowest.2 < first ∨
        t.highest.2 > last + 1) → ∀ p, (p ∈ s ∧ (p < first ∨ last < p)) ↔
          p = if decide (t.lowest.1 < first) then t.lowest.1 else t.highest.1 - 1) := by
  obtain ⟨⟨hl₁, hl₂, hleast, hlnext, hl⟩, ⟨hu₁, hu₂, hgreatest, hunext, hu⟩, -⟩ := h
  rw [decide_eq_decide]
  constructor
  · rintro hcond ⟨q, hq⟩
    obtain ⟨hqs, hqout⟩ := (hq q).mpr rfl
    have hqle := hleast q hqs
    have hqge := hgreatest q hqs
    have hlow : t.lowest.1 < first → t.lowest.1 = q := fun hlt =>
      (hq _).mp ⟨hl₁ (by omega), Or.inl hlt⟩
    have hhigh : t.highest.1 > last + 1 → t.highest.1 - 1 = q := fun hgt =>
      (hq _).mp ⟨hu₁ (by omega), Or.inr (by omega)⟩
    rcases hcond with hboth | hlt | hgt
    · by_cases hbefore : t.lowest.1 < first
      · omega
      · omega
    · have := (hq _).mp ⟨hl₂ (by omega), Or.inl hlt⟩
      omega
    · have := (hq _).mp ⟨hu₂ (by omega), Or.inr (by omega)⟩
      omega
  · intro hcond p
    rw [not_or, not_or] at hcond
    obtain ⟨hsides, hlow, hhigh⟩ := hcond
    by_cases hbefore : t.lowest.1 < first
    · have hafter : ¬t.highest.1 > last + 1 := fun hc => hsides (iff_of_true hbefore hc)
      rw [if_pos (decide_eq_true hbefore)]
      constructor
      · rintro ⟨hp, hout⟩
        have := hgreatest p hp
        by_contra hne
        have := hlnext p hp hne
        omega
      · rintro rfl
        exact ⟨hl₁ (by omega), Or.inl hbefore⟩
    · have hafter : t.highest.1 > last + 1 := by
        by_contra hc
        exact hsides (iff_of_false hbefore hc)
      rw [if_neg (by simpa using hbefore)]
      constructor
      · rintro ⟨hp, hout⟩
        have := hleast p hp
        by_contra hne
        have := hunext p hp (by omega)
        omega
      · rintro rfl
        exact ⟨hu₁ (by omega), Or.inr (by omega)⟩

end RegionTargets

/-! ### The input -/

namespace RegionInput

variable {g : RegionInput} {r : Region} {b e : ℕ}

structure Describes (g : RegionInput) (r : Region) : Prop where
  blockCount : g.blockCount = r.blocks.length
  edges : g.edges = r.edges
  reachable : ∀ b < r.blocks.length, (g.reachable b = true ↔ ReflTransGen r.Flow 0 b)
  dominance : g.dominance.Exact r

lemma mem_successorEdges : e ∈ g.successorEdges b ↔ e < g.edges.length ∧ g.source e = b := by
  simp [successorEdges]

namespace Describes

variable (h : g.Describes r)
include h

section

variable (he : e < g.edges.length)
include he

lemma flow : r.Flow (g.source e) (g.target e) := by
  have hget : g.edges.getD e (0, 0) = g.edges[e] := by simp [List.getD, he]
  have hmem : g.edges[e] ∈ r.edges := h.edges ▸ List.getElem_mem he
  unfold source target
  rw [hget]
  exact hmem

lemma source_lt : g.source e < r.blocks.length := (Region.lt_of_mem_edges (h.flow he)).1

lemma target_lt : g.target e < r.blocks.length := (Region.lt_of_mem_edges (h.flow he)).2

lemma reachable_source_iff :
    g.reachable (g.source e) = true ↔ g.source e ∈ g.dominance.preorder := by
  rw [h.reachable _ (h.source_lt he), h.dominance.mem]
  exact ⟨fun hr => ⟨h.source_lt he, hr⟩, And.right⟩

lemma target_mem (hs : g.source e ∈ g.dominance.preorder) : g.target e ∈ g.dominance.preorder := by
  rw [h.dominance.mem] at hs ⊢
  exact ⟨h.target_lt he, hs.2.tail (h.flow he)⟩

end

lemma length_preorder_le : g.dominance.preorder.length ≤ r.blocks.length := by
  have hsub : g.dominance.preorder.toFinset ⊆ Finset.range r.blocks.length := by
    intro b hb
    exact mem_range.mpr ((h.dominance.mem b).mp (List.mem_toFinset.mp hb)).1
  have hcard := card_le_card hsub
  rwa [List.toFinset_card_of_nodup h.dominance.nodup, card_range] at hcard

lemma length_preorder_le_max : g.dominance.preorder.length ≤ uint16Max :=
  h.length_preorder_le.trans r.length_le

/-! ### Balances -/

omit h in
lemma sum_charge (t : ℕ → RegionTargets) (k : ℕ) (amount : ℤ) (s : Finset ℕ) :
    ∑ x ∈ s, ((update t k ((t k).charge amount)) x).exitBalance =
      ∑ x ∈ s, (t x).exitBalance + if k ∈ s then amount else 0 := by
  have hpoint : ∀ x, ((update t k ((t k).charge amount)) x).exitBalance =
      (t x).exitBalance + if x = k then amount else 0 := by
    intro x
    by_cases hx : x = k
    · rw [hx, update_self, if_pos rfl]
      rfl
    · rw [update_of_ne hx, if_neg hx, Int.add_zero]
  simp only [hpoint, sum_add_distrib, sum_ite_eq']

/-- What an edge adds to the balance of a set of blocks. -/
def weight (g : RegionInput) (s : Finset ℕ) (e : ℕ) : ℤ :=
  if g.reachable (g.source e) then
    (if g.source e ∈ s then 1 else 0) + if g.ancestor e ∈ s then -1 else 0
  else 0

omit h in
lemma sum_foldl_chargeEdge (l : List ℕ) (t : ℕ → RegionTargets) (s : Finset ℕ) :
    ∑ x ∈ s, ((l.foldl g.chargeEdge t) x).exitBalance =
      ∑ x ∈ s, (t x).exitBalance + (l.map (weight g s)).sum := by
  induction l generalizing t with
  | nil => simp
  | cons e l ih =>
    rw [List.foldl_cons, ih, List.map_cons, List.sum_cons, ← Int.add_assoc]
    congr 1
    unfold chargeEdge weight
    by_cases hr : g.reachable (g.source e) = true
    · rw [if_pos hr, if_pos hr, sum_charge, sum_charge, Int.add_assoc]
    · rw [if_neg hr, if_neg hr, Int.add_zero]

omit h in
lemma foldl_chargeEdge_summarizes (l : List ℕ) {t : ℕ → RegionTargets}
    (ht : ∀ b, (t b).Summarizes (t b).exitBalance ∅) (b : ℕ) :
    ((l.foldl g.chargeEdge t) b).Summarizes ((l.foldl g.chargeEdge t) b).exitBalance ∅ := by
  have hupdate : ∀ (t : ℕ → RegionTargets) (k : ℕ) (amount : ℤ),
      (∀ b, (t b).Summarizes (t b).exitBalance ∅) →
      ∀ b, (update t k ((t k).charge amount) b).Summarizes
        (update t k ((t k).charge amount) b).exitBalance ∅ := by
    intro t k amount ht b
    by_cases hb : b = k
    · subst hb
      rw [update_self]
      exact (ht b).charge amount
    · rw [update_of_ne hb]
      exact ht b
  induction l generalizing t with
  | nil => exact ht b
  | cons e l ih =>
    rw [List.foldl_cons]
    apply ih
    unfold chargeEdge
    by_cases hr : g.reachable (g.source e) = true
    · rw [if_pos hr]
      exact hupdate _ _ _ (hupdate _ _ _ ht)
    · rw [if_neg hr]
      exact ht

/-- An edge weighs one if it leaves the subtree. -/
lemma weight_eq (hb : b ∈ g.dominance.preorder) (he : e < g.edges.length) :
    weight g (g.dominance.subtree b) e =
      if g.source e ∈ g.dominance.subtree b ∧ g.target e ∉ g.dominance.subtree b then 1 else 0 := by
  unfold weight
  by_cases hs : g.source e ∈ g.dominance.preorder
  · have hancestor := h.dominance.ancestor_mem_iff hb hs (h.target_mem he hs) (h.flow he)
      h.length_preorder_le_max
    rw [if_pos ((h.reachable_source_iff he).mpr hs), ancestor]
    by_cases hsource : g.source e ∈ g.dominance.subtree b <;>
      by_cases htarget : g.target e ∈ g.dominance.subtree b <;> simp [hancestor, hsource, htarget]
  · have hnot : g.source e ∉ g.dominance.subtree b :=
      fun hc => hs ((h.dominance.mem_subtree hb).mp hc).1
    rw [if_neg fun hc => hs ((h.reachable_source_iff he).mp hc), if_neg fun hc => hnot hc.1]

/-! ### The loop over the preorder -/

omit h in
lemma foldr_visitEdge (l : List ℕ) (b : ℕ) (tables : RegionTables) :
    l.foldr (g.visitEdge b) tables =
      ⟨update tables.targets b
          (l.foldr (fun e t => t.insert (g.dominance.first (g.target e))) (tables.targets b)),
        (l.map fun e => (g.target e, e)).foldr
        (fun item s => placeBefore s item) tables.incoming⟩ := by
  induction l with
  | nil => simp
  | cons e l ih =>
    rw [List.foldr_cons, ih]
    simp [visitEdge]

/-- The positions of a block's own targets, the number of blocks where it has none. -/
def own (g : RegionInput) (b : ℕ) : Finset ℕ :=
  if g.successorEdges b = [] then {g.blockCount}
  else (g.successorEdges b).toFinset.image fun e => g.dominance.first (g.target e)

/-- The exit of a block without successors. -/
def returns (g : RegionInput) (b : ℕ) : ℤ := if g.successorEdges b = [] then 1 else 0

def ownTargets (g : RegionInput) (b : ℕ) (t : RegionTargets) : RegionTargets :=
  (g.successorEdges b).foldr (fun e t => t.insert (g.dominance.first (g.target e)))
    (if g.successorEdges b = [] then (t.insert g.blockCount).charge 1 else t)

variable {t : RegionTargets} {n : ℤ} {s : Finset ℕ} {x : ℕ} {l₁ l₂ : List ℕ}

omit h in
lemma foldr_insert_summarizes (ht : t.Summarizes n s) (l : List ℕ) :
    (l.foldr (fun e t => t.insert (g.dominance.first (g.target e))) t).Summarizes n
      (s ∪ l.toFinset.image fun e => g.dominance.first (g.target e)) := by
  have hlt : ∀ b, g.dominance.first b < uint32Max := by
    intro b
    simp only [uint32Max, first]
    omega
  induction l with
  | nil => simpa using ht
  | cons e l ih =>
    rw [List.foldr_cons, List.toFinset_cons, image_insert, insert_eq,
      union_comm (singleton _), ← union_assoc]
    exact ih.insert (hlt (g.target e))

lemma ownTargets_summarizes (ht : t.Summarizes n s) (b : ℕ) :
    (ownTargets g b t).Summarizes (n + returns g b) (own g b ∪ s) := by
  unfold ownTargets returns own
  by_cases hnone : g.successorEdges b = []
  · have hlt : g.blockCount < uint32Max := by
      have := r.length_le
      rw [h.blockCount]
      simp only [uint32Max, uint16Max] at this ⊢
      omega
    rw [if_pos hnone, if_pos hnone, if_pos hnone, hnone, union_comm]
    exact (ht.insert hlt).charge 1
  · rw [if_neg hnone, if_neg hnone, if_neg hnone, Int.add_zero, union_comm]
    exact foldr_insert_summarizes ht _

omit h in
lemma visitBlock_targets (x : ℕ) (tables : RegionTables) :
    (g.visitBlock x tables).targets =
      let targets := update tables.targets x (ownTargets g x (tables.targets x))
      if x ≠ 0 then update targets (g.dominance.immediateDominators x)
        ((targets (g.dominance.immediateDominators x)).absorb (ownTargets g x (tables.targets x)))
      else targets := by
  unfold visitBlock ownTargets
  by_cases hx : x = 0
  · subst hx
    by_cases hnone : g.successorEdges 0 = [] <;> simp [hnone, foldr_visitEdge, RegionTables.modify]
  · by_cases hnone : g.successorEdges x =
      [] <;> simp [hnone, hx, foldr_visitEdge, RegionTables.modify]

omit h in
lemma visitBlock_incoming (x : ℕ) (tables : RegionTables) :
    (g.visitBlock x tables).incoming = ((g.successorEdges x).map fun e => (g.target e, e)).foldr
      (fun item s => placeBefore s item) tables.incoming := by
  unfold visitBlock
  by_cases hx : x = 0
  · subst hx
    by_cases hnone : g.successorEdges 0 = [] <;> simp [hnone, foldr_visitEdge, RegionTables.modify]
  · by_cases hnone : g.successorEdges x =
      [] <;> simp [hnone, hx, foldr_visitEdge, RegionTables.modify]

def total (g : RegionInput) (b : ℕ) : ℤ :=
  ∑ x ∈ g.dominance.subtree b, ((g.initialTables.targets x).exitBalance + returns g x)

def positions (g : RegionInput) (b : ℕ) : Finset ℕ := (g.dominance.subtree b).biUnion (own g)

lemma total_eq (hb : b ∈ g.dominance.preorder) :
    total g b = (g.initialTables.targets b).exitBalance + returns g b +
      ∑ c ∈ g.dominance.childrenIn g.dominance.preorder b, total g c :=
  h.dominance.sum_subtree hb _

lemma positions_eq (hb : b ∈ g.dominance.preorder) :
    positions g b =
      own g b ∪ (g.dominance.childrenIn g.dominance.preorder b).biUnion (positions g) := by
  rw [positions, h.dominance.subtree_eq hb, Finset.biUnion_insert, Finset.biUnion_biUnion]
  rfl

/-- What the loop leaves behind the blocks of `l`: a block of the list has its own targets, and
every block those of the subtrees of its children in the list. -/
def Visited (g : RegionInput) (l : List ℕ) (targets : ℕ → RegionTargets) : Prop :=
  ∀ b, (targets b).Summarizes
    ((g.initialTables.targets b).exitBalance + (if b ∈ l then returns g b else 0) +
      ∑ c ∈ g.dominance.childrenIn l b, total g c)
    ((if b ∈ l then own g b else ∅) ∪ (g.dominance.childrenIn l b).biUnion (positions g))

omit h in
lemma childrenIn_cons (x : ℕ) (l : List ℕ) (b : ℕ) :
    g.dominance.childrenIn (x :: l) b = if x ≠ 0 ∧ g.dominance.immediateDominators x = b then
      insert x (g.dominance.childrenIn l b) else g.dominance.childrenIn l b := by
  ext c
  split_ifs with hx
  · simp only [mem_childrenIn, List.mem_cons, mem_insert]
    grind
  · simp only [mem_childrenIn, List.mem_cons]
    grind

/-- The children of a block stand behind it in the preorder. -/
lemma childrenIn_behind (hl : l₁ ++ x :: l₂ = g.dominance.preorder) :
    g.dominance.childrenIn l₂ x = g.dominance.childrenIn g.dominance.preorder x := by
  ext c
  simp only [mem_childrenIn]
  constructor
  · rintro ⟨hc, hrest⟩
    exact ⟨hl ▸ List.mem_append_right _ (List.mem_cons_of_mem _ hc), hrest⟩
  rintro ⟨hc, hne, hparent⟩
  refine ⟨?_, hne, hparent⟩
  have hlt := h.dominance.first_immediate_lt hc hne
  rw [hparent] at hlt
  have hpos : ∀ i (hi : i < g.dominance.preorder.length),
      g.dominance.first g.dominance.preorder[i] = i :=
    fun i hi => h.dominance.first_getElem hi
  obtain ⟨i, hi, rfl⟩ := List.getElem_of_mem hc
  rw [hpos] at hlt
  have hx := hpos l₁.length (by rw [← hl]; simp)
  simp only [← hl, List.getElem_append_right le_rfl, Nat.sub_self,
      List.getElem_cons_zero] at hx
  rw [hx] at hlt
  simp only [← hl]
  rw [List.getElem_append_right hlt.le, List.getElem_cons, dif_neg (by omega)]
  exact List.getElem_mem _

lemma Visited.visitBlock {tables : RegionTables} (hl : l₁ ++ x :: l₂ = g.dominance.preorder)
    (hv : Visited g l₂ tables.targets) : Visited g (x :: l₂) (g.visitBlock x tables).targets := by
  have hmem : x ∈ g.dominance.preorder := by simp [← hl]
  have hx : x ∉ l₂ := by
    have hnodup := h.dominance.nodup
    rw [← hl] at hnodup
    exact (List.nodup_cons.mp (List.nodup_append.mp hnodup).2.1).1
  -- the block is complete: its children are behind it
  have hself : (ownTargets g x (tables.targets x)).Summarizes (total g x) (positions g x) := by
    have hown := ownTargets_summarizes h (hv x) x
    rw [if_neg hx, if_neg hx, childrenIn_behind h hl, empty_union, Int.add_zero] at hown
    rw [total_eq h hmem, positions_eq h hmem]
    convert hown using 1
    omega
  have hparent : x ≠ 0 → g.dominance.immediateDominators x ≠ x := by
    intro hne heq
    have := h.dominance.first_immediate_lt hmem hne
    rw [heq] at this
    omega
  intro b
  rw [visitBlock_targets, childrenIn_cons]
  by_cases hb : b = x
  · subst hb
    have hchildren : ¬(b ≠ 0 ∧ g.dominance.immediateDominators b = b) := fun hc => hparent hc.1 hc.2
    rw [if_neg hchildren, if_pos List.mem_cons_self, if_pos List.mem_cons_self]
    have hgoal : (update tables.targets b (ownTargets g b (tables.targets b)) b).Summarizes
        ((g.initialTables.targets b).exitBalance + returns g b +
          ∑ c ∈ g.dominance.childrenIn l₂ b, total g c)
        (own g b ∪ (g.dominance.childrenIn l₂ b).biUnion (positions g)) := by
      rw [update_self, childrenIn_behind h hl]
      rwa [← total_eq h hmem, ← positions_eq h hmem]
    by_cases hb0 : b = 0
    · rwa [if_neg (not_not_intro hb0)]
    · rwa [if_pos hb0, update_of_ne (hparent hb0).symm]
  · have hiff : b ∈ x :: l₂ ↔ b ∈ l₂ := by simp [hb]
    simp only [hiff]
    have hold : update tables.targets x (ownTargets g x (tables.targets x)) b =
        tables.targets b := update_of_ne hb ..
    by_cases hp : x ≠ 0 ∧ g.dominance.immediateDominators x = b
    · rw [if_pos hp, if_pos hp.1, hp.2, update_self, hold, biUnion_insert,
        sum_insert fun hc => hx (mem_childrenIn.mp hc).1]
      convert (hv _).absorb hself using 1
      · omega
      · rw [union_comm (positions g x), union_assoc]
    · rw [if_neg hp]
      by_cases hx0 : x = 0
      · rw [if_neg (not_not_intro hx0), hold]
        exact hv b
      · rw [if_pos hx0, update_of_ne fun hc => hp ⟨hx0, hc.symm⟩, hold]
        exact hv b

lemma visited_foldr (hl : l₁ ++ l₂ = g.dominance.preorder) :
    Visited g l₂ (l₂.foldr g.visitBlock g.initialTables).targets := by
  induction l₂ generalizing l₁ with
  | nil =>
    intro b
    have := foldl_chargeEdge_summarizes (g := g) (List.range g.edges.length)
      (fun _ => RegionTargets.Summarizes.empty) b
    simpa [childrenIn, initialTables] using this
  | cons x l₂ ih =>
    rw [List.foldr_cons]
    have hnext : (l₁ ++ [x]) ++ l₂ = g.dominance.preorder := by simpa using hl
    exact Visited.visitBlock h hl (ih hnext)

/-- The tables hold the balance and the positions of the subtree of each block. -/
theorem tables_spec (hb : b ∈ g.dominance.preorder) :
    (g.tables.targets b).Summarizes (total g b) (positions g b) := by
  have hv := visited_foldr h (List.nil_append _) b
  rw [if_pos hb, if_pos hb] at hv
  rwa [← total_eq h hb, ← positions_eq h hb] at hv

end Describes

end RegionInput

end Hrx.Cfg
