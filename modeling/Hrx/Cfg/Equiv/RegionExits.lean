import Hrx.Cfg.Equiv.Regions
import Mathlib.Algebra.BigOperators.Ring.Finset

/-!
# The exits of dominance regions

The loop over the preorder fills the buckets of incoming edges in the order of their sources
(`bucket_spec`), so two searches cut out the edges of a subtree (`edgesTo_spec`).  With the balances
and targets of the tables this gives the exits of every region (`regions_exact`).
-/

namespace Hrx.Cfg

open Buckets Dominators List Relation

/-- An edge from the subtree of a block to a block outside it. -/
def Region.Leaves (r : Region) (b e : ℕ) : Prop :=
  ∃ u v, r.edges[e]? = some (u, v) ∧ r.InSubtree b u ∧ ¬r.InSubtree b v

/-- A block without successors. -/
def Region.Final (r : Region) (x : ℕ) : Prop := ∀ y, ¬r.Flow x y

structure RegionInfo.Exact (info : RegionInfo) (r : Region) (b : ℕ) : Prop where
  exitCount : info.exitCount =
    Set.ncard {e | r.Leaves b e} + Set.ncard {x | r.InSubtree b x ∧ r.Final x}
  continuation : ∀ c ≠ continuationNone, info.continuationIndex = c ↔
    (∀ x, r.InSubtree b x → ¬r.Final x) ∧ (∃ e, r.Leaves b e) ∧
      ∀ e, r.Leaves b e → ∃ u, r.edges[e]? = some (u, c)
  exitEdges : info.continuationIndex ≠ continuationNone →
    info.exitEdges.Nodup ∧ ∀ e, e ∈ info.exitEdges ↔ r.Leaves b e

namespace RegionInput

/-- The search returns the first index whose key is not below the position. -/
lemma edgeLowerBound_spec (position : ℕ) {key : ℕ → ℕ} {limit : ℕ}
    (hmono : ∀ i j, i ≤ j → j < limit → key i ≤ key j) (fuel : ℕ) {first count : ℕ}
    (hfuel : count ≤ fuel) (hlimit : first + count ≤ limit)
    (hbefore : ∀ i < first, key i < position)
    (hbehind : ∀ i, first + count ≤ i → i < limit → position ≤ key i) :
    (∀ i < edgeLowerBound key position fuel first count, key i < position) ∧
      (∀ i, edgeLowerBound key position fuel first count ≤ i → i < limit → position ≤ key i) ∧
      edgeLowerBound key position fuel first count ≤ limit := by
  induction fuel generalizing first count with
  | zero =>
    obtain rfl : count = 0 := by omega
    exact ⟨hbefore, hbehind, hlimit⟩
  | succ fuel ih =>
    unfold edgeLowerBound
    by_cases hcount : count = 0
    · rw [if_pos hcount]
      subst hcount
      exact ⟨hbefore, hbehind, hlimit⟩
    rw [if_neg hcount]
    by_cases hkey : key (first + count / 2) < position
    · rw [if_pos hkey]
      refine ih (by omega) (by omega) (fun i hi => ?_) fun i hi => hbehind i (by omega)
      exact (hmono i _ (by omega) (by omega)).trans_lt hkey
    · rw [if_neg hkey]
      refine ih (by omega) (by omega) hbefore fun i hi hlt => ?_
      exact (not_lt.mp hkey).trans (hmono _ i hi hlt)

variable {g : RegionInput} {r : Region} {b e entry destination : ℕ}

/-- The edges from reachable blocks, in the order of their sources in the preorder. -/
def reachableEdges (g : RegionInput) : List ℕ := g.dominance.preorder.flatMap g.successorEdges

lemma mem_reachableEdges :
    e ∈ g.reachableEdges ↔ e < g.edges.length ∧ g.source e ∈ g.dominance.preorder := by
  simp only [reachableEdges, mem_flatMap, mem_successorEdges]
  constructor
  · rintro ⟨b, hb, he, rfl⟩
    exact ⟨he, hb⟩
  · rintro ⟨he, hb⟩
    exact ⟨_, hb, he, rfl⟩

lemma tables_incoming : g.tables.incoming = (g.reachableEdges.map fun e => (g.target e, e)).foldr
    (fun item s => placeBefore s item) g.initialTables.incoming := by
  unfold tables reachableEdges
  induction g.dominance.preorder with
  | nil => rfl
  | cons x l ih =>
    rw [List.foldr_cons, Describes.visitBlock_incoming, ih, List.flatMap_cons, List.map_append,
      List.foldr_append]

def bucket (g : RegionInput) (destination : ℕ) : List ℕ :=
  g.reachableEdges.filter fun e => g.target e = destination

lemma values_eq_bucket :
    values (g.reachableEdges.map fun e => (g.target e, e)) destination = g.bucket destination := by
  unfold values bucket
  rw [List.filter_map, List.map_map]
  exact List.map_id _

namespace Describes

variable (h : g.Describes r)
include h

lemma nodup_reachableEdges : g.reachableEdges.Nodup := by
  refine nodup_flatMap.mpr ⟨fun b _ => nodup_range.filter _, ?_⟩
  refine h.dominance.nodup.imp fun {a b} hne e hea heb => hne ?_
  rw [← (mem_successorEdges.mp hea).2, ← (mem_successorEdges.mp heb).2]

lemma pairwise_reachableEdges : g.reachableEdges.Pairwise fun e e' =>
    g.dominance.first (g.source e) ≤ g.dominance.first (g.source e') := by
  refine pairwise_flatMap.mpr ⟨fun b _ => ?_, ?_⟩
  · refine pairwise_iff_getElem.mpr fun i j hi hj _ => ?_
    rw [(mem_successorEdges.mp (getElem_mem hi)).2,
        (mem_successorEdges.mp (getElem_mem hj)).2]
  · refine pairwise_iff_getElem.mpr fun i j hi hj hij e he e' he' => ?_
    rw [(mem_successorEdges.mp he).2, (mem_successorEdges.mp he').2, h.dominance.first_getElem hi,
      h.dominance.first_getElem hj]
    exact hij.le

lemma incomingCount_eq (destination : ℕ) :
    g.incomingCount destination = (g.bucket destination).length := by
  apply List.Perm.length_eq
  apply (perm_ext_iff_of_nodup (nodup_range.filter _) (h.nodup_reachableEdges.filter _)).mpr
  intro e
  simp only [mem_filter, mem_range, mem_reachableEdges, Bool.and_eq_true, beq_iff_eq,
    decide_eq_true_eq]
  constructor
  · rintro ⟨he, hr, ht⟩
    exact ⟨⟨he, (h.reachable_source_iff he).mp hr⟩, ht⟩
  · rintro ⟨⟨he, hs⟩, ht⟩
    exact ⟨he, (h.reachable_source_iff he).mpr hs, ht⟩

lemma bucket_of_le (hle : g.blockCount ≤ destination) : g.bucket destination = [] := by
  apply filter_eq_nil_iff.mpr
  intro e he
  have := h.target_lt (mem_reachableEdges.mp he).1
  rw [h.blockCount] at hle
  simp only [decide_eq_true_eq]
  omega

/-- The run of a block in the array of incoming edges is its bucket. -/
theorem bucket_spec (hlt : destination < g.blockCount) :
    g.tables.incoming.cursor (destination + 1) - g.tables.incoming.cursor destination =
        (g.bucket destination).length ∧
      ∀ i < (g.bucket destination).length, (g.bucket destination)[i]? =
        some (g.tables.incoming.array (g.tables.incoming.cursor destination + i)) := by
  have hcount : g.incomingCount = fun k => (g.bucket k).length := funext h.incomingCount_eq
  have hcursor : ∀ k, g.initialTables.incoming.cursor k =
      starts (fun k => (g.bucket k).length) (min (k + 1) g.blockCount) := by
    intro k
    rw [← hcount]
    rfl
  have hmono : ∀ j k, j ≤ k → starts (fun k => (g.bucket k).length) j ≤
      starts (fun k => (g.bucket k).length) k := by
    intro j k hjk
    rcases Nat.lt_or_eq_of_le hjk with hlt | rfl
    · exact (Nat.le_add_right _ _).trans (starts_add_le _ hlt)
    · exact le_rfl
  have hsucc : ∀ k < g.blockCount, g.initialTables.incoming.cursor k =
      starts (fun k => (g.bucket k).length) k + (g.bucket k).length := by
    intro k hk
    rw [hcursor, Nat.min_eq_left hk]
    rfl
  have hend : ∀ k, g.blockCount ≤ k → (g.bucket k).length = 0 ∧
      g.initialTables.incoming.cursor k = starts (fun k => (g.bucket k).length) g.blockCount := by
    intro k hk
    rw [h.bucket_of_le hk, hcursor, Nat.min_eq_right (by omega)]
    exact ⟨rfl, rfl⟩
  have hspec := foldr_placeBefore (g.reachableEdges.map fun e => (g.target e, e))
    g.initialTables.incoming (fun k => ?_) fun j k hjk => ?_
  · rw [← tables_incoming] at hspec
    simp only [values_eq_bucket] at hspec
    obtain ⟨hhere, hrun⟩ := hspec destination
    obtain ⟨hnext, -⟩ := hspec (destination + 1)
    refine ⟨?_, hrun⟩
    rw [hsucc _ hlt] at hhere
    -- behind the last block the cursor repeats the end of the last bucket
    have hstart : g.tables.incoming.cursor (destination + 1) =
        starts (fun k => (g.bucket k).length) (destination + 1) := by
      by_cases hnextlt : destination + 1 < g.blockCount
      · rw [hsucc _ hnextlt] at hnext
        omega
      · obtain ⟨hnone, hc⟩ := hend (destination + 1) (by omega)
        rw [hc, hnone, show g.blockCount = destination + 1 by omega] at hnext
        exact hnext
    rw [hstart, starts]
    omega
  · rw [values_eq_bucket]
    by_cases hk : k < g.blockCount
    · rw [hsucc k hk]
      exact Nat.le_add_left _ _
    · rw [(hend k (not_lt.mp hk)).1]
      exact Nat.zero_le _
  · rw [values_eq_bucket]
    by_cases hk : k < g.blockCount
    · rw [hsucc k hk, hcursor, Nat.min_eq_left (by omega)]
      exact Nat.add_le_add_right (hmono _ _ (by omega)) _
    · obtain ⟨hnone, hc⟩ := hend k (not_lt.mp hk)
      rw [hnone, hc, hcursor]
      exact hmono _ _ (Nat.min_le_right _ _)

/-- The edges to a block from a subtree: a part of the block's bucket. -/
theorem edgesTo_spec (hentry : entry ∈ g.dominance.preorder) (hlt : destination < g.blockCount) :
    (g.edgesTo entry destination).Sublist (g.bucket destination) ∧
      ∀ e, e ∈ g.edgesTo entry destination ↔
        e ∈ g.bucket destination ∧ g.source e ∈ g.dominance.subtree entry := by
  obtain ⟨hcount, hrun⟩ := h.bucket_spec hlt
  have hvalid : g.dominance.intervals entry ≠ uint32Max :=
      h.dominance.intervals_ne hentry h.length_preorder_le_max
  have hsubtree : ∀ e ∈ g.bucket destination, (g.source e ∈ g.dominance.subtree entry ↔
      g.dominance.first entry ≤ g.dominance.first (g.source e) ∧
        g.dominance.first (g.source e) ≤ g.dominance.last entry) := by
    intro e he
    have hs := (mem_reachableEdges.mp (mem_filter.mp he).1).2
    simp [Dominance.subtree, hs]
  have hsorted := h.pairwise_reachableEdges.filter fun e => g.target e = destination
  unfold edgesTo
  dsimp only
  rw [hcount]
  by_cases hempty : (g.bucket destination).length = 0
  · rw [if_pos (Or.inl hempty), eq_nil_of_length_eq_zero hempty]
    simp
  rw [if_neg (by tauto)]
  generalize g.tables.incoming.cursor destination = start at hrun ⊢
  generalize g.tables.incoming.array = array at hrun ⊢
  have hkey : ∀ i (hi : i < (g.bucket destination).length),
      array (start + i) = (g.bucket destination)[i] := by
    intro i hi
    have := hrun i hi
    rw [List.getElem?_eq_getElem hi] at this
    exact (Option.some.inj this).symm
  have hmono : ∀ i j, i ≤ j → j < (g.bucket destination).length →
      g.dominance.first (g.source (array (start + i))) ≤
        g.dominance.first (g.source (array (start + j))) := by
    intro i j hij hj
    rcases Nat.lt_or_eq_of_le hij with hlt | rfl
    · rw [hkey i (by omega), hkey j hj]
      exact pairwise_iff_getElem.mp hsorted i j (hlt.trans hj) hj hlt
    · exact le_rfl
  obtain ⟨hlow₁, hlow₂, -⟩ := edgeLowerBound_spec (g.dominance.first entry) hmono _
    le_rfl (Nat.zero_add _).le (fun i hi => absurd hi (Nat.not_lt_zero i)) fun i hi hlt => by
    omega
  obtain ⟨hhigh₁, hhigh₂, hhigh⟩ := edgeLowerBound_spec (g.dominance.last entry + 1) hmono _
    le_rfl (Nat.zero_add _).le (fun i hi => absurd hi (Nat.not_lt_zero i)) fun i hi hlt => by
    omega
  generalize edgeLowerBound _ (g.dominance.first entry) _ _ _ = low at hlow₁ hlow₂ ⊢
  generalize edgeLowerBound _ (g.dominance.last entry + 1) _ _ _ = high at hhigh₁ hhigh₂ hhigh ⊢
  constructor
  · have hcut : (List.range (high - low)).map (fun i => array (start + (low + i))) =
        ((g.bucket destination).drop low).take (high - low) := by
      apply ext_getElem
      · simp
        omega
      intro i hi _
      rw [length_map, length_range] at hi
      rw [getElem_map, getElem_range, getElem_take, getElem_drop,
        hkey _ (by omega)]
    rw [hcut]
    exact (take_sublist _ _).trans (drop_sublist _ _)
  · intro e
    simp only [mem_map, mem_range]
    constructor
    · rintro ⟨i, hi, rfl⟩
      have hmem : array (start + (low + i)) ∈ g.bucket destination := by
        rw [hkey _ (by omega)]
        exact getElem_mem _
      exact ⟨hmem, (hsubtree _ hmem).mpr ⟨hlow₂ _ (by omega) (by omega),
        Nat.le_of_lt_succ (hhigh₁ _ (by omega))⟩⟩
    rintro ⟨hmem, hs⟩
    obtain ⟨hge, hle⟩ := (hsubtree e hmem).mp hs
    obtain ⟨i, hi, rfl⟩ := getElem_of_mem hmem
    rw [← hkey i hi] at hge hle
    have hi₁ : low ≤ i := by
      by_contra hc
      have := hlow₁ i (by omega)
      omega
    have hi₂ : i < high := by
      by_contra hc
      have := hhigh₂ i (by omega) hi
      omega
    exact ⟨i - low, by omega, by rw [Nat.add_sub_cancel' hi₁, hkey i hi]⟩

lemma edge_iff {u v : ℕ} :
    r.edges[e]? = some (u, v) ↔ e < g.edges.length ∧ g.source e = u ∧ g.target e = v := by
  rw [← h.edges, List.getElem?_eq_some_iff]
  unfold source target
  constructor
  · rintro ⟨he, heq⟩
    simp [List.getD, he, heq]
  · rintro ⟨he, hu, hv⟩
    simp only [List.getD, List.getElem?_eq_getElem he, Option.getD_some] at hu hv
    exact ⟨he, Prod.ext hu hv⟩

lemma leaves_iff (hb : b ∈ g.dominance.preorder) : r.Leaves b e ↔ e < g.edges.length ∧
    g.source e ∈ g.dominance.subtree b ∧ g.target e ∉ g.dominance.subtree b := by
  simp only [Region.Leaves, h.edge_iff, h.dominance.mem_subtree_iff hb]
  constructor
  · rintro ⟨u, v, ⟨he, rfl, rfl⟩, hin⟩
    exact ⟨he, hin⟩
  · rintro ⟨he, hin⟩
    exact ⟨_, _, ⟨he, rfl, rfl⟩, hin⟩

lemma final_iff {x : ℕ} : r.Final x ↔ g.successorEdges x = [] := by
  rw [eq_nil_iff_forall_not_mem]
  constructor
  · intro hfinal e he
    obtain ⟨hlt, rfl⟩ := mem_successorEdges.mp he
    exact hfinal _ (h.flow hlt)
  · intro hnone y hflow
    obtain ⟨e, he⟩ := mem_iff_getElem?.mp hflow
    obtain ⟨hlt, hs, -⟩ := h.edge_iff.mp he
    exact hnone e (mem_successorEdges.mpr ⟨hlt, hs⟩)

/-- A position of the subtree of a block outside its interval. -/
abbrev Outside (g : RegionInput) (b p : ℕ) : Prop :=
  p ∈ positions g b ∧ (p < g.dominance.first b ∨ g.dominance.last b < p)

section

variable (hb : b ∈ g.dominance.preorder)
include hb

/-- The balance of a subtree counts its exits. -/
lemma total_eq_ncard :
    total g b = ((Set.ncard {e | r.Leaves b e} + Set.ncard {x | r.InSubtree b x ∧ r.Final x} : ℕ) :
        ℤ) := by
  have hleaves : {e | r.Leaves b e} = (((Finset.range g.edges.length).filter fun e =>
      g.source e ∈ g.dominance.subtree b ∧ g.target e ∉ g.dominance.subtree b : Finset ℕ) :
          Set ℕ) := by
    ext e
    simp [h.leaves_iff hb]
  have hfinal : {x | r.InSubtree b x ∧ r.Final x} =
      (((g.dominance.subtree b).filter fun x => g.successorEdges x = [] : Finset ℕ) : Set ℕ) := by
    ext x
    simp [h.dominance.mem_subtree_iff hb, h.final_iff]
  rw [hleaves, hfinal, Set.ncard_coe_finset, Set.ncard_coe_finset, Nat.cast_add, total,
    Finset.sum_add_distrib]
  congr 1
  · unfold initialTables
    rw [sum_foldl_chargeEdge, Finset.natCast_card_filter]
    have hempty : ∑ x ∈ g.dominance.subtree b, RegionTargets.empty.exitBalance = 0 :=
      Finset.sum_eq_zero fun _ _ => rfl
    rw [hempty, Int.zero_add]
    exact Finset.sum_congr rfl fun e he => h.weight_eq hb (Finset.mem_range.mp he)
  · rw [Finset.natCast_card_filter]
    rfl

lemma outside_iff {p : ℕ} :
    Outside g b p ↔ (∃ e, r.Leaves b e ∧ g.dominance.first (g.target e) = p) ∨
      (p = g.blockCount ∧ ∃ x, r.InSubtree b x ∧ r.Final x) := by
  have hlast := (h.dominance.last b hb).trans_le (h.blockCount ▸ h.length_preorder_le)
  -- a target is outside the subtree exactly if its position is outside the interval
  have hout : ∀ e < g.edges.length, g.source e ∈ g.dominance.subtree b →
      (g.target e ∉ g.dominance.subtree b ↔ g.dominance.first (g.target e) < g.dominance.first b ∨
        g.dominance.last b < g.dominance.first (g.target e)) := by
    intro e he hs
    have ht := h.target_mem he ((h.dominance.mem_subtree hb).mp hs).1
    simp only [Dominance.subtree, mem_toFinset, mem_filter, ht, true_and,
      decide_eq_true_eq]
    omega
  simp only [Outside, positions, Finset.mem_biUnion, own]
  constructor
  · rintro ⟨⟨x, hx, hp⟩, hpout⟩
    by_cases hnone : g.successorEdges x = []
    · rw [if_pos hnone, Finset.mem_singleton] at hp
      exact Or.inr ⟨hp, x, (h.dominance.mem_subtree_iff hb).mp hx, h.final_iff.mpr hnone⟩
    rw [if_neg hnone, Finset.mem_image] at hp
    obtain ⟨e, he, rfl⟩ := hp
    obtain ⟨hlt, rfl⟩ := mem_successorEdges.mp (mem_toFinset.mp he)
    exact Or.inl ⟨e, (h.leaves_iff hb).mpr ⟨hlt, hx, (hout e hlt hx).mpr hpout⟩, rfl⟩
  · rintro (⟨e, he, rfl⟩ | ⟨rfl, x, hx, hfinal⟩)
    · obtain ⟨hlt, hs, ht⟩ := (h.leaves_iff hb).mp he
      have hmem := mem_successorEdges.mpr ⟨hlt, rfl⟩
      refine ⟨⟨g.source e, hs, ?_⟩, (hout e hlt hs).mp ht⟩
      rw [if_neg (ne_nil_of_mem hmem)]
      exact Finset.mem_image_of_mem _ (mem_toFinset.mpr hmem)
    · refine ⟨⟨x, (h.dominance.mem_subtree_iff hb).mpr hx, ?_⟩, Or.inr hlast⟩
      rw [if_pos (h.final_iff.mp hfinal)]
      exact Finset.mem_singleton_self _

/-- All exits lead to one block exactly if one position, that of a block, is outside the
interval. -/
lemma single_target_iff {c : ℕ} :
    ((∀ x, r.InSubtree b x → ¬r.Final x) ∧ (∃ e, r.Leaves b e) ∧
        ∀ e, r.Leaves b e → ∃ u, r.edges[e]? = some (u, c)) ↔
      c ∈ g.dominance.preorder ∧ ∀ p, Outside g b p ↔ p = g.dominance.first c := by
  have htarget : ∀ e, r.Leaves b e → e < g.edges.length ∧ g.target e ∈ g.dominance.preorder := by
    intro e he
    obtain ⟨hlt, hs, -⟩ := (h.leaves_iff hb).mp he
    exact ⟨hlt, h.target_mem hlt ((h.dominance.mem_subtree hb).mp hs).1⟩
  simp only [h.outside_iff hb]
  constructor
  · rintro ⟨hnone, ⟨e, he⟩, hall⟩
    have hc : ∀ e, r.Leaves b e → g.target e = c := fun e he =>
      (h.edge_iff.mp (hall e he).choose_spec).2.2
    refine ⟨hc e he ▸ (htarget e he).2, fun p => ⟨?_, ?_⟩⟩
    · rintro (⟨e', he', rfl⟩ | ⟨-, x, hx, hfinal⟩)
      · rw [hc e' he']
      · exact absurd hfinal (hnone x hx)
    · rintro rfl
      exact Or.inl ⟨e, he, by rw [hc e he]⟩
  · rintro ⟨hmem, hall⟩
    have hlt := (h.dominance.first_lt hmem).trans_le (h.blockCount ▸ h.length_preorder_le)
    refine ⟨fun x hx hfinal => ?_, ?_, fun e he => ?_⟩
    · have := (hall g.blockCount).mp (Or.inr ⟨rfl, x, hx, hfinal⟩)
      omega
    · rcases (hall _).mpr rfl with ⟨e, he, -⟩ | ⟨heq, -⟩
      · exact ⟨e, he⟩
      · omega
    · obtain ⟨hlt, ht⟩ := htarget e he
      have heq := (hall _).mp (Or.inl ⟨e, he, rfl⟩)
      exact ⟨g.source e, h.edge_iff.mpr ⟨hlt, rfl, h.dominance.first_injective ht hmem heq⟩⟩

/-- What the summary of a block finds. -/
lemma summarize_cases :
    (∃ c ∈ g.dominance.preorder, (∀ p, Outside g b p ↔ p = g.dominance.first c) ∧
      g.summarize b = ⟨c, (total g b).toNat, g.edgesTo b c⟩) ∨
    (∀ c ∈ g.dominance.preorder, ¬∀ p, Outside g b p ↔ p = g.dominance.first c) ∧
      g.summarize b = ⟨continuationNone, (total g b).toNat, []⟩ := by
  have hspec := h.tables_spec hb
  have hself := (h.dominance.dominates b hb b hb).mp (.refl b)
  have hlast := (h.dominance.last b hb).trans_le h.length_preorder_le_max
  obtain ⟨hmany, hone⟩ := hspec.unique (hself.1.trans hself.2)
    (hlast.trans (by simp only [uint16Max, uint32Max]; omega))
  unfold summarize
  dsimp only
  rw [hspec.exitBalance]
  generalize g.tables.targets b = t at hmany hone ⊢
  by_cases hcond : decide (t.lowest.1 < g.dominance.first b) =
      decide (t.highest.1 > g.dominance.last b + 1) ∨ t.lowest.2 < g.dominance.first b ∨
        t.highest.2 > g.dominance.last b + 1
  · rw [if_pos hcond]
    exact Or.inr ⟨fun c _ hc => hmany hcond ⟨_, hc⟩, rfl⟩
  rw [if_neg hcond]
  have hone := hone hcond
  generalize (if decide (t.lowest.1 < g.dominance.first b) = true then t.lowest.1
    else t.highest.1 - 1) = position at hone ⊢
  by_cases hreturn : position = g.blockCount
  · rw [if_pos hreturn]
    refine Or.inr ⟨fun c hc hall => ?_, rfl⟩
    have := (hall position).mp ((hone position).mpr rfl)
    have := (h.dominance.first_lt hc).trans_le (h.blockCount ▸ h.length_preorder_le)
    omega
  rw [if_neg hreturn]
  -- the position is that of a target
  have hout := (h.outside_iff hb).mp ((hone position).mpr rfl)
  obtain ⟨e, he, rfl⟩ := hout.resolve_right fun hc => hreturn hc.1
  obtain ⟨hlt, hs, -⟩ := (h.leaves_iff hb).mp he
  have ht := h.target_mem hlt ((h.dominance.mem_subtree hb).mp hs).1
  have hget : g.dominance.preorder.getD (g.dominance.first (g.target e)) 0 = g.target e := by
    rw [List.getD, h.dominance.first _ ht]
    rfl
  rw [hget]
  exact Or.inl ⟨_, ht, hone, rfl⟩

lemma exact_regions : (g.regions b).Exact r b := by
  have hcount : (total g b).toNat =
      Set.ncard {e | r.Leaves b e} + Set.ncard {x | r.InSubtree b x ∧ r.Final x} := by
    rw [h.total_eq_ncard hb, Int.toNat_natCast]
  have hblock : ∀ c ∈ g.dominance.preorder, c < g.blockCount ∧ c ≠ continuationNone := by
    intro c hc
    have hlt := ((h.dominance.mem c).mp hc).1
    have hle := r.length_le
    refine ⟨h.blockCount ▸ hlt, ?_⟩
    unfold continuationNone
    omega
  unfold regions
  rw [if_pos hb]
  rcases h.summarize_cases hb with ⟨c, hc, hone, heq⟩ | ⟨hmany, heq⟩
  · rw [heq]
    refine ⟨hcount, fun c' _ => ?_, fun _ => ?_⟩
    · rw [h.single_target_iff hb]
      constructor
      · rintro rfl
        exact ⟨hc, hone⟩
      · rintro ⟨hc', hone'⟩
        exact h.dominance.first_injective hc hc' ((hone' _).mp ((hone _).mpr rfl))
    obtain ⟨hsub, hmem⟩ := h.edgesTo_spec hb (hblock c hc).1
    refine ⟨hsub.nodup (h.nodup_reachableEdges.filter _), fun e => ?_⟩
    obtain ⟨-, -, hall⟩ := (h.single_target_iff hb).mpr ⟨hc, hone⟩
    rw [hmem, h.leaves_iff hb, bucket, mem_filter, mem_reachableEdges, decide_eq_true_eq]
    constructor
    · rintro ⟨⟨⟨hlt, -⟩, rfl⟩, hs⟩
      refine ⟨hlt, hs, fun ht => ?_⟩
      -- the continuation is outside the subtree
      obtain ⟨-, hout⟩ := (hone _).mpr rfl
      simp only [Dominance.subtree, mem_toFinset, mem_filter, decide_eq_true_eq] at ht
      omega
    · intro he
      obtain ⟨u, hu⟩ := hall e ((h.leaves_iff hb).mpr he)
      exact ⟨⟨⟨he.1, ((h.dominance.mem_subtree hb).mp he.2.1).1⟩, (h.edge_iff.mp hu).2.2⟩, he.2.1⟩
  · rw [heq]
    refine ⟨hcount, fun c hne => ?_, fun hne => absurd rfl hne⟩
    rw [h.single_target_iff hb]
    exact ⟨fun hc => absurd hc.symm hne, fun h => absurd h.2 (hmany c h.1)⟩

end

/-- The edges to a block that `loom_cfg_regions_edges_to` returns. -/
lemma exact_edgesTo (hentry : entry < r.blocks.length) (hdest : destination < r.blocks.length) :
    (g.edgesTo entry destination).Nodup ∧
      (∀ e, e ∈ g.edgesTo entry destination ↔
        ∃ u, r.edges[e]? = some (u, destination) ∧ r.InSubtree entry u) ∧
      (g.edgesTo entry destination).Pairwise fun e e' =>
        g.dominance.first (g.source e) ≤ g.dominance.first (g.source e') := by
  by_cases hmem : entry ∈ g.dominance.preorder
  · obtain ⟨hsub, hiff⟩ := h.edgesTo_spec hmem (h.blockCount ▸ hdest)
    refine ⟨hsub.nodup (h.nodup_reachableEdges.filter _), fun e => ?_,
      (h.pairwise_reachableEdges.filter _).sublist hsub⟩
    rw [hiff, bucket, mem_filter, mem_reachableEdges, decide_eq_true_eq,
      h.dominance.mem_subtree_iff hmem]
    constructor
    · rintro ⟨⟨⟨hlt, -⟩, ht⟩, hs⟩
      exact ⟨_, h.edge_iff.mpr ⟨hlt, rfl, ht⟩, hs⟩
    · rintro ⟨u, he, hs⟩
      obtain ⟨hlt, rfl, ht⟩ := h.edge_iff.mp he
      exact ⟨⟨⟨hlt, (h.dominance.mem _).mpr hs.1⟩, ht⟩, hs⟩
  · -- a block that no path reaches dominates no reachable block
    have hnone : g.edgesTo entry destination = [] := by
      exact if_pos (Or.inr (h.dominance.unreachable entry hmem))
    rw [hnone]
    refine ⟨nodup_nil, fun e => iff_of_false not_mem_nil ?_, List.Pairwise.nil⟩
    rintro ⟨u, -, hu⟩
    exact hmem ((h.dominance.mem entry).mpr ⟨hentry, Dominates.reaches hu.2 hu.1.2⟩)

end Describes

end RegionInput

/-- The regions of a graph with its dominance are exact. -/
theorem regions_exact {r : Region} {g : Graph} {f : Facts} {d : Dominance}
    (hg : r.buildEdges = .ok g) (hf : g.buildTraversal = some f) (hd : d.Exact r) :
    (∀ b ∈ d.preorder, ((r.regionInput f d).regions b).Exact r b) ∧
      ∀ entry < r.blocks.length, ∀ destination < r.blocks.length,
        ((r.regionInput f d).edgesTo entry destination).Nodup ∧
        (∀ e, e ∈ (r.regionInput f d).edgesTo entry destination ↔
          ∃ u, r.edges[e]? = some (u, destination) ∧ r.InSubtree entry u) ∧
        ((r.regionInput f d).edgesTo entry destination).Pairwise fun e e' =>
          d.first ((r.regionInput f d).source e) ≤ d.first ((r.regionInput f d).source e') := by
  have hfound := (Facts.exact_of_buildTraversal (Region.buildEdges_describes hg) hf).found
  have hinput : (r.regionInput f d).Describes r := ⟨rfl, rfl, hfound, hd⟩
  exact ⟨fun b hb => hinput.exact_regions hb,
    fun entry hentry destination hdest => hinput.exact_edgesTo hentry hdest⟩

/-- An entry that may skip the loop it leads to. -/
def skipRegion : Region :=
  ⟨[some ⟨some 0, [⟨[some 1, some 2], true⟩]⟩, some ⟨some 1, [⟨[some 1, some 2], true⟩]⟩,
    some ⟨some 2, []⟩], by decide⟩

/-- The dominance of `skipRegion`: nothing but the entry dominates another block. -/
def skipDominance : Dominance where
  immediateDominators _ := 0
  intervals block :=
    if block < 3 then block + (if block = 0 then 2 else block) * 2 ^ 16 else uint32Max
  preorder := [0, 1, 2]

lemma skipRegion_flow {u v : ℕ} : skipRegion.Flow u v ↔ u < 2 ∧ 0 < v ∧ v < 3 := by
  have hedges : skipRegion.edges = [(0, 1), (0, 2), (1, 1), (1, 2)] := by decide
  simp only [Region.Flow, hedges, mem_cons, Prod.mk.injEq, not_mem_nil, or_false]
  omega

lemma skipRegion_dominates {a b : ℕ} (hb : b < 3) :
    Dominates skipRegion.Flow 0 a b ↔ a = 0 ∨ a = b := by
  rw [dominates_iff]
  constructor
  · rintro (rfl | hnot)
    · exact .inl rfl
    by_contra hne
    apply hnot
    by_cases hzero : b = 0
    · exact hzero ▸ .refl
    · exact .single ⟨skipRegion_flow.mpr (by omega), by omega⟩
  · rintro (rfl | rfl)
    · exact .inl rfl
    by_cases hzero : 0 = a
    · exact .inl hzero
    refine .inr fun hround => ?_
    rcases ReflTransGen.cases_tail hround with heq | ⟨x, -, hstep⟩
    · exact hzero heq.symm
    · exact hstep.2 rfl

lemma skipDominance_exact : skipDominance.Exact skipRegion := by
  have hlen : skipRegion.blocks.length = 3 := by decide
  have hmem : ∀ b, b ∈ skipDominance.preorder ↔ b < 3 := by
    intro b
    simp only [skipDominance, mem_cons, not_mem_nil, or_false]
    omega
  refine ⟨by decide, fun b => ?_, fun b hb => ?_, by decide, by decide, fun a ha b hb => ?_,
    fun b hb hne => ?_⟩
  · rw [hmem, hlen]
    refine ⟨fun hb => ⟨hb, ?_⟩, And.left⟩
    by_cases hzero : b = 0
    · exact hzero ▸ .refl
    · exact .single (skipRegion_flow.mpr (by omega))
  · rw [hmem] at hb
    exact if_neg hb
  · rw [hmem] at ha hb
    rw [skipRegion_dominates hb]
    revert a b
    decide
  · rw [hmem] at hb
    refine ⟨(hmem 0).mpr (by decide), ⟨(skipRegion_dominates hb).mpr (.inl rfl), hne.symm⟩, ?_⟩
    rintro a ⟨hdom, hstrict⟩
    obtain rfl := ((skipRegion_dominates hb).mp hdom).resolve_right hstrict
    exact (skipRegion_dominates (b := 0) (by decide)).mpr (.inl rfl)

/-- One edge leaves the loop, and it leads to the continuation. -/
theorem regions_exact_skipRegion : ∃ g f, skipRegion.buildEdges = .ok g ∧
    g.buildTraversal = some f ∧
    let info := (skipRegion.regionInput f skipDominance).regions 1
    info.continuationIndex = 2 ∧ info.exitEdges = [3] ∧ info.Exact skipRegion 1 := by
  refine ⟨_, _, rfl, rfl, by decide +kernel, by decide +kernel, ?_⟩
  exact (regions_exact (r := skipRegion) rfl rfl skipDominance_exact).1 1 (by decide)

end Hrx.Cfg
