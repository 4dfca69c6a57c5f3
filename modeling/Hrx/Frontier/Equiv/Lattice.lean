import Hrx.Frontier.Equiv.Merge

/-!
# Frontiers as the vector-clock lattice

The calls as their users see them: a merge is the pointwise maximum wherever it succeeds, it
succeeds exactly when the union of the axes fits, and a comparison is the pointwise order.
-/

namespace Hrx.Frontier

open VectorClock

def axes (f : Frontier) : Finset ℕ := VectorClock.axes f.toList

section merge

variable {target source : Frontier} {capacity : UInt8} (ht : target.Valid)
include ht

variable (hs : source.Valid) (hcap : target.entryCount ≤ capacity)
include hs hcap

/-- A merge succeeds exactly when the union of the axes fits the capacity. -/
lemma mergeImpl_merged_iff : (mergeImpl target capacity source).merged = true ↔
      (target.axes ∪ source.axes).card ≤ capacity.toNat := by
  rw [axes, axes, ← length_join ht hs]
  have hspec := mergeImpl_spec ht hs hcap
  split at hspec
  · exact iff_of_true hspec.1 ‹_›
  · exact iff_of_false (by rw [hspec]; simp) ‹_›

section

variable (h : (mergeImpl target capacity source).merged = true)
include h

/-- A successful merge leaves the join of the two entry lists. -/
lemma toList_mergeImpl :
    (mergeImpl target capacity source).target.toList = join target.toList source.toList := by
  have hspec := mergeImpl_spec ht hs hcap
  split at hspec
  · exact hspec.2.1
  · rw [hspec] at h
    exact absurd h (by simp)

lemma valid_mergeImpl : (mergeImpl target capacity source).target.Valid := by
  rw [Valid, toList_mergeImpl ht hs hcap h]
  exact IsClock.join ht hs

/-- A successful merge denotes the pointwise maximum. -/
lemma epochAt_mergeImpl (axis : ℕ) : (mergeImpl target capacity source).target.epochAt axis =
      max (target.epochAt axis) (source.epochAt axis) := by
  rw [epochAt, toList_mergeImpl ht hs hcap h]
  exact epochAt_join ht hs axis

omit h in
/-- A failed merge leaves the target as it was. -/
lemma mergeImpl_target_of_not_merged (h : (mergeImpl target capacity source).merged = false) :
    (mergeImpl target capacity source).target = target := by
  have hspec := mergeImpl_spec ht hs hcap
  split at hspec
  · rw [hspec.1] at h
    exact absurd h (by simp)
  · rw [hspec]

/-- On success the dominance flag is the pointwise order. -/
lemma mergeImpl_sourceDominatesTarget_iff :
    (mergeImpl target capacity source).sourceDominatesTarget = true ↔
      target.epochAt ≤ source.epochAt := by
  have hspec := mergeImpl_spec ht hs hcap
  split at hspec
  · exact hspec.2.2
  · rw [hspec] at h
    exact absurd h (by simp)

end

/-- A merged target still fits its storage. -/
lemma entryCount_mergeImpl_le :
    (mergeImpl target capacity source).target.entryCount ≤ capacity := by
  have hspec := mergeImpl_spec ht hs hcap
  split at hspec
  · rw [UInt8.le_iff_toNat_le]
    have hlen := length_toList (mergeImpl target capacity source).target
    rw [hspec.2.1] at hlen
    rw [← count, ← hlen]
    assumption
  · rw [hspec]
    exact hcap

end merge

/-- Merging a frontier into itself always succeeds. -/
lemma mergeImpl_self_merged {f : Frontier} {capacity : UInt8} (hf : f.Valid)
    (hcap : f.entryCount ≤ capacity) : (mergeImpl f capacity f).merged = true := by
  rw [mergeImpl_merged_iff hf hf hcap, Finset.union_self, axes, hf.card_axes, length_toList]
  exact UInt8.le_iff_toNat_le.mp hcap

/-- **Frontiers form the vector-clock lattice.**  For a valid target that fits its capacity and a
valid source: the merge, its algebraic laws up to denotation, and the comparison on both of its
paths. -/
theorem merge_compare_lattice (target source : Frontier) (capacity : UInt8) (ht : target.Valid)
    (hs : source.Valid) (hcap : target.entryCount ≤ capacity) :
    -- success
    ((merge target capacity source).2 = true ↔
      (target.axes ∪ source.axes).card ≤ capacity.toNat) ∧
    ((merge target capacity source).2 = true →
      (merge target capacity source).1.Valid ∧
      ∀ axis, (merge target capacity source).1.epochAt axis =
        max (target.epochAt axis) (source.epochAt axis)) ∧
    -- failure
    ((merge target capacity source).2 = false → (merge target capacity source).1 = target) ∧
    -- dominance test
    ((mergeAndTestSourceDominance target capacity source).target =
        (merge target capacity source).1 ∧
      (mergeAndTestSourceDominance target capacity source).merged =
        (merge target capacity source).2) ∧
    ((mergeAndTestSourceDominance target capacity source).merged = true →
      ((mergeAndTestSourceDominance target capacity source).sourceDominatesTarget = true ↔
        ∀ axis, target.epochAt axis ≤ source.epochAt axis)) ∧
    -- commutativity, associativity, idempotence
    (∀ capacity', source.entryCount ≤ capacity' → (merge target capacity source).2 = true →
      (merge source capacity' target).2 = true →
      (merge target capacity source).1.epochAt = (merge source capacity' target).1.epochAt) ∧
    (∀ (third : Frontier) (capacity' : UInt8), third.Valid → source.entryCount ≤ capacity' →
      (merge target capacity source).2 = true →
      (merge (merge target capacity source).1 capacity third).2 = true →
      (merge source capacity' third).2 = true →
      (merge target capacity (merge source capacity' third).1).2 = true →
      (merge (merge target capacity source).1 capacity third).1.epochAt =
        (merge target capacity (merge source capacity' third).1).1.epochAt) ∧
    ((merge target capacity target).2 = true ∧
      (merge target capacity target).1.epochAt = target.epochAt) ∧
    -- comparison
    ((compare target source = .equal ↔ target.epochAt = source.epochAt) ∧
      (compare target source = .before ↔ target.epochAt < source.epochAt) ∧
      (compare target source = .after ↔ source.epochAt < target.epochAt) ∧
      (compare target source = .concurrent ↔
        ¬ target.epochAt ≤ source.epochAt ∧ ¬ source.epochAt ≤ target.epochAt)) ∧
    compareScan target.toList source.toList false false = compare target source := by
  refine ⟨mergeImpl_merged_iff ht hs hcap,
    fun h => ⟨valid_mergeImpl ht hs hcap h, epochAt_mergeImpl ht hs hcap h⟩,
    mergeImpl_target_of_not_merged ht hs hcap, ⟨rfl, rfl⟩,
    mergeImpl_sourceDominatesTarget_iff ht hs hcap, ?comm, ?assoc, ?idem,
    ⟨compare_eq_equal_iff ht hs, compare_eq_before_iff ht hs, compare_eq_after_iff ht hs,
      compare_eq_concurrent_iff ht hs⟩, (compare_eq_compareScan ht hs).symm⟩
  case comm =>
    intro capacity' hcap' h h'
    funext axis
    exact (epochAt_mergeImpl ht hs hcap h axis).trans
      ((max_comm _ _).trans (epochAt_mergeImpl hs ht hcap' h' axis).symm)
  case assoc =>
    intro third capacity' hthird hcap' h h₁ h' h₂
    have hts := valid_mergeImpl ht hs hcap h
    have hst := valid_mergeImpl hs hthird hcap' h'
    have hcap₁ := entryCount_mergeImpl_le ht hs hcap
    funext axis
    calc (merge (merge target capacity source).1 capacity third).1.epochAt axis
        = max (max (target.epochAt axis) (source.epochAt axis)) (third.epochAt axis) := by
          rw [← epochAt_mergeImpl ht hs hcap h axis]
          exact epochAt_mergeImpl hts hthird hcap₁ h₁ axis
      _ = max (target.epochAt axis) (max (source.epochAt axis) (third.epochAt axis)) :=
          max_assoc _ _ _
      _ = (merge target capacity (merge source capacity' third).1).1.epochAt axis := by
          rw [← epochAt_mergeImpl hs hthird hcap' h' axis]
          exact (epochAt_mergeImpl ht hst hcap h₂ axis).symm
  case idem =>
    have h := mergeImpl_self_merged ht hcap
    refine ⟨h, ?_⟩
    funext axis
    exact (epochAt_mergeImpl ht ht hcap h axis).trans (max_self _)

/-- The lattice laws at two overlapping frontiers in storage for three entries. -/
theorem merge_compare_lattice_overlapping :
    (merge (ofList [⟨1, 5⟩, ⟨3, 2⟩]) 3 (ofList [⟨2, 7⟩, ⟨3, 9⟩])).2 = true ∧
      compare (ofList [⟨1, 5⟩, ⟨3, 2⟩]) (ofList [⟨2, 7⟩, ⟨3, 9⟩]) = .concurrent := by
  have ht : (ofList [⟨1, 5⟩, ⟨3, 2⟩]).Valid := by unfold Valid IsClock; decide
  have hs : (ofList [⟨2, 7⟩, ⟨3, 9⟩]).Valid := by unfold Valid IsClock; decide
  have h := merge_compare_lattice _ _ 3 ht hs (by decide)
  refine ⟨h.1.mpr (by decide), h.2.2.2.2.2.2.2.2.1.2.2.2.mpr ⟨fun hle => ?_, fun hle => ?_⟩⟩
  · exact absurd (hle 1) (by decide)
  · exact absurd (hle 2) (by decide)

end Hrx.Frontier
