import Mathlib.Data.List.Range
import Hrx.Frontier.Equiv.Compare

/-!
# The frontier merge computes the join

Each of the three paths of `mergeImpl` leaves the join of the two entry lists in the target
(`mergeImpl_spec`).  The in-place pass keeps two facts: the unread target entries lie below the
write cursor and are untouched, and the cursor is the length of the join of what is unread; the
right end of that join is the next entry written.
-/

namespace Hrx.Frontier

open VectorClock Function

/-- The first `n` entries of a storage. -/
def firstEntries (entries : ℕ → FrontierEntry) (n : ℕ) : List FrontierEntry :=
  (List.range n).map entries

lemma toList_eq (f : Frontier) : f.toList = firstEntries f.entries f.count := rfl

@[simp] lemma firstEntries_zero (entries : ℕ → FrontierEntry) : firstEntries entries 0 = [] := rfl

@[simp] lemma length_firstEntries (entries : ℕ → FrontierEntry) (n : ℕ) :
    (firstEntries entries n).length = n := by
  simp [firstEntries]

lemma firstEntries_succ (entries : ℕ → FrontierEntry) (n : ℕ) :
    firstEntries entries (n + 1) = firstEntries entries n ++ [entries n] := by
  simp [firstEntries, List.range_succ]

variable {n : ℕ} {target source : Frontier} {targetCapacity : UInt8}

lemma firstEntries_congr {entries entries' : ℕ → FrontierEntry}
    (h : ∀ k < n, entries k = entries' k) : firstEntries entries n = firstEntries entries' n := by
  refine List.map_congr_left fun k hk => h k (List.mem_range.mp hk)

/-- A write at or above `n` does not touch the first `n` entries. -/
lemma firstEntries_update (entries : ℕ → FrontierEntry) {k : ℕ} (h : n ≤ k) (e : FrontierEntry) :
    firstEntries (update entries k e) n = firstEntries entries n :=
  firstEntries_congr fun _ hj => update_of_ne (by omega) _ _

@[simp] lemma length_toList (f : Frontier) : f.toList.length = f.count := length_firstEntries _ _

/-! ### Path 2: raising epochs in place -/

/-- Path 2 replaces each entry by the larger epoch on its axis and touches nothing else. -/
lemma mergeEpochs_fst (source : ℕ → FrontierEntry) (n k : ℕ) (target : ℕ → FrontierEntry)
    (dominates : Bool) (j : ℕ) :
    (mergeEpochs source n k target dominates).1 j =
      if k ≤ j ∧ j < k + n then ⟨(target j).axis, max (target j).epoch (source j).epoch⟩
      else target j := by
  induction n generalizing k target dominates with
  | zero => rw [mergeEpochs, if_neg (by omega)]
  | succ n ih =>
    rw [mergeEpochs]
    -- Only index `k` is written in this round; `ih` covers the indices above it.
    by_cases hj : j = k
    · subst hj
      rw [if_pos (c := j ≤ j ∧ _) (by omega)]
      by_cases hlt : (target j).epoch < (source j).epoch
      · rw [if_pos hlt, ih, if_neg (by omega), update_self, max_eq_right hlt.le]
      have hmax : max (target j).epoch (source j).epoch = (target j).epoch :=
        max_eq_left (not_lt.mp hlt)
      rw [if_neg hlt, hmax]
      split <;> rw [ih, if_neg (by omega)]
    · have hrange : (k ≤ j ∧ j < k + (n + 1)) ↔ (k + 1 ≤ j ∧ j < k + 1 + n) := by omega
      simp only [hrange]
      split
      · rw [ih, update_of_ne hj]
      · split <;> rw [ih]

/-- The flag of path 2: the source is nowhere behind. -/
lemma mergeEpochs_snd (source : ℕ → FrontierEntry) (n k : ℕ) (target : ℕ → FrontierEntry)
    (dominates : Bool) :
    (mergeEpochs source n k target dominates).2 = true ↔
      dominates = true ∧ ∀ j, k ≤ j → j < k + n → (target j).epoch ≤ (source j).epoch := by
  induction n generalizing k target dominates with
  | zero =>
    rw [mergeEpochs]
    exact ⟨fun h => ⟨h, fun j _ _ => by omega⟩, fun h => h.1⟩
  | succ n ih =>
    have hsplit : (∀ j, k ≤ j → j < k + (n + 1) → (target j).epoch ≤ (source j).epoch) ↔
        (target k).epoch ≤ (source k).epoch ∧
          ∀ j, k + 1 ≤ j → j < k + 1 + n → (target j).epoch ≤ (source j).epoch := by
      constructor
      · exact fun h => ⟨h k le_rfl (by omega), fun j hj hj' => h j (by omega) (by omega)⟩
      rintro ⟨hk, h⟩ j hj hj'
      rcases eq_or_lt_of_le hj with rfl | hlt
      · exact hk
      · exact h j hlt (by omega)
    rw [mergeEpochs, hsplit]
    by_cases hlt : (target k).epoch < (source k).epoch
    · rw [if_pos hlt, ih]
      have hup : ∀ j, k + 1 ≤ j →
          update target k ⟨(target k).axis, (source k).epoch⟩ j = target j :=
        fun j hj => update_of_ne (by omega) _ _
      constructor
      · exact fun h => ⟨h.1, hlt.le, fun j hj hj' => hup j hj ▸ h.2 j hj hj'⟩
      · exact fun h => ⟨h.1, fun j hj hj' => (hup j hj).symm ▸ h.2.2 j hj hj'⟩
    · by_cases hgt : (source k).epoch < (target k).epoch
      · rw [if_neg hlt, if_pos hgt, ih]
        exact iff_of_false (fun h => absurd h.1 (by simp)) (fun h => absurd h.2.1 hgt.not_ge)
      · rw [if_neg hlt, if_neg hgt, ih]
        simp [not_lt.mp hgt]

/-- On matching axes the join takes the larger epoch entry by entry. -/
lemma join_firstEntries_of_axes {target source : ℕ → FrontierEntry}
    (ht : IsClock (firstEntries target n)) (hs : IsClock (firstEntries source n))
    (h : ∀ k < n, (target k).axis = (source k).axis) :
    join (firstEntries target n) (firstEntries source n) =
      firstEntries (fun k => ⟨(target k).axis, max (target k).epoch (source k).epoch⟩) n := by
  induction n with
  | zero => simp
  | succ n ih =>
    rw [firstEntries_succ] at ht hs
    rw [firstEntries_succ, firstEntries_succ, firstEntries_succ,
      join_concat_eq ht hs (h n (Nat.lt_succ_self n)),
      ih (isClock_concat.mp ht).1 (isClock_concat.mp hs).1 fun k hk => h k (by omega)]

/-- On matching axes the pointwise order is the order of the epochs. -/
lemma epochAt_firstEntries_le_iff {target source : ℕ → FrontierEntry}
    (ht : IsClock (firstEntries target n)) (hs : IsClock (firstEntries source n))
    (h : ∀ k < n, (target k).axis = (source k).axis) :
    VectorClock.epochAt (firstEntries target n) ≤ VectorClock.epochAt (firstEntries source n) ↔
      ∀ k < n, (target k).epoch ≤ (source k).epoch := by
  rw [ht.epochAt_le_iff, firstEntries, List.forall_mem_map]
  refine forall_congr' fun k => ?_
  rw [List.mem_range]
  refine forall_congr' fun hk => ?_
  have hmem : source k ∈ firstEntries source n := List.mem_map_of_mem (List.mem_range.mpr hk)
  rw [h k hk, hs.epochAt_of_mem hmem]

/-! ### Path 3: counting, then writing from the right -/

/-- The counting pass counts the entries of the join. -/
lemma mergeCount_fst (target source : List FrontierEntry) (mergedCount : ℕ) (dominates : Bool) :
    (mergeCount target source mergedCount dominates).1 =
      mergedCount + (join target source).length := by
  induction target, source, mergedCount, dominates using mergeCount.induct with
  | case1 | case2 => simp [mergeCount]
  | case3 x target y source mergedCount dominates h ih =>
    rw [mergeCount, if_pos h, ih, join_cons_cons, if_pos h, List.length_cons]
    omega
  | case4 x target y source mergedCount dominates h hlt ih =>
    rw [mergeCount, if_neg h, if_pos hlt, ih, join_cons_cons, if_neg h, if_pos hlt,
      List.length_cons]
    omega
  | case5 x target y source mergedCount dominates h hlt ih =>
    rw [mergeCount, if_neg h, if_neg hlt, ih, join_cons_cons, if_neg h, if_neg hlt,
      List.length_cons]
    omega

/-- The flag of the counting pass: the target is nowhere ahead. -/
lemma mergeCount_snd {target source : List FrontierEntry} (ht : IsClock target)
    (hs : IsClock source) (mergedCount : ℕ) (dominates : Bool) :
    (mergeCount target source mergedCount dominates).2 = true ↔
      dominates = true ∧ VectorClock.epochAt target ≤ VectorClock.epochAt source := by
  induction target, source, mergedCount, dominates using mergeCount.induct with
  | case1 => simp [mergeCount, nil_le]
  | case2 target mergedCount dominates hne =>
    cases target with
    | nil => exact absurd rfl hne
    | cons => simp [mergeCount, ht.not_le_of_head (epochAt_nil _)]
  | case3 x target y source mergedCount dominates h ih =>
    rw [mergeCount, if_pos h, ih ht.tail hs.tail, ht.cons_le_cons_iff h]
    simp [and_assoc]
  | case4 x target y source mergedCount dominates h hlt ih =>
    have hx := ht.not_le_of_head (hs.epochAt_of_lt_head hlt)
    rw [mergeCount, if_neg h, if_pos hlt, ih ht.tail hs]
    simp [hx]
  | case5 x target y source mergedCount dominates h hlt ih =>
    have hgt : y.axis < x.axis := lt_of_le_of_ne (not_lt.mp hlt) (Ne.symm h)
    rw [mergeCount, if_neg h, if_neg hlt, ih ht hs.tail, ht.le_cons_iff hgt]

/-- One round of the writing pass: the entry written last closes the join, and the rest of the pass
stays below it. -/
lemma firstEntries_of_round {source target result : ℕ → FrontierEntry} {ti si wi : ℕ}
    {e : FrontierEntry} (ht : IsClock (firstEntries target ti))
    (hs : IsClock (firstEntries source si))
    (hwi : wi = (join (firstEntries target ti) (firstEntries source si) ++ [e]).length)
    (ih : let target' := update target (wi - 1) e
      IsClock (firstEntries target' ti) → IsClock (firstEntries source si) →
      wi - 1 = (join (firstEntries target' ti) (firstEntries source si)).length →
      firstEntries result (wi - 1) = join (firstEntries target' ti) (firstEntries source si) ∧
        ∀ k, wi - 1 ≤ k → result k = target' k) :
    firstEntries result wi = join (firstEntries target ti) (firstEntries source si) ++ [e] ∧
      ∀ k, wi ≤ k → result k = target k := by
  rw [List.length_append, List.length_singleton] at hwi
  subst hwi
  have hroom : ti ≤ (join (firstEntries target ti) (firstEntries source si)).length := by
    simpa using length_le_length_join_left ht hs
  dsimp only at ih
  rw [Nat.add_sub_cancel, firstEntries_update target hroom e] at ih
  obtain ⟨hlow, hhigh⟩ := ih ht hs rfl
  constructor
  · rw [firstEntries_succ, hlow, hhigh _ le_rfl, update_self]
  · intro k hk
    rw [hhigh k (by omega), update_of_ne (by omega)]

/-- **The in-place pass.**  With the write cursor at the length of the join of the unread entries,
the pass leaves that join below the cursor and everything above it as it was. -/
lemma mergeRightToLeft_spec (source : ℕ → FrontierEntry) (ti si wi : ℕ)
    (target : ℕ → FrontierEntry) (ht : IsClock (firstEntries target ti))
    (hs : IsClock (firstEntries source si))
    (hwi : wi = (join (firstEntries target ti) (firstEntries source si)).length) :
    firstEntries (mergeRightToLeft source ti si wi target) wi =
        join (firstEntries target ti) (firstEntries source si) ∧
      ∀ k, wi ≤ k → mergeRightToLeft source ti si wi target k = target k := by
  induction ti, si, wi, target using mergeRightToLeft.induct source with
  | case1 =>
    rw [firstEntries_zero, join_nil_right] at hwi ⊢
    rw [length_firstEntries] at hwi
    rw [mergeRightToLeft, hwi]
    exact ⟨rfl, fun k _ => rfl⟩
  | case2 si wi target ih =>
    have hjoin : join (firstEntries target 0) (firstEntries source (si + 1)) =
        join (firstEntries target 0) (firstEntries source si) ++ [source si] := by
      rw [firstEntries_zero, join_nil_left, join_nil_left, firstEntries_succ]
    rw [firstEntries_succ] at hs
    rw [hjoin] at hwi ⊢
    rw [mergeRightToLeft]
    exact firstEntries_of_round ht (isClock_concat.mp hs).1 hwi ih
  | case3 ti si wi target hgt ih =>
    rw [firstEntries_succ] at ht hs
    -- The target's last axis is the largest: it moves to the end.
    have hjoin := join_concat_gt ht hs hgt
    rw [← firstEntries_succ] at hjoin hs
    rw [← firstEntries_succ] at hjoin
    rw [hjoin] at hwi ⊢
    rw [mergeRightToLeft, if_pos hgt]
    exact firstEntries_of_round (isClock_concat.mp ht).1 hs hwi ih
  | case4 ti si wi target hngt hlt ih =>
    rw [firstEntries_succ] at ht hs
    have hjoin := join_concat_lt ht hs hlt
    rw [← firstEntries_succ] at hjoin ht
    rw [← firstEntries_succ] at hjoin
    rw [hjoin] at hwi ⊢
    rw [mergeRightToLeft, if_neg hngt, if_pos hlt]
    exact firstEntries_of_round ht (isClock_concat.mp hs).1 hwi ih
  | case5 ti si wi target hngt hnlt ih =>
    rw [firstEntries_succ] at ht hs
    have heq : (target ti).axis = (source si).axis := (not_lt.mp hngt).antisymm (not_lt.mp hnlt)
    have hjoin := join_concat_eq ht hs heq
    rw [← firstEntries_succ, ← firstEntries_succ] at hjoin
    rw [hjoin] at hwi ⊢
    rw [mergeRightToLeft, if_neg hngt, if_neg hnlt]
    exact firstEntries_of_round (isClock_concat.mp ht).1 (isClock_concat.mp hs).1 hwi ih

/-! ### The merge as a whole -/

lemma count_eq_zero_iff (f : Frontier) : f.count = 0 ↔ f.entryCount = 0 := by
  rw [← UInt8.toNat_inj]
  rfl

lemma toList_eq_nil_of_entryCount {f : Frontier} (h : f.entryCount = 0) : f.toList = [] := by
  rw [toList_eq, (count_eq_zero_iff f).mpr h, firstEntries_zero]

/-- The empty clock is the only one below the empty one. -/
lemma epochAt_le_of_toList_nil (ht : target.Valid) (hs : source.toList = []) :
    target.epochAt ≤ source.epochAt ↔ target.entryCount = 0 := by
  constructor
  · intro hle
    cases hl : target.toList with
    | nil => exact (count_eq_zero_iff target).mp (by rw [← length_toList, hl]; rfl)
    | cons x l =>
      have hx : IsClock (x :: l) := hl ▸ ht
      refine absurd ?_ (hx.not_le_of_head (r := []) (epochAt_nil _))
      rw [← hl, ← hs]
      exact hle
  · intro h0 a
    rw [epochAt, toList_eq_nil_of_entryCount h0]
    exact Nat.zero_le _

/-- Path 2: matching axes.  The target holds the join and the flag is the pointwise order. -/
lemma mergeImpl_of_axesMatch (ht : target.Valid) (hs : source.Valid)
    (hempty : source.entryCount ≠ 0) (hcount : target.entryCount = source.entryCount)
    (hmatch : axesMatch target source = true) :
    ∃ entries dominates,
      mergeImpl target targetCapacity source = ⟨⟨target.entryCount, entries⟩, true, dominates⟩ ∧
      firstEntries entries target.count = join target.toList source.toList ∧
      (dominates = true ↔ target.epochAt ≤ source.epochAt) := by
  have hcs : source.toList = firstEntries source.entries target.count := by
    rw [toList_eq, count, count, hcount]
  have haxes : ∀ k < target.count, (target.entries k).axis = (source.entries k).axis := by
    have hall := List.all_eq_true.mp hmatch
    exact fun k hk => beq_iff_eq.mp (hall k (List.mem_range.mpr hk))
  rw [Valid, hcs] at hs
  refine ⟨(mergeEpochs source.entries target.count 0 target.entries true).1,
    (mergeEpochs source.entries target.count 0 target.entries true).2, ?_, ?_, ?_⟩
  · simp only [mergeImpl, if_neg hempty, if_pos (And.intro hcount hmatch)]
  · rw [hcs, toList_eq, join_firstEntries_of_axes ht hs haxes]
    refine firstEntries_congr fun k hk => ?_
    rw [mergeEpochs_fst, if_pos ⟨Nat.zero_le k, by omega⟩]
  · have hle := epochAt_firstEntries_le_iff ht hs haxes
    rw [← hcs, ← toList_eq] at hle
    rw [mergeEpochs_snd]
    refine Iff.trans ?_ hle.symm
    simp

/-- Path 3: different axes.  The join is written if it fits. -/
lemma mergeImpl_of_not_axesMatch (ht : target.Valid) (hs : source.Valid)
    (hempty : source.entryCount ≠ 0)
    (hmatch : ¬ (target.entryCount = source.entryCount ∧ axesMatch target source = true)) :
    ∃ entries dominates,
      mergeImpl target targetCapacity source =
        (if targetCapacity.toNat < (join target.toList source.toList).length then
          ⟨target, false, false⟩
        else
          ⟨⟨UInt8.ofNat (join target.toList source.toList).length, entries⟩, true, dominates⟩) ∧
      firstEntries entries (join target.toList source.toList).length =
        join target.toList source.toList ∧
      (dominates = true ↔ target.epochAt ≤ source.epochAt) := by
  refine ⟨mergeRightToLeft source.entries target.count source.count
    (join target.toList source.toList).length target.entries,
    (mergeCount target.toList source.toList 0 true).2, ?_, ?_, ?_⟩
  · simp only [mergeImpl, if_neg hempty, if_neg hmatch, mergeCount_fst, Nat.zero_add]
  · exact (mergeRightToLeft_spec source.entries target.count source.count _
      target.entries ht hs rfl).1
  · rw [mergeCount_snd ht hs 0 true]
    simp only [true_and]
    rfl

/-- What a call of the merge leaves behind, whichever path it takes: either the join, with the flag
telling whether the source was at least the target, or, when the join does not fit, the target as
it was. -/
theorem mergeImpl_spec (ht : target.Valid) (hs : source.Valid)
    (hcap : target.entryCount ≤ targetCapacity) :
    if (join target.toList source.toList).length ≤ targetCapacity.toNat then
      (mergeImpl target targetCapacity source).merged = true ∧
        (mergeImpl target targetCapacity source).target.toList =
          join target.toList source.toList ∧
        ((mergeImpl target targetCapacity source).sourceDominatesTarget = true ↔
          target.epochAt ≤ source.epochAt)
    else mergeImpl target targetCapacity source = ⟨target, false, false⟩ := by
  have hcount : target.count ≤ targetCapacity.toNat := UInt8.le_iff_toNat_le.mp hcap
  by_cases hempty : source.entryCount = 0
  · -- path 1: an empty source
    have hnil := toList_eq_nil_of_entryCount hempty
    rw [mergeImpl, if_pos hempty, hnil, join_nil_right, length_toList, if_pos hcount,
      epochAt_le_of_toList_nil ht hnil]
    exact ⟨rfl, rfl, beq_iff_eq⟩
  by_cases hmatch : target.entryCount = source.entryCount ∧ axesMatch target source = true
  · obtain ⟨entries, dominates, hresult, hjoin, hdom⟩ :=
      mergeImpl_of_axesMatch ht hs hempty hmatch.1 hmatch.2
    have hlen : (join target.toList source.toList).length = target.count := by
      rw [← hjoin, length_firstEntries]
    rw [hresult, if_pos (hlen ▸ hcount)]
    exact ⟨rfl, hjoin, hdom⟩
  obtain ⟨entries, dominates, hresult, hjoin, hdom⟩ :=
    mergeImpl_of_not_axesMatch ht hs hempty hmatch
  by_cases hfit : (join target.toList source.toList).length ≤ targetCapacity.toNat
  · rw [if_pos hfit, hresult, if_neg hfit.not_gt]
    refine ⟨rfl, ?_, hdom⟩
    -- The joined count fits the 8-bit field because it fits the capacity.
    have hcast : (UInt8.ofNat (join target.toList source.toList).length).toNat =
        (join target.toList source.toList).length := by
      have hlt := targetCapacity.toNat_lt
      rw [UInt8.toNat_ofNat']
      exact Nat.mod_eq_of_lt (by omega)
    rw [toList_eq]
    simp only [count]
    rw [hcast, hjoin]
  · rw [if_neg hfit, hresult, if_pos (not_le.mp hfit)]

end Hrx.Frontier
