import Mathlib.Data.Set.Card
import Hrx.Frontier.Query
import Hrx.Frontier.Equiv.Lattice

/-!
# Residual queries agree with the lattice

Both paths of `find_undominated` emit the residual of the two clocks, one entry after the other
(`undominatedScan_eq`, `undominatedEpochs_eq`), so its count and its output are those of the
residual; and `is_satisfied` is the pointwise order against the current epochs.
-/

namespace Hrx.Frontier

open List VectorClock

/-! ### The output array -/

variable {capacity : UInt8} {l r epochs : List FrontierEntry} {a : ℕ}

/-- What emitting a list of entries leaves behind, as long as the count does not wrap. -/
lemma foldl_emit {state : Output} (h : state.1.toNat + l.length < 256) :
    (l.foldl (emit capacity) state).1.toNat = state.1.toNat + l.length ∧
    ∀ k, (l.foldl (emit capacity) state).2 k =
      if state.1.toNat ≤ k ∧ k < capacity.toNat then l.getD (k - state.1.toNat) (state.2 k)
      else state.2 k := by
  induction l generalizing state with
  | nil =>
    refine ⟨rfl, fun k => ?_⟩
    rw [foldl_nil, getD_nil, ite_self]
  | cons e l ih =>
    rw [length_cons] at h
    have hcount : (emit capacity state e).1.toNat = state.1.toNat + 1 := by
      show (state.1 + 1).toNat = _
      rw [UInt8.toNat_add, show (1 : UInt8).toNat = 1 from rfl, Nat.mod_eq_of_lt (by omega)]
    obtain ⟨hlen, hout⟩ := ih (by omega : (emit capacity state e).1.toNat + l.length < 256)
    rw [hcount] at hlen hout
    refine ⟨by rw [foldl_cons, hlen, length_cons]; omega, fun k => ?_⟩
    rw [foldl_cons, hout k]
    -- The write of this round is at the old count, before everything the later rounds write.
    have hwrite : (emit capacity state e).2 k =
        if k = state.1.toNat ∧ k < capacity.toNat then e else state.2 k := by
      show (if state.1 < capacity then Function.update state.2 state.1.toNat e else state.2) k = _
      by_cases hroom : state.1 < capacity
      · rw [if_pos hroom, Function.update_apply]
        have := UInt8.lt_iff_toNat_lt.mp hroom
        by_cases hk : k = state.1.toNat
        · rw [if_pos hk, if_pos ⟨hk, by omega⟩]
        · rw [if_neg hk, if_neg fun hc => hk hc.1]
      · rw [if_neg hroom, if_neg]
        rintro ⟨rfl, hlt⟩
        exact hroom (UInt8.lt_iff_toNat_lt.mpr hlt)
    rw [hwrite]
    rcases lt_trichotomy k state.1.toNat with hlt | rfl | hgt
    · rw [if_neg (by omega), if_neg (by omega), if_neg (by omega)]
    · rw [if_neg (by omega), Nat.sub_self, getD_cons_zero]
      simp only [le_refl, true_and]
    rw [if_neg (by omega : ¬(k = state.1.toNat ∧ k < capacity.toNat))]
    by_cases hk : k < capacity.toNat
    · rw [if_pos ⟨hgt, hk⟩, if_pos ⟨hgt.le, hk⟩,
        show k - state.1.toNat = k - (state.1.toNat + 1) + 1 by omega, getD_cons_succ]
    · rw [if_neg fun hc => hk hc.2, if_neg fun hc => hk hc.2]

/-! ### The two paths -/

/-- The slow path emits the residual. -/
theorem undominatedScan_eq (hl : IsClock l) (hr : IsClock r) (state : Output) :
    undominatedScan capacity l r state = (residual l r).foldl (emit capacity) state := by
  induction l, r, state using undominatedScan.induct capacity with
  | case1 => rw [undominatedScan, residual_nil_right, foldl_nil]
  | case2 y r state ih =>
    rw [undominatedScan, ih hl hr.tail, hr.residual_nil_left, hr.tail.residual_nil_left, foldl_cons]
  | case3 x l y r state h ih =>
    have htail : ∀ z ∈ r, x.axis < z.axis := fun z hz => h ▸ (isClock_cons.mp hr).1 z hz
    rw [undominatedScan, if_pos h, residual_cons, epochAt_cons, if_pos h, residual_cons_left htail]
    refine (ih hl.tail hr.tail).trans ?_
    by_cases hlt : x.epoch < y.epoch
    · rw [dif_pos hlt, if_pos hlt, foldl_cons]
    · rw [dif_neg hlt, if_neg hlt]
  | case4 x l y r state h hlt ih =>
    rw [undominatedScan, if_neg h, if_pos hlt, ih hl.tail hr, residual_cons_left]
    intro z hz
    rcases mem_cons.mp hz with rfl | hz
    · exact hlt
    · exact hlt.trans ((isClock_cons.mp hr).1 z hz)
  | case5 x l y r state h hlt ih =>
    have hgt : y.axis < x.axis := lt_of_le_of_ne (not_lt.mp hlt) (Ne.symm h)
    rw [undominatedScan, if_neg h, if_neg hlt, ih hl hr.tail, residual_cons,
      hl.epochAt_of_lt_head hgt, if_pos (bot_lt_iff_ne_bot.mpr (isClock_cons.mp hr).2.1),
      foldl_cons]

/-- On matching axes the fast path is the slow path. -/
theorem undominatedEpochs_eq (state : Output) (h : l.map Stamp.axis = r.map Stamp.axis) :
    undominatedEpochs capacity l r state = undominatedScan capacity l r state := by
  induction l generalizing r state with
  | nil =>
    obtain rfl : r = [] := by simpa using h.symm
    rw [undominatedScan]
    rfl
  | cons x l ih =>
    cases r with
    | nil => simp at h
    | cons =>
      rw [map_cons, map_cons, List.cons.injEq] at h
      rw [undominatedEpochs, undominatedScan, if_pos h.1, ih _ h.2]

/-- Whichever path is taken, a query emits the residual. -/
lemma findUndominated_eq {reference target : Frontier} (hr : reference.Valid) (ht : target.Valid)
    (capacity : UInt8) (outEntries : ℕ → FrontierEntry) :
    findUndominated reference target capacity outEntries =
      (residual reference.toList target.toList).foldl (emit capacity) (0, outEntries) := by
  unfold findUndominated
  split_ifs with h
  · rw [undominatedEpochs_eq _ ((axesMatch_iff h.1).mp h.2), undominatedScan_eq hr ht]
  · rw [undominatedScan_eq hr ht]

section query

variable {reference target : Frontier}

/-- The residual is no longer than the target, so that it fits the 8-bit count. -/
lemma zero_add_length_residual_lt :
    (0 : UInt8).toNat + (residual reference.toList target.toList).length < 256 := by
  have hle := length_filter_le
    (fun y => decide (VectorClock.epochAt reference.toList y.axis < y.epoch)) target.toList
  have hlt : target.count < 256 := target.entryCount.toNat_lt
  rw [length_toList] at hle
  rw [show (0 : UInt8).toNat = 0 from rfl, Nat.zero_add]
  exact hle.trans_lt hlt

lemma findUndominated_fst (hr : reference.Valid) (ht : target.Valid) (capacity : UInt8)
    (outEntries : ℕ → FrontierEntry) :
    (findUndominated reference target capacity outEntries).1.toNat =
      (residual reference.toList target.toList).length := by
  rw [findUndominated_eq hr ht]
  exact (foldl_emit zero_add_length_residual_lt).1.trans (Nat.zero_add _)

lemma findUndominated_snd (hr : reference.Valid) (ht : target.Valid) (capacity : UInt8)
    (outEntries : ℕ → FrontierEntry) (k : ℕ) :
    (findUndominated reference target capacity outEntries).2 k =
      if k < capacity.toNat then (residual reference.toList target.toList).getD k (outEntries k)
      else outEntries k := by
  rw [findUndominated_eq hr ht, (foldl_emit zero_add_length_residual_lt).2 k]
  simp only [show (0 : UInt8).toNat = 0 from rfl, Nat.zero_le, true_and, Nat.sub_zero]

lemma getElem_toList (f : Frontier) {k : ℕ} (h : k < f.toList.length) :
    f.toList[k] = f.entries k := by
  simp [toList]

variable {capacity : UInt8} (hr : reference.Valid) (ht : target.Valid)
include hr ht

/-- With room for all of them, the output behind the count is the residual as a frontier. -/
lemma toList_findUndominated {outEntries : ℕ → FrontierEntry}
    (hroom : (findUndominated reference target capacity outEntries).1 ≤ capacity) :
    (Frontier.mk (findUndominated reference target capacity outEntries).1
      (findUndominated reference target capacity outEntries).2).toList =
        residual reference.toList target.toList := by
  have hcount := findUndominated_fst hr ht capacity outEntries
  have hle := UInt8.le_iff_toNat_le.mp hroom
  apply ext_getElem
  · rw [length_toList]
    exact hcount
  intro k hk hk'
  rw [getElem_toList]
  refine (findUndominated_snd hr ht capacity outEntries k).trans ?_
  rw [if_pos (by omega)]
  exact (getElem_eq_getD _).symm

/-- The residual is empty exactly when the target is dominated. -/
lemma findUndominated_eq_zero_iff (capacity : UInt8) (outEntries : ℕ → FrontierEntry) :
    (findUndominated reference target capacity outEntries).1 = 0 ↔
      target.epochAt ≤ reference.epochAt := by
  rw [← UInt8.toNat_inj, findUndominated_fst hr ht, show (0 : UInt8).toNat = 0 from rfl,
    length_eq_zero_iff, ht.residual_eq_nil_iff]
  rfl

/-- Merging a frontier that holds the residual is merging the target. -/
lemma merge_of_toList_residual {rest : Frontier} (hcap : reference.entryCount ≤ capacity)
    (hrest : rest.toList = residual reference.toList target.toList) :
    (merge reference capacity rest).2 = (merge reference capacity target).2 ∧
    ((merge reference capacity target).2 = true →
      (merge reference capacity rest).1.epochAt = (merge reference capacity target).1.epochAt) := by
  have hvalid : rest.Valid := by
    rw [Valid, hrest]
    exact ht.residual _
  have hjoin : join reference.toList rest.toList = join reference.toList target.toList := by
    rw [hrest, join_residual hr ht]
  have hmerged : (merge reference capacity rest).2 = (merge reference capacity target).2 := by
    rw [Bool.eq_iff_iff]
    refine (mergeImpl_merged_iff hr hvalid hcap).trans
      (Iff.trans ?_ (mergeImpl_merged_iff hr ht hcap).symm)
    rw [axes, axes, axes, ← length_join hr hvalid, ← length_join hr ht, hjoin]
  refine ⟨hmerged, fun h => ?_⟩
  unfold epochAt
  rw [show (merge reference capacity rest).1.toList = _ from
      toList_mergeImpl hr hvalid hcap (hmerged.trans h), hjoin,
    show (merge reference capacity target).1.toList = _ from toList_mergeImpl hr ht hcap h]

end query

/-! ### Satisfaction -/

/-- Skipping entries of smaller axes does not change what is read. -/
lemma epochAt_dropWhile {axis : ℕ} (h : axis ≤ a) (l : List FrontierEntry) :
    VectorClock.epochAt (l.dropWhile fun e => e.axis < axis) a = VectorClock.epochAt l a := by
  induction l with
  | nil => rfl
  | cons e l ih =>
    by_cases hlt : e.axis < axis
    · rw [dropWhile_cons_of_pos (by simpa using hlt), ih, epochAt_cons, if_neg (by omega)]
    · rw [dropWhile_cons_of_neg (by simpa using hlt)]

/-- In ascending epochs, an axis below the first one is not there. -/
lemma epochAt_of_lt_ascending {e : FrontierEntry}
    (h : (e :: l).Pairwise fun x y => x.axis < y.axis) (ha : a < e.axis) :
    VectorClock.epochAt (e :: l) a = 0 := by
  apply epochAt_of_not_mem
  rw [mem_axes]
  rintro ⟨x, hx, rfl⟩
  rcases mem_cons.mp hx with rfl | hx
  · exact lt_irrefl _ ha
  · exact lt_asymm ha (rel_of_pairwise_cons h hx)

/-- The scan tests every entry of the frontier. -/
lemma satisfiedScan_iff (hl : IsClock l) (hasc : epochs.Pairwise fun x y => x.axis < y.axis) :
    satisfiedScan l epochs = true ↔ ∀ e ∈ l, e.epoch ≤ VectorClock.epochAt epochs e.axis := by
  induction l generalizing epochs with
  | nil => simp [satisfiedScan]
  | cons x l ih =>
    obtain ⟨hlt, hx, hl'⟩ := isClock_cons.mp hl
    have hread : ∀ e ∈ x :: l,
        VectorClock.epochAt (epochs.dropWhile fun e => e.axis < x.axis) e.axis =
          VectorClock.epochAt epochs e.axis := by
      intro e he
      apply epochAt_dropWhile
      rcases mem_cons.mp he with rfl | he
      · exact le_rfl
      · exact (hlt e he).le
    have hasc' : (epochs.dropWhile fun e => e.axis < x.axis).Pairwise fun x y => x.axis < y.axis :=
      hasc.sublist (dropWhile_sublist _)
    have hhead : ∀ e rest, epochs.dropWhile (fun e => e.axis < x.axis) = e :: rest →
        ¬e.axis < x.axis := by
      intro e rest heq
      have hne : epochs.dropWhile (fun e => e.axis < x.axis) ≠ [] := heq ▸ cons_ne_nil e rest
      have := head_dropWhile_not (fun e : FrontierEntry => decide (e.axis < x.axis)) hne
      simpa [heq] using this
    have hread_iff : (∀ e ∈ x :: l, e.epoch ≤ VectorClock.epochAt epochs e.axis) ↔
        ∀ e ∈ x :: l, e.epoch ≤
          VectorClock.epochAt (epochs.dropWhile fun e => e.axis < x.axis) e.axis :=
      forall₂_congr fun e he => by rw [hread e he]
    rw [hread_iff, satisfiedScan]
    generalize epochs.dropWhile (fun e => e.axis < x.axis) = rest at hasc' hhead
    cases rest with
    | nil =>
      refine iff_of_false Bool.false_ne_true fun hall => hx ?_
      exact Nat.le_zero.mp (hall x (mem_cons_self ..))
    | cons e rest =>
      dsimp only
      have hge := hhead e rest rfl
      by_cases haxis : e.axis = x.axis
      · rw [if_neg (not_not.mpr haxis)]
        by_cases hepoch : e.epoch < x.epoch
        · rw [if_pos hepoch]
          refine iff_of_false Bool.false_ne_true fun hall => ?_
          have := hall x (mem_cons_self ..)
          rw [epochAt_cons, if_pos haxis] at this
          omega
        · rw [if_neg hepoch, ih hl' hasc', forall_mem_cons, epochAt_cons, if_pos haxis,
            and_iff_right (not_lt.mp hepoch)]
      · rw [if_pos haxis]
        refine iff_of_false Bool.false_ne_true fun hall => hx ?_
        have := hall x (mem_cons_self ..)
        rw [epochAt_of_lt_ascending hasc' (by omega)] at this
        exact Nat.le_zero.mp this

/-- A frontier is satisfied exactly when the current epochs dominate it. -/
lemma isSatisfied_iff {frontier : Frontier} (hf : frontier.Valid)
    (hasc : epochs.Pairwise fun x y => x.axis < y.axis) :
    isSatisfied frontier epochs = true ↔
      ∀ axis, frontier.epochAt axis ≤ VectorClock.epochAt epochs axis := by
  rw [show (∀ axis, frontier.epochAt axis ≤ VectorClock.epochAt epochs axis) ↔
    VectorClock.epochAt frontier.toList ≤ VectorClock.epochAt epochs from Iff.rfl,
    hf.epochAt_le_iff]
  unfold isSatisfied
  split_ifs with hempty
  · rw [toList_eq_nil_of_entryCount hempty]
    simp
  · exact satisfiedScan_iff hf hasc

/-! ### Queries in the lattice -/

/-- **Residual queries agree with the lattice.**  For valid frontiers and any output: the count and
the entries are those of the axes where the target is ahead, none exactly when it is dominated, and
merging them is merging the target; satisfaction is the pointwise order. -/
theorem findUndominated_isSatisfied_lattice (reference target : Frontier) (hr : reference.Valid)
    (ht : target.Valid) (capacity : UInt8) (outEntries : ℕ → FrontierEntry) :
    -- the count
    (findUndominated reference target capacity outEntries).1.toNat =
      {axis | reference.epochAt axis < target.epochAt axis}.ncard ∧
    -- the entries
    (∃ undominated : List FrontierEntry,
      undominated.Pairwise (fun x y => x.axis < y.axis) ∧
      (∀ e, e ∈ undominated ↔
        reference.epochAt e.axis < target.epochAt e.axis ∧ e.epoch = target.epochAt e.axis) ∧
      undominated.length = (findUndominated reference target capacity outEntries).1.toNat ∧
      ∀ k, (findUndominated reference target capacity outEntries).2 k =
        if k < min undominated.length capacity.toNat then undominated.getD k (outEntries k)
        else outEntries k) ∧
    -- domination
    ((findUndominated reference target capacity outEntries).1 = 0 ↔
      compare target reference = .before ∨ compare target reference = .equal) ∧
    -- merging what was returned
    ((findUndominated reference target capacity outEntries).1 ≤ capacity →
      ∀ targetCapacity, reference.entryCount ≤ targetCapacity →
        (merge reference targetCapacity ⟨(findUndominated reference target capacity outEntries).1,
            (findUndominated reference target capacity outEntries).2⟩).2 =
          (merge reference targetCapacity target).2 ∧
        ((merge reference targetCapacity target).2 = true →
          (merge reference targetCapacity ⟨(findUndominated reference target capacity outEntries).1,
              (findUndominated reference target capacity outEntries).2⟩).1.epochAt =
            (merge reference targetCapacity target).1.epochAt)) ∧
    -- satisfaction
    ∀ epochs : List FrontierEntry, epochs.Pairwise (fun x y => x.axis < y.axis) →
      (isSatisfied target epochs = true ↔
        ∀ axis, target.epochAt axis ≤ VectorClock.epochAt epochs axis) := by
  have hmem : ∀ e : FrontierEntry, e ∈ residual reference.toList target.toList ↔
      reference.epochAt e.axis < target.epochAt e.axis ∧ e.epoch = target.epochAt e.axis := by
    intro e
    rw [ht.mem_residual_iff]
    refine and_congr_left fun heq => ?_
    rw [heq]
    rfl
  refine ⟨?count, ⟨residual reference.toList target.toList, (ht.residual _).1, hmem,
    (findUndominated_fst hr ht capacity outEntries).symm, fun k => ?_⟩, ?_, ?_, ?_⟩
  case count =>
    have haxes : {axis | reference.epochAt axis < target.epochAt axis} =
        ↑(VectorClock.axes (residual reference.toList target.toList)) := by
      ext axis
      rw [Set.mem_ofPred_eq, Finset.mem_coe, mem_axes]
      constructor
      · intro hlt
        exact ⟨⟨axis, target.epochAt axis⟩, (hmem _).mpr ⟨hlt, rfl⟩, rfl⟩
      · rintro ⟨e, he, rfl⟩
        exact ((hmem e).mp he).1
    rw [haxes, Set.ncard_coe_finset, (ht.residual _).card_axes, findUndominated_fst hr ht]
  · rw [findUndominated_snd hr ht]
    by_cases hk : k < (residual reference.toList target.toList).length
    · simp only [lt_min_iff, hk, true_and]
    · rw [if_neg (fun hc => hk (lt_min_iff.mp hc).1),
        getD_eq_getElem?_getD, List.getElem?_eq_none (not_lt.mp hk), Option.getD_none, ite_self]
  · rw [findUndominated_eq_zero_iff hr ht, compare_eq_before_iff ht hr, compare_eq_equal_iff ht hr]
    exact le_iff_lt_or_eq
  · intro hroom targetCapacity hcap
    exact merge_of_toList_residual hr ht hcap (toList_findUndominated hr ht hroom)
  · intro epochs hasc
    exact isSatisfied_iff ht hasc

/-- The queries at two overlapping frontiers, with room for one entry. -/
theorem findUndominated_isSatisfied_lattice_overlapping :
    (findUndominated (ofList [⟨1, 5⟩, ⟨2, 3⟩]) (ofList [⟨1, 7⟩, ⟨3, 2⟩]) 1 fun _ => ⟨0, 0⟩).1 ≠ 0 ∧
      isSatisfied (ofList [⟨1, 7⟩, ⟨3, 2⟩]) [⟨1, 9⟩, ⟨2, 0⟩, ⟨3, 2⟩] = true := by
  have hr : (ofList [⟨1, 5⟩, ⟨2, 3⟩]).Valid := by unfold Valid IsClock; decide
  have ht : (ofList [⟨1, 7⟩, ⟨3, 2⟩]).Valid := by unfold Valid IsClock; decide
  have h := findUndominated_isSatisfied_lattice _ _ hr ht 1 fun _ => ⟨0, 0⟩
  refine ⟨fun hzero => ?_, (h.2.2.2.2 _ (by decide)).mpr fun axis => ?_⟩
  · have hcompare := h.2.2.1.mp hzero
    rw [compare_eq_before_iff ht hr, compare_eq_equal_iff ht hr, ← le_iff_lt_or_eq] at hcompare
    exact absurd (hcompare 1) (by decide)
  · exact (ht.epochAt_le_iff (g := VectorClock.epochAt [⟨1, 9⟩, ⟨2, 0⟩, ⟨3, 2⟩])).mpr
      (by decide) axis

end Hrx.Frontier
