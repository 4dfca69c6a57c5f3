import Hrx.Frontier.Basic

/-!
# Frontier comparison is exact

Both paths of `compare` compute the two flags "somewhere behind" and "somewhere ahead", which for
clocks are the failures of the two pointwise inequalities (`compareEpochs_eq`, `compareScan_eq`).
-/

namespace Hrx.Frontier

open VectorClock

/-! ### The two flags -/

section flags

open Classical

variable {l r : List FrontierEntry} {a b : Frontier}

/-- The slow path classifies the failures of the two pointwise inequalities. -/
theorem compareScan_eq (hl : IsClock l) (hr : IsClock r) (hasLess hasGreater : Bool) :
    compareScan l r hasLess hasGreater =
      classify (hasLess || ¬ VectorClock.epochAt r ≤ VectorClock.epochAt l)
        (hasGreater || ¬ VectorClock.epochAt l ≤ VectorClock.epochAt r) := by
  induction l, r, hasLess, hasGreater using compareScan.induct with
  | case1 r =>
    rw [compareScan]
    cases r with
    | nil => simp
    | cons => simp [nil_le, hr.not_le_of_head (epochAt_nil _)]
  | case2 l hasLess hasGreater hne =>
    cases l with
    | nil => exact absurd rfl hne
    | cons => simp [compareScan, nil_le, hl.not_le_of_head (epochAt_nil _)]
  | case3 x l y r hasLess hasGreater h ih =>
    rw [compareScan, if_pos h, ih hl.tail hr.tail, hl.cons_le_cons_iff h,
      hr.cons_le_cons_iff h.symm]
    simp only [not_and_or, not_le, Bool.decide_or, Bool.or_assoc]
  | case4 x l y r hasLess hasGreater h hlt ih =>
    have hx : ¬ VectorClock.epochAt (x :: l) ≤ VectorClock.epochAt (y :: r) :=
      hl.not_le_of_head (hr.epochAt_of_lt_head hlt)
    rw [compareScan, if_neg h, if_pos hlt, ih hl.tail hr, hr.le_cons_iff hlt]
    simp [hx]
  | case5 x l y r hasLess hasGreater h hlt ih =>
    have hgt : y.axis < x.axis := lt_of_le_of_ne (not_lt.mp hlt) (Ne.symm h)
    have hy : ¬ VectorClock.epochAt (y :: r) ≤ VectorClock.epochAt (x :: l) :=
      hr.not_le_of_head (hl.epochAt_of_lt_head hgt)
    rw [compareScan, if_neg h, if_neg hlt, ih hl hr.tail, hl.le_cons_iff hgt]
    simp [hy]

/-- Once both flags are set the slow path can only report concurrency. -/
lemma compareScan_true_true (hl : IsClock l) (hr : IsClock r) :
    compareScan l r true true = .concurrent := by
  rw [compareScan_eq hl hr]
  simp [classify]

/-- On matching axes the fast path is the slow path, its early exit included. -/
theorem compareEpochs_eq (hl : IsClock l) (hr : IsClock r) (hasLess hasGreater : Bool)
    (h : l.map Stamp.axis = r.map Stamp.axis) :
    compareEpochs l r hasLess hasGreater = compareScan l r hasLess hasGreater := by
  induction l generalizing r hasLess hasGreater with
  | nil =>
    have hnil : r = [] := by simpa using h.symm
    rw [hnil, compareEpochs, compareScan]
    · simp
    · simp
  | cons x l ih =>
    cases r with
    | nil => simp at h
    | cons y =>
      rw [List.map_cons, List.map_cons, List.cons.injEq] at h
      rw [compareEpochs, compareScan, if_pos h.1]
      by_cases hboth : ((hasLess || x.epoch < y.epoch) && (hasGreater || y.epoch < x.epoch)) = true
      · rw [if_pos hboth, (Bool.and_eq_true_iff.mp hboth).1, (Bool.and_eq_true_iff.mp hboth).2,
          compareScan_true_true hl.tail hr.tail]
      · rw [if_neg hboth, ih hl.tail hr.tail _ _ h.2]

lemma axesMatch_iff (h : a.entryCount = b.entryCount) :
    axesMatch a b = true ↔ a.toList.map Stamp.axis = b.toList.map Stamp.axis := by
  unfold axesMatch toList
  have hcount : b.count = a.count := by rw [count, count, h]
  rw [hcount, List.map_map, List.map_map, List.map_inj_left, List.all_eq_true]
  simp

/-- Whichever path is taken, `compare` is the slow path. -/
lemma compare_eq_compareScan (ha : a.Valid) (hb : b.Valid) :
    compare a b = compareScan a.toList b.toList false false := by
  unfold compare
  by_cases h : a.entryCount = b.entryCount ∧ axesMatch a b = true
  · rw [if_pos h, compareEpochs_eq ha hb _ _ ((axesMatch_iff h.1).mp h.2)]
  · rw [if_neg h]

variable {a b : Frontier}

/-- The comparison decides both pointwise inequalities. -/
lemma compare_eq_classify (ha : a.Valid) (hb : b.Valid) :
    compare a b = classify (¬ b.epochAt ≤ a.epochAt) (¬ a.epochAt ≤ b.epochAt) := by
  rw [compare_eq_compareScan ha hb, compareScan_eq ha hb, Bool.false_or, Bool.false_or]
  rfl

end flags

/-! ### The relation reported -/

lemma compare_eq_equal_iff (ha : a.Valid) (hb : b.Valid) :
    compare a b = .equal ↔ a.epochAt = b.epochAt := by
  rw [compare_eq_classify ha hb, le_antisymm_iff (a := a.epochAt)]
  by_cases hab : a.epochAt ≤ b.epochAt <;> by_cases hba : b.epochAt ≤ a.epochAt <;>
    simp [classify, hab, hba]

lemma compare_eq_before_iff (ha : a.Valid) (hb : b.Valid) :
    compare a b = .before ↔ a.epochAt < b.epochAt := by
  rw [compare_eq_classify ha hb, lt_iff_le_not_ge]
  by_cases hab : a.epochAt ≤ b.epochAt <;> by_cases hba : b.epochAt ≤ a.epochAt <;>
    simp [classify, hab, hba]

lemma compare_eq_after_iff (ha : a.Valid) (hb : b.Valid) :
    compare a b = .after ↔ b.epochAt < a.epochAt := by
  rw [compare_eq_classify ha hb, lt_iff_le_not_ge]
  by_cases hab : a.epochAt ≤ b.epochAt <;> by_cases hba : b.epochAt ≤ a.epochAt <;>
    simp [classify, hab, hba]

lemma compare_eq_concurrent_iff (ha : a.Valid) (hb : b.Valid) :
    compare a b = .concurrent ↔ ¬ a.epochAt ≤ b.epochAt ∧ ¬ b.epochAt ≤ a.epochAt := by
  rw [compare_eq_classify ha hb]
  by_cases hab : a.epochAt ≤ b.epochAt <;> by_cases hba : b.epochAt ≤ a.epochAt <;>
    simp [classify, hab, hba]

end Hrx.Frontier
