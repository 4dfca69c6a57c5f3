import Mathlib.Data.Finset.Card
import Mathlib.Data.List.Sort
import Mathlib.Algebra.Group.Nat.Defs

/-!
# Vector clocks as sorted stamp lists

A vector clock assigns an epoch to every axis, all but finitely many of them the bottom epoch.
It is represented by a list of stamps in strictly ascending axis order, each above bottom
(`IsClock`); `epochAt` reads the represented map.  The representation is canonical
(`IsClock.ext`), so an algorithm on stamp lists is pinned down by the map it computes: `join`
is the pointwise maximum (`epochAt_join`), it may be read from either end (`join_concat_lt`,
`join_concat_gt`, `join_concat_eq`), and its length counts the union of the axes
(`length_join`).
-/

namespace VectorClock

open List

/-- One component of a clock: `axis` has reached `epoch`. -/
structure Stamp (α β : Type*) where
  axis : α
  epoch : β
deriving DecidableEq, Repr, Inhabited

variable {α β : Type*} [LinearOrder α]

def axes (l : List (Stamp α β)) : Finset α := (l.map Stamp.axis).toFinset

@[simp] lemma axes_nil : axes ([] : List (Stamp α β)) = ∅ := rfl

@[simp] lemma axes_cons (e : Stamp α β) (l : List (Stamp α β)) :
    axes (e :: l) = insert e.axis (axes l) := by
  simp [axes]

variable {l r : List (Stamp α β)} {a : α} {e x y : Stamp α β}

lemma mem_axes : a ∈ axes l ↔ ∃ e ∈ l, e.axis = a := by
  simp [axes]

variable [LinearOrder β]

/-! ### The join -/

/-- The merge of two stamp lists from the front: the stamp of the smaller axis first, and on a
common axis the larger epoch. -/
def join : List (Stamp α β) → List (Stamp α β) → List (Stamp α β)
  | [], r => r
  | l, [] => l
  | x :: l, y :: r =>
    if x.axis = y.axis then ⟨x.axis, max x.epoch y.epoch⟩ :: join l r
    else if x.axis < y.axis then x :: join l (y :: r)
    else y :: join (x :: l) r
termination_by l r => l.length + r.length

@[simp] lemma join_nil_left (r : List (Stamp α β)) : join [] r = r := by
  rw [join]

@[simp] lemma join_nil_right (l : List (Stamp α β)) : join l [] = l := by
  cases l <;> simp [join]

lemma join_cons_cons (x y : Stamp α β) (l r : List (Stamp α β)) :
    join (x :: l) (y :: r) =
      if x.axis = y.axis then ⟨x.axis, max x.epoch y.epoch⟩ :: join l r
      else if x.axis < y.axis then x :: join l (y :: r)
      else y :: join (x :: l) r := by
  rw [join]

/-- The join mentions the axes of both sides. -/
lemma axes_join (l r : List (Stamp α β)) : axes (join l r) = axes l ∪ axes r := by
  induction l, r using join.induct with
  | case1 | case2 => simp
  | case3 x l y r h ih =>
    rw [join_cons_cons, if_pos h, axes_cons, axes_cons, axes_cons, ih]
    ext a; simp only [Finset.mem_insert, Finset.mem_union, h]; tauto
  | case4 x l y r h hlt ih =>
    rw [join_cons_cons, if_neg h, if_pos hlt, axes_cons, axes_cons, ih, axes_cons]
    ext a; simp only [Finset.mem_insert, Finset.mem_union]; tauto
  | case5 x l y r h hlt ih =>
    rw [join_cons_cons, if_neg h, if_neg hlt, axes_cons, ih, axes_cons, axes_cons]
    ext a; simp only [Finset.mem_insert, Finset.mem_union]; tauto

/-- What holds of the axes of both sides holds of those of the join. -/
lemma axis_of_mem_join {p : α → Prop} (hl : ∀ x ∈ l, p x.axis) (hr : ∀ x ∈ r, p x.axis) :
    ∀ x ∈ join l r, p x.axis := by
  intro x hx
  have hmem : x.axis ∈ axes (join l r) := mem_axes.mpr ⟨x, hx, rfl⟩
  rw [axes_join, Finset.mem_union, mem_axes, mem_axes] at hmem
  rcases hmem with ⟨y, hy, hyx⟩ | ⟨y, hy, hyx⟩
  · rw [← hyx]; exact hl y hy
  · rw [← hyx]; exact hr y hy

variable [OrderBot β]

/-! ### Reading a clock -/

/-- The epoch a stamp list records for an axis: that of the first stamp of the axis, bottom when
there is none. -/
def epochAt : List (Stamp α β) → α → β
  | [], _ => ⊥
  | e :: l, a => if e.axis = a then e.epoch else epochAt l a

/-- A stamp list in canonical form: axes strictly ascending, no bottom epochs. -/
def IsClock (l : List (Stamp α β)) : Prop :=
  l.Pairwise (fun x y => x.axis < y.axis) ∧ ∀ e ∈ l, e.epoch ≠ ⊥

@[simp] lemma epochAt_nil (a : α) : epochAt ([] : List (Stamp α β)) a = ⊥ := rfl

lemma epochAt_cons (e : Stamp α β) (l : List (Stamp α β)) (a : α) :
    epochAt (e :: l) a = if e.axis = a then e.epoch else epochAt l a := rfl

/-- An axis without a stamp reads as bottom. -/
lemma epochAt_of_not_mem (h : a ∉ axes l) : epochAt l a = ⊥ := by
  induction l with
  | nil => rfl
  | cons e l ih =>
    rw [axes_cons, Finset.mem_insert, not_or] at h
    rw [epochAt_cons, if_neg (Ne.symm h.1), ih h.2]

/-- Reading a concatenation with disjoint axes. -/
lemma epochAt_append (l r : List (Stamp α β)) (a : α) :
    epochAt (l ++ r) a = if a ∈ axes l then epochAt l a else epochAt r a := by
  induction l with
  | nil => simp
  | cons e l ih =>
    rw [cons_append, epochAt_cons, epochAt_cons, axes_cons, ih]
    by_cases he : e.axis = a
    · rw [if_pos he, if_pos he, if_pos (by rw [he]; exact Finset.mem_insert_self _ _)]
    · rw [if_neg he, if_neg he]
      simp only [Finset.mem_insert, Ne.symm he, false_or]

/-! ### Canonical form -/

lemma IsClock.nil : IsClock ([] : List (Stamp α β)) := ⟨List.Pairwise.nil, by simp⟩

lemma isClock_cons : IsClock (e :: l) ↔ (∀ x ∈ l, e.axis < x.axis) ∧ e.epoch ≠ ⊥ ∧ IsClock l := by
  unfold IsClock
  rw [pairwise_cons]
  constructor
  · rintro ⟨⟨hlt, hl⟩, hne⟩
    exact ⟨hlt, hne e (mem_cons_self ..), hl, fun x hx => hne x (mem_cons_of_mem _ hx)⟩
  rintro ⟨hlt, he, hl, hne⟩
  refine ⟨⟨hlt, hl⟩, fun x hx => ?_⟩
  rcases mem_cons.mp hx with rfl | hx
  · exact he
  · exact hne x hx

/-- Appending one stamp above every axis of a clock. -/
lemma isClock_concat :
    IsClock (l ++ [e]) ↔ IsClock l ∧ (∀ x ∈ l, x.axis < e.axis) ∧ e.epoch ≠ ⊥ := by
  unfold IsClock
  rw [pairwise_append]
  constructor
  · rintro ⟨⟨hl, -, hlt⟩, hne⟩
    exact ⟨⟨hl, fun x hx => hne x (by simp [hx])⟩, fun x hx => hlt x hx e (by simp),
      hne e (by simp)⟩
  rintro ⟨⟨hl, hne⟩, hlt, he⟩
  refine ⟨⟨hl, pairwise_singleton _ _, ?_⟩, ?_⟩
  · intro x hx y hy
    rw [mem_singleton] at hy
    rw [hy]; exact hlt x hx
  · intro x hx
    rcases mem_append.mp hx with hx | hx
    · exact hne x hx
    · rw [mem_singleton] at hx; rw [hx]; exact he

lemma IsClock.tail (h : IsClock (e :: l)) : IsClock l := (isClock_cons.mp h).2.2

/-- The head axis of a clock has no second stamp. -/
lemma IsClock.head_not_mem (h : IsClock (e :: l)) : e.axis ∉ axes l := by
  rw [mem_axes]
  rintro ⟨x, hx, hxe⟩
  exact absurd ((isClock_cons.mp h).1 x hx) (by rw [hxe]; exact lt_irrefl _)

/-- A clock's axes are as many as its stamps. -/
lemma IsClock.card_axes (h : IsClock l) : (axes l).card = l.length := by
  induction l with
  | nil => rfl
  | cons e l ih =>
    rw [axes_cons, Finset.card_insert_of_notMem h.head_not_mem, ih h.tail, length_cons]

/-- Below the head axis a clock reads bottom. -/
lemma IsClock.epochAt_of_lt_head (h : IsClock (e :: l)) (ha : a < e.axis) :
    epochAt (e :: l) a = ⊥ := by
  apply epochAt_of_not_mem
  rw [mem_axes]
  rintro ⟨x, hx, rfl⟩
  rcases mem_cons.mp hx with rfl | hx
  · exact lt_irrefl _ ha
  · exact lt_asymm ha ((isClock_cons.mp h).1 x hx)

lemma IsClock.epochAt_of_mem (h : IsClock l) (he : e ∈ l) : epochAt l e.axis = e.epoch := by
  induction l with
  | nil => exact absurd he not_mem_nil
  | cons x l ih =>
    rcases mem_cons.mp he with rfl | hel
    · rw [epochAt_cons, if_pos rfl]
    · rw [epochAt_cons, if_neg ((isClock_cons.mp h).1 e hel).ne, ih h.tail hel]

/-- A read above bottom is that of a stamp. -/
lemma mem_of_epochAt_ne_bot (h : epochAt l a ≠ ⊥) : ⟨a, epochAt l a⟩ ∈ l := by
  induction l with
  | nil => exact absurd rfl h
  | cons e l ih =>
    rw [epochAt_cons] at h ⊢
    by_cases he : e.axis = a
    · rw [if_pos he, ← he]
      exact mem_cons_self
    · rw [if_neg he] at h ⊢
      exact mem_cons_of_mem _ (ih h)

/-- The stamps of a clock are its reads above bottom. -/
lemma IsClock.mem_iff (h : IsClock l) : e ∈ l ↔ epochAt l e.axis = e.epoch ∧ e.epoch ≠ ⊥ := by
  constructor
  · exact fun he => ⟨h.epochAt_of_mem he, h.2 e he⟩
  · rintro ⟨hread, hne⟩
    have hmem := mem_of_epochAt_ne_bot (hread ▸ hne)
    rwa [hread] at hmem

section

variable (hl : IsClock l) (hr : IsClock r)
include hl hr

/-- **Canonicity.** Two clocks that read the same are the same list. -/
theorem IsClock.ext (h : ∀ a, epochAt l a = epochAt r a) : l = r := by
  have : Std.Irrefl fun x y : Stamp α β => x.axis < y.axis := ⟨fun x => lt_irrefl x.axis⟩
  have : Std.Antisymm fun x y : Stamp α β => x.axis < y.axis :=
    ⟨fun _ _ hxy hyx => absurd hxy hyx.asymm⟩
  apply hl.1.eq_of_mem_iff hr.1
  intro e
  rw [hl.mem_iff, hr.mem_iff, h]

/-! ### The join as a maximum -/

/-- The join of two clocks is a clock. -/
theorem IsClock.join : IsClock (VectorClock.join l r) := by
  induction l, r using VectorClock.join.induct with
  | case1 => simpa using hr
  | case2 => simpa using hl
  | case3 x l y r h ih =>
    rw [join_cons_cons, if_pos h]
    obtain ⟨hxl, hx, hl'⟩ := isClock_cons.mp hl
    obtain ⟨hyr, -, hr'⟩ := isClock_cons.mp hr
    refine isClock_cons.mpr ⟨?_, ?_, ih hl' hr'⟩
    · exact axis_of_mem_join (p := (_ < ·)) hxl (fun z hz => h ▸ hyr z hz)
    · exact fun hbot => hx (le_bot_iff.mp (hbot ▸ le_max_left _ _))
  | case4 x l y r h hlt ih =>
    rw [join_cons_cons, if_neg h, if_pos hlt]
    obtain ⟨hxl, hx, hl'⟩ := isClock_cons.mp hl
    refine isClock_cons.mpr ⟨axis_of_mem_join (p := (_ < ·)) hxl ?_, hx, ih hl' hr⟩
    intro z hz
    rcases mem_cons.mp hz with rfl | hz
    · exact hlt
    · exact hlt.trans ((isClock_cons.mp hr).1 z hz)
  | case5 x l y r h hlt ih =>
    rw [join_cons_cons, if_neg h, if_neg hlt]
    obtain ⟨hyr, hy, hr'⟩ := isClock_cons.mp hr
    have hgt : y.axis < x.axis := lt_of_le_of_ne (not_lt.mp hlt) (Ne.symm h)
    refine isClock_cons.mpr ⟨axis_of_mem_join (p := (_ < ·)) ?_ hyr, hy, ih hl hr'⟩
    intro z hz
    rcases mem_cons.mp hz with rfl | hz
    · exact hgt
    · exact hgt.trans ((isClock_cons.mp hl).1 z hz)

/-- **The join is the pointwise maximum.** -/
theorem epochAt_join (a : α) : epochAt (join l r) a = max (epochAt l a) (epochAt r a) := by
  induction l, r using join.induct with
  | case1 | case2 => simp
  | case3 x l y r h ih =>
    rw [join_cons_cons, if_pos h, epochAt_cons, epochAt_cons, epochAt_cons, ← h]
    by_cases ha : x.axis = a
    · simp [ha]
    · simp only [if_neg ha]
      exact ih hl.tail hr.tail
  | case4 x l y r h hlt ih =>
    rw [join_cons_cons, if_neg h, if_pos hlt, epochAt_cons]
    by_cases ha : x.axis = a
    · rw [if_pos ha, epochAt_cons, if_pos ha, hr.epochAt_of_lt_head (ha ▸ hlt), max_bot_right]
    · rw [if_neg ha, ih hl.tail hr, epochAt_cons (e := x), if_neg ha]
  | case5 x l y r h hlt ih =>
    have hgt : y.axis < x.axis := lt_of_le_of_ne (not_lt.mp hlt) (Ne.symm h)
    rw [join_cons_cons, if_neg h, if_neg hlt, epochAt_cons]
    by_cases ha : y.axis = a
    · rw [if_pos ha, epochAt_cons (e := y), if_pos ha, hl.epochAt_of_lt_head (ha ▸ hgt),
        max_bot_left]
    · rw [if_neg ha, ih hl hr.tail, epochAt_cons (e := y), if_neg ha]

/-- The length of the join counts the union of the axes. -/
theorem length_join : (join l r).length = (axes l ∪ axes r).card := by
  rw [← axes_join, (hl.join hr).card_axes]

lemma length_le_length_join_left : l.length ≤ (join l r).length := by
  rw [length_join hl hr, ← hl.card_axes]
  exact Finset.card_le_card Finset.subset_union_left

end

/-! ### The join read from the back

By canonicity each equation only has to be checked on the represented maps. -/

lemma epochAt_concat_of_lt (hl : ∀ y ∈ l, y.axis < x.axis) (a : α) :
    epochAt (l ++ [x]) a = if x.axis = a then x.epoch else epochAt l a := by
  rw [epochAt_append]
  by_cases ha : a ∈ axes l
  · obtain ⟨y, hy, hya⟩ := mem_axes.mp ha
    rw [if_pos ha, if_neg (by rw [← hya]; exact (hl y hy).ne')]
  · rw [if_neg ha, epochAt_cons, epochAt_nil, epochAt_of_not_mem ha]

/-- The stamps of a clock whose last axis is below `a` are all below `a`. -/
lemma axis_lt_of_concat (h : IsClock (l ++ [x])) (hxa : x.axis < a) :
    ∀ y ∈ l ++ [x], y.axis < a := by
  intro y hy
  rcases mem_append.mp hy with hy | hy
  · exact ((isClock_concat.mp h).2.1 y hy).trans hxa
  · rw [mem_singleton] at hy; rw [hy]; exact hxa

section

variable (hl : IsClock (l ++ [x])) (hr : IsClock (r ++ [y]))
include hl hr

/-- The larger last axis on the left closes the join. -/
theorem join_concat_gt (h : y.axis < x.axis) :
    join (l ++ [x]) (r ++ [y]) = join l (r ++ [y]) ++ [x] := by
  obtain ⟨hl', hlt, hx⟩ := isClock_concat.mp hl
  have hbound : ∀ z ∈ join l (r ++ [y]), z.axis < x.axis :=
    axis_of_mem_join (p := (· < _)) hlt (axis_lt_of_concat hr h)
  apply (hl.join hr).ext (isClock_concat.mpr ⟨hl'.join hr, hbound, hx⟩)
  intro a
  rw [epochAt_join hl hr, epochAt_concat_of_lt hlt, epochAt_concat_of_lt hbound,
    epochAt_join hl' hr]
  by_cases ha : x.axis = a
  · have hbot : epochAt (r ++ [y]) a = ⊥ := by
      apply epochAt_of_not_mem
      rw [mem_axes]
      rintro ⟨z, hz, hza⟩
      exact absurd (axis_lt_of_concat hr h z hz) (by rw [hza, ha]; exact lt_irrefl _)
    rw [if_pos ha, if_pos ha, hbot, max_bot_right]
  · rw [if_neg ha, if_neg ha]

omit hl hr in
/-- The join of two clocks does not depend on the side. -/
lemma join_comm (hl : IsClock l) (hr : IsClock r) : join l r = join r l := by
  apply (hl.join hr).ext (hr.join hl)
  intro a
  rw [epochAt_join hl hr, epochAt_join hr hl, max_comm]

/-- The larger last axis on the right closes the join. -/
theorem join_concat_lt (h : x.axis < y.axis) :
    join (l ++ [x]) (r ++ [y]) = join (l ++ [x]) r ++ [y] := by
  rw [join_comm hl hr, join_concat_gt hr hl h, join_comm (isClock_concat.mp hr).1 hl]

/-- A common last axis closes the join with the larger epoch. -/
theorem join_concat_eq (h : x.axis = y.axis) :
    join (l ++ [x]) (r ++ [y]) = join l r ++ [⟨x.axis, max x.epoch y.epoch⟩] := by
  obtain ⟨hl', hlt, hx⟩ := isClock_concat.mp hl
  obtain ⟨hr', hrt, -⟩ := isClock_concat.mp hr
  have hbound : ∀ z ∈ join l r, z.axis < (⟨x.axis, max x.epoch y.epoch⟩ : Stamp α β).axis :=
    axis_of_mem_join (p := (· < _)) hlt (fun z hz => h ▸ hrt z hz)
  have hmax : (⟨x.axis, max x.epoch y.epoch⟩ : Stamp α β).epoch ≠ ⊥ :=
    fun hbot => hx (le_bot_iff.mp (hbot ▸ le_max_left _ _))
  apply (hl.join hr).ext (isClock_concat.mpr ⟨hl'.join hr', hbound, hmax⟩)
  intro a
  rw [epochAt_join hl hr, epochAt_concat_of_lt hlt, epochAt_concat_of_lt hrt,
    epochAt_concat_of_lt hbound, epochAt_join hl' hr', ← h]
  by_cases ha : x.axis = a
  · simp only [if_pos ha]
  · simp only [if_neg ha]

end

/-! ### The pointwise order

The order of the represented maps, decided from the front of the two lists. -/

lemma nil_le (r : List (Stamp α β)) : epochAt ([] : List (Stamp α β)) ≤ epochAt r := fun _ => bot_le

/-- A stamp on an axis the other side does not have is ahead of it. -/
lemma IsClock.not_le_of_head (h : IsClock (x :: l)) (hr : epochAt r x.axis = ⊥) :
    ¬ epochAt (x :: l) ≤ epochAt r := by
  intro hle
  have hx := hle x.axis
  rw [hr, epochAt_cons, if_pos rfl, le_bot_iff] at hx
  exact (isClock_cons.mp h).2.1 hx

/-- On a common head axis the order is that of the heads and that of the tails. -/
lemma IsClock.cons_le_cons_iff (hl : IsClock (x :: l)) (h : x.axis = y.axis) :
    epochAt (x :: l) ≤ epochAt (y :: r) ↔ x.epoch ≤ y.epoch ∧ epochAt l ≤ epochAt r := by
  constructor
  · intro hle
    constructor
    · have hx := hle x.axis
      rwa [epochAt_cons, if_pos rfl, epochAt_cons, if_pos h.symm] at hx
    intro a
    by_cases ha : x.axis = a
    · rw [epochAt_of_not_mem (ha ▸ hl.head_not_mem)]
      exact bot_le
    · have hx := hle a
      rwa [epochAt_cons, if_neg ha, epochAt_cons, if_neg (h ▸ ha)] at hx
  · rintro ⟨hxy, hle⟩ a
    rw [epochAt_cons, epochAt_cons, ← h]
    by_cases ha : x.axis = a
    · rw [if_pos ha, if_pos ha]; exact hxy
    · rw [if_neg ha, if_neg ha]; exact hle a

/-- A head axis below everything on the left does not matter to a lower bound of the right. -/
lemma IsClock.le_cons_iff (hl : IsClock (x :: l)) (h : y.axis < x.axis) :
    epochAt (x :: l) ≤ epochAt (y :: r) ↔ epochAt (x :: l) ≤ epochAt r := by
  refine forall_congr' fun a => ?_
  by_cases ha : y.axis = a
  · rw [hl.epochAt_of_lt_head (ha ▸ h)]
    exact iff_of_true bot_le bot_le
  · rw [epochAt_cons (e := y), if_neg ha]

/-- A clock is below a map exactly when each of its stamps is. -/
lemma IsClock.epochAt_le_iff (h : IsClock l) {g : α → β} :
    epochAt l ≤ g ↔ ∀ e ∈ l, e.epoch ≤ g e.axis := by
  constructor
  · intro hle e he
    rw [← h.epochAt_of_mem he]
    exact hle e.axis
  intro hall a
  by_cases ha : a ∈ axes l
  · obtain ⟨e, he, rfl⟩ := mem_axes.mp ha
    rw [h.epochAt_of_mem he]
    exact hall e he
  · rw [epochAt_of_not_mem ha]
    exact bot_le

/-! ### The residual

What one clock has that another does not yet reach.  Joining only the residual is as good as joining
the whole clock. -/

/-- The stamps of `r` that are ahead of `l`. -/
def residual (l r : List (Stamp α β)) : List (Stamp α β) :=
  r.filter fun y => epochAt l y.axis < y.epoch

@[simp] lemma residual_nil_right (l : List (Stamp α β)) : residual l [] = [] := rfl

lemma residual_cons (l : List (Stamp α β)) (y : Stamp α β) (r : List (Stamp α β)) :
    residual l (y :: r) =
      if epochAt l y.axis < y.epoch then y :: residual l r else residual l r := by
  unfold residual
  rw [filter_cons]
  simp only [decide_eq_true_eq]

/-- A stamp below every axis of `r` does not matter to the residual. -/
lemma residual_cons_left (h : ∀ y ∈ r, x.axis < y.axis) : residual (x :: l) r = residual l r := by
  refine filter_congr fun y hy => ?_
  rw [epochAt_cons, if_neg (h y hy).ne]

/-- Everything is ahead of the empty clock. -/
lemma IsClock.residual_nil_left (h : IsClock r) : residual [] r = r := by
  refine filter_eq_self.mpr fun y hy => ?_
  rw [epochAt_nil, decide_eq_true_eq]
  exact bot_lt_iff_ne_bot.mpr (h.2 y hy)

lemma IsClock.residual (h : IsClock r) (l : List (Stamp α β)) :
    IsClock (VectorClock.residual l r) :=
  ⟨h.1.filter _, fun e he => h.2 e (mem_of_mem_filter he)⟩

/-- The residual holds the axes where `r` is ahead, with the epochs of `r`. -/
lemma IsClock.mem_residual_iff (h : IsClock r) :
    e ∈ VectorClock.residual l r ↔ epochAt l e.axis < e.epoch ∧ e.epoch = epochAt r e.axis := by
  unfold VectorClock.residual
  rw [mem_filter, decide_eq_true_eq, and_comm]
  refine and_congr_right fun hlt => ?_
  constructor
  · intro he
    rw [h.epochAt_of_mem he]
  intro heq
  have ha : e.axis ∈ axes r := by
    by_contra ha
    rw [heq, epochAt_of_not_mem ha] at hlt
    exact not_lt_bot hlt
  obtain ⟨x, hx, hxe⟩ := mem_axes.mp ha
  have hepoch : x.epoch = e.epoch := by rw [heq, ← hxe, h.epochAt_of_mem hx]
  obtain ⟨axis, epoch⟩ := x
  obtain ⟨axis', epoch'⟩ := e
  obtain rfl : axis = axis' := hxe
  obtain rfl : epoch = epoch' := hepoch
  exact hx

/-- The residual reads like `r` where `r` is ahead, and bottom elsewhere. -/
lemma IsClock.epochAt_residual (h : IsClock r) (l : List (Stamp α β)) (a : α) :
    epochAt (VectorClock.residual l r) a =
      if epochAt l a < epochAt r a then epochAt r a else ⊥ := by
  by_cases hlt : epochAt l a < epochAt r a
  · have hmem : (⟨a, epochAt r a⟩ : Stamp α β) ∈ VectorClock.residual l r :=
      h.mem_residual_iff.mpr ⟨hlt, rfl⟩
    rw [if_pos hlt]
    exact (h.residual l).epochAt_of_mem hmem
  · rw [if_neg hlt]
    apply epochAt_of_not_mem
    rw [mem_axes]
    rintro ⟨e, he, rfl⟩
    obtain ⟨hahead, heq⟩ := h.mem_residual_iff.mp he
    exact hlt (heq ▸ hahead)

/-- The residual is empty exactly when `r` is below `l`. -/
lemma IsClock.residual_eq_nil_iff (h : IsClock r) :
    VectorClock.residual l r = [] ↔ epochAt r ≤ epochAt l := by
  unfold VectorClock.residual
  rw [filter_eq_nil_iff, h.epochAt_le_iff]
  simp only [decide_eq_true_eq, not_lt]

/-- **Joining the residual is joining the clock.** -/
lemma join_residual (hl : IsClock l) (hr : IsClock r) : join l (residual l r) = join l r := by
  apply (hl.join (hr.residual l)).ext (hl.join hr)
  intro a
  rw [epochAt_join hl (hr.residual l), epochAt_join hl hr, hr.epochAt_residual]
  by_cases hlt : epochAt l a < epochAt r a
  · rw [if_pos hlt]
  · rw [if_neg hlt, max_bot_right, max_eq_left (not_lt.mp hlt)]

end VectorClock
