import Mathlib.Data.List.Nodup

/-!
# Doubly linked lists over an index heap

A heap gives every index a `next` and a `prev` index, with a sentinel `nil` for "none".  A list of
indices is *doubly linked* in the heap when each index points to its neighbours in the list.  The
rules below say when a list stays linked after pointers have been rewritten: the new pointers are
only constrained on the list itself, so a rule applies to any heap that changes whatever else.
-/

namespace DoublyLinked

open List

variable {ι : Type*}

/-- The indices of `l` form a doubly linked segment, entered from `a` and left to `b`. -/
def Segment (next prev : ι → ι) : ι → List ι → ι → Prop
  | _, [], _ => True
  | a, x :: l, b => prev x = a ∧ next x = l.headD b ∧ Segment next prev x l b

/-- The list `l` is a whole doubly linked list with the given head. -/
structure IsList (next prev : ι → ι) (nil head : ι) (l : List ι) : Prop where
  head_eq : head = l.headD nil
  nodup : l.Nodup
  nil_not_mem : nil ∉ l
  segment : Segment next prev nil l nil

/-- The list `l` is singly linked from `head` to `nil`. -/
def IsChain (next : ι → ι) (nil : ι) : ι → List ι → Prop
  | head, [] => head = nil
  | head, x :: l => head = x ∧ IsChain next nil (next x) l

variable {next prev next' prev' : ι → ι} {nil head a b c x r : ι} {l l₁ l₂ : List ι}

/-! ### Segments -/

lemma Segment.congr (h : Segment next prev a l b) (hnext : ∀ y ∈ l, next' y = next y)
    (hprev : ∀ y ∈ l, prev' y = prev y) : Segment next' prev' a l b := by
  induction l generalizing a with
  | nil => trivial
  | cons x l ih =>
    obtain ⟨hp, hn, hl⟩ := h
    refine ⟨?_, ?_, ih hl ?_ ?_⟩
    · rw [hprev x (mem_cons_self ..), hp]
    · rw [hnext x (mem_cons_self ..), hn]
    · exact fun y hy => hnext y (mem_cons_of_mem _ hy)
    · exact fun y hy => hprev y (mem_cons_of_mem _ hy)

lemma segment_append : Segment next prev a (l₁ ++ l₂) b ↔
    Segment next prev a l₁ (l₂.headD b) ∧ Segment next prev (l₁.getLastD a) l₂ b := by
  induction l₁ generalizing a with
  | nil => simp [Segment]
  | cons x l ih =>
    have hhead : (l ++ l₂).headD b = l.headD (l₂.headD b) := by cases l <;> rfl
    rw [cons_append, Segment, Segment, ih, hhead, getLastD_cons, and_assoc, and_assoc]

/-! ### Whole lists -/

lemma headD_mem_or (l : List ι) (d : ι) : l.headD d ∈ l ∨ (l = [] ∧ l.headD d = d) := by
  cases l with
  | nil => exact .inr ⟨rfl, rfl⟩
  | cons => exact .inl (mem_cons_self ..)

lemma getLastD_mem_or (l : List ι) (d : ι) : l.getLastD d ∈ l ∨ (l = [] ∧ l.getLastD d = d) := by
  rcases eq_nil_or_concat l with rfl | ⟨l', x, rfl⟩
  · exact .inr ⟨rfl, rfl⟩
  · refine .inl ?_
    rw [getLastD_eq_getLast?]
    simp

namespace IsList

lemma congr (h : IsList next prev nil head l) (hnext : ∀ y ∈ l, next' y = next y)
    (hprev : ∀ y ∈ l, prev' y = prev y) : IsList next' prev' nil head l :=
  ⟨h.head_eq, h.nodup, h.nil_not_mem, h.segment.congr hnext hprev⟩

lemma nil_iff (h : IsList next prev nil head l) : l = [] ↔ head = nil := by
  have hhead := h.head_eq
  constructor
  · rintro rfl; exact hhead
  intro hnil
  rcases headD_mem_or l nil with hmem | ⟨hl, -⟩
  · rw [← hhead, hnil] at hmem
    exact absurd hmem h.nil_not_mem
  · exact hl

lemma head_mem (h : IsList next prev nil head l) (hne : head ≠ nil) : head ∈ l := by
  rcases headD_mem_or l nil with hmem | ⟨-, hnil⟩
  · exact h.head_eq ▸ hmem
  · exact absurd (h.head_eq.trans hnil) hne

variable (h : IsList next prev nil head (l₁ ++ x :: l₂))
include h

lemma prev_eq : prev x = l₁.getLastD nil := (segment_append.mp h.segment).2.1

lemma next_eq : next x = l₂.headD nil := (segment_append.mp h.segment).2.2.1

lemma next_mem (hne : next x ≠ nil) : next x ∈ l₂ := by
  rcases headD_mem_or l₂ nil with hmem | ⟨-, hnil⟩
  · exact h.next_eq ▸ hmem
  · exact absurd (h.next_eq.trans hnil) hne

lemma prev_mem (hne : prev x ≠ nil) : prev x ∈ l₁ := by
  rcases getLastD_mem_or l₁ nil with hmem | ⟨-, hnil⟩
  · exact h.prev_eq ▸ hmem
  · exact absurd (h.prev_eq.trans hnil) hne

lemma not_mem_left : x ∉ l₁ := by
  have hd := (nodup_append.mp h.nodup).2.2
  exact fun hx => hd x hx x (mem_cons_self ..) rfl

lemma not_mem_right : x ∉ l₂ := (nodup_cons.mp (nodup_append.mp h.nodup).2.1).1

lemma prev_eq_nil_iff : prev x = nil ↔ l₁ = [] := by
  rw [h.prev_eq]
  constructor
  · intro hnil
    rcases getLastD_mem_or l₁ nil with hmem | ⟨hl, -⟩
    · exact absurd (by simp [hnil ▸ hmem]) h.nil_not_mem
    · exact hl
  · rintro rfl; rfl

end IsList

/-! ### Chains -/

/-- A doubly linked list is singly linked. -/
lemma Segment.isChain (h : Segment next prev a l nil) : IsChain next nil (l.headD nil) l := by
  induction l generalizing a with
  | nil => rfl
  | cons x l ih =>
    obtain ⟨-, hnext, hl⟩ := h
    refine ⟨rfl, ?_⟩
    rw [hnext]
    exact ih hl

lemma IsList.isChain (h : IsList next prev nil head l) : IsChain next nil head l := by
  rw [h.head_eq]
  exact h.segment.isChain

lemma IsChain.congr (h : IsChain next nil head l) (hnext : ∀ y ∈ l, next' y = next y) :
    IsChain next' nil head l := by
  induction l generalizing head with
  | nil => exact h
  | cons x l ih =>
    refine ⟨h.1, ih ?_ fun y hy => hnext y (mem_cons_of_mem _ hy)⟩
    rw [hnext x (mem_cons_self ..)]
    exact h.2

/-! ### Rewriting pointers -/

section rewriting

variable [DecidableEq ι]

/-- Redirecting the last pointer of a segment to another exit. -/
lemma Segment.exit (h : Segment next prev a l b) (hnodup : l.Nodup) (ha : a ∉ l)
    (hnext : ∀ y ∈ l, next' y = if y = l.getLastD a then c else next y)
    (hprev : ∀ y ∈ l, prev' y = prev y) : Segment next' prev' a l c := by
  induction l generalizing a with
  | nil => trivial
  | cons x l ih =>
    obtain ⟨hp, hn, hl⟩ := h
    obtain ⟨hx, hnodup'⟩ := nodup_cons.mp hnodup
    rw [getLastD_cons] at hnext
    refine ⟨by rw [hprev x (mem_cons_self ..), hp], ?_, ih hl hnodup' hx ?_ ?_⟩
    · rw [hnext x (mem_cons_self ..)]
      cases l with
      | nil => simp
      | cons y l =>
        -- The last element lies in the tail, so it is not `x`.
        have hne : x ≠ (y :: l).getLastD x := by
          rcases getLastD_mem_or (y :: l) x with hmem | ⟨hnil, -⟩
          · exact (ne_of_mem_of_not_mem hmem hx).symm
          · cases hnil
        rw [if_neg hne, hn]
        rfl
    · exact fun y hy => hnext y (mem_cons_of_mem _ hy)
    · exact fun y hy => hprev y (mem_cons_of_mem _ hy)

/-- Redirecting the first back pointer of a segment to another entry. -/
lemma Segment.entry (h : Segment next prev a l b) (hnodup : l.Nodup)
    (hnext : ∀ y ∈ l, next' y = next y)
    (hprev : ∀ y ∈ l, prev' y = if y = l.headD b then c else prev y) :
    Segment next' prev' c l b := by
  cases l with
  | nil => trivial
  | cons x =>
    obtain ⟨-, hn, hl⟩ := h
    have hx := (nodup_cons.mp hnodup).1
    refine ⟨?_, ?_, hl.congr ?_ ?_⟩
    · rw [hprev x (mem_cons_self ..)]
      exact if_pos rfl
    · rw [hnext x (mem_cons_self ..), hn]
    · exact fun y hy => hnext y (mem_cons_of_mem _ hy)
    · intro y hy
      rw [hprev y (mem_cons_of_mem _ hy)]
      exact if_neg (fun hyx : y = x => hx (hyx ▸ hy))

namespace IsList

/-- **Unlinking** `x`: its neighbours point to each other. -/
lemma unlink (h : IsList next prev nil head (l₁ ++ x :: l₂))
    (hnext : ∀ y ∈ l₁ ++ l₂, next' y = if y = prev x then next x else next y)
    (hprev : ∀ y ∈ l₁ ++ l₂, prev' y = if y = next x then prev x else prev y) :
    IsList next' prev' nil (if prev x = nil then next x else head) (l₁ ++ l₂) := by
  have hnodup := h.nodup
  obtain ⟨hleft, hx, hnx, hright⟩ := segment_append.mp h.segment
  obtain ⟨hn₁, hn₂, hdisj⟩ := nodup_append.mp hnodup
  have hn₂' := (nodup_cons.mp hn₂).2
  have hnil₁ : nil ∉ l₁ := fun hm => h.nil_not_mem (mem_append_left _ hm)
  have hnil₂ : nil ∉ l₂ := fun hm =>
    h.nil_not_mem (mem_append_right _ (mem_cons_of_mem _ hm))
  have hdisj' : ∀ y ∈ l₁, y ∉ l₂ := fun y hy hy' => hdisj y hy y (mem_cons_of_mem _ hy') rfl
  refine ⟨?_, ?_, ?_, segment_append.mpr ⟨?_, ?_⟩⟩
  · -- The head changes exactly when the first element leaves.
    by_cases hl : l₁ = []
    · subst hl
      rw [if_pos (h.prev_eq_nil_iff.mpr rfl), h.next_eq]
      rfl
    · rw [if_neg (fun hp => hl (h.prev_eq_nil_iff.mp hp)), h.head_eq]
      cases l₁ with
      | nil => exact absurd rfl hl
      | cons => rfl
  · refine nodup_append.mpr ⟨hn₁, hn₂', fun y hy z hz => ?_⟩
    exact hdisj y hy z (mem_cons_of_mem _ hz)
  · simp [hnil₁, hnil₂]
  · refine hleft.exit hn₁ hnil₁ (fun y hy => ?_) (fun y hy => ?_)
    · rw [hnext y (mem_append_left _ hy), hx, hnx]
    rw [hprev y (mem_append_left _ hy), if_neg]
    rintro rfl
    exact hdisj' _ hy (h.next_mem fun hnil => hnil₁ (hnil ▸ hy))
  · refine hright.entry hn₂' (fun y hy => ?_) (fun y hy => ?_)
    · rw [hnext y (mem_append_right _ hy), if_neg]
      rintro rfl
      exact hdisj' _ (h.prev_mem fun hnil => hnil₂ (hnil ▸ hy)) hy
    · rw [hprev y (mem_append_right _ hy), hnx, hx]

/-- **Linking** `r` in behind `x`. -/
lemma insertAfter (h : IsList next prev nil head (l₁ ++ x :: l₂))
    (hr : r ∉ l₁ ++ x :: l₂) (hrnil : r ≠ nil) (hnextx : next' x = r)
    (hnextr : next' r = next x) (hprevr : prev' r = x)
    (hnext : ∀ y ∈ l₁ ++ l₂, next' y = next y)
    (hprev : ∀ y ∈ l₁ ++ x :: l₂, prev' y = if y = next x then r else prev y) :
    IsList next' prev' nil head (l₁ ++ x :: r :: l₂) := by
  obtain ⟨hleft, hx, hnx, hright⟩ := segment_append.mp h.segment
  obtain ⟨hn₁, hn₂, hdisj⟩ := nodup_append.mp h.nodup
  obtain ⟨hx₂, hn₂'⟩ := nodup_cons.mp hn₂
  have hnil₁ : nil ∉ l₁ ++ [x] := fun hm => h.nil_not_mem (by
    rcases mem_append.mp hm with hm | hm
    · exact mem_append_left _ hm
    · rw [mem_singleton] at hm; simp [hm])
  simp only [mem_append, mem_cons, not_or] at hr
  -- No index up to `x` follows `x`.
  have hne : ∀ y ∈ l₁ ++ [x], y ≠ next x := by
    rintro y hy rfl
    have hmem := h.next_mem fun hnil => hnil₁ (hnil ▸ hy)
    rcases mem_append.mp hy with hy | hy
    · exact hdisj _ hy _ (mem_cons_of_mem _ hmem) rfl
    · exact hx₂ (mem_singleton.mp hy ▸ hmem)
  refine ⟨?_, ?_, ?_, segment_append.mpr
    ⟨hleft.congr (fun y hy => ?_) (fun y hy => ?_), ?_, ?_, ?_, ?_, ?_⟩⟩
  · rw [h.head_eq]; cases l₁ <;> rfl
  · refine nodup_append.mpr ⟨hn₁, nodup_cons.mpr ⟨?_, nodup_cons.mpr ⟨hr.2.2, hn₂'⟩⟩, ?_⟩
    · simpa [hx₂] using Ne.symm hr.2.1
    intro y hy z hz hyz
    subst hyz
    rcases mem_cons.mp hz with rfl | hz
    · exact hdisj y hy y (mem_cons_self ..) rfl
    · rcases mem_cons.mp hz with rfl | hz
      · exact hr.1 hy
      · exact hdisj y hy y (mem_cons_of_mem _ hz) rfl
  · have hnil := h.nil_not_mem
    simp only [mem_append, mem_cons, not_or] at hnil ⊢
    exact ⟨hnil.1, hnil.2.1, hrnil.symm, hnil.2.2⟩
  · exact hnext y (mem_append_left _ hy)
  · rw [hprev y (mem_append_left _ hy), if_neg (hne y (mem_append_left _ hy))]
  · rw [hprev x (by simp), if_neg (hne x (by simp)), hx]
  · exact hnextx
  · exact hprevr
  · rw [hnextr, hnx]
  · refine hright.entry hn₂' (fun y hy => hnext y (mem_append_right _ hy)) (fun y hy => ?_)
    rw [hprev y (by simp [hy]), hnx]

/-- **Pushing** `x` in front. -/
lemma push (h : IsList next prev nil head l) (hx : x ∉ l) (hxnil : x ≠ nil)
    (hnextx : next' x = head) (hprevx : prev' x = nil) (hnext : ∀ y ∈ l, next' y = next y)
    (hprev : ∀ y ∈ l, prev' y = if y = head then x else prev y) :
    IsList next' prev' nil x (x :: l) := by
  refine ⟨rfl, nodup_cons.mpr ⟨hx, h.nodup⟩, ?_, hprevx, ?_, ?_⟩
  · simpa using ⟨hxnil.symm, h.nil_not_mem⟩
  · rw [hnextx, h.head_eq]
  · refine h.segment.entry h.nodup hnext fun y hy => ?_
    rw [hprev y hy, h.head_eq]

end IsList

end rewriting

/-- Consecutive indices linked downwards extend a chain. -/
lemma IsChain.descending {next : ℕ → ℕ} {nil head first : ℕ} {l : List ℕ}
    (h : IsChain next nil head l) (hfirst : next first = head) :
    ∀ n, (∀ i < n, next (first + i + 1) = first + i) →
      IsChain next nil (first + n) ((List.range' first (n + 1)).reverse ++ l) := by
  intro n
  induction n with
  | zero =>
    intro _
    refine ⟨rfl, ?_⟩
    rw [hfirst]
    exact h
  | succ n ih =>
    intro hnext
    rw [List.range'_1_concat, reverse_append]
    refine ⟨rfl, ?_⟩
    rw [← Nat.add_assoc, hnext n (Nat.lt_succ_self n)]
    exact ih fun i hi => hnext i (Nat.lt_succ_of_lt hi)

end DoublyLinked
