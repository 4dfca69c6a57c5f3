import Mathlib.Data.List.Induction
import Mathlib.Data.List.Nodup
import Mathlib.Order.Basic
import Mathlib.Data.Nat.Basic
import Mathlib.Algebra.GroupWithZero.Nat

/-!
# Items grouped by key in one array

Items with a key are placed one by one into one array, each at the cursor of its key.  When the
cursors start far enough apart, the run of a key holds the values of its items in order
(`run_foldl_place`).
-/

namespace Buckets

open Function List

variable {α : Type*}

/-- The values of the items with a key, in order. -/
def values (items : List (ℕ × α)) (k : ℕ) : List α := (items.filter (·.1 = k)).map (·.2)

structure Slots (α : Type*) where
  array : ℕ → α
  cursor : ℕ → ℕ

def place (s : Slots α) (item : ℕ × α) : Slots α :=
  ⟨Function.update s.array (s.cursor item.1) item.2,
    Function.update s.cursor item.1 (s.cursor item.1 + 1)⟩

def placeBefore (s : Slots α) (item : ℕ × α) : Slots α :=
  ⟨Function.update s.array (s.cursor item.1 - 1) item.2,
    Function.update s.cursor item.1 (s.cursor item.1 - 1)⟩

/-- The sum of the counts before a key. -/
def starts (count : ℕ → ℕ) : ℕ → ℕ
  | 0 => 0
  | k + 1 => starts count k + count k

variable {k n : ℕ} {items : List (ℕ × α)} {count : ℕ → ℕ}

lemma starts_add_le (count : ℕ → ℕ) {j : ℕ} (h : j < k) :
    starts count j + count j ≤ starts count k := by
  induction k with
  | zero => omega
  | succ =>
    rw [starts]
    rcases Nat.lt_or_eq_of_le (Nat.le_of_lt_succ h) with hlt | rfl
    · omega
    · exact le_rfl

lemma values_concat (items : List (ℕ × α)) (item : ℕ × α) (k : ℕ) :
    values (items ++ [item]) k = values items k ++ if item.1 = k then [item.2] else [] := by
  unfold values
  rw [filter_append, map_append]
  by_cases h : item.1 = k <;> simp [h]

@[simp] lemma mem_values {a : α} : a ∈ values items k ↔ (k, a) ∈ items := by
  unfold values
  rw [mem_map]
  constructor
  · rintro ⟨⟨j, b⟩, hmem, rfl⟩
    obtain ⟨hin, hkey⟩ := mem_filter.mp hmem
    rwa [← show j = k from of_decide_eq_true hkey]
  · intro h
    exact ⟨(k, a), mem_filter.mpr ⟨h, decide_eq_true rfl⟩, rfl⟩

lemma nodup_values (h : items.Nodup) (k : ℕ) : (values items k).Nodup := by
  apply List.Nodup.map_on _ (h.filter _)
  rintro ⟨i, a⟩ hx ⟨j, b⟩ hy (rfl : a = b)
  have hi : i = k := of_decide_eq_true (mem_filter.mp hx).2
  have hj : j = k := of_decide_eq_true (mem_filter.mp hy).2
  rw [hi, hj]

lemma length_values_concat (items : List (ℕ × α)) (item : ℕ × α) :
    (fun k => (values (items ++ [item]) k).length) =
      update (fun k => (values items k).length) item.1 ((values items item.1).length + 1) := by
  funext k
  rw [values_concat, length_append]
  by_cases hk : item.1 = k
  · rw [hk, if_pos rfl, update_self]
    rfl
  · rw [if_neg hk, update_of_ne (Ne.symm hk)]
    rfl

lemma starts_le_mul {m : ℕ} (h : ∀ k, count k ≤ m) (n : ℕ) : starts count n ≤ n * m := by
  induction n with
  | zero => exact Nat.zero_le _
  | succ n ih =>
    rw [starts, Nat.succ_mul]
    exact Nat.add_le_add ih (h n)

lemma values_map {β : Type*} (f : α → β) (items : List (ℕ × α)) (k : ℕ) :
    values (items.map fun e => (e.1, f e.2)) k = (values items k).map f := by
  unfold values
  rw [filter_map, map_map, map_map]
  rfl

lemma starts_congr {count' : ℕ → ℕ} (h : ∀ k < n, count k = count' k) :
    starts count n = starts count' n := by
  induction n with
  | zero => rfl
  | succ n ih =>
    rw [starts, starts, ih fun k hk => h k (Nat.lt_succ_of_lt hk), h n (Nat.lt_succ_self n)]

lemma starts_update_succ (count : ℕ → ℕ) (h : k < n) :
    starts (update count k (count k + 1)) n = starts count n + 1 := by
  induction n with
  | zero => omega
  | succ n ih =>
    rw [starts, starts]
    rcases Nat.lt_or_eq_of_le (Nat.le_of_lt_succ h) with hlt | rfl
    · rw [ih hlt, update_of_ne (by omega)]
      omega
    have hbefore : starts (update count k (count k + 1)) k = starts count k :=
      starts_congr fun j hj => update_of_ne (by omega) ..
    rw [hbefore, update_self]
    rfl

/-- The runs of all keys hold all items. -/
lemma starts_length_values (h : ∀ e ∈ items, e.1 < n) :
    starts (fun k => (values items k).length) n = items.length := by
  induction items using List.reverseRecOn with
  | nil =>
    clear h
    induction n with
    | zero => rfl
    | succ n ih => exact ih
  | append_singleton items item ih =>
    rw [length_values_concat, length_append,
      starts_update_succ (fun k => (values items k).length) (h item (by simp)),
      ih fun e he => h e (by simp [he])]
    rfl

lemma length_values_append_le (items rest : List (ℕ × α)) (k : ℕ) :
    (values items k).length ≤ (values (items ++ rest) k).length := by
  unfold values
  rw [filter_append, map_append, length_append]
  exact Nat.le_add_right _ _

/-- After a part of the items each cursor is behind the values placed so far. -/
lemma foldl_place {s : Slots α} (hcursor : ∀ k, s.cursor k = starts count k)
    (hfits : ∀ k, (values items k).length ≤ count k) :
    (∀ k, (items.foldl place s).cursor k = starts count k + (values items k).length) ∧
      ∀ k i a, (values items k)[i]? = some a →
        (items.foldl place s).array (starts count k + i) = a := by
  induction items using List.reverseRecOn with
  | nil =>
    refine ⟨hcursor, ?_⟩
    intro k i a h
    cases h
  | append_singleton items item ih =>
    obtain ⟨hcur, harr⟩ := ih fun k => (length_values_append_le items [item] k).trans (hfits k)
    rw [foldl_append, foldl_cons, foldl_nil]
    constructor
    · intro k
      rw [values_concat, length_append]
      by_cases hk : item.1 = k
      · subst hk
        rw [show (place _ item).cursor item.1 = _ from update_self .., hcur, if_pos rfl]
        rfl
      · rw [show (place _ item).cursor k = _ from update_of_ne (Ne.symm hk) .., hcur, if_neg hk]
        rfl
    · intro k i a h
      have hroom := hfits k
      have hroom' := hfits item.1
      rw [values_concat, length_append] at hroom hroom'
      rw [if_pos rfl, length_singleton] at hroom'
      rw [values_concat] at h
      show update (items.foldl place s).array ((items.foldl place s).cursor item.1) item.2
        (starts count k + i) = a
      by_cases hlt : i < (values items k).length
      · rw [List.getElem?_append_left hlt] at h
        rw [update_of_ne, harr k i a h]
        -- the item goes to the end of its own run
        rw [hcur]
        rcases lt_trichotomy k item.1 with hk | rfl | hk
        · have := starts_add_le count hk
          omega
        · omega
        · have := starts_add_le count hk
          omega
      · rw [List.getElem?_append_right (not_lt.mp hlt)] at h
        by_cases hk : item.1 = k
        · subst hk
          rw [if_pos rfl] at h
          have hi : i - (values items item.1).length = 0 := by
            by_contra hne
            rw [List.getElem?_eq_none (by simp; omega)] at h
            cases h
          rw [hi] at h
          cases h
          rw [hcur, show starts count item.1 + i =
            starts count item.1 + (values items item.1).length by
            omega, update_self]
        · rw [if_neg hk] at h
          cases h

/-- The run of a key holds the values of its items. -/
theorem run_foldl_place {s : Slots α} (hcursor : ∀ k, s.cursor k = starts count k)
    (hcount : ∀ k, count k = (values items k).length) (k : ℕ) :
    ((List.range (count k)).map fun i => (items.foldl place s).array (starts count k + i)) =
      values items k := by
  obtain ⟨-, harr⟩ := foldl_place hcursor fun k => (hcount k).ge
  apply ext_getElem?
  intro i
  rw [List.getElem?_map]
  by_cases hi : i < count k
  · rw [List.getElem?_range hi, Option.map_some,
      List.getElem?_eq_getElem (by rw [← hcount k]; exact hi), Option.some.injEq]
    apply harr
    exact List.getElem?_eq_getElem _
  · rw [List.getElem?_eq_none (by rw [length_range]; omega),
      List.getElem?_eq_none (by rw [← hcount k]; omega)]
    rfl

lemma values_cons (item : ℕ × α) (items : List (ℕ × α)) (k : ℕ) :
    values (item :: items) k = if item.1 = k then item.2 :: values items k else values items k := by
  unfold values
  by_cases h : item.1 = k <;> simp [h]

/-- Items placed from the last to the first, each before the cursor of its key: the run that ends
where the cursor stood holds the values of the key in order. -/
lemma foldr_placeBefore (items : List (ℕ × α)) (s : Slots α)
    (hroom : ∀ k, (values items k).length ≤ s.cursor k)
    (hapart : ∀ j k, j < k → s.cursor j + (values items k).length ≤ s.cursor k) (k : ℕ) :
    (items.foldr (fun item s => placeBefore s item) s).cursor k + (values items k).length =
      s.cursor k ∧
    ∀ i < (values items k).length, (values items k)[i]? =
      some ((items.foldr (fun item s => placeBefore s item) s).array
        ((items.foldr (fun item s => placeBefore s item) s).cursor k + i)) := by
  induction items generalizing k with
  | nil => exact ⟨rfl, fun i hi => absurd hi (Nat.not_lt_zero i)⟩
  | cons item items ih =>
    have hle : ∀ k, (values items k).length ≤ (values (item :: items) k).length := by
      intro k
      rw [values_cons]
      split_ifs
      · exact Nat.le_succ _
      · exact le_rfl
    have ih := ih (fun k => (hle k).trans (hroom k))
      fun j k hjk => (Nat.add_le_add_left (hle k) _).trans (hapart j k hjk)
    rw [foldr_cons]
    generalize items.foldr (fun item s => placeBefore s item) s = s' at ih ⊢
    have hkey := ih item.1
    have hlen : (values (item :: items) item.1).length = (values items item.1).length + 1 := by
      rw [values_cons, if_pos rfl]
      rfl
    have hitem := hroom item.1
    by_cases hk : item.1 = k
    · subst hk
      rw [values_cons, if_pos rfl]
      simp only [placeBefore, update_self, length_cons]
      refine ⟨by omega, fun i hi => ?_⟩
      cases i with
      | zero => simp
      | succ i =>
        rw [List.getElem?_cons_succ, hkey.2 i (by omega), update_of_ne (by omega)]
        congr 2
        omega
    · have hother := ih k
      have hroomk := hroom k
      rw [values_cons, if_neg hk] at hroomk ⊢
      simp only [placeBefore, update_of_ne (Ne.symm hk)]
      refine ⟨hother.1, fun i hi => ?_⟩
      -- the written slot lies outside the run of another key
      have hne : s'.cursor k + i ≠ s'.cursor item.1 - 1 := by
        rcases Nat.lt_or_gt_of_ne hk with hlt | hgt
        · have := hapart item.1 k hlt
          rw [values_cons, if_neg hk] at this
          omega
        · have := hapart k item.1 hgt
          omega
      rw [update_of_ne hne]
      exact hother.2 i hi

end Buckets
