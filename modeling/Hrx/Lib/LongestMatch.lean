import Mathlib.Data.List.Basic

/-!
# Greedy longest match

A word is cut from the left, each time after the longest nonempty beginning that has a match
(`longest_eq_some`).  The first piece may be matched by other rules than the later ones.
-/

namespace LongestMatch

open List

variable {α β : Type*}

/-- The longest beginning of at most so many letters, with its match. -/
def longestUpTo (find : List α → Option β) (word : List α) : ℕ → Option (ℕ × β)
  | 0 => none
  | n + 1 =>
    match find (word.take (n + 1)) with
    | some b => some (n + 1, b)
    | none => longestUpTo find word n

/-- The longest nonempty beginning of a word, by its length, with its match. -/
def longest (find : List α → Option β) (word : List α) : Option (ℕ × β) :=
  longestUpTo find word word.length

/-- The pieces of a word with their matches; `none` if a rest has no match.  Every piece takes a
letter, so the length of the word is fuel enough. -/
def cut (first later : List α → Option β) : ℕ → List α → Option (List (List α × β))
  | _, [] => some []
  | 0, _ :: _ => none
  | fuel + 1, a :: word =>
    match longest first (a :: word) with
    | none => none
    | some (n, b) =>
      (cut later later fuel ((a :: word).drop n)).map (((a :: word).take n, b) :: ·)

def greedy (first later : List α → Option β) (word : List α) : Option (List (List α × β)) :=
  cut first later word.length word

variable {find first later : List α → Option β} {word : List α}

lemma longestUpTo_eq_some {n m : ℕ} {b : β} (h : longestUpTo find word n = some (m, b)) :
    0 < m ∧ m ≤ n ∧ find (word.take m) = some b ∧ ∀ k, m < k → k ≤ n →
      find (word.take k) = none := by
  induction n with
  | zero => cases h
  | succ n ih =>
    rw [longestUpTo] at h
    cases hfind : find (word.take (n + 1)) with
    | some =>
      rw [hfind] at h
      cases h
      exact ⟨Nat.succ_pos n, Nat.le_refl _, hfind, fun k hk hle => by omega⟩
    | none =>
      rw [hfind] at h
      obtain ⟨hpos, hle, hm, hmax⟩ := ih h
      refine ⟨hpos, Nat.le_succ_of_le hle, hm, fun k hk hkn => ?_⟩
      rcases Nat.lt_or_eq_of_le hkn with hlt | rfl
      · exact hmax k hk (Nat.le_of_lt_succ hlt)
      · exact hfind

/-- The match is the one of a beginning such that no longer one has a match. -/
theorem longest_eq_some {m : ℕ} {b : β} (h : longest find word = some (m, b)) :
    0 < m ∧ m ≤ word.length ∧ find (word.take m) = some b ∧
      ∀ k, m < k → k ≤ word.length → find (word.take k) = none :=
  longestUpTo_eq_some h

lemma cut_of_length_le {fuel : ℕ} (h : word.length ≤ fuel) :
    cut first later fuel word = greedy first later word := by
  suffices hind : ∀ n fuel (word : List α) (first : List α → Option β), word.length ≤ n → n ≤ fuel →
      cut first later fuel word = cut first later n word from hind _ _ _ _ (Nat.le_refl _) h
  intro n
  induction n with
  | zero =>
    intro fuel word first hlen _
    rw [eq_nil_of_length_eq_zero (Nat.le_zero.mp hlen), cut, cut]
  | succ n ih =>
    intro fuel word first hlen hfuel
    obtain ⟨fuel, rfl⟩ : ∃ k, fuel = k + 1 := ⟨fuel - 1, by omega⟩
    cases word with
    | nil => rw [cut, cut]
    | cons a word =>
      rw [cut, cut]
      cases hlongest : longest first (a :: word) with
      | none => rfl
      | some found =>
        obtain ⟨m, b⟩ := found
        obtain ⟨hpos, -⟩ := longest_eq_some hlongest
        dsimp only
        rw [ih fuel _ later _ (by omega)]
        rw [length_drop]
        omega

lemma greedy_of_ne_nil (h : word ≠ []) :
    greedy first later word =
      match longest first word with
      | none => none
      | some (n, b) => (greedy later later (word.drop n)).map ((word.take n, b) :: ·) := by
  cases word with
  | nil => exact absurd rfl h
  | cons a word =>
    rw [greedy, length_cons, cut]
    cases hlongest : longest first (a :: word) with
    | none => rfl
    | some found =>
      obtain ⟨m, b⟩ := found
      obtain ⟨hpos, -⟩ := longest_eq_some hlongest
      dsimp only
      rw [cut_of_length_le]
      rw [length_drop, length_cons]
      omega

/-- The pieces are nonempty and make up the word. -/
lemma flatten_greedy {pieces : List (List α × β)} (h : greedy first later word = some pieces) :
    (pieces.map (·.1)).flatten = word ∧ ∀ p ∈ pieces, p.1 ≠ [] := by
  induction hn : word.length using Nat.strongRecOn generalizing word pieces first with
  | ind n ih =>
    by_cases hnil : word = []
    · subst hnil
      cases h
      exact ⟨rfl, fun p hp => by cases hp⟩
    rw [greedy_of_ne_nil hnil] at h
    cases hlongest : longest first word with
    | none =>
      rw [hlongest] at h
      cases h
    | some found =>
      obtain ⟨m, b⟩ := found
      obtain ⟨hpos, hle, -⟩ := longest_eq_some hlongest
      rw [hlongest] at h
      obtain ⟨rest, hrest, rfl⟩ := Option.map_eq_some_iff.mp h
      obtain ⟨hjoin, hne⟩ := ih _ (by rw [length_drop]; omega) hrest rfl
      constructor
      · rw [map_cons, flatten_cons, hjoin, take_append_drop]
      intro p hp
      rcases mem_cons.mp hp with rfl | hp
      · intro htake
        have := congrArg List.length htake
        rw [length_take_of_le hle, length_nil] at this
        omega
      · exact hne p hp

/-- A word has at most as many pieces as letters. -/
lemma length_greedy_le {pieces : List (List α × β)} (h : greedy first later word = some pieces) :
    pieces.length ≤ word.length := by
  obtain ⟨rfl, hne⟩ := flatten_greedy h
  clear h
  induction pieces with
  | nil => exact Nat.le_refl _
  | cons p pieces ih =>
    have hp := length_pos_iff.mpr (hne p mem_cons_self)
    have := ih fun q hq => hne q (mem_cons_of_mem _ hq)
    rw [map_cons, flatten_cons, length_append, length_cons]
    omega

end LongestMatch
