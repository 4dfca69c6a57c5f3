import Mathlib.Data.Nat.Basic
import Mathlib.Logic.Function.Basic

/-!
# Open addressing with linear probing

Keys live in numbered slots.  A search follows the probe sequence of its key until it meets the key
or a free slot; an insertion takes the first free slot of the sequence.  Nothing is ever removed,
so a key once found stays where it is.
-/

namespace LinearProbing

open Function

variable {κ : Type*} [DecidableEq κ]

/-- Searches a key from a slot on, over at most `fuel` slots. -/
def probe (keys : ℕ → Option κ) (next : ℕ → ℕ) (key : κ) : ℕ → ℕ → Option ℕ
  | 0, _ => none
  | fuel + 1, slot =>
    match keys slot with
    | none => none
    | some k => if k = key then some slot else probe keys next key fuel (next slot)

/-- The first free slot from a slot on, over at most `fuel` slots. -/
def firstFree (keys : ℕ → Option κ) (next : ℕ → ℕ) : ℕ → ℕ → Option ℕ
  | 0, _ => none
  | fuel + 1, slot =>
    match keys slot with
    | none => some slot
    | some _ => firstFree keys next fuel (next slot)

variable {keys : ℕ → Option κ} {next : ℕ → ℕ}

/-- A search finds only the key it looks for. -/
lemma keys_of_probe {key : κ} {fuel slot found : ℕ}
    (h : probe keys next key fuel slot = some found) : keys found = some key := by
  induction fuel generalizing slot with
  | zero => exact nomatch h
  | succ fuel ih =>
    rw [probe] at h
    split at h
    · exact nomatch h
    next k hk =>
    split_ifs at h with hkey
    · rw [← Option.some.inj h, hk, hkey]
    · exact ih h

omit [DecidableEq κ] in
lemma keys_of_firstFree {fuel slot free : ℕ}
    (h : firstFree keys next fuel slot = some free) : keys free = none := by
  induction fuel generalizing slot with
  | zero => exact nomatch h
  | succ fuel ih =>
    rw [firstFree] at h
    split at h
    · next hk => rw [← Option.some.inj h, hk]
    · exact ih h

/-- Filling a free slot does not move a key that is found. -/
lemma probe_update_of_probe {key other : κ} {fuel slot found free : ℕ}
    (hfree : keys free = none) (h : probe keys next key fuel slot = some found) :
    probe (update keys free (some other)) next key fuel slot = some found := by
  induction fuel generalizing slot with
  | zero => exact nomatch h
  | succ fuel ih =>
    rw [probe] at h ⊢
    split at h
    · exact nomatch h
    next k hk =>
    -- the slots a successful search visits are occupied
    have hne : slot ≠ free := by
      rintro rfl
      rw [hfree] at hk
      exact nomatch hk
    rw [update_of_ne hne, hk]
    dsimp only
    split_ifs at h ⊢
    · exact h
    · exact ih h

/-- A new key is found in the slot it was given. -/
lemma probe_update_of_firstFree {key : κ} {fuel slot free : ℕ}
    (habsent : ∀ s, keys s ≠ some key) (h : firstFree keys next fuel slot = some free) :
    probe (update keys free (some key)) next key fuel slot = some free := by
  induction fuel generalizing slot with
  | zero => exact nomatch h
  | succ fuel ih =>
    rw [firstFree] at h
    rw [probe]
    split at h
    · next hk =>
      rw [← Option.some.inj h, update_self]
      exact if_pos rfl
    next k hk =>
    have hne : slot ≠ free := by
      rintro rfl
      rw [keys_of_firstFree h] at hk
      exact nomatch hk
    rw [update_of_ne hne, hk]
    dsimp only
    have hkey : k ≠ key := by
      rintro rfl
      exact habsent slot hk
    rw [if_neg hkey]
    exact ih h

/-- Every stored key is where its search ends. -/
def Consistent (keys : ℕ → Option κ) (next : ℕ → ℕ) (start : κ → ℕ) (fuel : ℕ) : Prop :=
  ∀ slot key, keys slot = some key → probe keys next key fuel (start key) = some slot

variable {start : κ → ℕ} {fuel : ℕ}

/-- Inserting a key that is not stored keeps every key findable. -/
lemma Consistent.insert (h : Consistent keys next start fuel) {key : κ} {free : ℕ}
    (hnone : probe keys next key fuel (start key) = none)
    (hfree : firstFree keys next fuel (start key) = some free) :
    Consistent (update keys free (some key)) next start fuel := by
  intro slot k hk
  rcases eq_or_ne slot free with rfl | hne
  · rw [update_self] at hk
    rw [← Option.some.inj hk]
    refine probe_update_of_firstFree (fun slot hc => ?_) hfree
    rw [h slot key hc] at hnone
    cases hnone
  · rw [update_of_ne hne] at hk
    exact probe_update_of_probe (keys_of_firstFree hfree) (h slot k hk)

end LinearProbing
