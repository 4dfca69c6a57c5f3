import Mathlib.Data.List.Nodup
import Mathlib.Data.Nat.ModEq

/-!
# Circular queues

A queue in a ring of slots.  Its entries stand in the slots from the head on, around the end of the
ring; the next entry goes into the slot after the last of them.
-/

namespace CircularQueue

open List

variable {α : Type*} {capacity : ℕ} {slots : ℕ → α} {head count : ℕ}

def next (capacity slot : ℕ) : ℕ := if slot + 1 = capacity then 0 else slot + 1

/-- The entries of a queue, the oldest first. -/
def entries (capacity : ℕ) (slots : ℕ → α) (head count : ℕ) : List α :=
  (List.range count).map fun i => slots ((head + i) % capacity)

@[simp]
lemma length_entries : (entries capacity slots head count).length = count := by
  simp [entries]

lemma next_eq_mod {slot : ℕ} (h : slot < capacity) :
    next capacity slot = (slot + 1) % capacity := by
  unfold next
  split_ifs with hend
  · rw [hend, Nat.mod_self]
  · rw [Nat.mod_eq_of_lt (by omega)]

/-- The oldest entry leaves. -/
lemma entries_succ (h : head < capacity) :
    entries capacity slots head (count + 1) =
      slots head :: entries capacity slots (next capacity head) count := by
  rw [entries, range_succ_eq_map, map_cons, map_map, Nat.add_zero,
    Nat.mod_eq_of_lt h, entries, next_eq_mod h]
  congr 1
  apply map_congr_left
  intro i _
  rw [Nat.mod_add_mod, Function.comp_apply]
  congr 2
  omega

/-- A new entry goes behind the others. -/
lemma entries_update (h : count < capacity) (x : α) :
    entries capacity (Function.update slots ((head + count) % capacity) x) head (count + 1) =
      entries capacity slots head count ++ [x] := by
  rw [entries, range_succ, map_append, map_singleton, Function.update_self, entries]
  congr 1
  apply map_congr_left
  intro i hi
  apply Function.update_of_ne
  intro heq
  -- less than one turn lies between the two slots
  have hi := mem_range.mp hi
  have hmod : i ≡ count [MOD capacity] := Nat.ModEq.add_left_cancel' head heq
  exact hi.ne (hmod.eq_of_lt_of_lt (hi.trans h) h)

end CircularQueue
