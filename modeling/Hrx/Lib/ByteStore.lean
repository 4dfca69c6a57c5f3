import Mathlib.Data.List.Basic
import Mathlib.Data.Nat.Basic
import Mathlib.Algebra.Group.Nat.Defs

/-!
# Byte stores and ring addresses

A byte store is a function of the offset.  Words of four bytes are stored with the least byte first.
A ring of `n` bytes is addressed by positions that only grow: position `p` is the byte `p % n`, and
two positions less than `n` apart are different bytes.
-/

namespace ByteStore

def slice (data : ℕ → UInt8) (offset length : ℕ) : List UInt8 :=
  (List.range length).map fun i => data (offset + i)

def fill (data : ℕ → UInt8) (offset length : ℕ) (byte : UInt8) : ℕ → UInt8 :=
  fun i => if offset ≤ i ∧ i < offset + length then byte else data i

/-- The bytes of a range, written to another; the ranges may overlap. -/
def move (data : ℕ → UInt8) (target source length : ℕ) : ℕ → UInt8 :=
  fun i => if target ≤ i ∧ i < target + length then data (source + (i - target)) else data i

/-- The number in so many bytes at an offset. -/
def load (data : ℕ → UInt8) (offset : ℕ) : ℕ → ℕ
  | 0 => 0
  | size + 1 => (data offset).toNat + 256 * load data (offset + 1) size

def load32 (data : ℕ → UInt8) (offset : ℕ) : ℕ :=
  (data offset).toNat + 256 * ((data (offset + 1)).toNat + 256 * ((data (offset + 2)).toNat +
    256 * (data (offset + 3)).toNat))

def store32 (data : ℕ → UInt8) (offset value : ℕ) : ℕ → UInt8 :=
  fun i => if offset ≤ i ∧ i < offset + 4 then UInt8.ofNat (value / 256 ^ (i - offset)) else data i

variable {data data' : ℕ → UInt8} {offset length value i : ℕ}

@[simp] lemma length_slice : (slice data offset length).length = length := by simp [slice]

lemma slice_congr (h : ∀ i, offset ≤ i → i < offset + length → data' i = data i) :
    slice data' offset length = slice data offset length := by
  apply List.map_congr_left
  intro i hi
  exact h _ (Nat.le_add_right _ _) (Nat.add_lt_add_left (List.mem_range.mp hi) _)

lemma getElem?_slice (h : i < length) : (slice data offset length)[i]? =
    some (data (offset + i)) := by
  simp [slice, h]

lemma slice_eq_iff {bytes : List UInt8} (h : bytes.length = length) :
    slice data offset length = bytes ↔ ∀ i < length, bytes[i]? = some (data (offset + i)) := by
  constructor
  · rintro rfl i hi
    exact getElem?_slice hi
  intro hbytes
  apply List.ext_getElem?
  intro i
  rcases Nat.lt_or_ge i length with hi | hi
  · rw [hbytes i hi, getElem?_slice hi]
  · rw [List.getElem?_eq_none (by rwa [length_slice]), List.getElem?_eq_none (by rwa [h])]

/-- Storing a byte of a range sets it in the range's bytes. -/
lemma slice_update (byte : UInt8) :
    slice (Function.update data (offset + i) byte) offset length =
      (slice data offset length).set i byte := by
  apply (slice_eq_iff (by rw [List.length_set, length_slice])).mpr
  intro k hk
  rw [List.getElem?_set]
  split_ifs with hik hin
  · rw [← hik, Function.update_self]
  · rw [length_slice] at hin
    omega
  · rw [getElem?_slice hk, Function.update_of_ne (by omega)]

lemma load32_congr (h : ∀ i, offset ≤ i → i < offset + 4 → data' i = data i) :
    load32 data' offset = load32 data offset := by
  unfold load32
  rw [h offset (by omega) (by omega), h (offset + 1) (by omega) (by omega),
    h (offset + 2) (by omega) (by omega), h (offset + 3) (by omega) (by omega)]

lemma store32_of_not_mem (h : i < offset ∨ offset + 4 ≤ i) :
    store32 data offset value i = data i := if_neg (by omega)

lemma fill_of_not_mem {byte : UInt8} (h : i < offset ∨ offset + length ≤ i) :
    fill data offset length byte i = data i := if_neg (by omega)

lemma move_of_mem {target source : ℕ} (h : i < length) :
    move data target source length (target + i) = data (source + i) := by
  rw [move, if_pos ⟨by omega, by omega⟩, Nat.add_sub_cancel_left]

lemma load_congr {offset' size : ℕ} (h : ∀ k < size, data' (offset' + k) = data (offset + k)) :
    load data' offset' size = load data offset size := by
  induction size generalizing offset offset' with
  | zero => rfl
  | succ size ih =>
    have hrest : load data' (offset' + 1) size = load data (offset + 1) size := by
      apply ih
      intro k hk
      have hnext := h (k + 1) (by omega)
      rwa [Nat.add_comm k 1, ← Nat.add_assoc, ← Nat.add_assoc] at hnext
    have hfirst := h 0 (by omega)
    rw [Nat.add_zero, Nat.add_zero] at hfirst
    rw [load, load, hrest, hfirst]

/-- A word that was stored is loaded again. -/
lemma load32_store32 (h : value < 2 ^ 32) : load32 (store32 data offset value) offset = value := by
  have hbyte : ∀ k < 4, (store32 data offset value (offset + k)).toNat = value / 256 ^ k % 256 := by
    intro k hk
    rw [store32, if_pos (by omega), Nat.add_sub_cancel_left, UInt8.toNat_ofNat']
  have h0 := hbyte 0 (by omega)
  have h1 := hbyte 1 (by omega)
  have h2 := hbyte 2 (by omega)
  have h3 := hbyte 3 (by omega)
  simp only [Nat.add_zero] at h0
  rw [load32, h0, h1, h2, h3]
  omega

/-! ### Ring addresses -/

variable {n p q : ℕ}

/-- A range that does not reach the end of the ring is contiguous. -/
lemma add_mod_of_fits (h : p % n + i < n) : (p + i) % n = p % n + i := by
  rw [Nat.add_mod, Nat.mod_eq_of_lt (a := i) (by omega), Nat.mod_eq_of_lt h]

/-- Two positions less than a ring apart are different bytes. -/
lemma mod_ne_of_lt (hlt : p < q) (hnear : q < p + n) : q % n ≠ p % n := by
  intro h
  have hdvd : n ∣ q - p := Nat.dvd_of_mod_eq_zero (Nat.sub_mod_eq_zero_of_mod_eq h)
  have hle := Nat.le_of_dvd (by omega) hdvd
  omega

/-- The position after the rest of the ring is the start of the ring. -/
lemma add_sub_mod (hn : 0 < n) : (p + (n - p % n)) % n = 0 := by
  have hlt := Nat.mod_lt p hn
  have hdiv := Nat.div_add_mod p n
  have heq : p + (n - p % n) = n * (p / n + 1) := by
    rw [Nat.mul_add, Nat.mul_one]
    omega
  rw [heq, Nat.mul_mod_right]

/-- A contiguous range of a window of one ring is apart from the window's other positions. -/
lemma not_mem_of_apart {lo size : ℕ} (hp : lo ≤ p) (hp' : p < lo + n) (hq : lo ≤ q)
    (hq' : q + size ≤ lo + n) (hfits : q % n + size ≤ n) (hapart : p < q ∨ q + size ≤ p) :
    p % n < q % n ∨ q % n + size ≤ p % n := by
  by_contra hc
  obtain ⟨k, hk⟩ : ∃ k, p % n = q % n + k := ⟨p % n - q % n, by omega⟩
  have heq : (q + k) % n = p % n := (add_mod_of_fits (by omega)).trans hk.symm
  rcases hapart with hlt | hge
  · exact mod_ne_of_lt (by omega) (by omega) heq
  · exact mod_ne_of_lt (by omega) (by omega) heq.symm

end ByteStore
