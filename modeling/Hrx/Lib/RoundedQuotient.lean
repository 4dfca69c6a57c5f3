import Mathlib.Algebra.Order.Ring.Int
import Mathlib.Tactic.Ring

/-!
# Rounded quotients

The quotient of an integer by a positive one, rounded down, up or toward zero, as a relation that
bounds the dividend.  When the quotient and the divisor are only known up to intervals, the least
and the greatest dividend are taken at ends that depend on the sign of the quotient's end.
-/

namespace RoundedQuotient

variable {n d q a b lo hi : ℤ}

/-- `q` is `n / d` rounded down. -/
def Floors (n d q : ℤ) : Prop := q * d ≤ n ∧ n < q * d + d

/-- `q` is `n / d` rounded up. -/
def Ceils (n d q : ℤ) : Prop := q * d - d < n ∧ n ≤ q * d

/-- `q` is `n / d` rounded toward zero. -/
def Truncates (n d q : ℤ) : Prop := (0 ≤ n → Floors n d q) ∧ (n ≤ 0 → Ceils n d q)

/-! ### Existence -/

lemma floors_ediv (hd : 0 < d) : Floors n d (n / d) :=
  ⟨Int.ediv_mul_le n hd.ne', by
    have h := Int.lt_ediv_add_one_mul_self n hd
    rwa [Int.add_mul, Int.one_mul] at h⟩

lemma Ceils.neg (h : Ceils (-n) d q) : Floors n d (-q) := by
  obtain ⟨hlt, hle⟩ := h
  unfold Floors
  rw [Int.neg_mul]
  omega

/-- Division of natural numbers, with one more for a remainder. -/
lemma ceils_natDiv {n d : ℕ} (hd : 0 < d) :
    Ceils n d ((n / d + if n % d ≠ 0 then 1 else 0 : ℕ)) := by
  have hmod := Nat.div_add_mod n d
  have hlt := Nat.mod_lt n hd
  have hcast : ((n / d : ℕ) : ℤ) * d = ((d * (n / d) : ℕ) : ℤ) := by
    rw [Nat.mul_comm]
    exact (Int.natCast_mul _ _).symm
  unfold Ceils
  split_ifs with h
  · rw [Int.natCast_add, Int.add_mul, hcast]
    omega
  · rw [Nat.add_zero, hcast]
    omega

/-! ### Bounds of the quotient -/

/-- Every rounding is within one of the quotient. -/
def Near (n d q : ℤ) : Prop := (q - 1) * d < n ∧ n < (q + 1) * d

lemma Floors.near (h : Floors n d q) : Near n d q := by
  obtain ⟨hle, hlt⟩ := h
  unfold Near
  rw [Int.sub_mul, Int.add_mul, Int.one_mul]
  omega

lemma Ceils.near (h : Ceils n d q) : Near n d q := by
  obtain ⟨hlt, hle⟩ := h
  unfold Near
  rw [Int.sub_mul, Int.add_mul, Int.one_mul]
  omega

lemma Truncates.near (h : Truncates n d q) : Near n d q := by
  rcases Int.le_total 0 n with hn | hn
  · exact (h.1 hn).near
  · exact (h.2 hn).near

lemma Near.eq_of_one (h : Near n 1 q) : q = n := by
  obtain ⟨hlt, hgt⟩ := h
  omega

/-- A divisor above one halves the quotient. -/
lemma Near.half (h : Near n d q) (hd : 2 ≤ d) :
    (q ≤ 0 ∨ 2 * q ≤ n + 1) ∧ (0 ≤ q ∨ n - 1 ≤ 2 * q) := by
  obtain ⟨hlt, hgt⟩ := h
  constructor
  · by_contra hcon
    have hmul : (q - 1) * 2 ≤ (q - 1) * d := Int.mul_le_mul_of_nonneg_left hd (by omega)
    omega
  · by_contra hcon
    have hmul : (q + 1) * d ≤ (q + 1) * 2 := mul_le_mul_of_nonpos_left hd (by omega)
    omega

/-! ### Bounds of the dividend -/

lemma mul_le_of_nonpos (hlo : lo ≤ q) (h0 : lo ≤ 0) (hb : d ≤ b) (hd : 0 ≤ d) : lo * b ≤ q * d :=
  (mul_le_mul_of_nonpos_left hb h0).trans (mul_le_mul_of_nonneg_right hlo hd)

lemma mul_le_of_nonneg (hlo : lo ≤ q) (h0 : 0 ≤ lo) (ha : a ≤ d) (hd : 0 ≤ d) : lo * a ≤ q * d :=
  (mul_le_mul_of_nonneg_left ha h0).trans (mul_le_mul_of_nonneg_right hlo hd)

lemma le_mul_of_nonpos (hhi : q ≤ hi) (h0 : hi ≤ 0) (ha : a ≤ d) (hd : 0 ≤ d) : q * d ≤ hi * a :=
  (mul_le_mul_of_nonneg_right hhi hd).trans (mul_le_mul_of_nonpos_left ha h0)

lemma le_mul_of_nonneg (hhi : q ≤ hi) (h0 : 0 ≤ hi) (hb : d ≤ b) (hd : 0 ≤ d) : q * d ≤ hi * b :=
  (mul_le_mul_of_nonneg_right hhi hd).trans (mul_le_mul_of_nonneg_left hb h0)

lemma Floors.ge (h : Floors n d q) (hlo : lo ≤ q) (ha : a ≤ d) (hb : d ≤ b) (hd : 0 ≤ d) :
    lo * (if lo ≤ 0 then b else a) ≤ n := by
  split_ifs with h0
  · exact (mul_le_of_nonpos hlo h0 hb hd).trans h.1
  · exact (mul_le_of_nonneg hlo (by omega) ha hd).trans h.1

lemma Ceils.le (h : Ceils n d q) (hhi : q ≤ hi) (ha : a ≤ d) (hb : d ≤ b) (hd : 0 ≤ d) :
    n ≤ hi * (if hi < 0 then a else b) := by
  split_ifs with h0
  · exact h.2.trans (le_mul_of_nonpos hhi h0.le ha hd)
  · exact h.2.trans (le_mul_of_nonneg hhi (by omega) hb hd)

/-- The end is chosen as for the product below, whose sign is the same or zero. -/
lemma Ceils.ge (h : Ceils n d q) (hlo : lo ≤ q) (ha : a ≤ d) (hb : d ≤ b) (hd : 0 ≤ d) :
    lo * (if lo ≤ 0 then b else a) - ((if lo ≤ 0 then b else a) - 1) ≤ n := by
  have hlt := h.1
  have hpred : ∀ x, (lo - 1) * x ≤ (q - 1) * d → lo * x - (x - 1) ≤ n := by
    intro x hx
    rw [Int.sub_mul, Int.sub_mul, Int.one_mul, Int.one_mul] at hx
    omega
  split_ifs with h0
  · exact hpred b (mul_le_of_nonpos (by omega) (by omega) hb hd)
  · exact hpred a (mul_le_of_nonneg (by omega) (by omega) ha hd)

lemma Floors.le (h : Floors n d q) (hhi : q ≤ hi) (ha : a ≤ d) (hb : d ≤ b) (hd : 0 ≤ d) :
    n ≤ hi * (if hi < 0 then a else b) + ((if hi < 0 then a else b) - 1) := by
  have hlt := h.2
  have hsucc : ∀ x, (q + 1) * d ≤ (hi + 1) * x → n ≤ hi * x + (x - 1) := by
    intro x hx
    rw [Int.add_mul, Int.add_mul, Int.one_mul, Int.one_mul] at hx
    omega
  split_ifs with h0
  · exact hsucc a (le_mul_of_nonpos (by omega) (by omega) ha hd)
  · exact hsucc b (le_mul_of_nonneg (by omega) (by omega) hb hd)

/-- A positive truncated quotient is that of a positive dividend. -/
lemma Truncates.pos (h : Truncates n d q) (hd : 0 < d) (hq : 0 < q) : 0 < n := by
  by_contra hn
  have hlt := (h.2 (by omega)).1
  have hmul : 1 * d ≤ q * d := Int.mul_le_mul_of_nonneg_right hq hd.le
  omega

lemma Truncates.neg_of_neg (h : Truncates n d q) (hd : 0 < d) (hq : q < 0) : n < 0 := by
  by_contra hn
  have hlt := (h.1 (by omega)).2
  have hmul : q * d ≤ -1 * d := Int.mul_le_mul_of_nonneg_right (by omega) hd.le
  omega

/-- Rounded up, except that a positive end excludes the dividends below the product. -/
lemma Truncates.ge (h : Truncates n d q) (hlo : lo ≤ q) (ha : a ≤ d) (hb : d ≤ b) (hd : 0 < d) :
    (if lo ≤ 0 then lo * b - (b - 1) else lo * a) ≤ n := by
  split_ifs with h0
  · rcases Int.le_total n 0 with hn | hn
    · have hge := (h.2 hn).ge hlo ha hb hd.le
      rwa [if_pos h0] at hge
    · have hmul : lo * b ≤ 0 := Int.mul_nonpos_of_nonpos_of_nonneg h0 (by omega)
      omega
  · have hn := h.pos hd (by omega)
    have hge := (h.1 hn.le).ge hlo ha hb hd.le
    rwa [if_neg h0] at hge

lemma Truncates.le (h : Truncates n d q) (hhi : q ≤ hi) (ha : a ≤ d) (hb : d ≤ b) (hd : 0 < d) :
    n ≤ if hi < 0 then hi * a else hi * b + (b - 1) := by
  split_ifs with h0
  · have hn := h.neg_of_neg hd (by omega)
    have hle := (h.2 hn.le).le hhi ha hb hd.le
    rwa [if_pos h0] at hle
  · rcases Int.le_total 0 n with hn | hn
    · have hle := (h.1 hn).le hhi ha hb hd.le
      rwa [if_neg h0] at hle
    · have hmul : 0 ≤ hi * b := Int.mul_nonneg (by omega) (by omega)
      omega

end RoundedQuotient
