import Hrx.Lib.TwosComplement

/-!
# Loops over a machine word

A loop adds a step to a word of width `w` as long as a comparison of the word with a bound holds.
The comparison may be signed, inclusive and descending.  `ordinal` is the position of a word in the
order of the comparison, counted so that the loop continues at small positions; adding the step
moves the position by `stride`, modulo `2 ^ w`.
-/

namespace ComparisonOrder

open BitVec

structure Form where
  signed : Bool
  inclusive : Bool
  descending : Bool
deriving DecidableEq

variable {w : ℕ}

def continues (f : Form) (x bound : BitVec w) : Bool :=
  let small := if f.descending then bound else x
  let large := if f.descending then x else bound
  match f.signed, f.inclusive with
  | false, false => small.ult large
  | false, true => small.ule large
  | true, false => small.slt large
  | true, true => small.sle large

/-- The word after some additions of the step. -/
def advance (x step : BitVec w) : ℕ → BitVec w
  | 0 => x
  | n + 1 => advance x step n + step

/-- The loop that tests its word before each body executes the body exactly `n` times. -/
structure Runs (f : Form) (x bound step : BitVec w) (n : ℕ) : Prop where
  body : ∀ k < n, continues f (advance x step k) bound = true
  exit : continues f (advance x step n) bound = false

/-- The loop that tests the next word before each body executes the body exactly `n` times. -/
structure RunsNext (f : Form) (x bound step : BitVec w) (n : ℕ) : Prop where
  body : ∀ k < n, continues f (advance x step (k + 1)) bound = true
  exit : continues f (advance x step (n + 1)) bound = false

/-- The position of a word among all words, by signed or unsigned value. -/
def position (signed : Bool) (x : BitVec w) : ℕ :=
  if signed then (x.toInt + 2 ^ (w - 1)).toNat else x.toNat

/-- The position of a word in the order of a comparison. -/
def ordinal (f : Form) (x : BitVec w) : ℕ :=
  if f.descending then 2 ^ w - 1 - position f.signed x else position f.signed x

/-- How far the step moves the position. -/
def stride (f : Form) (step : BitVec w) : ℕ := if f.descending then (-step).toNat else step.toNat

/-! ### The order -/

lemma two_pow_eq (hw : 0 < w) : 2 ^ w = 2 * 2 ^ (w - 1) := by
  rw [← Nat.pow_succ', Nat.succ_eq_add_one, Nat.sub_add_cancel hw]

lemma position_unsigned (x : BitVec w) : position false x = x.toNat := rfl

/-- Signed positions exchange the two halves. -/
lemma position_signed (hw : 0 < w) (x : BitVec w) : position true x =
    if x.toNat < 2 ^ (w - 1) then x.toNat + 2 ^ (w - 1) else x.toNat - 2 ^ (w - 1) := by
  have hpow := two_pow_eq hw
  have hcast : ((2 ^ w : ℕ) : ℤ) = 2 * ((2 ^ (w - 1) : ℕ) : ℤ) := by
    rw [hpow]
    rfl
  have hhalf : ((2 : ℤ) ^ (w - 1)) = ((2 ^ (w - 1) : ℕ) : ℤ) := by push_cast; rfl
  rw [position, if_pos rfl, toInt_eq_toNat_cond, hhalf]
  generalize 2 ^ (w - 1) = h at *
  split_ifs <;> omega

lemma position_lt (hw : 0 < w) (signed : Bool) (x : BitVec w) : position signed x < 2 ^ w := by
  have hpow := two_pow_eq hw
  have hlt := x.isLt
  cases signed with
  | false => exact hlt
  | true =>
    rw [position_signed hw]
    generalize 2 ^ (w - 1) = h at *
    split_ifs <;> omega

lemma ordinal_lt (hw : 0 < w) (f : Form) (x : BitVec w) : ordinal f x < 2 ^ w := by
  have hlt := position_lt hw f.signed x
  unfold ordinal
  split_ifs
  · omega
  · exact hlt

/-- A word is before another by value exactly if its position is. -/
lemma ult_eq (x y : BitVec w) : x.ult y = decide (position false x < position false y) := rfl

lemma slt_eq (hw : 0 < w) (x y : BitVec w) :
    x.slt y = decide (position true x < position true y) := by
  have hx := le_two_mul_toInt (x := x)
  have hcast : ((2 : ℤ) ^ w) = 2 * (2 : ℤ) ^ (w - 1) := by
    rw [← Int.pow_succ', Nat.sub_add_cancel hw]
  rw [BitVec.slt, decide_eq_decide, position, position, if_pos rfl, if_pos rfl]
  generalize (2 : ℤ) ^ (w - 1) = h at *
  omega

/-- The loop continues at the words before the bound, or up to it. -/
lemma continues_iff (hw : 0 < w) (f : Form) (x bound : BitVec w) :
    continues f x bound = true ↔
      if f.inclusive then ordinal f x ≤ ordinal f bound else ordinal f x < ordinal f bound := by
  have hx := position_lt hw f.signed x
  have hb := position_lt hw f.signed bound
  obtain ⟨signed, inclusive, descending⟩ := f
  cases descending <;> cases inclusive <;> cases signed <;>
    simp only [continues, ordinal, if_true, if_false, Bool.false_eq_true, ule_eq_not_ult,
      sle_eq_not_slt, ult_eq, slt_eq hw, Bool.not_eq_true', decide_eq_true_eq,
      decide_eq_false_iff_not] at hx hb ⊢ <;> omega

/-! ### Positions by exclusive or -/

/-- Flipping the top bit exchanges the two halves. -/
lemma xor_two_pow {a k : ℕ} (ha : a < 2 * 2 ^ k) :
    a ^^^ 2 ^ k = if a < 2 ^ k then a + 2 ^ k else a - 2 ^ k := by
  have hmod : (a ^^^ 2 ^ k) % 2 ^ k = a % 2 ^ k := by
    rw [Nat.xor_mod_two_pow, Nat.mod_self, Nat.xor_zero]
  have hdiv : (a ^^^ 2 ^ k) / 2 ^ k = a / 2 ^ k ^^^ 1 := by
    rw [Nat.xor_div_two_pow, Nat.div_self (Nat.two_pow_pos k)]
  rw [← Nat.div_add_mod (a ^^^ 2 ^ k) (2 ^ k), hmod, hdiv]
  split_ifs with h
  · rw [Nat.div_eq_of_lt h, Nat.mod_eq_of_lt h, Nat.zero_xor, Nat.mul_one, Nat.add_comm]
  have hone : a / 2 ^ k = 1 := by
    rw [Nat.div_eq_iff (Nat.two_pow_pos k)]
    omega
  have hsplit := Nat.div_add_mod a (2 ^ k)
  rw [hone, Nat.mul_one] at hsplit
  rw [hone, Nat.xor_self, Nat.mul_zero, Nat.zero_add]
  omega

/-- Flipping every bit reverses the order. -/
lemma xor_two_pow_sub_one {a : ℕ} (ha : a < 2 ^ w) : a ^^^ (2 ^ w - 1) = 2 ^ w - 1 - a := by
  have h := congrArg BitVec.toNat (xor_allOnes (x := BitVec.ofNat w a))
  rwa [toNat_xor, toNat_allOnes, toNat_not, toNat_ofNat,
    Nat.mod_eq_of_lt ha] at h

/-- Every order is the unsigned order after an exclusive or. -/
lemma ordinal_eq_xor (hw : 0 < w) (f : Form) (x : BitVec w) : ordinal f x = x.toNat ^^^
    ((if f.signed then 2 ^ (w - 1) else 0) ^^^ (if f.descending then 2 ^ w - 1 else 0)) := by
  have hpos : position f.signed x = x.toNat ^^^ (if f.signed then 2 ^ (w - 1) else 0) := by
    cases f.signed with
    | false => rw [position_unsigned, if_neg Bool.false_ne_true, Nat.xor_zero]
    | true =>
      rw [position_signed hw, if_pos rfl, xor_two_pow]
      rw [← two_pow_eq hw]
      exact x.isLt
  rw [← Nat.xor_assoc, ← hpos, ordinal]
  split_ifs
  · exact (xor_two_pow_sub_one (position_lt hw f.signed x)).symm
  · exact (Nat.xor_zero _).symm

def ofOrdinal (f : Form) (n : ℕ) : BitVec w := BitVec.ofNat w (n ^^^
  ((if f.signed then 2 ^ (w - 1) else 0) ^^^ (if f.descending then 2 ^ w - 1 else 0)))

section

variable (hw : 0 < w)
include hw

lemma order_lt (f : Form) :
    (if f.signed then 2 ^ (w - 1) else 0) ^^^ (if f.descending then 2 ^ w - 1 else 0) < 2 ^ w := by
  have hpow := two_pow_eq hw
  have hpos := Nat.two_pow_pos (w - 1)
  apply Nat.xor_lt_two_pow <;> split_ifs <;> omega

lemma toNat_ofOrdinal (f : Form) {n : ℕ} (hn : n < 2 ^ w) : (ofOrdinal f n : BitVec w).toNat = n ^^^
      ((if f.signed then 2 ^ (w - 1) else 0) ^^^ (if f.descending then 2 ^ w - 1 else 0)) := by
  rw [ofOrdinal, toNat_ofNat, Nat.mod_eq_of_lt (Nat.xor_lt_two_pow hn (order_lt hw f))]

lemma ordinal_ofOrdinal (f : Form) {n : ℕ} (hn : n < 2 ^ w) :
    ordinal f (ofOrdinal f n : BitVec w) = n := by
  rw [ordinal_eq_xor hw, toNat_ofOrdinal hw f hn, Nat.xor_assoc, Nat.xor_self, Nat.xor_zero]

/-! ### Positions and signed values -/

/-- The signed value, from the unsigned one. -/
lemma toInt_eq (x : BitVec w) :
    x.toInt = if x.toNat < 2 ^ (w - 1) then (x.toNat : ℤ) else x.toNat - 2 ^ w := by
  have hpow := two_pow_eq hw
  have hcast := TwosComplement.cast_two_pow w
  rw [toInt_eq_toNat_cond, hcast]
  split_ifs <;> omega

/-- Positions differ as signed values do, in the signed order, or on one side of the sign bit. -/
lemma toInt_sub_toInt (f : Form) {x y : BitVec w}
    (h : f.signed = true ∨ (ordinal f x < 2 ^ (w - 1) ↔ ordinal f y < 2 ^ (w - 1))) :
    y.toInt - x.toInt =
      if f.descending then (ordinal f x : ℤ) - ordinal f y
      else (ordinal f y : ℤ) - ordinal f x := by
  have hpow := two_pow_eq hw
  have hcast := TwosComplement.cast_two_pow w
  have hx := x.isLt
  have hy := y.isLt
  have hxp := position_lt hw f.signed x
  have hyp := position_lt hw f.signed y
  obtain ⟨signed, inclusive, descending⟩ := f
  rw [toInt_eq hw, toInt_eq hw]
  cases signed <;>
    simp only [ordinal, position_signed hw, position_unsigned, Bool.false_eq_true,
      false_or, true_or]
      at h hxp hyp ⊢ <;>
    generalize 2 ^ (w - 1) = p at * <;> generalize 2 ^ w = m at * <;> cases descending <;>
    simp only [if_true, if_false, Bool.false_eq_true] at h ⊢ <;> split_ifs at h ⊢ <;> omega

/-! ### Moving along the order -/

/-- Adding a word moves the position, modulo the number of words. -/
lemma position_add (signed : Bool) (x step : BitVec w) :
    position signed (x + step) = (position signed x + step.toNat) % 2 ^ w := by
  cases signed with
  | false => exact toNat_add x step
  | true =>
    have hrotate : ∀ y : BitVec w, position true y = (y.toNat + 2 ^ (w - 1)) % 2 ^ w := by
      intro y
      have hpow := two_pow_eq hw
      rw [position_signed hw]
      split_ifs
      · exact (Nat.mod_eq_of_lt (by omega)).symm
      · rw [Nat.mod_eq_sub_mod (by omega), Nat.mod_eq_of_lt (by omega)]
        omega
    rw [hrotate, hrotate, toNat_add, Nat.mod_add_mod, Nat.mod_add_mod, Nat.add_right_comm]

/-- Adding the step moves the position by the stride, modulo the number of words. -/
lemma ordinal_add (f : Form) (x step : BitVec w) :
    ordinal f (x + step) = (ordinal f x + stride f step) % 2 ^ w := by
  have hx := position_lt hw f.signed x
  rw [ordinal, ordinal, stride, position_add hw]
  split_ifs
  · generalize position f.signed x = p at *
    rw [toNat_neg, Nat.add_mod_mod]
    -- the sum wraps on exactly one side
    rcases Nat.lt_or_ge (p + step.toNat) (2 ^ w) with h | h
    · rw [Nat.mod_eq_of_lt h, Nat.mod_eq_sub_mod (by omega), Nat.mod_eq_of_lt (by omega)]
      omega
    · rw [Nat.mod_eq_sub_mod h, Nat.mod_eq_of_lt (by omega), Nat.mod_eq_of_lt (by omega)]
      omega
  · rfl

/-- As long as the position does not wrap, it moves by multiples of the stride. -/
lemma ordinal_advance (f : Form) (x step : BitVec w) {n : ℕ}
    (h : ordinal f x + n * stride f step < 2 ^ w) :
    ordinal f (advance x step n) = ordinal f x + n * stride f step := by
  induction n with
  | zero => rw [advance, Nat.zero_mul, Nat.add_zero]
  | succ n ih =>
    rw [Nat.succ_mul] at h ⊢
    rw [advance, ordinal_add hw, ih (by omega), Nat.mod_eq_of_lt (by omega)]
    omega

end

/-- The additions of the step are those of the integers. -/
lemma advance_ofInt (i s : ℤ) (k : ℕ) :
    advance (BitVec.ofInt w i) (BitVec.ofInt w s) k = BitVec.ofInt w (i + k * s) := by
  induction k with
  | zero => rw [advance, Int.natCast_zero, Int.zero_mul, Int.add_zero]
  | succ k ih =>
    rw [advance, ih, ← ofInt_add, Int.natCast_succ, Int.add_mul, Int.one_mul, Int.add_assoc]

/-- An addition made first. -/
lemma advance_add (x step : BitVec w) (k : ℕ) :
    advance (x + step) step k = advance x step (k + 1) := by
  induction k with
  | zero => rfl
  | succ k ih =>
    show advance (x + step) step k + step = advance x step (k + 1) + step
    rw [ih]

lemma Runs.next {f : Form} {x bound step : BitVec w} {n : ℕ} (h : Runs f (x + step) bound step n) :
    RunsNext f x bound step n where
  body k hk := advance_add x step k ▸ h.body k hk
  exit := advance_add x step n ▸ h.exit

end ComparisonOrder
