import Mathlib.Tactic.Linarith

/-!
# Two's complement

Words of `w` bits and the integers they stand for.  A word read as a signed integer is the
representative modulo `2 ^ w` between `-2 ^ (w - 1)` and `2 ^ (w - 1)`; an interval keeps its order
under reduction as long as its end points do (`mem_of_representatives`).  The power of two in a
number survives every operation on bits, and `x &&& -x` is the largest one
(`exists_and_neg_eq_twoPow`).
-/

namespace TwosComplement

/-! ### Representatives modulo a power of two -/

/-- Twice the half. -/
lemma two_pow_eq_two_mul {w : ℕ} (hw : 0 < w) : (2 : ℤ) ^ w = 2 * 2 ^ (w - 1) := by
  rw [← Int.pow_succ', Nat.sub_add_cancel hw]

lemma two_pow_pos (w : ℕ) : (0 : ℤ) < 2 ^ w := Int.pow_pos (by decide)

lemma cast_two_pow (w : ℕ) : ((2 ^ w : ℕ) : ℤ) = 2 ^ w := by push_cast; rfl

lemma bmod_two_pow_mem {w : ℕ} (hw : 0 < w) (x : ℤ) :
    -2 ^ (w - 1) ≤ Int.bmod x (2 ^ w) ∧ Int.bmod x (2 ^ w) < 2 ^ (w - 1) := by
  have hle := Int.le_bmod (x := x) (Nat.two_pow_pos w)
  have hlt := Int.bmod_lt (x := x) (Nat.two_pow_pos w)
  rw [cast_two_pow, two_pow_eq_two_mul hw] at hle hlt
  omega

lemma bmod_two_pow_eq_iff {w : ℕ} (hw : 0 < w) {x y : ℤ} : Int.bmod x (2 ^ w) = y ↔
    -2 ^ (w - 1) ≤ y ∧ y < 2 ^ (w - 1) ∧ (2 : ℤ) ^ w ∣ y - x := by
  rw [Int.bmod_eq_iff (Nat.two_pow_pos w), cast_two_pow, ← and_assoc, ← and_assoc]
  have htwo := two_pow_eq_two_mul hw
  apply and_congr_left
  intro _
  omega

lemma bmod_two_pow_eq_self {w : ℕ} (hw : 0 < w) {x : ℤ} (hle : -2 ^ (w - 1) ≤ x)
    (hlt : x < 2 ^ (w - 1)) : Int.bmod x (2 ^ w) = x :=
  (bmod_two_pow_eq_iff hw).mpr ⟨hle, hlt, by rw [Int.sub_self]; exact Int.dvd_zero _⟩

lemma two_pow_dvd_bmod_sub (w : ℕ) (x : ℤ) : (2 : ℤ) ^ w ∣ Int.bmod x (2 ^ w) - x := by
  rw [← cast_two_pow]
  exact Int.dvd_bmod_sub_self

/-- A power of two below the modulus divides a number if it divides a representative. -/
lemma two_pow_dvd_of_dvd_sub {k w : ℕ} (hk : k ≤ w) {x y : ℤ} (hx : (2 : ℤ) ^ k ∣ x)
    (h : (2 : ℤ) ^ w ∣ y - x) : (2 : ℤ) ^ k ∣ y := by
  have hsum := Int.dvd_add ((pow_dvd_pow 2 hk).trans h) hx
  rwa [Int.sub_add_cancel] at hsum

/-- Numbers of one window that are equal modulo its length are equal. -/
lemma eq_of_dvd_sub_of_mem {m a x y : ℤ} (hx : a ≤ x ∧ x < a + m) (hy : a ≤ y ∧ y < a + m)
    (h : m ∣ x - y) : x = y := by
  have hzero : x - y = 0 := by
    apply Int.eq_zero_of_abs_lt_dvd h
    rw [abs_lt]
    constructor <;> omega
  omega

/-- Reduction keeps an interval shorter than the modulus, if it keeps the order of its end
points. -/
theorem mem_of_representatives {m a lo v hi lo' v' hi' : ℤ}
    (hlo' : a ≤ lo' ∧ lo' < a + m) (hv' : a ≤ v' ∧ v' < a + m) (hhi' : a ≤ hi' ∧ hi' < a + m)
    (hlo : m ∣ lo' - lo) (hv : m ∣ v' - v) (hhi : m ∣ hi' - hi)
    (hle : lo ≤ v) (hge : v ≤ hi) (hspan : hi - lo < m) (hord : lo' ≤ hi') :
    lo' ≤ v' ∧ v' ≤ hi' := by
  -- the reduced interval has the same length, so a value keeps its distance from the lower end
  have hlen : hi' - lo' = hi - lo := by
    apply eq_of_dvd_sub_of_mem (a := 0) (m := m) ⟨by omega, by omega⟩ ⟨by omega, by omega⟩
    have h := Int.dvd_sub hhi hlo
    rwa [show hi' - hi - (lo' - lo) = hi' - lo' - (hi - lo) by omega] at h
  have hval : v' = lo' + (v - lo) := by
    apply eq_of_dvd_sub_of_mem hv' ⟨by omega, by omega⟩
    have h := Int.dvd_sub hv hlo
    rwa [show v' - v - (lo' - lo) = v' - (lo' + (v - lo)) by omega] at h
  omega

/-- Rounding down to a multiple keeps the multiples below a number below it. -/
lemma le_sub_emod {m a v : ℤ} (hm : 0 < m) (ha : m ∣ a) (h : a ≤ v) : a ≤ v - v % m := by
  obtain ⟨c, rfl⟩ := ha
  have hc : c ≤ v / m := Int.le_ediv_of_mul_le hm (by rwa [Int.mul_comm])
  have hmul := Int.mul_le_mul_of_nonneg_left hc hm.le
  have hdiv := Int.mul_ediv_add_emod v m
  omega

/-! ### Powers of two in words -/

variable {w k : ℕ} {x y : BitVec w}

lemma two_pow_dvd_iff_testBit {n k : ℕ} : 2 ^ k ∣ n ↔ ∀ i < k, n.testBit i = false := by
  constructor
  · rintro ⟨m, rfl⟩ i hi
    rw [Nat.testBit_two_pow_mul, decide_eq_false (by omega), Bool.false_and]
  intro h
  apply Nat.dvd_of_mod_eq_zero
  apply Nat.eq_of_testBit_eq
  intro i
  rw [Nat.testBit_mod_two_pow, Nat.zero_testBit]
  by_cases hi : i < k
  · rw [h i hi, Bool.and_false]
  · rw [decide_eq_false hi, Bool.false_and]

lemma two_pow_dvd_toInt_iff (hk : k ≤ w) :
    (2 : ℤ) ^ k ∣ x.toInt ↔ ∀ i < k, x.getLsbD i = false := by
  have hnat : (2 : ℤ) ^ k ∣ (x.toNat : ℤ) ↔ ∀ i < k, x.getLsbD i = false := by
    rw [← cast_two_pow, Int.natCast_dvd_natCast]
    exact two_pow_dvd_iff_testBit
  have hsub : (2 : ℤ) ^ w ∣ x.toInt - x.toNat := by
    rw [BitVec.toInt_eq_toNat_bmod]
    exact two_pow_dvd_bmod_sub w _
  rw [← hnat]
  constructor
  · intro h
    apply two_pow_dvd_of_dvd_sub hk h
    rw [← Int.neg_sub]
    exact Int.dvd_neg.mpr hsub
  · intro h
    exact two_pow_dvd_of_dvd_sub hk h hsub

lemma two_pow_dvd_toInt_and_left (hk : k ≤ w) (h : (2 : ℤ) ^ k ∣ x.toInt) :
    (2 : ℤ) ^ k ∣ (x &&& y).toInt := by
  rw [two_pow_dvd_toInt_iff hk] at h ⊢
  intro i hi
  rw [BitVec.getLsbD_and, h i hi, Bool.false_and]

lemma two_pow_dvd_toInt_or (hk : k ≤ w) (hx : (2 : ℤ) ^ k ∣ x.toInt) (hy : (2 : ℤ) ^ k ∣ y.toInt) :
    (2 : ℤ) ^ k ∣ (x ||| y).toInt := by
  rw [two_pow_dvd_toInt_iff hk] at hx hy ⊢
  intro i hi
  rw [BitVec.getLsbD_or, hx i hi, hy i hi, Bool.or_false]

lemma two_pow_dvd_toInt_xor (hk : k ≤ w) (hx : (2 : ℤ) ^ k ∣ x.toInt) (hy : (2 : ℤ) ^ k ∣ y.toInt) :
    (2 : ℤ) ^ k ∣ (x ^^^ y).toInt := by
  rw [two_pow_dvd_toInt_iff hk] at hx hy ⊢
  intro i hi
  rw [BitVec.getLsbD_xor, hx i hi, hy i hi, Bool.xor_false]

/-- The lowest bit of a word is a power of two that divides it. -/
theorem exists_and_neg_eq_twoPow (hx : x ≠ 0#w) :
    ∃ k < w, x &&& -x = BitVec.twoPow w k ∧ (2 : ℤ) ^ k ∣ x.toInt := by
  have hbit : ∃ i, x.getLsbD i = true := by
    by_contra hnone
    apply hx
    apply BitVec.eq_of_getLsbD_eq
    intro i _
    rw [BitVec.getLsbD_zero]
    exact Bool.eq_false_iff.mpr fun h => hnone ⟨i, h⟩
  -- the first bit that is set
  obtain ⟨k, hk, hmin⟩ : ∃ k, x.getLsbD k = true ∧ ∀ j < k, x.getLsbD j = false := by
    refine ⟨Nat.find hbit, Nat.find_spec hbit, fun j hj => ?_⟩
    exact Bool.eq_false_iff.mpr (Nat.find_min hbit hj)
  have hkw : k < w := by
    by_contra hge
    rw [BitVec.getLsbD_of_ge x k (by omega)] at hk
    cases hk
  refine ⟨k, hkw, ?_, (two_pow_dvd_toInt_iff hkw.le).mpr hmin⟩
  apply BitVec.eq_of_getLsbD_eq
  intro i hi
  rw [BitVec.getLsbD_and, BitVec.getLsbD_neg, BitVec.getLsbD_twoPow, decide_eq_true hi,
    decide_eq_true hkw, Bool.true_and, Bool.true_and]
  rcases Nat.lt_trichotomy i k with hlt | rfl | hgt
  · rw [hmin i hlt, Bool.false_and, decide_eq_false (by omega)]
  · rw [hk, decide_eq_true rfl, decide_eq_false]
    · rfl
    · rintro ⟨j, hj, hset⟩
      rw [hmin j hj] at hset
      cases hset
  · rw [decide_eq_true ⟨k, hgt, hk⟩, Bool.xor_true, Bool.and_not_self, decide_eq_false (by omega)]

/-- Masking with the negation of a power of two rounds down to a multiple. -/
lemma toNat_and_neg_twoPow (hk : k < w) :
    (x &&& -BitVec.twoPow w k).toNat = x.toNat / 2 ^ k * 2 ^ k := by
  apply Nat.eq_of_testBit_eq
  intro i
  rw [BitVec.testBit_toNat, BitVec.getLsbD_and, BitVec.getLsbD_neg, Nat.testBit_mul_two_pow,
    Nat.testBit_div_two_pow]
  have hexists : (∃ j < i, (BitVec.twoPow w k).getLsbD j = true) ↔ k < i := by
    simp only [BitVec.getLsbD_twoPow, hk, decide_true, Bool.true_and, decide_eq_true_eq]
    exact ⟨fun ⟨j, hj, hkj⟩ => hkj ▸ hj, fun h => ⟨k, h, rfl⟩⟩
  simp only [hexists]
  rw [BitVec.getLsbD_twoPow, decide_eq_true hk, Bool.true_and]
  by_cases hi : i < w
  · rcases Nat.lt_trichotomy i k with hlt | rfl | hgt
    · simp [hlt.not_ge, hlt.le.not_gt, hlt.ne']
    · simp [hi, BitVec.testBit_toNat]
    · rw [decide_eq_false (by omega), decide_eq_true hi, decide_eq_true hgt, decide_eq_true hgt.le,
        Nat.sub_add_cancel hgt.le, BitVec.testBit_toNat]
      simp
  · have hbit := BitVec.getLsbD_of_ge x i (by omega)
    rw [hbit, Nat.sub_add_cancel (by omega), BitVec.testBit_toNat, hbit]
    simp

end TwosComplement
