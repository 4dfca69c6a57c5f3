import Mathlib.Algebra.Order.Group.Nat
import Mathlib.Order.Nat

/-!
# Alignment

The rounding helpers of the runtime (`iree/base/alignment.h`) on 64-bit sizes.  An alignment is a
power of two; rounding up is exact as long as the sum does not overflow.
-/

namespace Hrx

/-- `value & ~(alignment - 1)` on 64-bit sizes. -/
def maskAlignment (value alignment : ℕ) : ℕ :=
  (BitVec.ofNat 64 value &&& ~~~(BitVec.ofNat 64 (alignment - 1))).toNat

/-- `iree_host_align`. -/
def hostAlign (value alignment : ℕ) : ℕ := maskAlignment (value + (alignment - 1)) alignment

/-- `iree_host_size_is_power_of_two`. -/
def hostSizeIsPowerOfTwo (value : ℕ) : Bool := value ≠ 0 && value &&& (value - 1) == 0

/-- Masking with a power of two rounds down to a multiple. -/
lemma maskAlignment_two_pow {value k : ℕ} (hvalue : value < 2 ^ 64) :
    maskAlignment value (2 ^ k) = value / 2 ^ k * 2 ^ k := by
  unfold maskAlignment
  apply Nat.eq_of_testBit_eq
  intro i
  rw [BitVec.testBit_toNat, BitVec.getLsbD_and, BitVec.getLsbD_not, BitVec.getLsbD_ofNat,
    BitVec.getLsbD_ofNat, Nat.testBit_two_pow_sub_one, Nat.testBit_mul_two_pow,
    Nat.testBit_div_two_pow]
  by_cases hi : i < 64
  · by_cases hik : k ≤ i
    · simp [hi, hik]
    · simp [hi, not_le.mp hik]
  have hbit : value.testBit i = false := by
    apply Nat.testBit_lt_two_pow
    exact hvalue.trans_le (Nat.pow_le_pow_right (by decide) (not_lt.mp hi))
  by_cases hik : k ≤ i
  · have hsub : i - k + k = i := by omega
    simp [hi, hsub, hbit]
  · simp [hi, hik]

/-- Rounding up to a power of two, where it does not overflow. -/
lemma maskAlignment_roundUp {value k : ℕ} (hle : value + (2 ^ k - 1) < 2 ^ 64) :
    2 ^ k ∣ maskAlignment (value + (2 ^ k - 1)) (2 ^ k) ∧
      value ≤ maskAlignment (value + (2 ^ k - 1)) (2 ^ k) ∧
      maskAlignment (value + (2 ^ k - 1)) (2 ^ k) < value + 2 ^ k := by
  rw [maskAlignment_two_pow hle]
  have hpos : 0 < 2 ^ k := Nat.two_pow_pos k
  have hdiv := Nat.div_add_mod (value + (2 ^ k - 1)) (2 ^ k)
  rw [Nat.mul_comm] at hdiv
  exact ⟨Nat.dvd_mul_left _ _, by omega, by omega⟩

/-- What `iree_host_size_is_power_of_two` accepts. -/
lemma exists_eq_two_pow {value : ℕ} (h : hostSizeIsPowerOfTwo value = true) :
    ∃ k, value = 2 ^ k := by
  unfold hostSizeIsPowerOfTwo at h
  simp only [ne_eq, decide_not, Bool.and_eq_true, Bool.not_eq_eq_eq_not, Bool.not_true,
    decide_eq_false_iff_not, beq_iff_eq] at h
  exact (Nat.and_sub_one_eq_zero_iff_isPowerOfTwo h.1).mp h.2

end Hrx
