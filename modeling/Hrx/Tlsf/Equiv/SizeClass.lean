import Hrx.Tlsf.Equiv.Pool

/-!
# Size classes

`mappingInsert` names a bin inside the matrix, and every block of a bin at or above the one that
`mappingSearch` names is long enough (`le_of_mappingSearch`).  Aligning a length yields the least
multiple of the alignment that is not shorter.
-/

namespace Hrx.Tlsf

lemma and_slCount (n : ℕ) : n &&& (slCount - 1) = n % 32 := Nat.and_two_pow_sub_one_eq_mod n 5

variable {n length found fl sl : ℕ}

lemma log2_lt_64 (h : n < 2 ^ 64) : Nat.log2 n < 64 := by
  by_cases hn : n = 0
  · subst hn; decide
  · exact (Nat.log2_lt hn).mpr h

lemma mappingInsert_fst_lt (h : length < 2 ^ 64) : (mappingInsert length).1 < 64 := log2_lt_64 h

lemma mappingInsert_snd_lt (length : ℕ) : (mappingInsert length).2 < 32 := by
  show (_ &&& (slCount - 1)) < 32
  rw [and_slCount]
  exact Nat.mod_lt _ (by decide)

/-- Above the linear range the top bit is 32 units of the second level. -/
lemma two_pow_log2 (h : 5 < Nat.log2 length) :
    2 ^ Nat.log2 length = 32 * 2 ^ (Nat.log2 length - 5) := by
  rw [show (32 : ℕ) = 2 ^ 5 from rfl, ← Nat.pow_add]
  congr 1
  omega

lemma le_quotient (h : 5 < Nat.log2 length) : 32 ≤ length / 2 ^ (Nat.log2 length - 5) := by
  rw [Nat.le_div_iff_mul_le (Nat.two_pow_pos _), ← two_pow_log2 h]
  exact Nat.log2_self_le (by rintro rfl; exact absurd h (by decide))

/-- The bin of a length above the linear range: its second level is the five bits below the top. -/
lemma mappingInsert_snd_of_lt (h : 5 < Nat.log2 length) :
    (mappingInsert length).2 = length / 2 ^ (Nat.log2 length - 5) - 32 := by
  show ((length >>> (if slLog2 < Nat.log2 length then _ else 0)) &&& (slCount - 1)) = _
  rw [and_slCount, if_pos (show slLog2 < _ from h), Nat.shiftRight_eq_div_pow]
  have hlow := le_quotient h
  have hhigh : length / 2 ^ (Nat.log2 length - 5) < 64 := by
    rw [Nat.div_lt_iff_lt_mul (Nat.two_pow_pos _)]
    have := Nat.lt_log2_self (n := length)
    rw [Nat.pow_succ, two_pow_log2 h] at this
    omega
  show length / 2 ^ (Nat.log2 length - 5) % 32 = _
  omega

lemma mappingInsert_snd_of_le (h : Nat.log2 length ≤ 5) :
    (mappingInsert length).2 = length % 32 := by
  show ((length >>> (if slLog2 < Nat.log2 length then _ else 0)) &&& (slCount - 1)) = _
  rw [and_slCount, if_neg (show ¬ slLog2 < _ from h.not_gt)]
  rfl

/-- A longer top bit is a longer block. -/
lemma lt_of_log2_lt {m : ℕ} (h : Nat.log2 m < Nat.log2 n) : m < n := by
  by_contra hle
  exact absurd (log2_mono (not_lt.mp hle)) h.not_ge

/-- Every block in the searched bin, or in a later bin of its first level, is long enough. -/
lemma le_of_mappingSearch_eq (hlen : length ≠ 0) (hfound : found ≠ 0)
    (h : mappingSearch length = some (fl, sl)) (hfl : (mappingInsert found).1 = fl)
    (hsl : sl ≤ (mappingInsert found).2) : length ≤ found := by
  change Nat.log2 found = fl at hfl
  have hself := Nat.log2_self_le hfound
  unfold mappingSearch at h
  simp only [and_slCount] at h
  split_ifs at h with hlog hover hnew
  · -- Rounding carried into the next first level.
    cases h
    apply le_of_lt
    apply lt_of_log2_lt
    rw [hfl]
    have := log2_mono (Nat.le_add_right length (1 <<< (Nat.log2 length - slLog2) - 1))
    omega
  · cases h
    rw [mappingInsert_snd_of_lt (by rw [hfl]; exact hlog), hfl, Nat.shiftRight_eq_div_pow,
      Nat.one_shiftLeft] at hsl
    -- Both quotients lie in `[32, 64)`, so the order of the bins is the order of the quotients.
    have hnew' := not_not.mp hnew
    rw [Nat.one_shiftLeft] at hnew'
    set shift := Nat.log2 length - slLog2 with hshift
    have hpow : 2 ^ Nat.log2 length = 32 * 2 ^ shift := two_pow_log2 hlog
    have hpos := Nat.two_pow_pos shift
    have hlt := Nat.lt_log2_self (n := length + (2 ^ shift - 1))
    rw [hnew', Nat.pow_succ, hpow] at hlt
    have hq : (length + (2 ^ shift - 1)) / 2 ^ shift < 64 := by
      rw [Nat.div_lt_iff_lt_mul hpos]; omega
    have hle : (length + (2 ^ shift - 1)) / 2 ^ shift ≤ found / 2 ^ shift := by
      have hq'' : 32 ≤ found / 2 ^ shift := by
        rw [Nat.le_div_iff_mul_le hpos, ← hpow, ← hfl]; exact hself
      change _ ≤ found / 2 ^ shift - 32 at hsl
      omega
    have h₂ := Nat.div_mul_le_self found (2 ^ shift)
    have h₃ := Nat.lt_div_mul_add (a := length + (2 ^ shift - 1)) hpos
    have h₄ := Nat.mul_le_mul_right (2 ^ shift) hle
    omega
  · cases h
    have hlog' : Nat.log2 length ≤ 5 := not_lt.mp hlog
    rw [mappingInsert_snd_of_le (by omega)] at hsl
    have hlen' := Nat.log2_self_le hlen
    have hlt := Nat.lt_log2_self (n := length)
    have hlt' := Nat.lt_log2_self (n := found)
    rw [hfl] at hself hlt'
    -- Up to 63 bytes a bin holds a single length.
    rcases Nat.lt_or_eq_of_le hlog' with hlt5 | heq5
    · have hpow : 2 ^ (Nat.log2 length + 1) ≤ 2 ^ 5 := Nat.pow_le_pow_right (by decide) hlt5
      omega
    · rw [heq5] at hself hlen' hlt hlt'
      omega

/-- A block in a bin at or above the searched one is long enough. -/
theorem le_of_mappingSearch (hlen : length ≠ 0) (hfound : found ≠ 0)
    (h : mappingSearch length = some (fl, sl))
    (hbin : (mappingInsert found).1 = fl ∧ sl ≤ (mappingInsert found).2 ∨
      fl < (mappingInsert found).1) :
    length ≤ found := by
  rcases hbin with ⟨hfl, hsl⟩ | hlt
  · exact le_of_mappingSearch_eq hlen hfound h hfl hsl
  apply le_of_lt
  apply lt_of_log2_lt
  refine lt_of_le_of_lt ?_ hlt
  unfold mappingSearch at h
  simp only [and_slCount] at h
  split_ifs at h with hlog hover hnew
  all_goals cases h
  · exact log2_mono (Nat.le_add_right _ _)
  · exact le_rfl
  · exact le_rfl

/-- The searched bin lies inside the matrix. -/
lemma mappingSearch_lt (hlen : length < 2 ^ 64) (h : mappingSearch length = some (fl, sl)) :
    fl < 64 ∧ sl < 32 := by
  unfold mappingSearch at h
  simp only [and_slCount] at h
  split_ifs at h with hlog hover hnew
  all_goals cases h
  · refine ⟨log2_lt_64 ?_, by decide⟩
    have hmax : deviceSizeMax = 2 ^ 64 - 1 := rfl
    have hround : 2 ^ (Nat.log2 length - slLog2) ≤ 2 ^ 63 :=
      Nat.pow_le_pow_right (by decide) (by have := log2_lt_64 hlen; omega)
    rw [Nat.one_shiftLeft] at hover ⊢
    omega
  · exact ⟨log2_lt_64 hlen, Nat.mod_lt _ (by decide)⟩
  · exact ⟨log2_lt_64 hlen, Nat.mod_lt _ (by decide)⟩

/-! ### Alignment -/

/-- Rounding up to the alignment, where it does not overflow. -/
lemma deviceAlign_two_pow {k : ℕ} (hle : length + (2 ^ k - 1) < 2 ^ 64) :
    2 ^ k ∣ deviceAlign length (2 ^ k) ∧ length ≤ deviceAlign length (2 ^ k) ∧
      deviceAlign length (2 ^ k) < 2 ^ 64 := by
  obtain ⟨hdvd, hlo, hhi⟩ := maskAlignment_roundUp hle
  refine ⟨hdvd, hlo, ?_⟩
  rw [deviceAlign, maskAlignment_two_pow hle]
  exact (Nat.div_mul_le_self _ _).trans_lt hle

end Hrx.Tlsf
