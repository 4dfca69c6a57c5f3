import Hrx.LoopDomain.Basic

/-!
# Trip counts are exact and complete

The masked and xored words of `tripCount` are the positions of the carrier words in the order of the
comparison, so its division counts the steps that fit between them.
-/

namespace Hrx.LoopDomain

open ComparisonOrder

/-- The carrier word of raw bits: only the low ones participate. -/
def carrier (w : ℕ) (raw : UInt64) : BitVec w := raw.toBitVec.setWidth w

variable {w : ℕ}

/-! ### Words and positions -/

lemma toNat_ofNat_width {n : ℕ} (h : n ≤ 64) : (UInt64.ofNat n).toNat = n :=
  UInt64.toNat_ofNat_of_lt' (Nat.lt_of_le_of_lt h (by decide))

lemma toNat_sub_eq {a b : UInt64} (h : b.toNat ≤ a.toNat) : (a - b).toNat = a.toNat - b.toNat :=
  UInt64.toNat_sub_of_le _ _ (UInt64.le_iff_toNat_le.mpr h)

section

variable (hw : 0 < w) (hw' : w ≤ 64)
include hw hw'

lemma toNat_mask : (mask w).toNat = 2 ^ w - 1 := by
  have hsplit : (2 : ℕ) ^ 64 = 2 ^ w * 2 ^ (64 - w) := by
    rw [← Nat.pow_add, Nat.add_sub_cancel' hw']
  rw [mask, UInt64.toNat_shiftRight, toNat_ofNat_width (by omega), Nat.mod_eq_of_lt (by omega),
    Nat.shiftRight_eq_div_pow, Nat.div_eq_iff (Nat.two_pow_pos _), Nat.sub_mul,
    Nat.one_mul, ← hsplit]
  have hone' := Nat.two_pow_pos (64 - w)
  show _ ≤ 2 ^ 64 - 1 ∧ 2 ^ 64 - 1 ≤ _
  omega

lemma toNat_signBit : (signBit w).toNat = 2 ^ (w - 1) := by
  have hlt : 2 ^ (w - 1) < 2 ^ 64 := Nat.pow_lt_pow_right (by decide) (by omega)
  rw [signBit, UInt64.toNat_shiftLeft, toNat_ofNat_width (by omega),
    Nat.mod_eq_of_lt (a := w - 1) (by omega),
    Nat.shiftLeft_eq]
  show 1 * _ % _ = _
  rw [Nat.one_mul, Nat.mod_eq_of_lt hlt]

lemma toNat_and_mask (raw : UInt64) : (raw &&& mask w).toNat = (carrier w raw).toNat := by
  rw [UInt64.toNat_and, toNat_mask hw hw', Nat.and_two_pow_sub_one_eq_mod, carrier,
    BitVec.toNat_setWidth]
  rfl

/-- The ranks of the code are positions. -/
lemma toNat_rank (f : LoopBoundFlags) (raw : UInt64) :
    ((raw &&& mask w) ^^^ orderMask f w).toNat = ordinal f (carrier w raw) := by
  rw [ordinal_eq_xor hw, UInt64.toNat_xor, toNat_and_mask hw hw', orderMask, UInt64.toNat_xor]
  cases f.signed <;> cases f.descending <;> simp [toNat_mask hw hw', toNat_signBit hw hw']

/-- The increment of the code is the stride. -/
lemma toNat_increment (f : LoopBoundFlags) (step : UInt64) :
    ((if f.descending then 0 - step else step) &&& mask w).toNat = stride f (carrier w step) := by
  rw [toNat_and_mask hw hw', stride]
  split_ifs
  · have hneg : carrier w (0 - step) = -carrier w step := by
      rw [carrier, carrier, UInt64.toBitVec_sub, ← BitVec.setWidth_neg_of_le hw', ← BitVec.zero_sub]
      rfl
    rw [hneg]
  · rfl

end

/-! ### The count -/

/-- The position at which the loop stops. -/
def threshold (f : LoopBoundFlags) (bound : BitVec w) : ℕ :=
  ordinal f bound + (if f.inclusive then 1 else 0)

lemma continues_eq_false_iff (hw : 0 < w) (f : LoopBoundFlags) (x bound : BitVec w) :
    continues f x bound = false ↔ threshold f bound ≤ ordinal f x := by
  rw [← Bool.not_eq_true, continues_iff hw, threshold]
  split_ifs <;> omega

/-- That many steps reach the threshold. -/
lemma reaches_count {x limit s : ℕ} (hs : 0 < s) : limit ≤ x + ((limit - x - 1) / s + 1) * s := by
  have := Nat.lt_div_mul_add (a := limit - x - 1) hs
  rw [Nat.succ_mul]
  omega

/-- No smaller number of steps does. -/
lemma count_le_of_reaches {x limit s n : ℕ} (h : x < limit) (hn : limit ≤ x + n * s) :
    0 < s ∧ (limit - x - 1) / s + 1 ≤ n := by
  have hpos : 0 < s := by
    rcases Nat.eq_zero_or_pos s with hs | hs
    · rw [hs] at hn
      omega
    · exact hs
  refine ⟨hpos, ?_⟩
  rw [Nat.succ_le_iff, Nat.div_lt_iff_lt_mul hpos]
  omega

/-- What `tripCount` computes, over positions. -/
lemma tripCount_eq (hw : 0 < w) (hw' : w ≤ 64) (f : LoopBoundFlags)
    (initialValue bound step : UInt64)
    {x limit s : ℕ} (hx : x = ordinal f (carrier w initialValue))
    (hlimit : limit = threshold f (carrier w bound)) (hs : s = stride f (carrier w step)) :
    (tripCount f w initialValue bound step).map UInt64.toNat =
      if limit ≤ x then some 0
      else if s = 0 ∨ 2 ^ w ≤ x + ((limit - x - 1) / s + 1) * s then none
      else some ((limit - x - 1) / s + 1) := by
  rw [← toNat_increment hw hw'] at hs
  rw [← toNat_rank hw hw'] at hx
  rw [threshold, ← toNat_rank hw hw'] at hlimit
  have hm := toNat_mask hw hw'
  have hx' : x < 2 ^ w := by
    rw [hx, toNat_rank hw hw']
    exact ordinal_lt hw f _
  have hl' : limit ≤ 2 ^ w - 1 + (if f.inclusive then 1 else 0) := by
    rw [hlimit, toNat_rank hw hw']
    have := ordinal_lt hw f (carrier w bound)
    omega
  have hpow := Nat.pow_le_pow_right Nat.two_pos hw'
  simp only [tripCount]
  generalize (initialValue &&& mask w) ^^^ orderMask f w = initial at *
  generalize (bound &&& mask w) ^^^ orderMask f w = rank at *
  generalize (if f.descending then 0 - step else step) &&& mask w = increment at *
  generalize mask w = m at *
  generalize f.inclusive = inclusive at *
  by_cases h1 : limit ≤ x
  · have hexit : initial > rank ∨ (initial = rank ∧ ¬inclusive) := by
      rw [gt_iff_lt, UInt64.lt_iff_toNat_lt, ← UInt64.toNat_inj]
      cases inclusive <;> simp at hlimit ⊢ <;> omega
    rw [if_pos hexit, if_pos h1]
    rfl
  have hexit : ¬(initial > rank ∨ (initial = rank ∧ ¬inclusive)) := by
    rw [gt_iff_lt, UInt64.lt_iff_toNat_lt, ← UInt64.toNat_inj]
    cases inclusive <;> simp at hlimit ⊢ <;> omega
  rw [if_neg hexit, if_neg h1]
  by_cases h2 : s = 0
  · have hzero : increment = 0 := UInt64.toNat_inj.mp (by rw [← hs, h2]; rfl)
    rw [if_pos (Or.inl hzero), if_pos (Or.inl h2)]
    rfl
  have hpos : 0 < s := Nat.pos_of_ne_zero h2
  have hreach : limit ≤ x + ((limit - x - 1) / s + 1) * s := reaches_count hpos
  by_cases h3 : limit = 2 ^ w
  · -- the inclusive bound is the greatest word
    have hinc : inclusive = true ∧ rank = m := by
      rw [← UInt64.toNat_inj]
      cases inclusive <;> simp at hlimit hl' ⊢ <;> omega
    rw [if_pos (Or.inr hinc), if_pos (Or.inr (h3 ▸ hreach))]
    rfl
  have hstep : ¬(increment = 0 ∨ (inclusive ∧ rank = m)) := by
    rintro (hzero | ⟨hinc, hrank⟩)
    · rw [hzero] at hs
      exact h2 hs
    · rw [if_pos hinc, hrank, hm] at hlimit
      omega
  have hone : (1 : UInt64).toNat = 1 := rfl
  have hlt : limit - x < 2 ^ 64 := by
    cases inclusive <;> simp at hl' <;> omega
  have hdistance : (rank - initial + (if inclusive then 1 else 0)).toNat = limit - x := by
    have hle : initial.toNat ≤ rank.toNat := by
      cases inclusive <;> simp at hlimit <;> omega
    rw [UInt64.toNat_add, toNat_sub_eq hle]
    cases inclusive <;> simp at hlimit ⊢ <;> rw [Nat.mod_eq_of_lt] <;> omega
  have hcount : ((rank - initial + (if inclusive then 1 else 0) - 1) / increment + 1).toNat =
      (limit - x - 1) / s + 1 := by
    have hquot : (limit - x - 1) / s ≤ limit - x - 1 := Nat.div_le_self _ _
    rw [UInt64.toNat_add, UInt64.toNat_div, toNat_sub_eq (by omega), hdistance, hone, ← hs,
      Nat.mod_eq_of_lt (by omega)]
  have hroom : ((m - initial) / increment).toNat = (2 ^ w - 1 - x) / s := by
    rw [UInt64.toNat_div, toNat_sub_eq (by omega), hm, ← hx, ← hs]
  have hguard : (rank - initial + (if inclusive then 1 else 0) - 1) / increment + 1 >
      (m - initial) / increment ↔ s = 0 ∨ 2 ^ w ≤ x + ((limit - x - 1) / s + 1) * s := by
    rw [gt_iff_lt, UInt64.lt_iff_toNat_lt, hcount, hroom, Nat.div_lt_iff_lt_mul hpos]
    omega
  rw [if_neg hstep]
  by_cases h4 : s = 0 ∨ 2 ^ w ≤ x + ((limit - x - 1) / s + 1) * s
  · rw [if_pos (hguard.mpr h4), if_pos h4]
    rfl
  · rw [if_neg (mt hguard.mp h4), if_neg h4]
    exact congrArg some hcount

/-- Along steps that do not wrap, the loop stops at the threshold. -/
lemma continues_advance_eq_false_iff (hw : 0 < w) (f : LoopBoundFlags)
    {x bound step : BitVec w} {n : ℕ}
    (h : ordinal f x + n * stride f step < 2 ^ w) :
    continues f (advance x step n) bound = false ↔
      threshold f bound ≤ ordinal f x + n * stride f step := by
  rw [continues_eq_false_iff hw, ordinal_advance hw f _ _ h]

/-- The least number of steps that reaches the threshold is the number of body executions. -/
lemma runs_of_reaches (hw : 0 < w) (f : LoopBoundFlags) {x bound step : BitVec w} {n : ℕ}
    (h : ordinal f x + n * stride f step < 2 ^ w)
    (hreach : threshold f bound ≤ ordinal f x + n * stride f step)
    (hleast : ∀ k < n, ordinal f x + k * stride f step < threshold f bound) :
    Runs f x bound step n := by
  refine ⟨fun k hk => ?_, (continues_advance_eq_false_iff hw f h).mpr hreach⟩
  have hwrap : ordinal f x + k * stride f step < 2 ^ w := Nat.lt_of_le_of_lt
    (Nat.add_le_add_left (Nat.mul_le_mul_right _ (Nat.le_of_lt hk)) _) h
  rw [← Bool.not_eq_false, continues_advance_eq_false_iff hw f hwrap, Nat.not_le]
  exact hleast k hk

/-- A reported count is the number of body executions. -/
lemma runs_of_tripCount (hw : 0 < w) (hw' : w ≤ 64) (f : LoopBoundFlags)
    {initialValue bound step n : UInt64} (h : tripCount f w initialValue bound step = some n) :
    Runs f (carrier w initialValue) (carrier w bound) (carrier w step) n.toNat := by
  have heq := tripCount_eq hw hw' f initialValue bound step rfl rfl rfl
  have hx := ordinal_lt hw f (carrier w initialValue)
  rw [h, Option.map_some] at heq
  split_ifs at heq with h1 h2
  · rw [Option.some.inj heq]
    apply runs_of_reaches hw f
    · rwa [Nat.zero_mul]
    · rwa [Nat.zero_mul]
    · exact fun k hk => absurd hk (Nat.not_lt_zero k)
  · rw [not_or, Nat.not_le] at h2
    rw [Option.some.inj heq]
    apply runs_of_reaches hw f h2.2 (reaches_count (Nat.pos_of_ne_zero h2.1))
    intro k hk
    rw [← Nat.not_le]
    intro hk'
    exact absurd (count_le_of_reaches (Nat.not_le.mp h1) hk').2 hk.not_ge

/-- Trip counts are exact and complete: a reported count is the number of body executions of the
wrapping machine loop, and a count is reported exactly if the first guard is false, or some number
of steps that do not wrap in the comparison's order makes it false. -/
theorem tripCount_exact_complete (hw : 0 < w) (hw' : w ≤ 64) (f : LoopBoundFlags)
    (initialValue bound step : UInt64) :
    (∀ n, tripCount f w initialValue bound step = some n →
      Runs f (carrier w initialValue) (carrier w bound) (carrier w step) n.toNat) ∧
    ((tripCount f w initialValue bound step).isSome ↔
      continues f (carrier w initialValue) (carrier w bound) = false ∨
      ∃ n, ordinal f (carrier w initialValue) + n * stride f (carrier w step) < 2 ^ w ∧
        continues f (advance (carrier w initialValue) (carrier w step) n)
        (carrier w bound) = false) := by
  refine ⟨fun n hn => runs_of_tripCount hw hw' f hn, ?_⟩
  have heq := tripCount_eq hw hw' f initialValue bound step rfl rfl rfl
  rw [continues_eq_false_iff hw, ← Option.isSome_map (f := UInt64.toNat), heq]
  split_ifs with h1 h2
  · exact iff_of_true rfl (Or.inl h1)
  · -- the least number of steps wraps, and so does every number that reaches the threshold
    refine iff_of_false Bool.false_ne_true ?_
    rintro (h | ⟨n, hn, h⟩)
    · exact h1 h
    rw [continues_advance_eq_false_iff hw f hn] at h
    obtain ⟨hpos, hle⟩ := count_le_of_reaches (Nat.not_le.mp h1) h
    have := Nat.mul_le_mul_right (stride f (carrier w step)) hle
    omega
  · rw [not_or, Nat.not_le] at h2
    exact iff_of_true rfl (Or.inr ⟨_, h2.2, (continues_advance_eq_false_iff hw f h2.2).mpr
      (reaches_count (Nat.pos_of_ne_zero h2.1))⟩)

/-- The signed loop from `0x7D` down to `-3` by `-2` on eight bits runs 65 times, its raw operands
holding bits above the carrier. -/
theorem tripCount_exact_complete_descending :
    tripCount ⟨true, true, true⟩ 8 0xAB7D 0xFFFD 0xFE = some 65 ∧
      Runs (w := 8) ⟨true, true, true⟩ (carrier 8 0xAB7D) (carrier 8 0xFFFD) (carrier 8 0xFE) 65 :=
  ⟨by decide, (tripCount_exact_complete (by decide) (by decide) ⟨true, true, true⟩
    0xAB7D 0xFFFD 0xFE).1 65 (by decide)⟩

end Hrx.LoopDomain
