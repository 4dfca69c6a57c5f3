import Hrx.LoopDomain.Equiv.Additive

/-!
# Ranges in comparison order

An accepted range of source integers maps to an interval of positions.  Over all initial positions
of an interval and all thresholds up to the greatest one, the terminal position exceeds the greatest
threshold by at most the overshoot that the code computes from residues modulo the stride.
-/

namespace Hrx.LoopDomain

open ComparisonOrder Facts TwosComplement ValueFacts

variable {w : ℕ}

/-! ### Carriers of source integers -/

lemma carrier_toUInt64 (hw' : w ≤ 64) (value : Int64) :
    carrier w value.toUInt64 = BitVec.ofInt w value.toInt := by
  exact (BitVec.signExtend_eq_setWidth_of_le _ hw').symm

section

variable (hw : 0 < w) (hw' : w ≤ 64)
include hw hw'

/-- Every signed word of the carrier is an `i64`. -/
lemma unknown_admits_toInt (x : BitVec w) : unknown.Admits x.toInt := by
  have hpow := two_pow_eq hw
  have hle := Nat.pow_le_pow_right Nat.two_pos hw'
  have hcast := cast_two_pow w
  have hint := ComparisonOrder.toInt_eq hw x
  apply unknown_admits <;> split_ifs at hint <;> omega

omit hw hw' in
lemma toNat_ofInt_of_nonneg {v : ℤ} (hle : 0 ≤ v) (hlt : v < 2 ^ w) :
    ((BitVec.ofInt w v).toNat : ℤ) = v := by
  have hcast := cast_two_pow w
  rw [BitVec.toNat_ofInt, hcast, Int.emod_eq_of_lt hle hlt, Int.toNat_of_nonneg hle]

/-- An accepted range maps to positions by a fixed offset. -/
lemma exists_offset (f : LoopBoundFlags) {facts : ValueFacts} (h : isOrdered f w facts = true) :
    ∃ c : ℤ, ∀ v, facts.InRange v → (position f.signed (BitVec.ofInt w v) : ℤ) = v + c := by
  unfold isOrdered at h
  split_ifs at h with hsigned
  · rw [Bool.and_eq_true] at h
    have hbounds := fun v hv => fitSigned_bounds hw' h.1 (v := v) hv
    cases hf : f.signed with
    | true =>
      refine ⟨2 ^ (w - 1), fun v hv => ?_⟩
      have := hbounds v hv
      rw [position, if_pos rfl, BitVec.toInt_ofInt_eq_self hw this.1 this.2,
        Int.toNat_of_nonneg (by omega)]
    | false =>
      -- negative values are the upper half of the unsigned order
      have hneg := h.2
      rw [hf, Bool.not_eq_true', Bool.not_false, Bool.true_and, decide_eq_false_iff_not, ge_iff_le,
        Int64.le_iff_toInt_le, Int64.toInt_zero] at hneg
      refine ⟨2 ^ w, fun v hv => ?_⟩
      have hv' := hbounds v hv
      have hint := ComparisonOrder.toInt_eq hw (BitVec.ofInt w v)
      have hlt := hv.2
      rw [BitVec.toInt_ofInt_eq_self hw hv'.1 hv'.2] at hint
      rw [position_unsigned]
      split_ifs at hint <;> omega
  · rw [not_or, Bool.not_eq_true] at hsigned
    refine ⟨0, fun v hv => ?_⟩
    have := fitUnsigned_bounds h hv
    rw [hsigned.1, position_unsigned, toNat_ofInt_of_nonneg this.1 this.2, Int.add_zero]

/-- The interval holds the positions of the range. -/
lemma orderedInterval_bounds (f : LoopBoundFlags) {facts : ValueFacts}
    {lower upper : UInt64} (h : orderedInterval f w facts = some (lower, upper)) {v : ℤ}
    (hv : facts.InRange v) : lower.toNat ≤ ordinal f (BitVec.ofInt w v) ∧
      ordinal f (BitVec.ofInt w v) ≤ upper.toNat ∧ upper.toNat < 2 ^ w := by
  unfold orderedInterval at h
  by_cases hord : isOrdered f w facts = true
  case neg =>
    rw [if_neg hord] at h
    exact nomatch h
  rw [if_pos hord] at h
  obtain ⟨c, hc⟩ := exists_offset hw hw' f hord
  have hlo := hc _ ⟨le_rfl, hv.1.trans hv.2⟩
  have hhi := hc _ ⟨hv.1.trans hv.2, le_rfl⟩
  have hmid := hc v hv
  cases h
  simp only [toNat_rank hw hw', carrier_toUInt64 hw']
  refine ⟨?_, ?_, ordinal_lt hw f _⟩
  all_goals
    have := hv.1
    have := hv.2
    simp only [ordinal]
    split_ifs <;> omega

/-! ### Source integers of words -/

lemma toInt_sourceFromBits {bits : UInt64} {x : BitVec w}
    (h : bits.toNat = x.toNat) : (sourceFromBits w bits).toInt = x.toInt := by
  have hpow := two_pow_eq hw
  have hhalf : 2 ^ (w - 1) ≤ 2 ^ 63 := Nat.pow_le_pow_right (by decide) (by omega)
  have hcast := cast_two_pow w
  have hsign := toNat_signBit hw hw'
  have hmask := toNat_mask hw hw'
  rw [ComparisonOrder.toInt_eq hw, ← h, sourceFromBits]
  by_cases hlt : bits < signBit w
  · rw [if_pos hlt]
    rw [UInt64.lt_iff_toNat_lt, hsign] at hlt
    rw [if_pos hlt, toInt_toInt64, if_pos (by omega)]
  rw [if_neg hlt]
  rw [UInt64.lt_iff_toNat_lt, hsign] at hlt
  have hsub : (mask w - bits).toNat = 2 ^ w - 1 - bits.toNat := by
    rw [toNat_sub_eq (by omega), hmask]
  have hint : (mask w - bits).toInt64.toInt = (2 ^ w - 1 - bits.toNat : ℕ) := by
    rw [toInt_toInt64, hsub, if_pos (by omega)]
  have hneg : (-1 : Int64).toInt = -1 := by decide
  rw [if_neg hlt, Int64.toInt_sub, hneg, hint, Int.bmod_eq_of_le] <;> omega

lemma toInt_sourceFromOrdered (f : LoopBoundFlags) {ordered : UInt64}
    {x : BitVec w} (h : ordered.toNat = ordinal f x) :
    (sourceFromOrdered f w ordered).toInt = x.toInt := by
  apply toInt_sourceFromBits hw hw'
  rw [UInt64.toNat_xor, UInt64.toNat_xor, h, ordinal_eq_xor hw, Nat.xor_assoc, Nat.xor_assoc]
  cases f.signed <;> cases f.descending <;> simp [toNat_mask hw hw', toNat_signBit hw hw']

end

lemma stride_ofInt {f : LoopBoundFlags} {s : ℤ} (hlt : s.natAbs < 2 ^ w)
    (hs : if f.descending then s < 0 else 0 < s) : stride f (BitVec.ofInt w s) = s.natAbs := by
  have hcast := cast_two_pow w
  rw [stride]
  split_ifs at hs ⊢
  · have h := toNat_ofInt_of_nonneg (w := w) (v := -s) (by omega) (by omega)
    rw [BitVec.ofInt_neg] at h
    omega
  · have h := toNat_ofInt_of_nonneg (w := w) (v := s) (by omega) (by omega)
    omega

/-! ### Overshoot -/

/-- The greatest overshoot over initial positions in an interval, at one threshold. -/
def overshoot (lower upper threshold stride : ℕ) : ℕ :=
  let first := if (threshold - lower) % stride = 0 then 0 else stride - (threshold - lower) % stride
  first + min (min upper (threshold - 1) - lower) (stride - 1 - first)

/-- The code computes the overshoot without wrapping. -/
lemma toNat_overshoot {lower upper limit s first : UInt64} (hs : 0 < s.toNat)
    (hlt : lower.toNat < limit.toNat) (hle : lower.toNat ≤ upper.toNat)
    (hfirst : first = if (limit - lower) % s = 0 then 0 else s - (limit - lower) % s) :
    (first + min (min upper (limit - 1) - lower) (s - 1 - first)).toNat =
      overshoot lower.toNat upper.toNat limit.toNat s.toNat := by
  have hdistance : (limit - lower).toNat = limit.toNat - lower.toNat :=
    toNat_sub_eq hlt.le
  have hmod := Nat.mod_lt (limit.toNat - lower.toNat) hs
  have hremainder : ((limit - lower) % s).toNat = (limit.toNat - lower.toNat) % s.toNat := by
    rw [UInt64.toNat_mod, hdistance]
  have hfirst' : first.toNat = if (limit.toNat - lower.toNat) % s.toNat = 0 then 0
      else s.toNat - (limit.toNat - lower.toNat) % s.toNat := by
    rw [hfirst, ← hremainder]
    split_ifs with h1 h2 h2
    · rfl
    · exact absurd (by rw [h1]; rfl) h2
    · exact absurd (UInt64.toNat_inj.mp h2) h1
    · rw [toNat_sub_eq (by omega)]
  have hfirstLt : first.toNat < s.toNat := by
    split_ifs at hfirst' <;> omega
  have hone : (1 : UInt64).toNat = 1 := rfl
  have hslt := s.toNat_lt
  have hlast : (limit - 1).toNat = limit.toNat - 1 :=
    toNat_sub_eq (by omega)
  have hspan : (min upper (limit - 1) - lower).toNat =
      min upper.toNat (limit.toNat - 1) - lower.toNat := by
    rw [toNat_sub_eq (by rw [UInt64.toNat_min, hlast]; omega),
      UInt64.toNat_min, hlast]
  have hpred : (s - 1).toNat = s.toNat - 1 :=
    toNat_sub_eq (by omega)
  have hroom : (s - 1 - first).toNat = s.toNat - 1 - first.toNat := by
    rw [toNat_sub_eq (by omega), hpred]
  simp only [overshoot, ← hfirst']
  rw [UInt64.toNat_add, UInt64.toNat_min, hspan, hroom, Nat.mod_eq_of_lt (by omega)]

/-- The terminal position exceeds the threshold by at most the overshoot. -/
lemma terminal_le {lower upper limit s x : ℕ} (hs : 0 < s) (hlower : lower ≤ x) (hupper : x ≤ upper)
    (hx : x < limit) :
    x + ((limit - x - 1) / s + 1) * s ≤ limit + overshoot lower upper limit s := by
  obtain ⟨first, hfirst⟩ : ∃ first, first =
    if (limit - lower) % s = 0 then 0 else s - (limit - lower) % s := ⟨_, rfl⟩
  have hmod := Nat.mod_lt (limit - lower) hs
  have hsplit := Nat.div_add_mod (limit - lower) s
  -- some number of steps from the least position ends exactly at the first overshoot
  obtain ⟨c, hc⟩ : ∃ c, limit - lower + first = c * s := by
    split_ifs at hfirst with h0
    · exact ⟨(limit - lower) / s, by rw [Nat.mul_comm]; omega⟩
    · exact ⟨(limit - lower) / s + 1, by rw [Nat.succ_mul, Nat.mul_comm]; omega⟩
  simp only [overshoot, ← hfirst]
  by_cases hδ : first + (x - lower) < s
  · -- as many steps from `x` suffice
    have hle := (count_le_of_reaches hx (show limit ≤ x + c * s by omega)).2
    have := Nat.mul_le_mul_right s hle
    omega
  · have hquot := Nat.div_mul_le_self (limit - x - 1) s
    rw [Nat.succ_mul]
    omega

/-- The loops of a whole range: each initial position from `lower` to `upper` with each threshold up
to the greatest one stops within the count, and within the overshoot. -/
lemma exists_count {lower upper limit s x t : ℕ} (hs : 0 < s) (hlower : lower ≤ x)
    (hupper : x ≤ upper)
    (ht : t ≤ limit) : ∃ n, t ≤ x + n * s ∧ (∀ k < n, x + k * s < t) ∧
      (lower < limit → n ≤ (limit - lower - 1) / s + 1) ∧
      (∀ k ≤ n, x + k * s ≤ max upper (limit + overshoot lower upper limit s)) ∧
      (∀ k < n, x + k * s + s ≤ limit + overshoot lower upper limit s) := by
  by_cases hx : t ≤ x
  · refine ⟨0, by omega, fun k hk => absurd hk (Nat.not_lt_zero k), fun _ => Nat.zero_le _, ?_,
      fun k hk => absurd hk (Nat.not_lt_zero k)⟩
    intro k hk
    rw [Nat.le_zero.mp hk, Nat.zero_mul]
    omega
  have hterminal := terminal_le hs hlower hupper (show x < limit by omega)
  have hle : (t - x - 1) / s ≤ (limit - x - 1) / s := Nat.div_le_div_right (by omega)
  have hbody : ∀ k < (t - x - 1) / s + 1,
      x + k * s + s ≤ limit + overshoot lower upper limit s := by
    intro k hk
    have := Nat.mul_le_mul_right s (show k + 1 ≤ (limit - x - 1) / s + 1 by omega)
    rw [Nat.succ_mul] at this
    omega
  refine ⟨(t - x - 1) / s + 1, reaches_count hs, ?_, ?_, ?_, hbody⟩
  · intro k hk
    rw [← Nat.not_le]
    intro hk'
    exact absurd (count_le_of_reaches (Nat.not_le.mp hx) hk').2 hk.not_ge
  · intro _
    exact Nat.succ_le_succ (Nat.div_le_div_right (by omega))
  · intro k hk
    cases k with
    | zero => omega
    | succ k =>
      have := hbody k hk
      rw [Nat.succ_mul]
      omega

end Hrx.LoopDomain
