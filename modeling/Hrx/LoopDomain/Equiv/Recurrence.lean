import Hrx.LoopDomain.Equiv.Ranged

/-!
# Recurrence facts contain every execution

For every choice of operands that the input facts admit, the machine loop executes its body as often
as the reported count says, and the reported facts admit the signed value of its state at every
header visit, at every body entry and at the exit.
-/

namespace Hrx.LoopDomain

open BitVec (ofInt)

open ComparisonOrder Facts ValueFacts

variable {w : ℕ}

/-- The reported count describes a number of body executions. -/
def RecurrenceFacts.Counts (facts : RecurrenceFacts) (n : ℕ) : Prop :=
  match facts.tripCountKind with
  | .unknown => True
  | .bounded => n ≤ facts.tripCount.toNat
  | .exact => n = facts.tripCount.toNat

/-- The reported facts admit the state at each header visit, at each body entry and at the exit. -/
structure RecurrenceFacts.Observes (facts : RecurrenceFacts) (x step : BitVec w) (n : ℕ) :
    Prop where
  values : ∀ k ≤ n, facts.values.Admits (advance x step k).toInt
  bodyValues : ∀ k < n, facts.bodyValues.Admits (advance x step k).toInt
  exitValue : facts.exitValue.Admits (advance x step n).toInt

/-- If a count is reported, the loop meets it; the reported facts admit its states if the initial
state is `known` to be admitted. -/
def RecurrenceFacts.Contain (facts : RecurrenceFacts) (runs : ℕ → Prop) (known : Prop)
    (x step : BitVec w) : Prop :=
  facts.tripCountKind ≠ .unknown →
    ∃ n, runs n ∧ facts.Counts n ∧ (known → facts.Observes x step n)

variable {facts : RecurrenceFacts} {i s b : ℤ} {n : ℕ} {initialValues step : ValueFacts}

lemma RecurrenceFacts.Counts.le (h : facts.Counts n) (hkind : facts.tripCountKind ≠ .unknown) :
    n ≤ facts.tripCount.toNat ∧
      (facts.tripCountKind ≠ .bounded → n = facts.tripCount.toNat) := by
  unfold Counts at h
  cases hk : facts.tripCountKind with
  | unknown => exact absurd hk hkind
  | bounded =>
    rw [hk] at h
    exact ⟨h, absurd rfl⟩
  | exact =>
    rw [hk] at h
    exact ⟨h.le, fun _ => h⟩

/-- Without an execution the only state is the initial one. -/
lemma observes_zero {x step : BitVec w} (hv : facts.values.Admits x.toInt)
    (he : facts.exitValue.Admits x.toInt) : facts.Observes x step 0 where
  values k hk := by rwa [Nat.le_zero.mp hk]
  bodyValues k hk := absurd hk (Nat.not_lt_zero k)
  exitValue := he

section

variable (hw : 0 < w) (hw' : w ≤ 64) {known : Prop}
include hw hw'

/-- Unknown facts admit everything. -/
lemma observes_unknown (hv : facts.values = unknown)
    (hb : facts.bodyValues = unknown) (he : facts.exitValue = unknown) (x step : BitVec w) (n : ℕ) :
    facts.Observes x step n where
  values _ _ := hv ▸ unknown_admits_toInt hw hw' _
  bodyValues _ _ := hb ▸ unknown_admits_toInt hw hw' _
  exitValue := he ▸ unknown_admits_toInt hw hw' _

/-- A sequence of integers that fits the carrier is the sequence of the states. -/
lemma observes_of_admitsSequence {m : ℕ} (hn : n ≤ m)
    (h : facts.AdmitsSequence i s m) (hfit : facts.values.fitSignedBitCount w = true)
    {outFacts : RecurrenceFacts} (hv : outFacts.values = facts.values)
    (hb : outFacts.bodyValues = facts.bodyValues) (he : outFacts.exitValue.Admits (i + n * s)) :
    outFacts.Observes (ofInt w i) (ofInt w s) n := by
  have hstate : ∀ k ≤ m, (advance (ofInt w i) (ofInt w s) k).toInt = i + k * s := by
    intro k hk
    have hbounds := fitSigned_bounds hw' hfit (h.values k hk).inRange
    rw [advance_ofInt, BitVec.toInt_ofInt_eq_self hw hbounds.1 hbounds.2]
  refine ⟨fun k hk => ?_, fun k hk => ?_, ?_⟩
  · rw [hv, hstate k (hk.trans hn)]
    exact h.values k (hk.trans hn)
  · rw [hb, hstate k (by omega)]
    exact h.bodyValues k (by omega)
  · rw [hstate n hn]
    exact he

/-! ### Exact operands -/

omit hw hw' in
lemma make_isExact (value d : Int64) : (make value value d).isExact = true := by
  rw [make, if_neg Int64.lt_irrefl, if_pos rfl, isExact, decide_eq_true_eq]

omit hw hw' in
/-- From one initial value there is one exit. -/
lemma additiveRecurrenceFacts_isExact (value step : Int64) (tripCount : UInt64)
    (h : (additiveRecurrenceFacts (exactI64 value) step tripCount).1 = true) :
    (additiveRecurrenceFacts (exactI64 value) step tripCount).2.exitValue.isExact = true := by
  have hmade := make_isExact value (exactI64 value).knownDivisor
  simp only [additiveRecurrenceFacts] at h ⊢
  have hends : (exactI64 value).rangeLo = value ∧ (exactI64 value).rangeHi = value := ⟨rfl, rfl⟩
  rw [hends.1, hends.2] at h ⊢
  generalize make value value (exactI64 value).knownDivisor = initial at *
  have hends' : initial.rangeLo = initial.rangeHi := of_decide_eq_true hmade
  by_cases h0 : tripCount = 0 ∨ step = 0
  · rw [if_pos h0]
    exact hmade
  rw [if_neg h0, hends'] at h ⊢
  by_cases hroom : tripCount > (if step > 0 then
      0xFFFFFFFFFFFFFFFF - (initial.rangeHi.toUInt64 ^^^ signBit 64)
    else initial.rangeHi.toUInt64 ^^^ signBit 64) / magnitudeI64 step
  · rw [if_pos hroom] at h
    exact absurd h Bool.false_ne_true
  · rw [if_neg hroom]
    exact make_isExact _ _

/-- Without a step there is no count of more than zero. -/
lemma tripCount_zero_step (f : LoopBoundFlags) {initialValue bound n : UInt64}
    (h : tripCount f w initialValue bound 0 = some n) : n = 0 := by
  have heq := tripCount_eq hw hw' f initialValue bound 0 rfl rfl rfl
  have hstride : stride f (carrier w 0) = 0 := by
    rw [← toNat_increment hw hw']
    cases f.descending <;> simp
  rw [h, hstride, Option.map_some] at heq
  split_ifs at heq with h1 h2
  · exact UInt64.toNat_inj.mp (Option.some.inj heq)
  · exact absurd (Or.inl rfl) h2

/-- The greatest signed word of the carrier. -/
lemma toInt_maximum :
    ((0x7FFFFFFFFFFFFFFF >>> UInt64.ofNat (64 - w) : UInt64).toInt64).toInt = 2 ^ (w - 1) - 1 := by
  have hsplit : (2 : ℕ) ^ 63 = 2 ^ (w - 1) * 2 ^ (64 - w) := by
    rw [← Nat.pow_add]
    congr 1
    omega
  have hone := Nat.two_pow_pos (w - 1)
  have hone' := Nat.two_pow_pos (64 - w)
  have hle : 2 ^ (w - 1) ≤ 2 ^ 63 := Nat.pow_le_pow_right (by decide) (by omega)
  have hcast := TwosComplement.cast_two_pow (w - 1)
  have hmax : (0x7FFFFFFFFFFFFFFF : UInt64).toNat = 2 ^ 63 - 1 := rfl
  have hword : (0x7FFFFFFFFFFFFFFF >>> UInt64.ofNat (64 - w) : UInt64).toNat = 2 ^ (w - 1) - 1 := by
    rw [UInt64.toNat_shiftRight, toNat_ofNat_width (by omega), Nat.mod_eq_of_lt (by omega),
      Nat.shiftRight_eq_div_pow, Nat.div_eq_iff hone', Nat.sub_mul, Nat.one_mul, ← hsplit, hmax]
    omega
  rw [toInt_toInt64, hword, if_pos (by omega)]
  omega

lemma exactRecurrenceFacts_contain (f : LoopBoundFlags)
    (initialValue bound step : Int64) (hs : s = step.toInt ∨ step = 0) :
    (exactRecurrenceFacts f w initialValue bound step).Contain
      (Runs f (ofInt w initialValue.toInt) (ofInt w bound.toInt) (ofInt w s)) known
      (ofInt w initialValue.toInt) (ofInt w s) := by
  unfold exactRecurrenceFacts
  cases htrip : tripCount f w initialValue.toUInt64 bound.toUInt64 step.toUInt64 with
  | none => exact absurd rfl
  | some n =>
  have hruns := runs_of_tripCount hw hw' f htrip
  rw [carrier_toUInt64 hw', carrier_toUInt64 hw', carrier_toUInt64 hw'] at hruns
  have hstep : n ≠ 0 → s = step.toInt := by
    intro hn
    apply hs.resolve_right
    rintro rfl
    exact hn (tripCount_zero_step hw hw' f htrip)
  have hruns' : Runs f (ofInt w initialValue.toInt) (ofInt w bound.toInt) (ofInt w s) n.toNat := by
    by_cases hn : n = 0
    · rw [hn] at hruns ⊢
      exact ⟨fun k hk => absurd hk (Nat.not_lt_zero k), hruns.exit⟩
    · rwa [hstep hn]
  refine fun _ => ⟨n.toNat, hruns', ?_⟩
  have hmaximum := toInt_maximum hw hw'
  simp only
  generalize (0x7FFFFFFFFFFFFFFF >>> UInt64.ofNat (64 - w) : UInt64).toInt64 = maximum at hmaximum ⊢
  by_cases hrange : initialValue < -maximum - 1 ∨ initialValue > maximum
  · rw [if_pos hrange]
    exact ⟨rfl, fun _ => observes_unknown hw hw' rfl rfl rfl _ _ _⟩
  rw [if_neg hrange]
  by_cases hn : n = 0
  · rw [if_pos hn, hn]
    have hstate : (ofInt w initialValue.toInt).toInt = initialValue.toInt := by
      have hpos := Int.pow_pos (n := 2) (m := w - 1) (by decide)
      have hlt := Int64.toInt_lt maximum
      have hmin : (-maximum - 1).toInt = -maximum.toInt - 1 := by
        have hneg := toInt_neg_of_range (a := maximum) (by omega)
        rw [Int64.toInt_sub, hneg, Int64.toInt_one, Int.bmod_eq_of_le] <;> omega
      rw [not_or, gt_iff_lt, Int64.lt_iff_toInt_lt, Int64.lt_iff_toInt_lt, hmin] at hrange
      apply BitVec.toInt_ofInt_eq_self hw <;> omega
    have hinitial := exactI64_admits initialValue
    rw [← hstate] at hinitial
    exact ⟨rfl, fun _ => observes_zero hinitial hinitial⟩
  rw [if_neg hn]
  by_cases hdirection : if f.descending then step ≥ 0 ∨ step < -maximum - 1
      else step ≤ 0 ∨ step > maximum
  · rw [if_pos hdirection]
    exact ⟨rfl, fun _ => observes_unknown hw hw' rfl rfl rfl _ _ _⟩
  rw [if_neg hdirection]
  have hadmits := additiveRecurrenceFacts_admits (exactI64_admits initialValue) step n
  have hexact := additiveRecurrenceFacts_isExact initialValue step n
  have hcount := additiveRecurrenceFacts_count (exactI64 initialValue) step n
  rcases hadd : additiveRecurrenceFacts (exactI64 initialValue) step n with ⟨proven, facts⟩
  rw [hadd] at hadmits hexact hcount
  simp only at hcount ⊢
  by_cases hproven : (proven && facts.values.fitSignedBitCount w) = true
  · rw [if_pos hproven]
    rw [Bool.and_eq_true] at hproven
    have hsequence := hadmits hproven.1
    rw [← hstep hn] at hsequence
    have hexit := eq_of_isExact (hexact hproven.1) hsequence.exitValue.inRange
    refine ⟨?_, fun _ => observes_of_admitsSequence hw hw' le_rfl hsequence hproven.2 rfl rfl ?_⟩
    · simp only [RecurrenceFacts.Counts, hcount]
    · rw [hexit]
      exact exactI64_admits _
  · rw [if_neg hproven]
    refine ⟨?_, fun _ => observes_unknown hw hw' rfl rfl rfl _ _ _⟩
    simp only [RecurrenceFacts.Counts, hcount]

/-! ### Ranged operands -/

/-- The source ranges of a bounded count: positions from the least initial one to the header's last
one lie on one side of the sign bit, so states differ from the initial value as their positions
do. -/
lemma bounded_observes (f : LoopBoundFlags)
    (hi : initialValues.Admits i) (hfit : initialValues.fitSignedBitCount w = true)
    {increment : Int64} (hsign : if f.descending then increment.toInt < 0 else 0 < increment.toInt)
    {m : UInt64} (hmag : m.toNat = increment.toInt.natAbs)
    (hstride : stride f (ofInt w increment.toInt) = m.toNat) {lower header : UInt64}
    (terminal : UInt64) (hlower : lower.toNat ≤ ordinal f (ofInt w i))
    (hheader : ∀ k ≤ n, ordinal f (ofInt w i) + k * m.toNat ≤ header.toNat)
    (hbody : ∀ k < n, ordinal f (ofInt w i) + k * m.toNat + m.toNat ≤ terminal.toNat)
    (hlt : header.toNat < 2 ^ w) (hterminal : terminal.toNat ≤ header.toNat)
    (hside : f.signed = true ∨ (lower.toNat < 2 ^ (w - 1) ↔ header.toNat < 2 ^ (w - 1)))
    {tripCount : UInt64} (hcount : n ≤ tripCount.toNat)
    (hvalues : facts.values = make
      (if f.descending then sourceFromOrdered f w header else initialValues.rangeLo)
      (if f.descending then initialValues.rangeHi else sourceFromOrdered f w header)
      (recurrenceDivisor initialValues m))
    (hbodyValues : facts.bodyValues = make
      (if f.descending then sourceFromOrdered f w (terminal - m) else initialValues.rangeLo)
      (if f.descending then initialValues.rangeHi else sourceFromOrdered f w (terminal - m))
      (if tripCount = 1 then initialValues.knownDivisor else recurrenceDivisor initialValues m))
    (hexit : facts.exitValue = facts.values) :
    facts.Observes (ofInt w i) (ofInt w increment.toInt) n := by
  have hi' := fitSigned_bounds hw' hfit hi.inRange
  have hx := BitVec.toInt_ofInt_eq_self hw hi'.1 hi'.2
  generalize ofInt w i = x at *
  have hordinal : ∀ k ≤ n, ordinal f (advance x (ofInt w increment.toInt) k) =
      ordinal f x + k * m.toNat := by
    intro k hk
    rw [ordinal_advance hw f] <;> rw [hstride]
    exact (hheader k hk).trans_lt hlt
  have hzero := hheader 0 (Nat.zero_le n)
  -- any word between the least initial position and the header's last one
  have hdiff : ∀ y z : BitVec w, ordinal f x ≤ ordinal f y → ordinal f y ≤ header.toNat →
      ordinal f x ≤ ordinal f z → ordinal f z ≤ header.toNat → z.toInt - y.toInt =
        if f.descending then (ordinal f y : ℤ) - ordinal f z
          else (ordinal f z : ℤ) - ordinal f y := by
    intro y z hy hy' hz hz'
    apply toInt_sub_toInt hw f
    rcases hside with hside | hside
    · exact Or.inl hside
    · exact Or.inr (by omega)
  have hstate : ∀ k ≤ n, (advance x (ofInt w increment.toInt) k).toInt =
      i + k * increment.toInt := by
    intro k hk
    have h := hdiff x (advance x (ofInt w increment.toInt) k) le_rfl (by omega)
      (by rw [hordinal k hk]; omega) (by rw [hordinal k hk]; exact hheader k hk)
    rw [hx, hordinal k hk] at h
    have hk : (k : ℤ) * increment.toInt = if f.descending then
        -((k * m.toNat : ℕ) : ℤ) else ((k * m.toNat : ℕ) : ℤ) := by
      rw [hmag, Int.natCast_mul]
      split_ifs at hsign ⊢
      · rw [Int.ofNat_natAbs_of_nonpos hsign.le, Int.mul_neg, Int.neg_neg]
      · rw [Int.natAbs_of_nonneg hsign.le]
    rw [hk]
    split_ifs at h ⊢ <;> omega
  -- the source integer of a position bounds the states before it
  have hends : ∀ {p : UInt64} {k : ℕ}, k ≤ n →
      ordinal f x + k * m.toNat ≤ p.toNat →
      p.toNat ≤ header.toNat →
      (if f.descending then sourceFromOrdered f w p else initialValues.rangeLo).toInt ≤
          i + k * increment.toInt ∧
        i + k * increment.toInt ≤
          (if f.descending then initialValues.rangeHi else sourceFromOrdered f w p).toInt := by
    intro p k hk hle hp
    have hword := ordinal_ofOrdinal hw f (hp.trans_lt hlt)
    have hsource := toInt_sourceFromOrdered hw hw' f hword.symm
    have hfirst := hdiff x (advance x (ofInt w increment.toInt) k) le_rfl (by omega)
      (by rw [hordinal k hk]; omega) (by rw [hordinal k hk]; exact hheader k hk)
    have hlast := hdiff (advance x (ofInt w increment.toInt) k) (ofOrdinal f p.toNat)
      (by rw [hordinal k hk]; omega) (by rw [hordinal k hk]; exact hheader k hk)
        (by omega) (by omega)
    rw [hordinal k hk, hstate k hk] at hfirst hlast
    rw [hword, ← hsource] at hlast
    have := hi.inRange.1
    have := hi.inRange.2
    rw [hx] at hfirst
    split_ifs at hfirst hlast ⊢ <;> omega
  have hadmits : ∀ k ≤ n, facts.values.Admits (advance x (ofInt w increment.toInt) k).toInt := by
    intro k hk
    obtain ⟨hlo, hhi⟩ := hends hk (hheader k hk) le_rfl
    rw [hvalues, hstate k hk]
    exact make_admits hlo hhi (recurrenceDivisor_dvd_add_steps hmag hi k)
  refine ⟨hadmits, fun k hk => ?_, hexit ▸ hadmits n (Nat.le_refl n)⟩
  have hsub : (terminal - m).toNat = terminal.toNat - m.toNat := by
    apply toNat_sub_eq
    have := hbody k hk
    omega
  have hlast := hbody k hk
  obtain ⟨hlo, hhi⟩ := hends (p := terminal - m) hk.le (by omega) (by omega)
  rw [hbodyValues, hstate k hk.le]
  exact make_admits hlo hhi (bodyDivisor_dvd_add_steps hmag hi (hk.trans_le hcount))

lemma rangedRecurrenceFacts_contain (f : LoopBoundFlags)
    {bounds : ValueFacts} {initialLower initialUpper boundLower boundUpper : UInt64}
    (hinitial : orderedInterval f w initialValues = some (initialLower, initialUpper))
    (hbounds : orderedInterval f w bounds = some (boundLower, boundUpper))
    (hi : initialValues.InRange i) (hb : bounds.InRange b) (hs : step.InRange s) :
    (rangedRecurrenceFacts f w initialValues step initialLower initialUpper boundUpper).Contain
      (Runs f (ofInt w i) (ofInt w b) (ofInt w s)) (initialValues.Admits i)
      (ofInt w i) (ofInt w s) := by
  obtain ⟨hlower, hupper, hupperLt⟩ := orderedInterval_bounds hw hw' f hinitial hi
  obtain ⟨-, hbound, hboundLt⟩ := orderedInterval_bounds hw hw' f hbounds hb
  have hthreshold : threshold f (ofInt w b) ≤
      boundUpper.toNat + (if f.inclusive then 1 else 0) := by
    rw [threshold]
    omega
  unfold rangedRecurrenceFacts
  simp only
  by_cases hzero : initialLower > boundUpper ∨ (initialLower = boundUpper ∧ !f.inclusive)
  · -- no initial position is below a threshold
    rw [if_pos hzero]
    have hreach : threshold f (ofInt w b) ≤ ordinal f (ofInt w i) := by
      rw [gt_iff_lt, UInt64.lt_iff_toNat_lt, ← UInt64.toNat_inj] at hzero
      cases hinc : f.inclusive <;> simp only [hinc] at hzero hthreshold <;>
        simp at hzero hthreshold <;> omega
    refine fun _ => ⟨0, runs_of_reaches hw f ?_ ?_ fun k hk => absurd hk (Nat.not_lt_zero k), ?_⟩
    · rw [Nat.zero_mul]
      exact ordinal_lt hw f _
    · rwa [Nat.zero_mul]
    by_cases hfit : initialValues.fitSignedBitCount w = true
    · rw [if_pos hfit]
      have hi' := fitSigned_bounds hw' hfit hi
      have hstate := BitVec.toInt_ofInt_eq_self hw hi'.1 hi'.2
      refine ⟨rfl, fun hadmits => ?_⟩
      rw [← hstate] at hadmits
      exact observes_zero (make_self_admits hadmits) (make_self_admits hadmits)
    · rw [if_neg hfit]
      exact ⟨rfl, fun _ => observes_unknown hw hw' rfl rfl rfl _ _ _⟩
  rw [if_neg hzero]
  cases hexact : step.asExactI64 with
  | none => exact absurd rfl
  | some increment =>
  simp only
  obtain rfl : s = increment.toInt := inRange_of_asExactI64 hexact hs
  by_cases hdirection : (if f.descending then increment ≥ 0 else increment ≤ 0) ∨
      magnitudeI64 increment > mask w ∨ (f.inclusive ∧ boundUpper = mask w)
  · rw [if_pos hdirection]
    exact absurd rfl
  rw [if_neg hdirection]
  rw [not_or, not_or, gt_iff_lt, UInt64.lt_iff_toNat_lt, toNat_mask hw hw', Nat.not_lt]
    at hdirection
  obtain ⟨hsign, hmag, hinclusive⟩ := hdirection
  -- the words of the code, as numbers
  have hword := Nat.pow_le_pow_right Nat.two_pos hw'
  have hmag' := toNat_magnitudeI64 increment
  have hsign' : if f.descending then increment.toInt < 0 else 0 < increment.toInt := by
    split_ifs at hsign ⊢ <;>
      simpa only [ge_iff_le, Int64.le_iff_toInt_le, Int64.toInt_zero, Int.not_le] using hsign
  have hstride : stride f (ofInt w increment.toInt) = (magnitudeI64 increment).toNat := by
    rw [hmag', stride_ofInt (by omega) hsign']
  have hpos : 0 < (magnitudeI64 increment).toNat := by
    rw [hmag']
    split_ifs at hsign' <;> omega
  have hlimit : (boundUpper + (if f.inclusive then 1 else 0)).toNat =
      boundUpper.toNat + (if f.inclusive then 1 else 0) ∧
      boundUpper.toNat + (if f.inclusive then 1 else 0) < 2 ^ w := by
    rw [← UInt64.toNat_inj, toNat_mask hw hw'] at hinclusive
    rw [UInt64.toNat_add]
    cases hinc : f.inclusive <;> simp [hinc] at hinclusive ⊢ <;> omega
  have hbelow : initialLower.toNat < boundUpper.toNat + (if f.inclusive then 1 else 0) := by
    rw [gt_iff_lt, UInt64.lt_iff_toNat_lt, ← UInt64.toNat_inj] at hzero
    cases hinc : f.inclusive <;> simp [hinc] at hzero ⊢ <;> omega
  rw [← hlimit.1] at hthreshold hbelow
  have hlimitLt := hlimit.2
  rw [← hlimit.1] at hlimitLt
  generalize boundUpper + (if f.inclusive then 1 else 0) = limit at *
  generalize hm : magnitudeI64 increment = m at *
  obtain ⟨first, hfirst⟩ : ∃ first, first =
    if (limit - initialLower) % m = 0 then 0 else m - (limit - initialLower) % m := ⟨_, rfl⟩
  rw [← hfirst]
  have hover := toNat_overshoot hpos hbelow (hlower.trans hupper) hfirst
  generalize first + min (min initialUpper (limit - 1) - initialLower) (m - 1 - first) = excess at *
  by_cases hroom : excess > mask w - limit
  · rw [if_pos hroom]
    exact absurd rfl
  rw [if_neg hroom]
  have hmax : limit.toNat + excess.toNat < 2 ^ w := by
    have hmask := toNat_mask hw hw'
    rw [gt_iff_lt, UInt64.lt_iff_toNat_lt, toNat_sub_eq (by omega), hmask] at hroom
    omega
  have hterminal : (limit + excess).toNat = limit.toNat + excess.toNat := by
    rw [UInt64.toNat_add, Nat.mod_eq_of_lt (by omega)]
  have hheader : (max initialUpper (limit + excess)).toNat =
      max initialUpper.toNat (limit.toNat + excess.toNat) := by rw [UInt64.toNat_max, hterminal]
  have hcount : ((limit - initialLower - 1) / m + 1).toNat =
      (limit.toNat - initialLower.toNat - 1) / m.toNat + 1 := by
    have hone : (1 : UInt64).toNat = 1 := rfl
    have hdistance : (limit - initialLower).toNat = limit.toNat - initialLower.toNat :=
      toNat_sub_eq hbelow.le
    have hpred := toNat_sub_eq (a := limit - initialLower) (b := 1) (by omega)
    have hquot := Nat.div_le_self (limit.toNat - initialLower.toNat - 1) m.toNat
    rw [UInt64.toNat_add, UInt64.toNat_div, hpred, hdistance, hone, Nat.mod_eq_of_lt (by omega)]
  -- one loop of the range
  obtain ⟨n, hreach, hleast, hle, hheaders, hbodies⟩ := exists_count hpos hlower hupper hthreshold
  rw [← hover] at hheaders hbodies
  have hruns : Runs f (ofInt w i) (ofInt w b) (ofInt w increment.toInt) n := by
    have := hheaders n (Nat.le_refl n)
    apply runs_of_reaches hw f <;> rw [hstride]
    · omega
    · exact hreach
    · exact hleast
  refine fun _ => ⟨n, hruns, ?_⟩
  have hle' : n ≤ ((limit - initialLower - 1) / m + 1).toNat := hcount ▸ hle hbelow
  by_cases hsource : (!initialValues.fitSignedBitCount w) = true ∨
      (!step.fitSignedBitCount w) = true ∨ ((!f.signed) = true ∧
        (initialLower < signBit w) ≠ (max initialUpper (limit + excess) < signBit w))
  · rw [if_pos hsource]
    exact ⟨hle', fun _ => observes_unknown hw hw' rfl rfl rfl _ _ _⟩
  rw [if_neg hsource]
  rw [not_or, not_or, not_and, ne_eq, not_not, Bool.not_eq_true', Bool.not_eq_false, eq_iff_iff,
    UInt64.lt_iff_toNat_lt, UInt64.lt_iff_toNat_lt, toNat_signBit hw hw'] at hsource
  have hside : f.signed = true ∨ (initialLower.toNat < 2 ^ (w - 1) ↔
      (max initialUpper (limit + excess)).toNat < 2 ^ (w - 1)) := by
    cases hf : f.signed
    · exact Or.inr (hsource.2.2 (by rw [hf]; rfl))
    · exact Or.inl rfl
  refine ⟨hle', fun hadmits => bounded_observes hw hw' f hadmits hsource.1 hsign' hmag' hstride
    (limit + excess) hlower ?_ ?_ ?_ ?_ hside hle' rfl rfl rfl⟩
  · rwa [hheader]
  · rwa [hterminal]
  · rw [hheader]
    omega
  · rw [hheader, hterminal]
    omega

/-! ### All operands -/

lemma recurrenceFacts_sound (f : LoopBoundFlags)
    (initialValues bounds step : ValueFacts) (hi : initialValues.InRange i) (hb : bounds.InRange b)
    (hs : step.InRange s) :
    (recurrenceFacts f w initialValues bounds step).Contain
      (Runs f (ofInt w i) (ofInt w b) (ofInt w s)) (initialValues.Admits i)
      (ofInt w i) (ofInt w s) := by
  unfold recurrenceFacts
  by_cases hfloat : initialValues.isFloat = true ∨ bounds.isFloat = true ∨ step.isFloat = true
  · rw [if_pos hfloat]
    exact absurd rfl
  rw [if_neg hfloat]
  by_cases hexact : initialValues.isExact = true ∧ bounds.isExact = true
  · rw [if_pos hexact]
    obtain rfl := eq_of_isExact hexact.1 hi
    obtain rfl := eq_of_isExact hexact.2 hb
    have hstep : s = (step.asExactI64.getD 0).toInt ∨ step.asExactI64.getD 0 = 0 := by
      cases hstep : step.asExactI64 with
      | none => exact Or.inr rfl
      | some => exact Or.inl (inRange_of_asExactI64 hstep hs)
    exact exactRecurrenceFacts_contain hw hw' f _ _ _ hstep
  rw [if_neg hexact]
  cases hinitial : orderedInterval f w initialValues with
  | none => exact absurd rfl
  | some =>
  cases hbounds : orderedInterval f w bounds with
  | none => exact absurd rfl
  | some => exact rangedRecurrenceFacts_contain hw hw' f hinitial hbounds hi hb hs

/-- The advanced initial facts hold the next state, as some source integer of it. -/
lemma advancedInitial_inRange (hi : initialValues.InRange i) (hs : step.InRange s) :
    ∃ a, (advancedInitial w initialValues step).InRange a ∧
      ofInt w a = ofInt w i + ofInt w s := by
  unfold advancedInitial
  split
  case h_1 exactInitial increment hinitial hstep =>
    obtain rfl := inRange_of_asExactI64 hinitial hi
    obtain rfl := inRange_of_asExactI64 hstep hs
    refine ⟨_, ⟨le_rfl, le_rfl⟩, ?_⟩
    have hbits : (((exactInitial.toUInt64 + increment.toUInt64) &&& mask w) &&& mask w).toNat =
        (carrier w exactInitial.toUInt64 + carrier w increment.toUInt64).toNat := by
      rw [UInt64.and_assoc, UInt64.and_self, toNat_and_mask hw hw', carrier, carrier, carrier,
        UInt64.toBitVec_add, BitVec.setWidth_add _ _ hw']
    rw [exactI64, sourceFromCarrier, toInt_sourceFromBits hw hw' hbits, BitVec.ofInt_toInt,
      carrier_toUInt64 hw', carrier_toUInt64 hw']
  case h_2 =>
    rw [← BitVec.ofInt_add]
    rcases addi_inRange initialValues step hi hs with hrange | ⟨hlo, hhi⟩
    · exact ⟨i + s, hrange, rfl⟩
    -- the sum overflowed, and the facts hold every state
    refine ⟨(ofInt w (i + s)).toInt, ?_, BitVec.ofInt_toInt⟩
    have hall := (unknown_admits_toInt hw hw' (ofInt w (i + s))).inRange
    rw [InRange, hlo, hhi]
    exact hall

/-- Without an exact step, only zero trips are proven. -/
lemma recurrenceFacts_tripCount_eq_zero (f : LoopBoundFlags)
    (initialValues bounds : ValueFacts) (hstep : step.asExactI64 = none) :
    (recurrenceFacts f w initialValues bounds step).tripCount = 0 := by
  have hexact : ∀ initialValue bound : Int64,
      (exactRecurrenceFacts f w initialValue bound 0).tripCount = 0 := by
    intro initialValue bound
    unfold exactRecurrenceFacts
    cases htrip : tripCount f w initialValue.toUInt64 bound.toUInt64 (0 : Int64).toUInt64 with
    | none => rfl
    | some =>
      obtain rfl := tripCount_zero_step hw hw' f htrip
      simp only [if_true]
      split_ifs <;> rfl
  unfold recurrenceFacts
  rw [hstep]
  split_ifs
  · rfl
  · exact hexact _ _
  · split
    · simp only [rangedRecurrenceFacts, hstep]
      split_ifs <;> rfl
    · rfl

lemma nextGuardRecurrenceFacts_sound (f : LoopBoundFlags)
    (initialValues bounds step : ValueFacts) (hi : initialValues.Admits i) (hb : bounds.InRange b)
    (hs : step.InRange s) :
    (nextGuardRecurrenceFacts f w initialValues bounds step).Contain
      (RunsNext f (ofInt w i) (ofInt w b) (ofInt w s)) known (ofInt w i) (ofInt w s) := by
  obtain ⟨a, ha, hadvanced⟩ := advancedInitial_inRange hw hw' hi.inRange hs
  have hguard := recurrenceFacts_sound hw hw' f _ bounds step ha hb hs
  rw [hadvanced] at hguard
  have hzero : step.asExactI64 = none →
      (recurrenceFacts f w (advancedInitial w initialValues step) bounds step).tripCount = 0 :=
    recurrenceFacts_tripCount_eq_zero hw hw' f _ bounds
  unfold nextGuardRecurrenceFacts
  by_cases hfloat : initialValues.isFloat = true ∨ bounds.isFloat = true ∨ step.isFloat = true
  · rw [if_pos hfloat]
    exact absurd rfl
  rw [if_neg hfloat]
  simp only
  generalize recurrenceFacts f w (advancedInitial w initialValues step) bounds step = guard at *
  by_cases hunknown : guard.tripCountKind = .unknown
  · rw [if_pos hunknown]
    exact absurd hunknown
  rw [if_neg hunknown]
  obtain ⟨n, hruns, hcount, -⟩ := hguard hunknown
  refine fun _ => ⟨n, hruns.next, ?_⟩
  obtain ⟨hle, heq⟩ := hcount.le hunknown
  have hadmits := additiveRecurrenceFacts_admits hi (step.asExactI64.getD 0) guard.tripCount
  have hcounts :=
    additiveRecurrenceFacts_count initialValues (step.asExactI64.getD 0) guard.tripCount
  rcases hadd : additiveRecurrenceFacts initialValues (step.asExactI64.getD 0) guard.tripCount with
    ⟨proven, carried⟩
  rw [hadd] at hadmits hcounts
  simp only at hadmits hcounts ⊢
  by_cases hproven : (!(proven && carried.values.fitSignedBitCount w)) = true
  · rw [if_pos hproven]
    exact ⟨hcount, fun _ => observes_unknown hw hw' rfl rfl rfl _ _ _⟩
  rw [if_neg hproven]
  rw [Bool.not_eq_true', Bool.not_eq_false, Bool.and_eq_true] at hproven
  have hsequence : carried.AdmitsSequence i s guard.tripCount.toNat := by
    have h := hadmits hproven.1
    cases hstep : step.asExactI64 with
    | some =>
      rw [hstep] at h
      rwa [inRange_of_asExactI64 hstep hs]
    | none =>
      rw [hstep] at h
      rw [hzero hstep, UInt64.toNat_zero] at h ⊢
      have h0 := h.values 0 (Nat.le_refl 0)
      rw [Int.natCast_zero, Int.zero_mul] at h0
      refine ⟨fun k hk => ?_, fun k hk => absurd hk (Nat.not_lt_zero k), ?_⟩
      · rwa [Nat.le_zero.mp hk, Int.natCast_zero, Int.zero_mul]
      · have hexit := h.exitValue
        rw [Int.natCast_zero, Int.zero_mul] at hexit ⊢
        exact hexit
  refine ⟨?_, fun _ => observes_of_admitsSequence hw hw' hle hsequence hproven.2 rfl rfl ?_⟩
  · simpa only [RecurrenceFacts.Counts, hcounts.1] using hcount
  split_ifs with hbounded
  · exact hsequence.values n hle
  rw [heq hbounded]
  exact hsequence.exitValue

end

/-- Recurrence facts contain every execution: for all operands that the facts admit, a reported
count is met by the machine loop guarded on the current, respectively the next, state, and the
reported facts admit the signed value of its state at every header visit, at every body entry and
at the exit. -/
theorem recurrenceFacts_contain_executions (hw : 0 < w) (hw' : w ≤ 64) (f : LoopBoundFlags)
    (initialValues bounds step : ValueFacts) {i b s : ℤ} (hi : initialValues.Admits i)
    (hb : bounds.Admits b) (hs : step.Admits s) :
    ((recurrenceFacts f w initialValues bounds step).tripCountKind ≠ .unknown →
      ∃ n, Runs f (BitVec.ofInt w i) (BitVec.ofInt w b) (BitVec.ofInt w s) n ∧
        (recurrenceFacts f w initialValues bounds step).Counts n ∧
        (recurrenceFacts f w initialValues bounds step).Observes
          (BitVec.ofInt w i) (BitVec.ofInt w s) n) ∧
    ((nextGuardRecurrenceFacts f w initialValues bounds step).tripCountKind ≠ .unknown →
      ∃ n, RunsNext f (BitVec.ofInt w i) (BitVec.ofInt w b) (BitVec.ofInt w s) n ∧
        (nextGuardRecurrenceFacts f w initialValues bounds step).Counts n ∧
        (nextGuardRecurrenceFacts f w initialValues bounds step).Observes
          (BitVec.ofInt w i) (BitVec.ofInt w s) n) := by
  constructor
  · intro hkind
    obtain ⟨n, hruns, hcount, hobserves⟩ := recurrenceFacts_sound hw hw' f initialValues bounds step
      hi.inRange hb.inRange hs.inRange hkind
    exact ⟨n, hruns, hcount, hobserves hi⟩
  · intro hkind
    obtain ⟨n, hruns, hcount, hobserves⟩ := nextGuardRecurrenceFacts_sound hw hw' f initialValues
      bounds step hi hb.inRange hs.inRange hkind
    exact ⟨n, hruns, hcount, hobserves trivial⟩

/-- Initial values `4` to `20` by fours, stepped by `8` up to a bound of `30` to `50` on eight bits:
at most six executions, at multiples of four. -/
theorem recurrenceFacts_contain_executions_ranged :
    (recurrenceFacts ⟨true, false, false⟩ 8 (make 4 20 4) (make 30 50 1)
      (exactI64 8)).tripCountKind =
        .bounded ∧
      ∃ n ≤ 6, Runs (w := 8) ⟨true, false, false⟩ (ofInt 8 12) (ofInt 8 45)
        (ofInt 8 8) n := by
  have hkind : (recurrenceFacts ⟨true, false, false⟩ 8 (make 4 20 4) (make 30 50 1)
      (exactI64 8)).tripCountKind = .bounded := by decide
  have hcount : (recurrenceFacts ⟨true, false, false⟩ 8 (make 4 20 4) (make 30 50 1)
      (exactI64 8)).tripCount = 6 := by decide
  obtain ⟨n, hruns, hle, -⟩ := (recurrenceFacts_contain_executions (w := 8) (by decide) (by decide)
    ⟨true, false, false⟩ (make 4 20 4) (make 30 50 1) (exactI64 8) (i := 12) (b := 45) (s := 8)
    (make_admits (by decide) (by decide) (by decide))
      (make_admits (by decide) (by decide) (by decide))
    (exactI64_admits 8)).1 (by rw [hkind]; decide)
  simp only [RecurrenceFacts.Counts, hkind, hcount] at hle
  exact ⟨hkind, n, hle, hruns⟩

end Hrx.LoopDomain
