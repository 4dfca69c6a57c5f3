import Hrx.Facts.Equiv.Division
import Hrx.LoopDomain.ShiftToZero

/-!
# Loops that shift to zero

The loop sees a natural number at its header, the raw bits of its state.  After `n` executions these
are the initial bits without the lowest `n` shifts, and the loop is left once none remain.
-/

namespace Hrx.LoopDomain

open Facts IntegerFacts

/-! ### The loop -/

/-- What the header of the loop can see after a number of executions of the body. -/
inductive Header (initial shift : ℕ) : ℕ → ℕ → Prop
  | entry : Header initial shift 0 initial
  | back {n state : ℕ} : Header initial shift n state → state ≠ 0 →
      Header initial shift (n + 1) (state >>> shift)

/-- The reported count and facts describe the loop over the given bits. -/
structure ShiftRecurrenceFacts.Describes (facts : ShiftRecurrenceFacts)
    (bitwidth initial shift : ℕ) : Prop where
  exits : ∃ n, Header initial shift n 0
  tripCount : ∀ n, Header initial shift n 0 →
    n ≤ facts.tripCount ∧ (facts.tripCountKind = .exact → n = facts.tripCount)
  values : ∀ n state, Header initial shift n state →
    facts.values.Admits (represent bitwidth state)
  bodyValues : ∀ n state, Header initial shift n state → state ≠ 0 →
    facts.bodyValues.Admits (represent bitwidth state)
  exitValue : ∀ n, Header initial shift n 0 → facts.exitValue.Admits (represent bitwidth 0)

def executions (initial shift : ℕ) : ℕ := shiftTripCount (activeBitCount initial) shift

variable {initial shift n state bits bitwidth : ℕ}

lemma activeBitCount_le_iff (hinitial : initial < 2 ^ 64) :
    activeBitCount initial ≤ n ↔ initial < 2 ^ n := by
  unfold activeBitCount
  split_ifs with hzero
  · simp [hzero]
  · have hlog := (Nat.log2_lt hzero).mpr hinitial
    rw [← Nat.log2_lt hzero]
    omega

lemma lt_shiftTripCount_iff (hshift : 0 < shift) :
    n < shiftTripCount bits shift ↔ n * shift < bits := by
  unfold shiftTripCount
  rw [← Nat.succ_le_iff, Nat.le_div_iff_mul_le hshift, Nat.succ_mul]
  omega

lemma executions_le (h : activeBitCount initial ≤ bits) (shift : ℕ) :
    executions initial shift ≤ shiftTripCount bits shift :=
  Nat.div_le_div_right (by omega)

section

variable (hinitial : initial < 2 ^ 64) (hshift : 0 < shift)
include hinitial hshift

/-- The loop continues as long as active bits remain. -/
lemma shiftRight_eq_zero_iff : initial >>> (n * shift) = 0 ↔ executions initial shift ≤ n := by
  rw [executions, ← Nat.not_lt, lt_shiftTripCount_iff hshift, Nat.not_lt,
    activeBitCount_le_iff hinitial, Nat.shiftRight_eq_div_pow,
    Nat.div_eq_zero_iff_lt (Nat.two_pow_pos _)]

lemma header_iff : Header initial shift n state ↔
    n ≤ executions initial shift ∧ state = initial >>> (n * shift) := by
  have hend {n} := shiftRight_eq_zero_iff (n := n) hinitial hshift
  constructor
  · intro h
    induction h with
    | entry => exact ⟨Nat.zero_le _, by rw [Nat.zero_mul]; rfl⟩
    | back _ hne ih =>
      obtain ⟨-, rfl⟩ := ih
      refine ⟨Nat.not_le.mp (mt hend.mpr hne), ?_⟩
      rw [Nat.succ_mul, Nat.shiftRight_add]
  · rintro ⟨hle, rfl⟩
    induction n with
    | zero =>
      rw [Nat.zero_mul]
      exact .entry
    | succ n ih =>
      rw [Nat.succ_mul, Nat.shiftRight_add]
      exact .back (ih (by omega)) (mt hend.mp (by omega))

/-- Facts describe the loop if they hold after each number of executions. -/
lemma describes_of_executions {result : ShiftRecurrenceFacts}
    (hcount : executions initial shift ≤ result.tripCount)
    (hexact : result.tripCountKind = .exact → executions initial shift = result.tripCount)
    (hvalues : ∀ n, result.values.Admits (represent bitwidth (initial >>> (n * shift) : ℕ)))
    (hbody : ∀ n < executions initial shift,
      result.bodyValues.Admits (represent bitwidth (initial >>> (n * shift) : ℕ)))
    (hexit : result.exitValue.Admits
      (represent bitwidth (initial >>> (executions initial shift * shift) : ℕ))) :
    result.Describes bitwidth initial shift := by
  have hend {n} := shiftRight_eq_zero_iff (n := n) hinitial hshift
  have hzero := hend.mpr le_rfl
  have hlast : ∀ {n}, Header initial shift n 0 → n = executions initial shift := by
    intro n hn
    obtain ⟨hle, hstate⟩ := (header_iff hinitial hshift).mp hn
    exact hle.antisymm (hend.mp hstate.symm)
  constructor
  case exits => exact ⟨_, (header_iff hinitial hshift).mpr ⟨le_rfl, hzero.symm⟩⟩
  case tripCount => exact fun n hn => hlast hn ▸ ⟨hcount, hexact⟩
  case values =>
    intro n state hn
    obtain ⟨-, rfl⟩ := (header_iff hinitial hshift).mp hn
    exact hvalues n
  case bodyValues =>
    intro n state hn hne
    obtain ⟨-, rfl⟩ := (header_iff hinitial hshift).mp hn
    exact hbody n (Nat.not_le.mp (mt hend.mpr hne))
  case exitValue =>
    intro _ _
    rw [hzero] at hexit
    exact hexit

end

/-! ### The reported facts -/

variable {v : ℤ} {facts : IntegerFacts}

lemma raw_lt_two_pow_64 (h64 : bitwidth ≤ 64) (v : ℤ) : raw bitwidth v < 2 ^ 64 :=
  (raw_lt bitwidth v).trans_le (Nat.pow_le_pow_right (by decide) h64)

/-- After the first execution the state is below the sign bit. -/
lemma represent_shiftRight (hw : 0 < bitwidth) (hn : 0 < n) :
    represent bitwidth (raw bitwidth v >>> n : ℕ) = (raw bitwidth v >>> n : ℕ) := by
  have hraw := raw_lt bitwidth v
  rw [Nat.shiftRight_eq_div_pow, represent_natCast hw ((Nat.div_le_self _ _).trans_lt hraw), if_pos]
  right
  apply Nat.div_lt_of_lt_mul
  rw [← Nat.pow_add]
  exact hraw.trans_le (Nat.pow_le_pow_right (by decide) (by omega))

/-- An exact word stays exact at every width. -/
lemma wrapInteger_isExact (hw : 0 < bitwidth) (h64 : bitwidth ≤ 64) (h : facts.isExact = true) :
    (facts.wrapInteger bitwidth).isExact = true := by
  rw [wrapInteger_eq hw h64]
  split_ifs
  · exact h
  · exact decide_eq_true rfl

section

variable (hw : 0 < bitwidth) (h64 : bitwidth ≤ 64) (hv : IsRepresented bitwidth v)
  (hshift : 0 < shift)
include hw h64 hv hshift

/-- From an exact initial value the last state in the body is the least after the initial one. -/
lemma finalBodyValue_le (hlo : v = facts.rangeLo) {trips : ℕ} (hn : n < trips) :
    min facts.rangeLo (toI64 (raw bitwidth v >>> ((trips - 1) * shift))) ≤
      represent bitwidth (raw bitwidth v >>> (n * shift) : ℕ) := by
  rcases Nat.eq_zero_or_pos n with rfl | hpos
  · rw [Nat.zero_mul, Nat.shiftRight_zero, represent_raw hw hv, ← hlo]
    exact min_le_left _ _
  have hle : n * shift ≤ (trips - 1) * shift := Nat.mul_le_mul_right _ (by omega)
  have hmul := Nat.mul_pos hpos hshift
  have hself := represent_shiftRight (v := v) hw (hmul.trans_le hle)
  have hword := isI64_represented h64
    (represent_spec hw (raw bitwidth v >>> ((trips - 1) * shift) : ℕ)).1
  rw [represent_shiftRight hw hmul, toI64_of_lt (by have := hword.2; omega)]
  refine (min_le_right _ _).trans (Int.ofNat_le.mpr ?_)
  rw [Nat.shiftRight_eq_div_pow, Nat.shiftRight_eq_div_pow]
  exact Nat.div_le_div_left (Nat.pow_le_pow_right (by decide) hle) (Nat.two_pow_pos _)

variable (h : facts.Admits v)
include h

/-- A state in the body is not zero, so it is positive unless it is the initial one. -/
lemma bodyLower_le (hn : n < executions (raw bitwidth v) shift) :
    (if facts.rangeLo < 0 then facts.rangeLo else 1) ≤
      represent bitwidth (raw bitwidth v >>> (n * shift) : ℕ) := by
  have hlo := (h.bounds (isI64_represented h64 hv)).1
  rw [← Nat.not_le, ← shiftRight_eq_zero_iff (raw_lt_two_pow_64 h64 v) hshift] at hn
  rcases Nat.eq_zero_or_pos n with rfl | hpos
  · rw [Nat.zero_mul, Nat.shiftRight_zero] at hn ⊢
    have hcast := cast_raw_eq hw hv
    rw [represent_raw hw hv]
    split_ifs at hcast ⊢ <;> omega
  · rw [represent_shiftRight hw (Nat.mul_pos hpos hshift)]
    generalize raw bitwidth v >>> (n * shift) = state at hn ⊢
    split_ifs <;> omega

/-- Where no bits are active the loop is left at once. -/
lemma describes_initial (hzero : executions (raw bitwidth v) shift = 0) :
    ShiftRecurrenceFacts.Describes ⟨facts, unknown, facts, 0, .exact⟩ bitwidth (raw bitwidth v)
      shift := by
  have hraw := raw_lt_two_pow_64 h64 v
  have hstate : ∀ n, represent bitwidth (raw bitwidth v >>> (n * shift) : ℕ) = v := by
    intro n
    have hv0 := (shiftRight_eq_zero_iff (n := 0) hraw hshift).mpr hzero.le
    have hvalue := represent_raw hw hv
    rw [Nat.zero_mul, Nat.shiftRight_zero] at hv0
    rw [hv0] at hvalue ⊢
    rw [Nat.zero_shiftRight, hvalue]
  refine describes_of_executions hraw hshift hzero.le (fun _ => hzero) (fun n => ?_)
    (fun n hn => ?_) ?_
  · exact (hstate n).symm ▸ h
  · exact absurd hn (by omega)
  · exact (hstate _).symm ▸ h

variable (hf : facts.WellFormed)
include hf

omit hshift in
/-- The bits of the facts are at least those of the state. -/
lemma activeBitCount_raw_le :
    activeBitCount (raw bitwidth v) ≤
      if facts.rangeLo < 0 then bitwidth else activeBitCount (toU64 facts.rangeHi) := by
  obtain ⟨hlo, hhi⟩ := h.bounds (isI64_represented h64 hv)
  rw [activeBitCount_le_iff (raw_lt_two_pow_64 h64 v)]
  split_ifs with hneg
  · exact raw_lt bitwidth v
  have hcast := cast_raw_eq hw hv
  have hword := cast_toU64_of_nonneg (by omega) hf.rangeHi
  have hlt := hf.rangeHi.2
  have hbits := (activeBitCount_le_iff (show toU64 facts.rangeHi < 2 ^ 64 by omega)).mp le_rfl
  omega

variable (hlt : shift < bitwidth)
include hlt

/-- The ranges over all executions. -/
lemma state_bounds (n : ℕ) :
    min facts.rangeLo 0 ≤ represent bitwidth (raw bitwidth v >>> (n * shift) : ℕ) ∧
      represent bitwidth (raw bitwidth v >>> (n * shift) : ℕ) ≤
        max facts.rangeHi (shrui facts (exactI64 shift) bitwidth).rangeHi := by
  obtain ⟨hlo, hhi⟩ := h.bounds (isI64_represented h64 hv)
  cases n with
  | zero =>
    rw [Nat.zero_mul, Nat.shiftRight_zero, represent_raw hw hv]
    omega
  | succ n =>
    have hfirst : (shrui facts (exactI64 shift) bitwidth).Admits _ :=
      shrui_admits hw h64 hf hv h rfl rfl hlt
    have hhi := (hfirst.bounds (isI64_represented h64 (represent_spec hw _).1)).2
    have hle : raw bitwidth v >>> ((n + 1) * shift) ≤ raw bitwidth v >>> shift := by
      rw [Nat.succ_mul, Nat.add_comm, Nat.shiftRight_add]
      exact Nat.shiftRight_le _ _
    rw [← Nat.shiftRight_eq_div_pow, represent_shiftRight hw hshift] at hhi
    rw [represent_shiftRight hw (by rw [Nat.succ_mul]; omega)]
    refine ⟨(min_le_right _ _).trans (Int.natCast_nonneg _), ?_⟩
    exact (Int.ofNat_le.mpr hle).trans (hhi.trans (le_max_right _ _))

/-- What is reported where the body is executed, for a lower bound of the states in the body. -/
lemma describes_make {lower : ℤ} {kind : TripCountKind}
    (hbits : activeBitCount (raw bitwidth v) ≤ bits)
    (hexact : kind = .exact → activeBitCount (raw bitwidth v) = bits) (hlower : IsI64 lower)
    (hbody : ∀ n < executions (raw bitwidth v) shift,
      lower ≤ represent bitwidth (raw bitwidth v >>> (n * shift) : ℕ)) :
    ShiftRecurrenceFacts.Describes
      { values := make (min facts.rangeLo 0)
          (max facts.rangeHi (shrui facts (exactI64 shift) bitwidth).rangeHi) 1
        bodyValues := make lower
          (max facts.rangeHi (shrui facts (exactI64 shift) bitwidth).rangeHi) 1
        exitValue := exactI64 0
        tripCount := shiftTripCount bits shift
        tripCountKind := kind } bitwidth (raw bitwidth v) shift := by
  have hraw := raw_lt_two_pow_64 h64 v
  have hstate := state_bounds hw h64 hv hshift h hf hlt
  apply describes_of_executions hraw hshift
  case hcount => exact executions_le hbits shift
  case hexact => exact fun hkind => by rw [executions, hexact hkind]
  case hvalues =>
    exact fun n => make_admits (min_rec' IsI64 hf.rangeLo isI64_zero) (hstate n).1 (hstate n).2
      (Int.one_dvd _)
  case hbody => exact fun n hn => make_admits hlower (hbody n hn) (hstate n).2 (Int.one_dvd _)
  case hexit =>
    rw [(shiftRight_eq_zero_iff hraw hshift).mpr le_rfl]
    exact (represent_eq_self hw (zero_isRepresented hw)).symm ▸ exactI64_admits isI64_zero

end

/-- The facts of a loop that shifts to zero describe it from every initial state that the facts
about the initial value admit, and count exactly if that value is exact. -/
theorem shruiToZeroRecurrenceFacts_describes {initialValues shiftFacts : IntegerFacts} {shift : ℕ}
    (hw : 1 ≤ bitwidth) (h64 : bitwidth ≤ 64) (hf : initialValues.WellFormed)
    (hexact : shiftFacts.asExactI64 = some (shift : ℤ)) (hshift : 1 ≤ shift)
    (hlt : shift < bitwidth)
    (hv : IsRepresented bitwidth v) (h : (initialValues.wrapInteger bitwidth).Admits v) :
    let result := shruiToZeroRecurrenceFacts bitwidth initialValues shiftFacts
    result.Describes bitwidth (raw bitwidth v) shift ∧ result.tripCountKind ≠ .unknown ∧
      (initialValues.isExact = true → result.tripCountKind = .exact) := by
  have hwf := wrapInteger_wellFormed hf hw h64
  have hkeeps : initialValues.isExact = true → _ := wrapInteger_isExact hw h64
  have hbits := asExactRawBits_eq hwf hw h64
  have hactive := activeBitCount_raw_le hw h64 hv h hwf
  unfold shruiToZeroRecurrenceFacts isFloat
  rw [hexact]
  dsimp only
  rw [hf.not_float, if_neg (by simp; omega), Int.toNat_natCast, hbits]
  generalize initialValues.wrapInteger bitwidth = facts at *
  by_cases hfacts : facts.isExact = true
  · have hlo := hwf.eq_rangeLo_of_exact hfacts h
    rw [if_pos hfacts, show (facts.rangeLo % 2 ^ bitwidth).toNat = raw bitwidth v by rw [hlo]; rfl]
    dsimp only
    split
    case isTrue hzero => exact ⟨describes_initial hw h64 hv hshift h hzero, nofun, fun _ => rfl⟩
    case isFalse =>
      refine ⟨describes_make hw h64 hv hshift h hwf hlt le_rfl (fun _ => rfl) ?_
        fun n hn => ?_, nofun,
        fun _ => rfl⟩
      · exact min_rec' IsI64 hwf.rangeLo (isI64_bmod (show 0 < 64 by decide) le_rfl _)
      · exact finalBodyValue_le hw h64 hv hshift hlo hn
  · rw [if_neg hfacts]
    dsimp only
    generalize (if facts.rangeLo < 0 then bitwidth else activeBitCount (toU64 facts.rangeHi)) = bits
      at hactive ⊢
    by_cases hzero : shiftTripCount bits shift = 0
    · have hnone := executions_le hactive shift
      rw [hzero, Nat.le_zero] at hnone
      rw [if_pos hzero]
      exact ⟨describes_initial hw h64 hv hshift h hnone, nofun, fun _ => rfl⟩
    · rw [if_neg hzero]
      refine ⟨describes_make hw h64 hv hshift h hwf hlt hactive nofun ?_ fun n hn =>
        bodyLower_le hw h64 hv hshift h hn, nofun, fun hinitial => absurd (hkeeps hinitial) hfacts⟩
      split_ifs
      · exact hwf.rangeLo
      · decide

/-- Facts across zero admit a state whose sign bit is set. -/
theorem shruiToZeroRecurrenceFacts_describes_crossing :
    (shruiToZeroRecurrenceFacts 8 (make (-8) 8 4) (exactI64 3)).Describes 8 252 3 ∧
      (shruiToZeroRecurrenceFacts 8 (make (-8) 8 4) (exactI64 3)).tripCount = 3 := by
  have hf : (make (-8) 8 4).WellFormed := make_wellFormed (by decide) (by decide) (by decide)
  have h : ((make (-8) 8 4).wrapInteger 8).Admits (-4) :=
    wrapInteger_admits (v := -4) hf (by decide) (by decide)
      (make_admits (by decide) (by decide) (by decide) (by decide))
  exact ⟨(shruiToZeroRecurrenceFacts_describes (by decide) (by decide) hf rfl
    (by decide) (by decide)
    (by decide) h).1, by decide⟩

end Hrx.LoopDomain
