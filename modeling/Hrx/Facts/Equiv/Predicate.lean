import Hrx.Facts.Equiv.Integer
import Hrx.Facts.Predicate

/-!
# Predicates keep the values that satisfy them

A predicate says something about the described value, with its other arguments read from an
environment.  Refinement only intersects the interval, multiplies the divisor or sets a flag, so a
satisfying value stays described (`applyPredicate_admits`); for relations of raw bits the two bounds
are intersected with each sign partition (`refineUnsignedOrder_narrows`).
-/

namespace Hrx.Facts

open Option Predicate TwosComplement

/-! ### Meaning -/

variable (kind : PredicateKind)

/-- The relation of two integers that a kind of predicate names; raw bits are those of the 64-bit
carrier. -/
def PredicateKind.Relates (l r : ℤ) : Prop :=
  match kind with
  | .eq => l = r
  | .ne => l ≠ r
  | .lt => l < r
  | .le => l ≤ r
  | .gt => r < l
  | .ge => r ≤ l
  | .multipleOf => 0 < r ∧ r ∣ l
  | .ult => l % 2 ^ 64 < r % 2 ^ 64
  | .ule => l % 2 ^ 64 ≤ r % 2 ^ 64
  | .ugt => r % 2 ^ 64 < l % 2 ^ 64
  | .uge => r % 2 ^ 64 ≤ l % 2 ^ 64
  | .powerOfTwo | .range | .notNan | .notInf | .finite => False

namespace Predicate

/-- An argument, where `env` gives the integers of value IDs. -/
def argument (predicate : Predicate) (env : ℤ → ℤ) (index : Fin 3) : Option ℤ :=
  if predicate.argCount ≤ index then none
  else
    match predicate.argTags index with
    | .none => none
    | .value => some (env (predicate.args index))
    | .const => some (predicate.args index)

def Holds (predicate : Predicate) (env : ℤ → ℤ) (v : ℤ) : Prop :=
  match predicate.kind with
  | .powerOfTwo => ∃ k : ℕ, v = 2 ^ k
  | .range => ∃ lo hi, predicate.argument env 1 = some lo ∧ predicate.argument env 2 = some hi ∧
      lo ≤ v ∧ v ≤ hi
  | kind => ∃ c, predicate.argument env 1 = some c ∧ kind.Relates v c

def IsWords (predicate : Predicate) : Prop := ∀ index, IsI64 (predicate.args index)

variable {predicate : Predicate} {env : ℤ → ℤ} {index : Fin 3} {c v : ℤ}

lemma argument_of_const (hcount : (index : ℕ) < predicate.argCount)
    (htag : predicate.argTags index = .const) :
    predicate.argument env index = some (predicate.args index) := by
  unfold argument
  rw [if_neg (by omega), htag]

lemma argument_of_constArg (h : predicate.constArg index = some c) :
    predicate.argument env index = some c := by
  unfold constArg at h
  split_ifs at h with hcond
  rw [not_or, not_not] at hcond
  rw [argument_of_const (by omega) hcond.2]
  exact h

lemma Holds.relates (h : predicate.Holds env v) (hpow : predicate.kind ≠ .powerOfTwo)
    (hrange : predicate.kind ≠ .range) :
    ∃ c, predicate.argument env 1 = some c ∧ predicate.kind.Relates v c := by
  unfold Holds at h
  cases hk : predicate.kind <;> rw [hk] at h hpow hrange
  case powerOfTwo => exact absurd rfl hpow
  case range => exact absurd rfl hrange
  all_goals exact h

/-- A constant argument is the one that the predicate relates to. -/
lemma Holds.relates_constArg (h : predicate.Holds env v) (hc : predicate.constArg 1 = some c)
    (hpow : predicate.kind ≠ .powerOfTwo) (hrange : predicate.kind ≠ .range) :
    predicate.kind.Relates v c := by
  obtain ⟨c', harg, hrel⟩ := h.relates hpow hrange
  rw [argument_of_constArg hc] at harg
  rwa [Option.some.inj harg]

/-- Predicates of a floating-point class hold of no integer. -/
lemma Holds.not_floatClass (h : predicate.Holds env v) : predicate.kind.isFloatClass = false := by
  by_contra hclass
  rw [Bool.not_eq_false, PredicateKind.isFloatClass, decide_eq_true_eq] at hclass
  unfold Holds at h
  rcases hclass with hk | hk | hk <;> rw [hk] at h <;> obtain ⟨c, -, hfalse⟩ := h <;> exact hfalse

/-- The constant of a predicate that is applied is its second argument. -/
lemma constant_eq (env : ℤ → ℤ) (hargs : predicate.hasArgs = true)
    (hkind : predicate.kind ≠ .powerOfTwo)
    (hrange : predicate.kind ≠ .range) (hfloat : predicate.kind.isFloatClass = false) :
    (if predicate.argCount > 1 then predicate.args 1 else 0) = predicate.args 1 ∧
      predicate.argument env 1 = some (predicate.args 1) := by
  unfold hasArgs at hargs
  rw [if_neg (by simp [hkind, hfloat]), if_neg hrange, decide_eq_true_eq] at hargs
  exact ⟨if_pos (by omega), argument_of_const hargs.1 hargs.2.2⟩

end Predicate

/-! ### Raw bits -/

/-- Raw bits at 64 bits, by the sign. -/
lemma cast_toU64_eq {v : ℤ} (hv : IsI64 v) : (toU64 v : ℤ) = if v < 0 then v + 2 ^ 64 else v := by
  obtain ⟨hlo, hhi⟩ := hv
  rw [cast_toU64]
  split_ifs with h <;> omega

/-- The order of raw bits: nonnegative words come first. -/
lemma toU64_le_iff {a b : ℤ} (ha : IsI64 a) (hb : IsI64 b) :
    toU64 a ≤ toU64 b ↔ a ≤ b ∧ (0 ≤ a ∨ b < 0) ∨ 0 ≤ a ∧ b < 0 := by
  have ha' := cast_toU64_eq ha
  have hb' := cast_toU64_eq hb
  obtain ⟨hlo, hlo'⟩ := ha
  obtain ⟨hhi, hhi'⟩ := hb
  split_ifs at ha' hb' <;> omega

lemma unsignedRelationHolds_iff {kind : PredicateKind} {l r : ℤ}
    (hkind : kind = .ult ∨ kind = .ule ∨ kind = .ugt ∨ kind = .uge) :
    unsignedRelationHolds kind l r = true ↔ kind.Relates l r := by
  have hl := cast_toU64 l
  have hr := cast_toU64 r
  rcases hkind with rfl | rfl | rfl | rfl <;>
    simp only [unsignedRelationHolds, PredicateKind.Relates, decide_eq_true_eq] <;> omega

lemma Flags.Hold.union {a b : Flags} {v : ℤ} (ha : a.Hold v) (hb : b.Hold v) :
    (a.union b).Hold v := by
  constructor <;> simp only [Flags.union, Bool.or_eq_true]
  · exact fun h => h.elim ha.nonNegative hb.nonNegative
  · exact fun h => h.elim ha.nonZero hb.nonZero
  · exact fun h => h.elim ha.positive hb.positive
  · exact fun h => h.elim ha.powerOfTwo hb.powerOfTwo
  · exact fun h => h.elim ha.boolean hb.boolean

namespace IntegerFacts

variable {facts result lhs rhs : IntegerFacts} {v l r : ℤ}

/-! ### Refinement of facts -/

/-- Another interval that holds the integer. -/
lemma Admits.withRange (h : facts.Admits v) {lo hi : ℤ} (hlo : lo ≤ v) (hhi : v ≤ hi) :
    ({ facts with rangeLo := lo, rangeHi := hi } : IntegerFacts).Admits v :=
  ⟨Or.inr ⟨hlo, hhi⟩, h.dvd, h.flags⟩

lemma recomputeFlags_admits (h : facts.Admits v) (hlo64 : IsI64 facts.rangeLo) (hv : IsI64 v) :
    facts.recomputeFlags.Admits v := by
  obtain ⟨hlo, hhi⟩ := h.bounds hv
  refine ⟨h.inRange, h.dvd, (computeFlags_hold hlo64 hlo hhi).union ?_⟩
  constructor <;> intro hflag <;> first | exact h.flags.powerOfTwo hflag | cases hflag

structure Shaped (facts : IntegerFacts) : Prop where
  rangeLo : IsI64 facts.rangeLo
  rangeHi : IsI64 facts.rangeHi
  one_le : 1 ≤ facts.knownDivisor
  knownDivisor : IsI64 facts.knownDivisor
  not_float : facts.flags.floating.float = false

lemma WellFormed.shaped (hf : facts.WellFormed) : facts.Shaped :=
  { hf with }

lemma Shaped.recomputeFlags (hf : facts.Shaped) (condition : Bool) :
    (facts.recomputeFlags.withNonZero condition).WellFormed where
  rangeLo := hf.rangeLo
  rangeHi := hf.rangeHi
  one_le := hf.one_le
  knownDivisor := hf.knownDivisor
  exact_iff := by
    simp [IntegerFacts.recomputeFlags, withNonZero, Flags.union, computeFlags]
  not_float := by
    simp [IntegerFacts.recomputeFlags, withNonZero, Flags.union, FloatFlags.union, computeFlags,
      hf.not_float]

/-! ### Divisible ranges -/

lemma le_of_dvd_of_lt_add {d a b : ℤ} (ha : d ∣ a) (hb : d ∣ b) (h : a < b + d) (hd : 0 < d) :
    a ≤ b := by
  obtain ⟨x, rfl⟩ := ha
  obtain ⟨y, rfl⟩ := hb
  have hlt : d * x < d * (y + 1) := by rwa [Int.mul_add, Int.mul_one]
  exact Int.mul_le_mul_of_nonneg_left (Int.le_of_lt_add_one
      (Int.lt_of_mul_lt_mul_left hlt hd.le)) hd.le

/-- The least multiple from a bound on. -/
lemma roundUp_spec {d x adjustment : ℤ} (hd : 0 < d)
    (h : adjustment = if x.tmod d > 0 then d - x.tmod d else -x.tmod d) :
    d ∣ x + adjustment ∧ x ≤ x + adjustment ∧ ∀ m, d ∣ m → x ≤ m → x + adjustment ≤ m := by
  have hdiv := Int.mul_tdiv_add_tmod x d
  have hlt := Int.tmod_lt_of_pos x hd
  have hgt := Int.lt_tmod_of_pos x hd
  have hmul : d ∣ x + adjustment := by
    split_ifs at h
    · exact ⟨x.tdiv d + 1, by rw [Int.mul_add]; omega⟩
    · exact ⟨x.tdiv d, by omega⟩
  exact ⟨hmul, by omega, fun m hm hx => le_of_dvd_of_lt_add hmul hm (by omega) hd⟩

/-- The greatest multiple up to a bound. -/
lemma roundDown_spec {d x adjustment : ℤ} (hd : 0 < d)
    (h : adjustment = if x.tmod d < 0 then d + x.tmod d else x.tmod d) :
    d ∣ x - adjustment ∧ x - adjustment ≤ x ∧ ∀ m, d ∣ m → m ≤ x → m ≤ x - adjustment := by
  have hneg : adjustment = if (-x).tmod d > 0 then d - (-x).tmod d else -(-x).tmod d := by
    rw [Int.neg_tmod]
    omega
  obtain ⟨hdvd, hge, hleast⟩ := roundUp_spec hd hneg
  rw [← Int.dvd_neg, Int.neg_add, Int.neg_neg] at hdvd
  refine ⟨hdvd, by omega, fun m hm hx => ?_⟩
  have := hleast (-m) (Int.dvd_neg.mpr hm) (by omega)
  omega

section

variable (hf : facts.Shaped)
include hf

lemma divisibleLower_spec (hd : 1 < facts.knownDivisor) :
    (∀ lower, facts.divisibleLower = some lower → IsI64 lower ∧ facts.rangeLo ≤ lower ∧
      (lower ≠ -2 ^ 63 → facts.knownDivisor ∣ lower)) ∧
    ∀ m, IsI64 m → facts.knownDivisor ∣ m → facts.rangeLo ≤ m →
      ∃ lower ≤ m, facts.divisibleLower = some lower := by
  obtain ⟨hlo, hhi⟩ := hf.rangeLo
  unfold divisibleLower
  by_cases hmin : facts.rangeLo = -2 ^ 63
  · rw [if_neg (by omega)]
    refine ⟨fun lower h => ?_, fun m hm64 hm hle => ⟨facts.rangeLo, hle, rfl⟩⟩
    rw [← Option.some.inj h]
    exact ⟨hf.rangeLo, le_rfl, fun hne => absurd hmin hne⟩
  rw [if_pos hmin]
  dsimp only
  generalize hadj : (if facts.rangeLo.tmod facts.knownDivisor > 0 then
    facts.knownDivisor - facts.rangeLo.tmod facts.knownDivisor
    else -facts.rangeLo.tmod facts.knownDivisor) = adjustment
  obtain ⟨hdvd, hge, hleast⟩ := roundUp_spec (by omega) hadj.symm
  unfold checkedAddI64
  refine ⟨fun lower h => ?_, fun m hm64 hm hle => ?_⟩
  · split_ifs at h with hrange
    rw [← Option.some.inj h]
    exact ⟨⟨by omega, by omega⟩, hge, fun _ => hdvd⟩
  · have hle' := hleast m hm hle
    obtain ⟨-, hm63⟩ := hm64
    exact ⟨facts.rangeLo + adjustment, hle', if_pos ⟨by omega, by omega⟩⟩

lemma divisibleUpper_spec (hd : 1 < facts.knownDivisor) :
    (∀ upper, facts.divisibleUpper = some upper → IsI64 upper ∧ upper ≤ facts.rangeHi ∧
      (upper ≠ 2 ^ 63 - 1 → facts.knownDivisor ∣ upper)) ∧
    ∀ m, IsI64 m → facts.knownDivisor ∣ m → m ≤ facts.rangeHi →
      ∃ upper ≥ m, facts.divisibleUpper = some upper := by
  obtain ⟨hlo, hhi⟩ := hf.rangeHi
  unfold divisibleUpper
  by_cases hmax : facts.rangeHi = 2 ^ 63 - 1
  · rw [if_neg (by omega)]
    refine ⟨fun upper h => ?_, fun m hm64 hm hle => ⟨facts.rangeHi, hle, rfl⟩⟩
    rw [← Option.some.inj h]
    exact ⟨hf.rangeHi, le_rfl, fun hne => absurd hmax hne⟩
  rw [if_pos hmax]
  dsimp only
  generalize hadj : (if facts.rangeHi.tmod facts.knownDivisor < 0 then
    facts.knownDivisor + facts.rangeHi.tmod facts.knownDivisor
    else facts.rangeHi.tmod facts.knownDivisor) = adjustment
  obtain ⟨hdvd, hge, hgreatest⟩ := roundDown_spec (by omega) hadj.symm
  unfold checkedSubI64
  refine ⟨fun upper h => ?_, fun m hm64 hm hle => ?_⟩
  · split_ifs at h with hrange
    rw [← Option.some.inj h]
    exact ⟨⟨by omega, by omega⟩, hge, fun _ => hdvd⟩
  · have hge' := hgreatest m hm hle
    obtain ⟨hm63, -⟩ := hm64
    exact ⟨facts.rangeHi - adjustment, hge', if_pos ⟨by omega, by omega⟩⟩

/-- The interval is unchanged, or its endpoints are multiples or unbounded.  It is unchanged only
where it holds no multiple, or where the divisor says nothing. -/
lemma refineDivisibleRange_cases : (facts.refineDivisibleRange = facts ∧ (1 < facts.knownDivisor →
      ¬∃ m, IsI64 m ∧ facts.knownDivisor ∣ m ∧ facts.rangeLo ≤ m ∧ m ≤ facts.rangeHi)) ∨
    ∃ lower upper, facts.refineDivisibleRange =
        { facts with
          rangeLo := lower
          rangeHi := upper
          flags := facts.flags.union (computeFlags lower upper) } ∧
      IsI64 lower ∧ IsI64 upper ∧ facts.rangeLo ≤ lower ∧ lower ≤ upper ∧ upper ≤ facts.rangeHi ∧
      (lower ≠ -2 ^ 63 → facts.knownDivisor ∣ lower) ∧
      (upper ≠ 2 ^ 63 - 1 → facts.knownDivisor ∣ upper) ∧
      ∀ m, IsI64 m → facts.knownDivisor ∣ m → facts.rangeLo ≤ m → m ≤ facts.rangeHi →
        lower ≤ m ∧ m ≤ upper := by
  unfold refineDivisibleRange isFloat
  rw [hf.not_float]
  by_cases hd : facts.knownDivisor ≤ 1
  · rw [if_pos (Or.inl hd)]
    exact Or.inl ⟨rfl, fun h => absurd h (by omega)⟩
  rw [if_neg (by simp [hd])]
  obtain ⟨hlower, hleast⟩ := divisibleLower_spec hf (by omega)
  obtain ⟨hupper, hgreatest⟩ := divisibleUpper_spec hf (by omega)
  cases hlo : facts.divisibleLower with
  | none =>
    refine Or.inl ⟨rfl, fun _ ⟨m, hm64, hm, hle, _⟩ => ?_⟩
    obtain ⟨lower, -, h⟩ := hleast m hm64 hm hle
    rw [hlo] at h
    cases h
  | some lower =>
    cases hup : facts.divisibleUpper with
    | none =>
      refine Or.inl ⟨rfl, fun _ ⟨m, hm64, hm, _, hge⟩ => ?_⟩
      obtain ⟨upper, -, h⟩ := hgreatest m hm64 hm hge
      rw [hup] at h
      cases h
    | some upper =>
      have hmem : ∀ m, IsI64 m → facts.knownDivisor ∣ m → facts.rangeLo ≤ m → m ≤ facts.rangeHi →
          lower ≤ m ∧ m ≤ upper := by
        intro m hm64 hm hle hge
        obtain ⟨lower', hle', h⟩ := hleast m hm64 hm hle
        obtain ⟨upper', hge', h'⟩ := hgreatest m hm64 hm hge
        rw [hlo] at h
        rw [hup] at h'
        cases h
        cases h'
        exact ⟨hle', hge'⟩
      obtain ⟨hlo64, hlole, hlodvd⟩ := hlower lower hlo
      obtain ⟨hup64, huple, hupdvd⟩ := hupper upper hup
      dsimp only
      by_cases hempty : lower > upper
      · rw [if_pos hempty]
        refine Or.inl ⟨rfl, fun _ ⟨m, hm64, hm, hle, hge⟩ => ?_⟩
        have := hmem m hm64 hm hle hge
        omega
      · rw [if_neg hempty]
        exact Or.inr ⟨lower, upper, rfl, hlo64, hup64, hlole, by omega, huple, hlodvd, hupdvd, hmem⟩

lemma refineDivisibleRange_shaped : facts.refineDivisibleRange.Shaped := by
  rcases refineDivisibleRange_cases hf with ⟨heq, -⟩ | ⟨lower, upper, heq, hlo64, hup64, -⟩
  · rwa [heq]
  · rw [heq]
    refine ⟨hlo64, hup64, hf.one_le, hf.knownDivisor, ?_⟩
    simp [Flags.union, FloatFlags.union, computeFlags, hf.not_float]

lemma refineDivisibleRange_admits (hv : IsI64 v) (h : facts.Admits v) :
    facts.refineDivisibleRange.Admits v := by
  obtain ⟨hle, hge⟩ := h.bounds hv
  rcases refineDivisibleRange_cases hf with
    ⟨heq, -⟩ | ⟨lower, upper, heq, hlo64, hup64, -, -, -, -, -, hmem⟩
  · rwa [heq]
  · rw [heq]
    obtain ⟨hle', hge'⟩ := hmem v hv h.dvd hle hge
    exact ⟨Or.inr ⟨hle', hge'⟩, h.dvd, h.flags.union (computeFlags_hold hlo64 hle' hge')⟩

end

/-! ### Relations -/

/-- The result is no wider than the source: its interval is inside, and no divisor or predicate is
lost. -/
structure Refines (result source : IntegerFacts) : Prop where
  rangeLo : source.rangeLo ≤ result.rangeLo
  rangeHi : result.rangeHi ≤ source.rangeHi
  knownDivisor : result.knownDivisor = source.knownDivisor
  nonZero : source.flags.nonZero = true → result.flags.nonZero = true
  powerOfTwo : source.flags.powerOfTwo = true → result.flags.powerOfTwo = true
  floating : result.flags.floating = source.flags.floating

/-- What is left of the facts is no wider, and keeps the word `v` wherever `p` holds. -/
structure Narrows (p : Prop) (v : ℤ) (source result : IntegerFacts) : Prop where
  refines : result.Refines source
  isI64 : p → IsI64 v
  source : p → source.Admits v
  admits : p → result.Admits v

variable {p : Prop}

lemma Narrows.refl (hv : p → IsI64 v) (h : p → facts.Admits v) : Narrows p v facts facts :=
  ⟨⟨le_rfl, le_rfl, rfl, id, id, rfl⟩, hv, h, h⟩

section

variable (h : Narrows p v facts result)
include h

lemma Narrows.maxRangeLo {lo : ℤ} (hlo : p → lo ≤ v) :
    Narrows p v facts { result with rangeLo := max result.rangeLo lo } where
  refines := { h.refines with rangeLo := h.refines.rangeLo.trans (le_max_left _ _) }
  isI64 := h.isI64
  source := h.source
  admits hp := by
    obtain ⟨hle, hge⟩ := (h.admits hp).bounds (h.isI64 hp)
    exact (h.admits hp).withRange (max_le hle (hlo hp)) hge

lemma Narrows.minRangeHi {hi : ℤ} (hhi : p → v ≤ hi) :
    Narrows p v facts { result with rangeHi := min result.rangeHi hi } where
  refines := { h.refines with rangeHi := (min_le_left _ _).trans h.refines.rangeHi }
  isI64 := h.isI64
  source := h.source
  admits hp := by
    obtain ⟨hle, hge⟩ := (h.admits hp).bounds (h.isI64 hp)
    exact (h.admits hp).withRange hle (le_min hge (hhi hp))

lemma Narrows.shaped (hf : facts.Shaped) (hp : p) : result.Shaped where
  rangeLo := ⟨hf.rangeLo.1.trans h.refines.rangeLo,
    ((h.admits hp).bounds (h.isI64 hp)).1.trans_lt (h.isI64 hp).2⟩
  rangeHi := ⟨(h.isI64 hp).1.trans ((h.admits hp).bounds (h.isI64 hp)).2,
    h.refines.rangeHi.trans_lt hf.rangeHi.2⟩
  one_le := h.refines.knownDivisor ▸ hf.one_le
  knownDivisor := h.refines.knownDivisor ▸ hf.knownDivisor
  not_float := h.refines.floating ▸ hf.not_float

lemma Narrows.finishRelation (hf : facts.Shaped) :
    Narrows p v facts (finishRelation facts result) where
  refines :=
    { rangeLo := h.refines.rangeLo
      rangeHi := h.refines.rangeHi
      knownDivisor := h.refines.knownDivisor
      nonZero := fun hflag => by simp [IntegerFacts.finishRelation, withNonZero, hflag]
      powerOfTwo := fun hflag => by
        simp [IntegerFacts.finishRelation, withNonZero, recomputeFlags, Flags.union,
          h.refines.powerOfTwo hflag]
      floating := by
        simp [IntegerFacts.finishRelation, withNonZero, recomputeFlags, Flags.union,
          FloatFlags.union, computeFlags, h.refines.floating] }
  isI64 := h.isI64
  source := h.source
  admits hp := (recomputeFlags_admits (h.admits hp) (h.shaped hf hp).rangeLo
    (h.isI64 hp)).withNonZero (h.source hp).flags.nonZero

lemma Narrows.refineUnsignedLhs {maximum : ℤ}
    (hmax : p → IsI64 maximum ∧ toU64 v ≤ toU64 maximum) :
    Narrows p v facts (refineUnsignedLhs facts maximum result) := by
  have hle := fun hp => (toU64_le_iff (h.isI64 hp) (hmax hp).1).mp (hmax hp).2
  have hbounds := fun hp => (h.source hp).bounds (h.isI64 hp)
  unfold IntegerFacts.refineUnsignedLhs
  split_ifs with hnonneg hneg hgt
  · exact (h.maxRangeLo fun hp => by have := hle hp; omega).minRangeHi fun hp => by
      have := hle hp
      omega
  · exact h.minRangeHi fun hp => by have := hle hp; have := hbounds hp; omega
  · exact h.maxRangeLo fun hp => by have := hle hp; have := hbounds hp; omega
  · exact h

lemma Narrows.refineUnsignedRhs {minimum : ℤ}
    (hmin : p → IsI64 minimum ∧ toU64 minimum ≤ toU64 v) :
    Narrows p v facts (refineUnsignedRhs facts minimum result) := by
  have hle := fun hp => (toU64_le_iff (hmin hp).1 (h.isI64 hp)).mp (hmin hp).2
  have hbounds := fun hp => (h.source hp).bounds (h.isI64 hp)
  unfold IntegerFacts.refineUnsignedRhs
  split_ifs with hneg hnonneg hlt
  · exact (h.maxRangeLo fun hp => by have := hle hp; omega).minRangeHi fun hp => by
      have := hle hp
      omega
  · exact h.maxRangeLo fun hp => by have := hle hp; have := hbounds hp; omega
  · exact h.minRangeHi fun hp => by have := hle hp; have := hbounds hp; omega
  · exact h

end

/-- Words that the facts of both sides admit. -/
structure AdmitBoth (lhs rhs : IntegerFacts) (l r : ℤ) : Prop where
  isI64_lhs : IsI64 l
  isI64_rhs : IsI64 r
  lhs : lhs.Admits l
  rhs : rhs.Admits r

/-- The updates of a relation narrow the facts of both sides. -/
def RelationUpdates.Narrow (updates : RelationUpdates) (p : Prop) (lhs rhs : IntegerFacts)
    (l r : ℤ) : Prop :=
  (∀ result, Narrows p l lhs result → Narrows p l lhs (updates.lhs result)) ∧
    ∀ result, Narrows p r rhs result → Narrows p r rhs (updates.rhs result)

section

variable (hL : lhs.Shaped) (hR : rhs.Shaped)
include hL hR

/-- The bounds of both sides in the order of raw bits. -/
lemma unsignedOrderBounds_spec (h : AdmitBoth lhs rhs l r) {strict : Bool}
    (hlt : if strict then toU64 l < toU64 r else toU64 l ≤ toU64 r) {minimum maximum : ℤ}
    (hbounds : unsignedOrderBounds strict lhs rhs = some (minimum, maximum)) :
    (IsI64 minimum ∧ toU64 minimum ≤ toU64 r) ∧ IsI64 maximum ∧ toU64 l ≤ toU64 maximum := by
  obtain ⟨hl, hr, hlhs, hrhs⟩ := h
  obtain ⟨hlle, hlge⟩ := hlhs.bounds hl
  obtain ⟨hrle, hrge⟩ := hrhs.bounds hr
  unfold unsignedOrderBounds at hbounds
  generalize hmineq : (if lhs.rangeLo < 0 ∧ lhs.rangeHi ≥ 0 then 0 else lhs.rangeLo) = least
    at hbounds
  generalize hmaxeq : (if rhs.rangeLo < 0 ∧ rhs.rangeHi ≥ 0 then -1 else rhs.rangeHi) = greatest
    at hbounds
  have hmin : IsI64 least ∧ toU64 least ≤ toU64 l := by
    rw [← hmineq]
    split_ifs with hcross
    · exact ⟨by decide, Nat.zero_le _⟩
    · have hlo := cast_toU64_eq hL.rangeLo
      have hl' := cast_toU64_eq hl
      exact ⟨hL.rangeLo, by omega⟩
  have hmax : IsI64 greatest ∧ toU64 r ≤ toU64 greatest := by
    rw [← hmaxeq]
    split_ifs with hcross
    · have hlt := toU64_lt r
      exact ⟨by decide, by rw [show toU64 (-1) = 2 ^ 64 - 1 from rfl]; omega⟩
    · have hhi := cast_toU64_eq hR.rangeHi
      have hr' := cast_toU64_eq hr
      exact ⟨hR.rangeHi, by omega⟩
  obtain ⟨hmin64, hminle⟩ := hmin
  obtain ⟨hmax64, hmaxge⟩ := hmax
  dsimp only at hbounds
  by_cases hempty : toU64 least > toU64 greatest ∨ (strict = true ∧ least = greatest)
  · rw [if_pos hempty] at hbounds
    cases hbounds
  rw [if_neg hempty] at hbounds
  cases strict with
  | false =>
    rw [if_neg Bool.false_ne_true] at hlt hbounds
    cases hbounds
    exact ⟨⟨hmin64, by omega⟩, hmax64, by omega⟩
  | true =>
    rw [if_pos rfl] at hlt hbounds
    cases hbounds
    have hmin' := cast_toU64_eq hmin64
    have hmax' := cast_toU64_eq hmax64
    obtain ⟨hmin63, hmin63'⟩ := hmin64
    obtain ⟨hmax63, hmax63'⟩ := hmax64
    -- the word after the minimum and the word before the maximum, as raw bits
    have hsucc : IsI64 (if least = 2 ^ 63 - 1 then -2 ^ 63 else least + 1) := by
      split_ifs
      · decide
      · exact ⟨by omega, by omega⟩
    have hpred : IsI64 (if greatest = -2 ^ 63 then 2 ^ 63 - 1 else greatest - 1) := by
      split_ifs
      · decide
      · exact ⟨by omega, by omega⟩
    refine ⟨⟨hsucc, ?_⟩, hpred, ?_⟩
    · have hcast := cast_toU64_eq hsucc
      split_ifs at hmin' hcast ⊢ <;> omega
    · have hcast := cast_toU64_eq hpred
      split_ifs at hmax' hcast ⊢ <;> omega

lemma refineUnsignedOrder_narrows {strict : Bool} (h : p → AdmitBoth lhs rhs l r)
    (hlt : p → if strict then toU64 l < toU64 r else toU64 l ≤ toU64 r) :
    (refineUnsignedOrder strict lhs rhs).Narrow p lhs rhs l r := by
  unfold refineUnsignedOrder
  split
  case h_1 => exact ⟨fun result h => h, fun result h => h⟩
  case h_2 minimum maximum hbounds =>
    have hspec := fun hp => unsignedOrderBounds_spec hL hR (h hp) (hlt hp) hbounds
    exact ⟨fun result h => h.refineUnsignedLhs fun hp => (hspec hp).2,
      fun result h => h.refineUnsignedRhs fun hp => (hspec hp).1⟩

lemma relationUpdates_narrows {kind : PredicateKind} (h : p → AdmitBoth lhs rhs l r)
    (hrel : p → kind.Relates l r) {updates : RelationUpdates}
    (hupdates : relationUpdates kind lhs rhs = some updates) : updates.Narrow p lhs rhs l r := by
  have hl := fun hp => (h hp).lhs.bounds (h hp).isI64_lhs
  have hr := fun hp => (h hp).rhs.bounds (h hp).isI64_rhs
  have hlu := cast_toU64 l
  have hru := cast_toU64 r
  cases kind with
  | ult | ule =>
    cases hupdates
    simp only [PredicateKind.Relates] at hrel
    exact refineUnsignedOrder_narrows hL hR h fun hp => by have := hrel hp; simp; omega
  | ugt | uge =>
    cases hupdates
    simp only [PredicateKind.Relates] at hrel
    have hswap : p → AdmitBoth rhs lhs r l := fun hp =>
      ⟨(h hp).isI64_rhs, (h hp).isI64_lhs, (h hp).rhs, (h hp).lhs⟩
    exact (refineUnsignedOrder_narrows hR hL hswap fun hp => by have := hrel hp; simp; omega).symm
  | eq =>
    cases hupdates
    refine ⟨fun result h => ?_, fun result h => ?_⟩
    · refine { h with
        refines := { h.refines with rangeLo := le_max_left _ _, rangeHi := min_le_left _ _ }
        admits := fun hp => (h.admits hp).withRange (max_le (hl hp).1 ?_) (le_min (hl hp).2 ?_) }
      · exact (hr hp).1.trans_eq (hrel hp).symm
      · exact (hrel hp).trans_le (hr hp).2
    · refine { h with
        refines := { h.refines with rangeLo := le_max_right _ _, rangeHi := min_le_right _ _ }
        admits := fun hp => (h.admits hp).withRange (max_le ?_ (hr hp).1) (le_min ?_ (hr hp).2) }
      · exact (hl hp).1.trans_eq (hrel hp)
      · exact (hrel hp).symm.trans_le (hl hp).2
  | lt =>
    cases hupdates
    change p → l < r at hrel
    refine ⟨fun result h => ?_, fun result h => ?_⟩ <;> dsimp only <;> split_ifs
    · exact h.minRangeHi fun hp => by have := hrel hp; have := hr hp; omega
    · exact h
    · exact h.maxRangeLo fun hp => by have := hrel hp; have := hl hp; omega
    · exact h
  | le =>
    cases hupdates
    exact ⟨fun result h => h.minRangeHi fun hp => (hrel hp).trans (hr hp).2,
      fun result h => h.maxRangeLo fun hp => (hl hp).1.trans (hrel hp)⟩
  | gt =>
    cases hupdates
    change p → r < l at hrel
    refine ⟨fun result h => ?_, fun result h => ?_⟩ <;> dsimp only <;> split_ifs
    · exact h.maxRangeLo fun hp => by have := hrel hp; have := hr hp; omega
    · exact h
    · exact h.minRangeHi fun hp => by have := hrel hp; have := hl hp; omega
    · exact h
  | ge =>
    cases hupdates
    exact ⟨fun result h => h.maxRangeLo fun hp => (hr hp).1.trans (hrel hp),
      fun result h => h.minRangeHi fun hp => (hrel hp).trans (hl hp).2⟩
  | ne | multipleOf | powerOfTwo | range | notNan | notInf | finite => cases hupdates

/-- Both results of a relation, each of which starts as the facts of its side. -/
lemma refineRelation_narrows {kind : PredicateKind} (h : p → AdmitBoth lhs rhs l r)
    (hrel : p → kind.Relates l r) {lhsResult rhsResult : Option IntegerFacts}
    (hlr : ∀ f, lhsResult = some f → f = lhs) (hrr : ∀ f, rhsResult = some f → f = rhs) :
    (∀ f, (refineRelation kind lhs rhs lhsResult rhsResult).lhs = some f → Narrows p l lhs f) ∧
      ∀ f, (refineRelation kind lhs rhs lhsResult rhsResult).rhs = some f → Narrows p r rhs f := by
  have hlrefl := Narrows.refl (fun hp => (h hp).isI64_lhs) fun hp => (h hp).lhs
  have hrrefl := Narrows.refl (fun hp => (h hp).isI64_rhs) fun hp => (h hp).rhs
  unfold refineRelation
  split
  case h_1 =>
    refine ⟨fun f hf => ?_, fun f hf => ?_⟩
    · rwa [hlr f hf]
    · rwa [hrr f hf]
  case h_2 updates hupdates =>
    obtain ⟨hleft, hright⟩ := relationUpdates_narrows hL hR h hrel hupdates
    refine ⟨fun f hf => ?_, fun f hf => ?_⟩
    · obtain ⟨g, hg, rfl⟩ := map_eq_some_iff.mp hf
      rw [hlr g hg]
      exact (hleft lhs hlrefl).finishRelation hL
    · obtain ⟨g, hg, rfl⟩ := map_eq_some_iff.mp hf
      rw [hrr g hg]
      exact (hright rhs hrrefl).finishRelation hR

end

/-- The same facts on both sides. -/
lemma refineRelationShared_narrows (hf : facts.Shaped) {kind : PredicateKind}
    (h : p → AdmitBoth facts facts v v) (hrel : p → kind.Relates v v) :
    Narrows p v facts (refineRelationShared kind facts facts facts).2 := by
  have hrefl := Narrows.refl (fun hp => (h hp).isI64_lhs) fun hp => (h hp).lhs
  unfold refineRelationShared
  split
  case h_1 => exact hrefl
  case h_2 updates hupdates =>
    obtain ⟨hleft, hright⟩ := relationUpdates_narrows hf hf h hrel hupdates
    exact (hright _ (hleft facts hrefl)).finishRelation hf

/-! ### Application -/

/-- The divisor of a multiple: both divisors divide, or the product is no word. -/
lemma checkedLcmI64_spec {d c new : ℤ} (hd : 1 ≤ d) (hc : 0 < c)
    (h : checkedLcmI64 d c = some new) :
    1 ≤ new ∧ IsI64 new ∧ ∀ x : ℤ, d ∣ x → c ∣ x → new ∣ x := by
  have hgcd : magnitude d / Nat.gcd (magnitude d) (magnitude c) * magnitude c =
      Nat.lcm (magnitude d) (magnitude c) := by
    rw [Nat.div_mul_right_comm (Nat.gcd_dvd_left _ _)]
    rfl
  unfold checkedLcmI64 checkedLcmU64 checkedMulU64 at h
  rw [hgcd, magnitude_eq, magnitude_eq, if_neg (by omega)] at h
  have hpos : 0 < Nat.lcm d.natAbs c.natAbs := Nat.lcm_pos (by omega) (by omega)
  split_ifs at h with h64
  · dsimp only at h
    split_ifs at h with h63
    rw [← Option.some.inj h, toI64_of_lt (by omega)]
    refine ⟨by omega, ⟨by omega, by omega⟩, fun x hdx hcx => ?_⟩
    rw [Int.natCast_dvd]
    exact Nat.lcm_dvd (Int.natAbs_dvd_natAbs.mpr hdx) (Int.natAbs_dvd_natAbs.mpr hcx)

variable {predicate : Predicate} {env : ℤ → ℤ}

section

variable (hf : facts.Shaped) (hv : IsI64 v) (h : facts.Admits v)
include hf hv h

/-- An unsigned relation to a constant. -/
lemma refineByConstant_narrows {kind : PredicateKind} {c : ℤ} (hc : IsI64 c)
    (hrel : kind.Relates v c) : Narrows True v facts
      ((refineRelation kind facts (exactI64 c) (some facts) none).lhs.getD facts) := by
  have hnarrows := refineRelation_narrows hf (exactI64_wellFormed hc).shaped
    (fun _ : True => ⟨hv, hc, h, exactI64_admits hc⟩) (fun _ => hrel)
    (fun f hf => (Option.some.inj hf).symm) (fun f (hf : none = some f) => by cases hf)
  cases hlhs : (refineRelation kind facts (exactI64 c) (some facts) none).lhs with
  | none => exact Narrows.refl (fun _ => hv) fun _ => h
  | some f => exact hnarrows.1 f hlhs

/-- A satisfying integer stays in the narrowed facts.  Only MULTIPLE_OF changes the divisor. -/
lemma narrowByPredicate_narrows (hholds : predicate.Holds env v) {c : ℤ} (hc : IsI64 c)
    (hrel : predicate.kind ≠ .powerOfTwo → predicate.kind ≠ .range → predicate.kind.Relates v c)
    (hargs : predicate.kind = .range → predicate.argCount ≥ 3)
    (hkind : predicate.kind ≠ .multipleOf) :
    Narrows True v facts (facts.narrowByPredicate predicate c) := by
  have hself := Narrows.refl (p := True) (fun _ => hv) fun _ => h
  obtain ⟨hle, hge⟩ := h.bounds hv
  unfold narrowByPredicate
  unfold Predicate.Holds at hholds
  cases hk : predicate.kind <;> rw [hk] at hholds hrel hkind <;> dsimp only at hholds ⊢
  case ne =>
    have hne : v ≠ c := hrel (by decide) (by decide)
    split_ifs with hlo hhi
    · exact { hself with
        refines := { hself.refines with rangeLo := by dsimp only; omega }
        admits := fun _ => h.withRange (by omega) hge }
    · exact { hself with
        refines := { hself.refines with rangeHi := by dsimp only; omega }
        admits := fun _ => h.withRange hle (by omega) }
    · exact hself
  case lt =>
    have hlt : v < c := hrel (by decide) (by decide)
    split_ifs
    · exact hself.minRangeHi fun _ => by omega
    · exact hself
  case le => exact hself.minRangeHi fun _ => hrel (by decide) (by decide)
  case gt =>
    have hgt : c < v := hrel (by decide) (by decide)
    split_ifs
    · exact hself.maxRangeLo fun _ => by omega
    · exact hself
  case ge => exact hself.maxRangeLo fun _ => hrel (by decide) (by decide)
  case ult | ule | ugt | uge =>
    exact refineByConstant_narrows hf hv h hc (hrel (by decide) (by decide))
  case multipleOf => exact absurd rfl hkind
  case powerOfTwo =>
    obtain ⟨k, rfl⟩ := hholds
    have hmax := hself.maxRangeLo fun _ => two_pow_pos k
    exact { hmax with
      refines := { hmax.refines with powerOfTwo := fun _ => rfl }
      admits := fun hp =>
        { hmax.admits hp with flags := { h.flags with powerOfTwo := fun _ => ⟨k, rfl⟩ } } }
  case range =>
    obtain ⟨lo, hi, hlo, hhi, hlov, hhiv⟩ := hholds
    have hcount := hargs hk
    have hlower : predicate.argTags 1 = .const → predicate.args 1 ≤ v := by
      intro htag
      rw [argument_of_const (show ((1 : Fin 3) : ℕ) < _ from by omega) htag] at hlo
      rwa [Option.some.inj hlo]
    have hupper : predicate.argTags 2 = .const → v ≤ predicate.args 2 := by
      intro htag
      rw [argument_of_const (show ((2 : Fin 3) : ℕ) < _ from by omega) htag] at hhi
      rwa [Option.some.inj hhi]
    split_ifs with h2 h1 h1
    · exact (hself.maxRangeLo fun _ => hlower h1).minRangeHi fun _ => hupper h2
    · exact hself.minRangeHi fun _ => hupper h2
    · exact hself.maxRangeLo fun _ => hlower h1
    · exact hself
  case eq | notNan | notInf | finite => exact hself

omit hf hv h in
lemma narrowByMultiple_spec (hf : facts.Shaped) (h : facts.Admits v) {c : ℤ}
    (hkind : predicate.kind = .multipleOf) (hpos : 0 < c) (hdvd : c ∣ v) :
    (facts.narrowByPredicate predicate c).Admits v ∧
      (facts.narrowByPredicate predicate c).Shaped := by
  unfold narrowByPredicate
  rw [hkind]
  cases hlcm : checkedLcmI64 facts.knownDivisor c with
  | none => exact ⟨h, hf⟩
  | some =>
    obtain ⟨hnew1, hnew64, hnew⟩ := checkedLcmI64_spec hf.one_le hpos hlcm
    exact ⟨⟨h.inRange, hnew v h.dvd hdvd, h.flags⟩,
      ⟨hf.rangeLo, hf.rangeHi, hnew1, hnew64, hf.not_float⟩⟩

/-- The last steps of every refinement. -/
lemma finishPredicate_spec {nonZero : Bool} (hnonZero : nonZero = true → v ≠ 0) :
    (facts.refineDivisibleRange.recomputeFlags.withNonZero nonZero).Admits v ∧
      (facts.refineDivisibleRange.recomputeFlags.withNonZero nonZero).WellFormed := by
  have hshaped := refineDivisibleRange_shaped hf
  have hadmits := refineDivisibleRange_admits hf hv h
  exact ⟨(recomputeFlags_admits hadmits hshaped.rangeLo hv).withNonZero hnonZero,
    hshaped.recomputeFlags nonZero⟩

end

/-- A predicate keeps the integers that satisfy it. -/
lemma applyPredicate_spec (hf : facts.WellFormed) (hp : predicate.IsWords) (hv : IsI64 v)
    (h : facts.Admits v) (hholds : predicate.Holds env v) :
    (facts.applyPredicate predicate).Admits v ∧ (facts.applyPredicate predicate).WellFormed := by
  unfold applyPredicate isFloat
  rw [hf.not_float, if_neg (by simp)]
  by_cases hargs : predicate.hasArgs = false
  · rw [if_pos hargs]
    exact ⟨h, hf⟩
  rw [if_neg hargs]
  rw [Bool.not_eq_false] at hargs
  have hclass := hholds.not_floatClass
  generalize hconst : (if predicate.argCount > 1 then predicate.args 1 else 0) = c
  have hc : IsI64 c := by
    rw [← hconst]
    split_ifs
    · exact hp 1
    · decide
  have hrel : predicate.kind ≠ .powerOfTwo → predicate.kind ≠ .range →
      predicate.kind.Relates v c := by
    intro hpow hrange
    obtain ⟨c', harg, hrel⟩ := hholds.relates hpow hrange
    obtain ⟨hargs1, harg'⟩ := constant_eq env hargs hpow hrange hclass
    rw [harg] at harg'
    rwa [← hconst, hargs1, ← Option.some.inj harg']
  have hcount : predicate.kind = .range → predicate.argCount ≥ 3 := by
    intro hk
    unfold hasArgs at hargs
    rw [hk] at hargs
    exact (of_decide_eq_true hargs).1
  by_cases heq : predicate.kind = .eq
  · rw [if_pos heq]
    have hvc : v = c := by
      rw [heq] at hrel
      exact hrel (by decide) (by decide)
    rw [hvc]
    exact ⟨exactI64_admits hc, exactI64_wellFormed hc⟩
  rw [if_neg heq, hclass, if_neg Bool.false_ne_true]
  have hnarrow : (facts.narrowByPredicate predicate c).Admits v ∧
      (facts.narrowByPredicate predicate c).Shaped := by
    by_cases hmul : predicate.kind = .multipleOf
    · rw [hmul] at hrel
      obtain ⟨hpos, hdvd⟩ := hrel (by decide) (by decide)
      exact narrowByMultiple_spec hf.shaped h hmul hpos hdvd
    · have hnarrows := narrowByPredicate_narrows hf.shaped hv h hholds hc hrel hcount hmul
      exact ⟨hnarrows.admits trivial, hnarrows.shaped hf.shaped trivial⟩
  refine finishPredicate_spec hnarrow.2 hv hnarrow.1 fun hflag => ?_
  rw [Bool.or_eq_true, Bool.and_eq_true, decide_eq_true_eq, decide_eq_true_eq] at hflag
  rcases hflag with hflag | ⟨hne, hzero⟩
  · exact h.flags.nonZero hflag
  · rw [hne, hzero] at hrel
    exact hrel (by decide) (by decide)

/-! ### Conflicts -/

/-- A satisfying integer is in the required range. -/
lemma requiredRange_mem (hv : IsI64 v) (hholds : predicate.Holds env v) {minimum maximum : ℤ}
    (h : predicate.requiredRange = some (minimum, maximum)) : minimum ≤ v ∧ v ≤ maximum := by
  obtain ⟨hlo, hhi⟩ := hv
  have hconst := fun c => hholds.relates_constArg (c := c)
  unfold requiredRange at h
  split_ifs at h
  cases hk : predicate.kind <;> rw [hk] at h hconst <;> dsimp only at h
  case eq | le | ge =>
    obtain ⟨c, hc, heq⟩ := map_eq_some_iff.mp h
    have hrel := hconst c hc (by decide) (by decide)
    simp only [PredicateKind.Relates] at hrel
    cases heq
    omega
  case lt | gt =>
    obtain ⟨c, hc, heq⟩ := map_eq_some_iff.mp h
    have hrel := hconst c hc (by decide) (by decide)
    simp only [PredicateKind.Relates] at hrel
    split_ifs at heq <;> cases heq <;> omega
  case range =>
    unfold Predicate.Holds at hholds
    rw [hk] at hholds
    obtain ⟨lo, hi, harg1, harg2, hlov, hvhi⟩ := hholds
    split at h
    case h_1 lo' hi' hlo' hhi' =>
      cases h
      rw [argument_of_constArg hlo'] at harg1
      rw [argument_of_constArg hhi'] at harg2
      cases harg1
      cases harg2
      exact ⟨hlov, hvhi⟩
    case h_2 => cases h
  all_goals cases h

/-- A satisfying integer contradicts no predicate value. -/
lemma contradictedValue_eq_none (hv : IsI64 v) (hholds : predicate.Holds env v) :
    contradictedValue predicate v = none := by
  have hconst := fun c => hholds.relates_constArg (c := c)
  unfold contradictedValue
  cases hk : predicate.kind <;> rw [hk] at hconst <;> dsimp only
  case ne =>
    rw [filter_eq_none_iff]
    intro c hc
    have hrel : v ≠ c := hconst c hc (by decide) (by decide)
    simpa using hrel
  case multipleOf =>
    rw [filter_eq_none_iff]
    intro c hc
    have hrel : 0 < c ∧ c ∣ v := hconst c hc (by decide) (by decide)
    simp [Int.tmod_eq_zero_of_dvd hrel.2]
  case powerOfTwo =>
    unfold Predicate.Holds at hholds
    rw [hk] at hholds
    obtain ⟨k, rfl⟩ := hholds
    have hpos := two_pow_pos k
    have hcast := cast_two_pow k
    have hand : andI64 (2 ^ k) (2 ^ k - 1) = 0 := by
      rw [andI64_eq_of_nonneg hpos.le hv (by omega) ⟨by omega, by have := hv.2; omega⟩,
        show ((2 : ℤ) ^ k).toNat = 2 ^ k by omega,
        show ((2 : ℤ) ^ k - 1).toNat = 2 ^ k - 1 by omega,
        Nat.and_two_pow_sub_one_eq_mod, Nat.mod_self]
      rfl
    rw [if_neg (by simp [hand, hpos])]
  case ult | ule | ugt | uge =>
    rw [filter_eq_none_iff]
    intro c hc
    have hrel := (unsignedRelationHolds_iff (by decide)).mpr (hconst c hc (by decide) (by decide))
    simp [hrel]

lemma predicateConflict_eq_none (hf : facts.WellFormed) (hv : IsI64 v) (h : facts.Admits v)
    (hholds : predicate.Holds env v) : facts.predicateConflict predicate = none := by
  obtain ⟨hle, hge⟩ := h.bounds hv
  have hrange : facts.predicateRangeConflict predicate = none := by
    unfold predicateRangeConflict
    cases hreq : predicate.requiredRange with
    | none => rfl
    | some =>
      have hmem := requiredRange_mem hv hholds hreq
      exact if_pos ⟨by omega, by omega, by omega⟩
  have hexact : facts.predicateExactI64Conflict predicate = none := by
    unfold predicateExactI64Conflict
    rw [hf.asExactI64_eq]
    cases hex : facts.isExact with
    | false => rfl
    | true =>
      rw [← hf.eq_rangeLo_of_exact hex h]
      simp [contradictedValue_eq_none hv hholds]
  unfold predicateConflict isFloat
  rw [hf.not_float, if_neg Bool.false_ne_true, hrange]
  exact hexact

/-! ### Results -/

/-- Predicates and relations keep every word that satisfies them.  Intervals are rounded to
multiples of the divisor wherever they hold one, and are otherwise left alone. -/
theorem refinement_keeps {facts : IntegerFacts} (hf : facts.WellFormed) :
    (∀ (predicate : Predicate) (env : ℤ → ℤ) (v : ℤ), predicate.IsWords → IsI64 v → facts.Admits v →
      predicate.Holds env v →
        (facts.applyPredicate predicate).Admits v ∧
        1 ≤ (facts.applyPredicate predicate).knownDivisor ∧
        facts.predicateConflict predicate = none) ∧
    (∀ (kind : PredicateKind) (rhs : IntegerFacts) (lhsResult rhsResult : Option IntegerFacts),
      rhs.WellFormed → (∀ f, lhsResult = some f → f = facts) → (∀ f, rhsResult = some f → f = rhs) →
        (∀ l r : ℤ, IsI64 l → IsI64 r → facts.Admits l → rhs.Admits r → kind.Relates l r →
          (∀ f, (refineRelation kind facts rhs lhsResult rhsResult).lhs = some f → f.Admits l) ∧
          ∀ f, (refineRelation kind facts rhs lhsResult rhsResult).rhs = some f → f.Admits r) ∧
        (∀ f, (refineRelation kind facts rhs lhsResult rhsResult).lhs = some f → f.Refines facts) ∧
        ∀ f, (refineRelation kind facts rhs lhsResult rhsResult).rhs = some f → f.Refines rhs) ∧
    (∀ kind : PredicateKind,
      (refineRelationShared kind facts facts facts).2.Refines facts ∧
      ∀ v, IsI64 v → facts.Admits v → kind.Relates v v →
        (refineRelationShared kind facts facts facts).2.Admits v) ∧
    (∀ m, IsI64 m → facts.knownDivisor ∣ m → facts.rangeLo ≤ m → m ≤ facts.rangeHi →
      (facts.refineDivisibleRange.rangeLo ≤ m ∧ m ≤ facts.refineDivisibleRange.rangeHi) ∧
      (facts.refineDivisibleRange.rangeLo ≠ -2 ^ 63 →
        facts.knownDivisor ∣ facts.refineDivisibleRange.rangeLo) ∧
      (facts.refineDivisibleRange.rangeHi ≠ 2 ^ 63 - 1 →
        facts.knownDivisor ∣ facts.refineDivisibleRange.rangeHi)) ∧
    ((¬∃ m, IsI64 m ∧ facts.knownDivisor ∣ m ∧ facts.rangeLo ≤ m ∧ m ≤ facts.rangeHi) →
      facts.refineDivisibleRange = facts) := by
  refine ⟨fun predicate env v hp hv h hholds => ?_,
    fun kind rhs lhsResult rhsResult hR hlr hrr => ?_, fun kind => ?_,
    fun m hm64 hm hle hge => ?_, fun hnone => ?_⟩
  · obtain ⟨hadmits, hwf⟩ := applyPredicate_spec hf hp hv h hholds
    exact ⟨hadmits, hwf.one_le, predicateConflict_eq_none hf hv h hholds⟩
  · have hnarrows := fun (p : Prop) l r (h : p → AdmitBoth facts rhs l r ∧ kind.Relates l r) =>
      refineRelation_narrows hf.shaped hR.shaped (fun hp => (h hp).1) (fun hp => (h hp).2) hlr hrr
    obtain ⟨hlrefines, hrrefines⟩ := hnarrows False 0 0 False.elim
    refine ⟨fun l r hl hr hlhs hrhs hrel => ?_, fun f h => (hlrefines f h).refines,
      fun f h => (hrrefines f h).refines⟩
    obtain ⟨hladmits, hradmits⟩ := hnarrows True l r fun _ => ⟨⟨hl, hr, hlhs, hrhs⟩, hrel⟩
    exact ⟨fun f h => (hladmits f h).admits trivial, fun f h => (hradmits f h).admits trivial⟩
  · refine ⟨?_, fun v hv h hrel => ?_⟩
    · exact (refineRelationShared_narrows (v := 0) hf.shaped False.elim False.elim).refines
    · exact (refineRelationShared_narrows hf.shaped (fun _ => ⟨hv, hv, h, h⟩)
        fun _ => hrel).admits trivial
  · rcases refineDivisibleRange_cases hf.shaped with
      ⟨heq, hnone⟩ | ⟨lower, upper, heq, -, -, -, -, -, hlo, hhi, hmem⟩
    · rw [heq]
      by_cases hd : 1 < facts.knownDivisor
      · exact absurd ⟨m, hm64, hm, hle, hge⟩ (hnone hd)
      · have hone := hf.one_le
        rw [show facts.knownDivisor = 1 by omega]
        exact ⟨⟨hle, hge⟩, fun _ => Int.one_dvd _, fun _ => Int.one_dvd _⟩
    · rw [heq]
      exact ⟨hmem m hm64 hm hle hge, hlo, hhi⟩
  · rcases refineDivisibleRange_cases hf.shaped with
      ⟨heq, -⟩ | ⟨lower, upper, heq, hlo64, hup64, hlole, hle, huple, hlo, hhi, hmem⟩
    · exact heq
    -- an endpoint or zero would be a multiple
    have hd := hf.rangeLo.1
    by_cases hmin : lower = -2 ^ 63
    · by_cases hmax : upper = 2 ^ 63 - 1
      · exact absurd ⟨0, by decide, Int.dvd_zero _, by omega, by omega⟩ hnone
      · exact absurd ⟨upper, hup64, hhi hmax, by omega, huple⟩ hnone
    · exact absurd ⟨lower, hlo64, hlo hmin, hlole, by omega⟩ hnone

def constantPredicate (c : ℤ) : Predicate where
  kind := kind
  argCount := 2
  argTags := fun index => if index = 0 then .value else if index = 1 then .const else .none
  args := fun index => if index = 1 then c else 0

/-- Raw bits of a range across zero, and a range with one multiple. -/
theorem refinement_keeps_crossing :
    ((make (-3) 9 1).applyPredicate (constantPredicate .ule 4)).Admits 3 ∧
      (make (-3) 9 1).predicateConflict (constantPredicate .ule 4) = none ∧
      (make 5 10 4).refineDivisibleRange.rangeLo ≤ 8 := by
  have hf : (make (-3) 9 1).WellFormed := make_wellFormed (by decide) (by decide) (by decide)
  have hg : (make 5 10 4).WellFormed := make_wellFormed (by decide) (by decide) (by decide)
  have hv : (make (-3) 9 1).Admits 3 := make_admits (by decide) (by decide) (by decide) (by decide)
  have hwords : (constantPredicate .ule 4).IsWords := by
    intro index
    unfold constantPredicate
    dsimp only
    split_ifs <;> decide
  have hpredicate := (refinement_keeps hf).1 (constantPredicate .ule 4) (fun _ => 0) 3 hwords
    (by decide) hv ⟨4, rfl, show (3 : ℤ) % 2 ^ 64 ≤ 4 % 2 ^ 64 by decide⟩
  have hdivisible := (refinement_keeps hg).2.2.2.1 8 (by decide) (by decide) (by decide) (by decide)
  exact ⟨hpredicate.1, hpredicate.2.2, hdivisible.1.1⟩

/-- Without a multiple in the interval the endpoints stay as they are. -/
theorem refineDivisibleRange_no_multiple :
    (make 5 6 4).WellFormed ∧ (make 5 6 4).refineDivisibleRange.rangeLo ≠ -2 ^ 63 ∧
      ¬(make 5 6 4).knownDivisor ∣ (make 5 6 4).refineDivisibleRange.rangeLo :=
  ⟨make_wellFormed (by decide) (by decide) (by decide), by decide, by decide⟩

end IntegerFacts

end Hrx.Facts
