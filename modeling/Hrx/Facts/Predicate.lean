import Hrx.Facts.Integer
import Mathlib.Data.Nat.GCD.Basic

/-!
# Predicates on facts

The predicates of `loom/ir/attribute.h` and their effect on facts in `loom/ir/facts.c`: conflicts,
refinement by one predicate, and refinement of both sides of a relation.  Result pointers of the
source are optional facts that start as what they point to; two pointers to the same facts are
`refineRelationShared`.  A definition with a `loom_value_facts_` counterpart keeps its name, without
that part.
-/

namespace Hrx.Facts

/-! ### Predicates -/

/-- `loom_predicate_kind_t`. -/
inductive PredicateKind where
  | eq
  | ne
  | lt
  | le
  | gt
  | ge
  | multipleOf
  | powerOfTwo
  | range
  | notNan
  | notInf
  | finite
  | ult
  | ule
  | ugt
  | uge
deriving DecidableEq

/-- `loom_predicate_arg_tag_t`. -/
inductive PredicateArgTag where
  | none
  | value
  | const
deriving DecidableEq

scoped instance neZeroThree : NeZero 3 := ⟨by decide⟩

/-- `loom_predicate_t`.  An argument is a value ID or a constant, by its tag. -/
structure Predicate where
  kind : PredicateKind
  argCount : ℕ
  argTags : Fin 3 → PredicateArgTag
  args : Fin 3 → ℤ

def PredicateKind.isFloatClass (kind : PredicateKind) : Bool :=
  kind = .notNan ∨ kind = .notInf ∨ kind = .finite

namespace Predicate

variable (predicate : Predicate)

/-- `loom_value_facts_predicate_const_arg`. -/
def constArg (index : Fin 3) : Option ℤ :=
  if predicate.argCount ≤ index ∨ predicate.argTags index ≠ .const then none
  else some (predicate.args index)

/-- `loom_value_facts_predicate_value_first_arg`. -/
def valueFirstArg : Bool := predicate.argCount ≥ 1 ∧ predicate.argTags 0 = .value

/-- `loom_value_facts_predicate_required_range`: the least and the greatest value allowed. -/
def requiredRange : Option (ℤ × ℤ) :=
  if predicate.valueFirstArg = false then none
  else
    match predicate.kind with
    | .eq => (predicate.constArg 1).map fun constant => (constant, constant)
    | .lt =>
      (predicate.constArg 1).map fun constant =>
        -- nothing is below the least word
        if constant = -2 ^ 63 then (2 ^ 63 - 1, -2 ^ 63) else (-2 ^ 63, constant - 1)
    | .le => (predicate.constArg 1).map fun constant => (-2 ^ 63, constant)
    | .gt =>
      (predicate.constArg 1).map fun constant =>
        if constant = 2 ^ 63 - 1 then (2 ^ 63 - 1, -2 ^ 63) else (constant + 1, 2 ^ 63 - 1)
    | .ge => (predicate.constArg 1).map fun constant => (constant, 2 ^ 63 - 1)
    | .range =>
      match predicate.constArg 1, predicate.constArg 2 with
      | some minimum, some maximum => some (minimum, maximum)
      | _, _ => none
    | _ => none

/-- The arguments that `loom_value_facts_apply_predicate` reads. -/
def hasArgs : Bool :=
  if predicate.kind = .powerOfTwo ∨ predicate.kind.isFloatClass then
    predicate.argCount ≥ 1 ∧ predicate.argTags 0 = .value
  else if predicate.kind = .range then predicate.argCount ≥ 3 ∧ predicate.argTags 0 = .value
  else
    predicate.argCount ≥ 2 ∧ predicate.argTags 0 = .value ∧ predicate.argTags 1 = .const

end Predicate

def unsignedRelationHolds (kind : PredicateKind) (lhs rhs : ℤ) : Bool :=
  match kind with
  | .ult => toU64 lhs < toU64 rhs
  | .ule => toU64 lhs ≤ toU64 rhs
  | .ugt => toU64 lhs > toU64 rhs
  | .uge => toU64 lhs ≥ toU64 rhs
  | _ => false

/-- `loom_value_fact_predicate_conflict_float_class_t`. -/
inductive ConflictFloatClass where
  | nan
  | infinity
deriving DecidableEq

/-- `loom_value_fact_predicate_conflict_t`, with the fields of each kind. -/
inductive PredicateConflict where
  | range (knownMinimum knownMaximum requiredMinimum requiredMaximum : ℤ)
  | exactI64 (knownMinimum knownMaximum knownValue predicateValue : ℤ)
  | floatClass (knownFloatClass : ConflictFloatClass)
deriving DecidableEq

namespace IntegerFacts

/-! ### Checked arithmetic -/

/-- `iree_checked_add_i64`. -/
def checkedAddI64 (a b : ℤ) : Option ℤ :=
  if -2 ^ 63 ≤ a + b ∧ a + b ≤ 2 ^ 63 - 1 then some (a + b) else none

/-- `iree_checked_sub_i64`. -/
def checkedSubI64 (a b : ℤ) : Option ℤ :=
  if -2 ^ 63 ≤ a - b ∧ a - b ≤ 2 ^ 63 - 1 then some (a - b) else none

/-- `iree_checked_mul_u64`. -/
def checkedMulU64 (a b : ℕ) : Option ℕ := if a * b < 2 ^ 64 then some (a * b) else none

/-- `iree_math_checked_lcm_u64`. -/
def checkedLcmU64 (a b : ℕ) : Option ℕ :=
  if a = 0 ∨ b = 0 then some 0 else checkedMulU64 (a / Nat.gcd a b) b

/-- `iree_math_checked_lcm_i64`. -/
def checkedLcmI64 (a b : ℤ) : Option ℤ :=
  match checkedLcmU64 (magnitude a) (magnitude b) with
  | some result => if result > 2 ^ 63 - 1 then none else some (toI64 result)
  | none => none

/-! ### Flags -/

variable (facts : IntegerFacts)

def recomputeFlags : IntegerFacts :=
  let preserved : Flags :=
    { powerOfTwo := facts.flags.powerOfTwo, floating := facts.flags.floating }
  { facts with flags := (computeFlags facts.rangeLo facts.rangeHi).union preserved }

/-- The lower endpoint, rounded up to a multiple unless it is unbounded; `none` on overflow. -/
def divisibleLower : Option ℤ :=
  if facts.rangeLo ≠ -2 ^ 63 then
    let remainder := facts.rangeLo.tmod facts.knownDivisor
    let adjustment := if remainder > 0 then facts.knownDivisor - remainder else -remainder
    checkedAddI64 facts.rangeLo adjustment
  else some facts.rangeLo

/-- The upper endpoint, rounded down to a multiple unless it is unbounded; `none` on overflow. -/
def divisibleUpper : Option ℤ :=
  if facts.rangeHi ≠ 2 ^ 63 - 1 then
    let remainder := facts.rangeHi.tmod facts.knownDivisor
    let adjustment := if remainder < 0 then facts.knownDivisor + remainder else remainder
    checkedSubI64 facts.rangeHi adjustment
  else some facts.rangeHi

def refineDivisibleRange : IntegerFacts :=
  if facts.knownDivisor ≤ 1 ∨ facts.isFloat then facts
  else
    match facts.divisibleLower, facts.divisibleUpper with
    | some lower, some upper =>
      -- there is no empty set: contradictory predicates keep their interval
      if lower > upper then facts
      else
        { facts with
          rangeLo := lower
          rangeHi := upper
          flags := facts.flags.union (computeFlags lower upper) }
    | _, _ => facts

/-! ### Conflicts -/

variable (predicate : Predicate)

def predicateRangeConflict : Option PredicateConflict :=
  match predicate.requiredRange with
  | none => none
  | some (requiredMinimum, requiredMaximum) =>
    if requiredMinimum ≤ requiredMaximum ∧ requiredMaximum ≥ facts.rangeLo ∧
        requiredMinimum ≤ facts.rangeHi then none
    else some (.range facts.rangeLo facts.rangeHi requiredMinimum requiredMaximum)

def contradictedValue (knownValue : ℤ) : Option ℤ :=
  match predicate.kind with
  | .ne => (predicate.constArg 1).filter (knownValue = ·)
  | .multipleOf => (predicate.constArg 1).filter fun value => value > 0 ∧ knownValue.tmod value ≠ 0
  | .powerOfTwo => if knownValue ≤ 0 ∨ andI64 knownValue (knownValue - 1) ≠ 0 then some 0 else none
  | .ult | .ule | .ugt | .uge =>
    (predicate.constArg 1).filter fun value =>
      !unsignedRelationHolds predicate.kind knownValue value
  | _ => none

def predicateExactI64Conflict : Option PredicateConflict :=
  match facts.asExactI64 with
  | none => none
  | some knownValue =>
    if predicate.valueFirstArg = false then none
    else (contradictedValue predicate knownValue).map fun predicateValue =>
      .exactI64 facts.rangeLo facts.rangeHi knownValue predicateValue

def predicateFloatConflict : Option PredicateConflict :=
  let floating := facts.flags.floating
  if predicate.valueFirstArg = false then none
  else
    match predicate.kind with
    | .notNan => if floating.nan then some (.floatClass .nan) else none
    | .notInf => if floating.inf then some (.floatClass .infinity) else none
    | .finite =>
      if floating.nan then some (.floatClass .nan)
      else if floating.inf then some (.floatClass .infinity)
      else none
    | _ => none

/-- `loom_value_facts_predicate_conflict`; `none` where there is no conflict. -/
def predicateConflict : Option PredicateConflict :=
  if facts.isFloat then facts.predicateFloatConflict predicate
  else
    match facts.predicateRangeConflict predicate with
    | some conflict => some conflict
    | none => facts.predicateExactI64Conflict predicate

/-! ### Relations -/

/-- The least value of the left side and the greatest of the right side in the order of raw bits;
`none` where no pair is in the relation. -/
def unsignedOrderBounds (strict : Bool) (lhsFacts rhsFacts : IntegerFacts) : Option (ℤ × ℤ) :=
  let minimum := if lhsFacts.rangeLo < 0 ∧ lhsFacts.rangeHi ≥ 0 then 0 else lhsFacts.rangeLo
  let maximum := if rhsFacts.rangeLo < 0 ∧ rhsFacts.rangeHi ≥ 0 then -1 else rhsFacts.rangeHi
  if toU64 minimum > toU64 maximum ∨ (strict ∧ minimum = maximum) then none
  else if strict then
    some (if minimum = 2 ^ 63 - 1 then -2 ^ 63 else minimum + 1,
      if maximum = -2 ^ 63 then 2 ^ 63 - 1 else maximum - 1)
  else some (minimum, maximum)

/-- The part of `loom_value_facts_refine_unsigned_order` that writes the left result. -/
def refineUnsignedLhs (lhsFacts : IntegerFacts) (maximum : ℤ) (result : IntegerFacts) :
    IntegerFacts :=
  if maximum ≥ 0 then
    { result with rangeLo := max result.rangeLo 0, rangeHi := min result.rangeHi maximum }
  else if lhsFacts.rangeHi < 0 then { result with rangeHi := min result.rangeHi maximum }
  -- no negative value survives
  else if lhsFacts.rangeLo > maximum then { result with rangeLo := max result.rangeLo 0 }
  else result

/-- The part of `loom_value_facts_refine_unsigned_order` that writes the right result. -/
def refineUnsignedRhs (rhsFacts : IntegerFacts) (minimum : ℤ) (result : IntegerFacts) :
    IntegerFacts :=
  if minimum < 0 then
    { result with rangeLo := max result.rangeLo minimum, rangeHi := min result.rangeHi (-1) }
  else if rhsFacts.rangeLo ≥ 0 then { result with rangeLo := max result.rangeLo minimum }
  -- no nonnegative value survives
  else if rhsFacts.rangeHi < minimum then { result with rangeHi := min result.rangeHi (-1) }
  else result

/-- What a relation writes to the facts of each side. -/
structure RelationUpdates where
  lhs : IntegerFacts → IntegerFacts
  rhs : IntegerFacts → IntegerFacts

def refineUnsignedOrder (strict : Bool) (lhsFacts rhsFacts : IntegerFacts) : RelationUpdates :=
  match unsignedOrderBounds strict lhsFacts rhsFacts with
  | none => ⟨id, id⟩
  | some (minimum, maximum) =>
    ⟨refineUnsignedLhs lhsFacts maximum, refineUnsignedRhs rhsFacts minimum⟩

/-- The switch of `loom_value_facts_refine_relation`; `none` for the kinds that refine nothing. -/
def relationUpdates (kind : PredicateKind) (lhsFacts rhsFacts : IntegerFacts) :
    Option RelationUpdates :=
  match kind with
  | .ult => some (refineUnsignedOrder true lhsFacts rhsFacts)
  | .ule => some (refineUnsignedOrder false lhsFacts rhsFacts)
  | .ugt =>
    let updates := refineUnsignedOrder true rhsFacts lhsFacts
    some ⟨updates.rhs, updates.lhs⟩
  | .uge =>
    let updates := refineUnsignedOrder false rhsFacts lhsFacts
    some ⟨updates.rhs, updates.lhs⟩
  | .eq =>
    let rangeLo := max lhsFacts.rangeLo rhsFacts.rangeLo
    let rangeHi := min lhsFacts.rangeHi rhsFacts.rangeHi
    some
      { lhs := fun result => { result with rangeLo := rangeLo, rangeHi := rangeHi }
        rhs := fun result => { result with rangeLo := rangeLo, rangeHi := rangeHi } }
  | .lt =>
    some
      { lhs := fun result =>
          if rhsFacts.rangeHi > -2 ^ 63 then
            { result with rangeHi := min result.rangeHi (rhsFacts.rangeHi - 1) }
          else result
        rhs := fun result =>
          if lhsFacts.rangeLo < 2 ^ 63 - 1 then
            { result with rangeLo := max result.rangeLo (lhsFacts.rangeLo + 1) }
          else result }
  | .le =>
    some
      { lhs := fun result => { result with rangeHi := min result.rangeHi rhsFacts.rangeHi }
        rhs := fun result => { result with rangeLo := max result.rangeLo lhsFacts.rangeLo } }
  | .gt =>
    some
      { lhs := fun result =>
          if rhsFacts.rangeLo < 2 ^ 63 - 1 then
            { result with rangeLo := max result.rangeLo (rhsFacts.rangeLo + 1) }
          else result
        rhs := fun result =>
          if lhsFacts.rangeHi > -2 ^ 63 then
            { result with rangeHi := min result.rangeHi (lhsFacts.rangeHi - 1) }
          else result }
  | .ge =>
    some
      { lhs := fun result => { result with rangeLo := max result.rangeLo rhsFacts.rangeLo }
        rhs := fun result => { result with rangeHi := min result.rangeHi lhsFacts.rangeHi } }
  | _ => none

/-- The facts of a side after its update: NON_ZERO may come from a predicate. -/
def finishRelation (sourceFacts result : IntegerFacts) : IntegerFacts :=
  result.recomputeFlags.withNonZero sourceFacts.flags.nonZero

/-- What `loom_value_facts_refine_relation` returns and writes. -/
structure RelationResult where
  refined : Bool
  lhs : Option IntegerFacts
  rhs : Option IntegerFacts
deriving DecidableEq

/-- `loom_value_facts_refine_relation` for distinct result pointers, each of which may be null. -/
def refineRelation (kind : PredicateKind) (lhsFacts rhsFacts : IntegerFacts)
    (lhsResult rhsResult : Option IntegerFacts) : RelationResult :=
  match relationUpdates kind lhsFacts rhsFacts with
  | none => ⟨false, lhsResult, rhsResult⟩
  | some updates =>
    ⟨true, lhsResult.map fun result => finishRelation lhsFacts (updates.lhs result),
      rhsResult.map fun result => finishRelation rhsFacts (updates.rhs result)⟩

/-- `loom_value_facts_refine_relation` for the same result pointer on both sides. -/
def refineRelationShared (kind : PredicateKind) (lhsFacts rhsFacts result : IntegerFacts) :
    Bool × IntegerFacts :=
  match relationUpdates kind lhsFacts rhsFacts with
  | none => (false, result)
  | some updates => (true, finishRelation lhsFacts (updates.rhs (updates.lhs result)))

/-! ### Application -/

/-- The switch of `loom_value_facts_apply_predicate` for floating-point facts. -/
def applyFloatPredicate : IntegerFacts :=
  let flags := facts.flags
  match predicate.kind, predicate.constArg 1 with
  | .eq, some constant =>
    let floating := { flags.floating with notNan := true }
    let floating :=
      if constant = 0 then { floating with notInf := true, finite := true } else floating
    { facts with flags := { flags with floating := floating } }
  | .ne, some constant =>
    if constant = 0 then { facts with flags := { flags with nonZero := true } } else facts
  | _, _ => facts

/-- The switch of `loom_value_facts_apply_predicate` for the predicates that refine the range, the
divisor or the POWER_OF_TWO flag. -/
def narrowByPredicate (constant : ℤ) : IntegerFacts :=
  match predicate.kind with
  | .ne =>
    -- the excluded value matters at an end of the interval only
    if constant = facts.rangeLo ∧ facts.rangeLo < facts.rangeHi ∧ constant < 2 ^ 63 - 1 then
      { facts with rangeLo := constant + 1 }
    else if constant = facts.rangeHi ∧ facts.rangeLo < facts.rangeHi ∧ constant > -2 ^ 63 then
      { facts with rangeHi := constant - 1 }
    else facts
  | .lt =>
    if constant > -2 ^ 63 then { facts with rangeHi := min facts.rangeHi (constant - 1) } else facts
  | .le => { facts with rangeHi := min facts.rangeHi constant }
  | .gt =>
    if constant < 2 ^ 63 - 1 then { facts with rangeLo := max facts.rangeLo (constant + 1) }
    else facts
  | .ge => { facts with rangeLo := max facts.rangeLo constant }
  | .ult | .ule | .ugt | .uge =>
    (refineRelation predicate.kind facts (exactI64 constant) (some facts) none).lhs.getD facts
  | .multipleOf =>
    match checkedLcmI64 facts.knownDivisor constant with
    | some newDivisor => { facts with knownDivisor := newDivisor }
    | none => facts
  | .powerOfTwo =>
    { facts with
      rangeLo := max facts.rangeLo 1
      flags := { facts.flags with powerOfTwo := true } }
  | .range =>
    let facts :=
      if predicate.argTags 1 = .const then
        { facts with rangeLo := max facts.rangeLo (predicate.args 1) }
      else facts
    if predicate.argTags 2 = .const then
      { facts with rangeHi := min facts.rangeHi (predicate.args 2) }
    else facts
  | _ => facts

/-- The switch of `loom_value_facts_apply_predicate` for the predicates of a floating-point
class. -/
def applyClassPredicate (kind : PredicateKind) : IntegerFacts :=
  let floating := { facts.flags.floating with float := true }
  let floating :=
    match kind with
    | .notNan =>
      { floating with
        notNan := true
        finite := floating.finite || (floating.notInf || floating.finite) }
    | .notInf =>
      { floating with
        notInf := true
        finite := floating.finite || (floating.notNan || floating.finite) }
    | .finite => { floating with notNan := true, notInf := true, finite := true }
    | _ => facts.flags.floating
  { facts with flags := { facts.flags with floating := floating } }

def applyPredicate : IntegerFacts :=
  if facts.isFloat ∧ predicate.kind.isFloatClass = false then facts.applyFloatPredicate predicate
  else if predicate.hasArgs = false then facts
  else
    let constant := if predicate.argCount > 1 then predicate.args 1 else 0
    if predicate.kind = .eq then exactI64 constant
    else if predicate.kind.isFloatClass then facts.applyClassPredicate predicate.kind
    else
      let nonZero := facts.flags.nonZero || (predicate.kind = .ne && constant = 0)
      let facts := facts.narrowByPredicate predicate constant
      facts.refineDivisibleRange.recomputeFlags.withNonZero nonZero

end IntegerFacts

end Hrx.Facts
