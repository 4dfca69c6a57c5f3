import Mathlib.Data.List.Infix

/-!
# Splitting at matches

The segmenter of `iree/tokenizer/segmenter/split.c` from the matches of its pattern on: every match
is handed to the inline callback, and the end of the input flushes what is left.  Positions are
those of the whole input.  A definition with an `iree_tokenizer_split_` counterpart keeps its name,
without that part.
-/

namespace Hrx.Tokenizer.Split

/-- A byte range: `iree_tokenizer_segment_t`, `iree_tokenizer_regex_match_t`. -/
structure Segment where
  start : ℕ
  stop : ℕ
deriving DecidableEq

def Segment.Nonempty (segment : Segment) : Prop := segment.start < segment.stop

instance (segment : Segment) : Decidable segment.Nonempty := Nat.decLt _ _

/-- The segment between two positions, unless it is empty. -/
def between (start stop : ℕ) : List Segment := if start < stop then [⟨start, stop⟩] else []

/-- `iree_tokenizer_regex_split_behavior_t`. -/
inductive Behavior where
  | removed
  | isolated
  | mergedWithPrevious
  | mergedWithNext
  | contiguous
deriving DecidableEq

structure MatchResult where
  segments : List Segment
  pending : Option Segment := none
  lastEmitEnd : ℕ

/-! ### Behaviors -/

section

variable (gap found : Segment) (pending : Option Segment) (invert : Bool)

def handleRemoved : MatchResult where
  segments := if invert then between found.start found.stop else between gap.start gap.stop
  lastEmitEnd := found.stop

def handleIsolated : MatchResult where
  segments := between gap.start gap.stop ++ [found]
  lastEmitEnd := found.stop

def handleMergedWithPrevious : MatchResult where
  segments := [⟨gap.start, found.stop⟩]
  lastEmitEnd := found.stop

def handleMergedWithNext : MatchResult :=
  let pendingStart := pending.map Segment.start
  if invert then
    { segments := between (pendingStart.getD found.start) found.stop
      pending := if gap.Nonempty then some gap else none
      lastEmitEnd := found.stop }
  else
    { segments := between (pendingStart.getD gap.start) gap.stop
      pending := some found
      lastEmitEnd := found.stop }

def handleContiguous : MatchResult :=
  if invert then
    if pending.any fun p => p.stop = gap.start ∧ gap.Nonempty then
      { segments := []
        pending := pending.map fun p => ⟨p.start, gap.stop⟩
        lastEmitEnd := found.stop }
    else
      { segments := pending.toList ++ between found.start found.stop
        pending := if gap.Nonempty then some gap else none
        lastEmitEnd := found.stop }
  else if pending.any fun p => p.stop = found.start then
    { segments := []
      pending := pending.map fun p => ⟨p.start, found.stop⟩
      lastEmitEnd := found.stop }
  else
    { segments := pending.toList ++ between gap.start gap.stop
      pending := some found
      lastEmitEnd := found.stop }

def handleMatch (behavior : Behavior) : MatchResult :=
  match behavior with
  | .removed => handleRemoved gap found invert
  | .isolated => handleIsolated gap found
  | .mergedWithPrevious => handleMergedWithPrevious gap found
  | .mergedWithNext => handleMergedWithNext gap found pending invert
  | .contiguous => handleContiguous gap found pending invert

end

/-! ### Emission -/

structure Emitter where
  capacity : ℕ
  values : List Segment
  full : Bool

def emit (emitter : Emitter) (segment : Segment) : Emitter :=
  if ¬segment.Nonempty ∨ emitter.full then emitter
  else if emitter.values.length ≥ emitter.capacity then { emitter with full := true }
  else { emitter with values := emitter.values ++ [segment] }

/-- `iree_tokenizer_split_callback_context_t`. -/
structure Context where
  emitter : Emitter
  lastEmitEnd : ℕ
  pending : Option Segment

variable (behavior : Behavior) (invert : Bool)

/-- `iree_tokenizer_split_inline_callback`.  The state is kept if not all segments could be
emitted. -/
def inlineCallback (context : Context) (found : Segment) : Context :=
  let result := handleMatch ⟨context.lastEmitEnd, found.start⟩ found context.pending invert behavior
  let emitter := result.segments.foldl emit context.emitter
  if emitter.full then { context with emitter }
  else ⟨emitter, result.lastEmitEnd, result.pending⟩

/-- The matcher reports its matches in order, until one could not be emitted. -/
def feed (context : Context) : List Segment → Context
  | [] => context
  | found :: rest =>
    let context := inlineCallback behavior invert context found
    if context.emitter.full then context else feed context rest

/-- The second phase of `iree_tokenizer_segmenter_split_state_finalize`. -/
def finalizeFlush (context : Context) (inputEnd : ℕ) : Emitter :=
  let emitTrailingGap := ¬invert ∨ behavior = .isolated
  if context.emitter.full then context.emitter
  else
    match context.pending with
    | some pending =>
      if behavior = .mergedWithNext then
        -- the pending delimiter is merged with the trailing content
        if emitTrailingGap ∨ inputEnd > pending.stop then
          emit context.emitter ⟨pending.start, inputEnd⟩
        else emit context.emitter pending
      else
        let emitter := emit context.emitter pending
        if ¬emitter.full ∧ emitTrailingGap then emit emitter ⟨pending.stop, inputEnd⟩ else emitter
    | none =>
      if emitTrailingGap then emit context.emitter ⟨context.lastEmitEnd, inputEnd⟩
      else context.emitter

/-- The segments of an input, given the matches of the pattern in it. -/
def split (capacity inputEnd : ℕ) (found : List Segment) : List Segment :=
  (finalizeFlush behavior invert (feed behavior invert ⟨⟨capacity, [], false⟩, 0, none⟩ found)
    inputEnd).values

end Hrx.Tokenizer.Split
