import Hrx.Tokenizer.WordPiece.Equiv.Segment

/-!
# WordPiece encoding does not depend on the capacities

The tokens written and those still pending are together the tokens of the words accepted so far,
whatever the capacities of the calls and however the segments are split over them (`Fed.tokens_eq`).
A call that does not fill its output consumes all it is given, so calls with room come to an end.
-/

namespace Hrx.Tokenizer.WordPiece

open Bool List State Utf8

/-! ### Pending tokens -/

namespace State

variable {state : State}

def rest (state : State) : List Token :=
  (List.range (state.pendingCount - state.pendingEmitIndex)).map fun i =>
    state.pendingTokens (state.pendingEmitIndex + i)

/-- Whether a segment is accepted and not yet consumed, as a number of segments. -/
def owed (state : State) : ℕ := if state.hasPending then 1 else 0

@[simp] lemma length_rest (state : State) :
    state.rest.length = state.pendingCount - state.pendingEmitIndex := by
  rw [rest, length_map, length_range]

lemma hasPending_iff : state.hasPending = true ↔ state.pendingEmitIndex < state.pendingCount :=
  decide_eq_true_iff

lemma rest_eq_nil (h : state.hasPending = false) : state.rest = [] := by
  apply eq_nil_of_length_eq_zero
  rw [length_rest]
  have := of_decide_eq_false h
  omega

lemma owed_eq_zero (h : state.hasPending = false) : state.owed = 0 :=
  if_neg (eq_false_iff.mp h)

lemma rest_eq_drop (state : State) : state.rest =
    ((List.range state.pendingCount).map state.pendingTokens).drop state.pendingEmitIndex := by
  apply ext_getElem
  · simp
  · simp [rest]

lemma rest_of_lt (h : state.pendingEmitIndex < state.pendingCount) :
    state.rest = state.pendingTokens state.pendingEmitIndex ::
      { state with pendingEmitIndex := state.pendingEmitIndex + 1 }.rest := by
  rw [rest_eq_drop, rest_eq_drop, drop_eq_getElem_cons (by simpa using h)]
  simp

/-- Pending tokens are written until there are none left or the output is full. -/
lemma emitPending_spec (capacity fuel : ℕ) (state : State) (tokens : List Token)
    (hfuel : state.rest.length ≤ fuel) (hlen : tokens.length ≤ capacity) :
    ∃ m, emitPending capacity fuel (state, tokens) =
        ({ state with pendingEmitIndex := state.pendingEmitIndex + m },
          tokens ++ state.rest.take m) ∧
      m ≤ state.rest.length ∧ tokens.length + m ≤ capacity ∧
        (m = state.rest.length ∨ tokens.length + m = capacity) := by
  induction fuel generalizing state tokens with
  | zero =>
    refine ⟨0, ?_, Nat.zero_le _, hlen, .inl (by omega)⟩
    rw [emitPending, take_zero, append_nil]
    rfl
  | succ fuel ih =>
    rw [emitPending]
    split_ifs with hpending hfull
    · refine ⟨0, ?_, Nat.zero_le _, hlen, .inr (by omega)⟩
      rw [take_zero, append_nil]
      rfl
    · rw [rest_of_lt hpending, length_cons] at hfuel
      obtain ⟨m, hrun, hm, hroom, hend⟩ := ih
        { state with pendingEmitIndex := state.pendingEmitIndex + 1 }
        (tokens ++ [state.pendingTokens state.pendingEmitIndex]) (by omega)
        (by rw [length_append, length_singleton]; omega)
      rw [length_append, length_singleton] at hroom hend
      refine ⟨m + 1, ?_, ?_, by omega, ?_⟩
      · rw [hrun, rest_of_lt hpending, take_succ_cons, append_assoc, singleton_append]
        rw [Nat.add_assoc, Nat.add_comm 1 m]
      · rw [rest_of_lt hpending, length_cons]
        omega
      · rw [rest_of_lt hpending, length_cons]
        omega
    · refine ⟨0, ?_, Nat.zero_le _, hlen, .inl ?_⟩
      · rw [take_zero, append_nil]
        rfl
      · rw [length_rest]
        omega

/-- What `emit` leaves. -/
structure Emitted (state : State) (capacity : ℕ) (tokens : List Token) (state' : State)
    (tokens' : List Token) : Prop where
  pendingTokens : state'.pendingTokens = state.pendingTokens
  pendingCount : state'.pendingCount = state.pendingCount
  le_index : state.pendingEmitIndex ≤ state'.pendingEmitIndex
  tokens_eq : tokens' ++ state'.rest = tokens ++ state.rest
  length_le : tokens'.length ≤ capacity
  full : state'.hasPending = true → tokens'.length = capacity
  length_eq : tokens'.length =
    tokens.length + (state'.pendingEmitIndex - state.pendingEmitIndex)

lemma emit_spec (state : State) (capacity : ℕ) (tokens : List Token)
    (hlen : tokens.length ≤ capacity) :
    state.Emitted capacity tokens (state.emit capacity tokens).1
    (state.emit capacity tokens).2 := by
  obtain ⟨m, hrun, hm, hroom, hend⟩ :=
    emitPending_spec capacity (state.pendingCount - state.pendingEmitIndex) state tokens
      (length_rest state).le hlen
  have hlength : (tokens ++ state.rest.take m).length = tokens.length + m := by
    rw [length_append, length_take_of_le hm]
  unfold emit
  rw [hrun]
  refine ⟨rfl, rfl, Nat.le_add_right _ _, ?_, by rw [hlength]; exact hroom, fun h => ?_, ?_⟩
  · rw [rest_eq_drop, rest_eq_drop, ← drop_drop, append_assoc, take_append_drop]
  · rw [hasPending_iff] at h
    rw [length_rest] at hm hend
    dsimp only at h ⊢
    omega
  · rw [hlength]
    dsimp only
    omega

/-- The states that calls leave.  Nothing is written behind the buffer, which starts out as
`initial`. -/
structure Valid (model : Model) (initial : ℕ → Token) (state : State) : Prop where
  count_le : state.pendingCount ≤ model.maxInputCharsPerWord
  within : ∀ i, model.maxInputCharsPerWord ≤ i → state.pendingTokens i = initial i
  idle : state.hasPending = false → state.pendingCount = 0 ∧ state.pendingEmitIndex = 0
  started : state.hasPending = true → 0 < state.pendingEmitIndex

lemma hasPending_reset (state : State) : state.reset.hasPending = false := rfl

lemma Valid.reset {model : Model} {initial : ℕ → Token}
    (h : ∀ i, model.maxInputCharsPerWord ≤ i → state.pendingTokens i = initial i) :
    state.reset.Valid model initial :=
  ⟨Nat.zero_le _, h, fun _ => ⟨rfl, rfl⟩, fun h => by cases h⟩

/-- Tokens that are still pending were pending before. -/
lemma Valid.emitted {model : Model} {initial : ℕ → Token} {capacity : ℕ}
    {tokens tokens' : List Token}
    {state' : State} (h : state.Valid model initial)
    (hemit : state.Emitted capacity tokens state' tokens') :
    (∀ i, model.maxInputCharsPerWord ≤ i → state'.pendingTokens i = initial i) ∧
      state'.pendingCount ≤ model.maxInputCharsPerWord ∧
      (state'.hasPending = true → state.hasPending = true ∧ state'.Valid model initial) := by
  have hwithin : ∀ i, model.maxInputCharsPerWord ≤ i → state'.pendingTokens i = initial i := by
    rw [hemit.pendingTokens]
    exact h.within
  have hcount := hemit.pendingCount.trans_le h.count_le
  refine ⟨hwithin, hcount, fun hpending => ?_⟩
  have hstate : state.hasPending = true := by
    rw [hasPending_iff] at hpending ⊢
    rw [hemit.pendingCount] at hpending
    exact hemit.le_index.trans_lt hpending
  exact ⟨hstate, hcount, hwithin, fun hidle => absurd hpending (eq_false_iff.mp hidle),
    fun _ => (h.started hstate).trans_le hemit.le_index⟩

end State

/-! ### The loop over the segments -/

structure Presents (transformBuffer : List UInt8) (bufferOffset : ℕ) (word : Word) : Prop where
  fits : word.Fits
  start : bufferOffset ≤ word.segment.start
  stop : word.segment.stop - bufferOffset ≤ transformBuffer.length
  text : (transformBuffer.drop (word.segment.start - bufferOffset)).take
    (word.segment.stop - word.segment.start) = bytes word.chars

variable {word : Word} {words : List Word} {model : Model} {initial : ℕ → Token}

lemma Presents.inBounds {transformBuffer : List UInt8} {bufferOffset : ℕ}
    (h : Presents transformBuffer bufferOffset word) :
    Segment.inBounds word.segment bufferOffset transformBuffer.length = true := by
  have hfits := h.fits
  have hstart := h.start
  have hstop := h.stop
  unfold Word.Fits at hfits
  unfold Segment.inBounds
  simp only [not_eq_true', or_eq_false_iff, decide_eq_false_iff_not]
  omega

/-- What the loop over some words does: it consumes `count` of them, and the tokens written and
pending are those of the words consumed and of the one that is pending. -/
structure Encoded (model : Model) (initial : ℕ → Token) (capacity : ℕ) (words : List Word)
    (p p' : Progress) (count : ℕ) : Prop where
  valid : p'.state.Valid model initial
  consumed : p'.segmentsConsumed = p.segmentsConsumed + count
  count_le : count + p'.state.owed ≤ words.length
  tokens : p'.tokens ++ p'.state.rest =
    p.tokens ++ (words.take (count + p'.state.owed)).flatMap model.wordTokens
  length_le : p'.tokens.length ≤ capacity
  full : count = words.length ∨ p'.tokens.length = capacity

namespace Encoded

variable {capacity : ℕ} {p p₁ p' : Progress} {count : ℕ}

/-- The first word is consumed. -/
lemma cons (h : Encoded model initial capacity words p₁ p' count)
    (hconsumed : p₁.segmentsConsumed = p.segmentsConsumed + 1)
    (htokens : p₁.tokens = p.tokens ++ model.wordTokens word) :
    Encoded model initial capacity (word :: words) p p' (count + 1) where
  valid := h.valid
  consumed := by
    rw [h.consumed, hconsumed]
    omega
  count_le := by
    have := h.count_le
    rw [length_cons]
    omega
  tokens := by
    rw [h.tokens, htokens, show count + 1 + p'.state.owed = count + p'.state.owed + 1 by omega,
      take_succ_cons, flatMap_cons, append_assoc]
  length_le := h.length_le
  full := h.full.imp_left fun h => by rw [length_cons, h]

end Encoded

namespace Model

variable {transformBuffer : List UInt8}

lemma encodeSegments_spec (hshort : model.ShortTokens) {bufferOffset capacity : ℕ}
    (hwords : ∀ word ∈ words, Presents transformBuffer bufferOffset word) (p : Progress)
    (hvalid : p.state.Valid model initial) (hidle : p.state.hasPending = false)
    (hlen : p.tokens.length ≤ capacity) :
    ∃ p' count, model.encodeSegments transformBuffer bufferOffset capacity
      (words.map Word.segment) p =
        .ok p' ∧ Encoded model initial capacity words p p' count := by
  induction words generalizing p with
  | nil =>
    refine ⟨p, 0, rfl, hvalid, rfl, ?_, ?_, hlen, .inl rfl⟩
    · rw [owed_eq_zero hidle]
      exact le_rfl
    · rw [rest_eq_nil hidle, take_nil, flatMap_nil]
  | cons word words ih =>
    have howed := owed_eq_zero hidle
    have hword := hwords word mem_cons_self
    have hrest : ∀ w ∈ words, Presents transformBuffer bufferOffset w := fun w hw =>
      hwords w (mem_cons_of_mem _ hw)
    rw [map_cons, encodeSegments]
    split_ifs with hfull hbounds
    · refine ⟨p, 0, rfl, hvalid, rfl, ?_, ?_, hlen, .inr (by omega)⟩
      · rw [howed]
        exact Nat.zero_le _
      · rw [rest_eq_nil hidle, howed, take_zero, flatMap_nil]
    · rw [hword.inBounds] at hbounds
      cases hbounds
    obtain ⟨pending, count, hrun, hpre⟩ := tokenizeSegment_spec hshort word p.state.pendingTokens
    have hwithin : ∀ i, model.maxInputCharsPerWord ≤ i → pending i = initial i := fun i hi =>
      (hpre.within i hi).trans (hvalid.within i hi)
    obtain ⟨hcount, hindex⟩ := hvalid.idle hidle
    rw [hword.text]
    dsimp only
    rw [hrun]
    by_cases hzero : count = 0
    · -- nothing to emit from the buffer: an empty or an unknown word
      have hidle' : (State.mk pending p.state.pendingCount p.state.pendingEmitIndex).hasPending =
          false := hidle
      have hvalid' : (State.mk pending p.state.pendingCount p.state.pendingEmitIndex).Valid model
          initial := ⟨hvalid.count_le, hwithin, hvalid.idle, hvalid.started⟩
      have htokens := hpre.bad hzero
      by_cases hnil : word.chars = []
      · rw [if_pos hnil] at htokens
        rw [if_neg (by rw [hnil]; simp), if_pos hzero]
        obtain ⟨p', n, hrun', henc⟩ := ih hrest ⟨_, p.segmentsConsumed + 1, p.tokens⟩ hvalid'
          hidle' hlen
        refine ⟨p', n + 1, hrun', henc.cons rfl ?_⟩
        rw [htokens, append_nil]
      · rw [if_neg hnil] at htokens
        have hpos : 0 < (bytes word.chars).length :=
          (length_pos_iff.mpr hnil).trans_le (length_le_bytes _)
        rw [if_pos ⟨hzero, hpos⟩]
        obtain ⟨p', n, hrun', henc⟩ := ih hrest
          ⟨_, p.segmentsConsumed + 1, p.tokens ++ [model.unkToken word]⟩ hvalid' hidle'
          (by rw [length_append, length_singleton]; omega)
        refine ⟨p', n + 1, hrun', henc.cons rfl ?_⟩
        rw [htokens]
    · rw [if_neg (fun h => hzero h.1), if_neg hzero]
      have htokens := hpre.tokens (Nat.pos_of_ne_zero hzero)
      have hemit := State.emit_spec (State.mk pending count 0) capacity p.tokens hlen
      obtain ⟨emitted, hemitted⟩ : ∃ emitted, emitted =
          State.emit (State.mk pending count 0) capacity p.tokens := ⟨_, rfl⟩
      rw [← hemitted] at hemit ⊢
      have hall : (State.mk pending count 0).rest = model.wordTokens word := by
        rw [htokens]
        unfold rest
        simp only [Nat.sub_zero, Nat.zero_add]
      have hwithin' : ∀ i, model.maxInputCharsPerWord ≤ i →
          emitted.1.pendingTokens i = initial i := by
        rw [hemit.pendingTokens]
        exact hwithin
      by_cases hpending : emitted.1.hasPending = true
      · rw [if_pos hpending]
        have howed' : emitted.1.owed = 1 := if_pos hpending
        have hfull' := hemit.full hpending
        refine ⟨_, 0, rfl, ⟨?_, hwithin', fun h => ?_, fun _ => ?_⟩, rfl, ?_, ?_, hemit.length_le,
          .inr hfull'⟩
        · rw [hemit.pendingCount]
          exact hpre.count_le
        · rw [hpending] at h
          cases h
        · show 0 < emitted.1.pendingEmitIndex
          have := hemit.length_eq
          omega
        · rw [howed', length_cons]
          omega
        · rw [hemit.tokens_eq, hall, howed', take_succ_cons, take_zero, flatMap_cons,
            flatMap_nil, append_nil]
      · rw [if_neg hpending]
        obtain ⟨p', n, hrun', henc⟩ := ih hrest
          ⟨emitted.1.reset, p.segmentsConsumed + 1, emitted.2⟩ (State.Valid.reset hwithin')
            (hasPending_reset _) hemit.length_le
        refine ⟨p', n + 1, hrun', henc.cons rfl ?_⟩
        have hdone := hemit.tokens_eq
        rwa [rest_eq_nil (eq_false_iff.mpr hpending), append_nil, hall] at hdone

/-- What a call does: it consumes the first `p'.segmentsConsumed` of the words it is given. -/
structure Called (model : Model) (initial : ℕ → Token) (capacity : ℕ) (words : List Word)
    (state : State)
    (p' : Progress) : Prop where
  valid : p'.state.Valid model initial
  owed_le : state.owed ≤ p'.segmentsConsumed + p'.state.owed
  count_le : p'.segmentsConsumed + p'.state.owed ≤ words.length
  tokens : p'.tokens ++ p'.state.rest = state.rest ++
    ((words.take (p'.segmentsConsumed + p'.state.owed)).drop state.owed).flatMap model.wordTokens
  length_le : p'.tokens.length ≤ capacity
  full : p'.segmentsConsumed = words.length ∨ p'.tokens.length = capacity

lemma encode_spec (hshort : model.ShortTokens) (capacity : ℕ) {segments : SegmentList}
    {state : State} (hsegments : segments.processable = words.map Word.segment)
    (hwords : ∀ word ∈ words, Presents transformBuffer segments.bufferOffset word)
    (hvalid : state.Valid model initial) (howed : state.owed ≤ words.length) :
    ∃ p', model.encode state transformBuffer segments capacity = .ok p' ∧
      Called model initial capacity words state p' := by
  have hemit := state.emit_spec capacity [] (Nat.zero_le _)
  obtain ⟨emitted, hemitted⟩ : ∃ emitted, emitted = state.emit capacity [] := ⟨_, rfl⟩
  unfold encode
  rw [← hemitted] at hemit ⊢
  dsimp only
  rw [hsegments]
  have htokens := hemit.tokens_eq
  rw [nil_append] at htokens
  obtain ⟨hwithin, hcount_le, hresumed⟩ := hvalid.emitted hemit
  split_ifs with hpending hstarted
  · -- the output is full before the pending tokens are written
    obtain ⟨hstate, hvalid'⟩ := hresumed hpending
    have howed₁ : state.owed = 1 := if_pos hstate
    have howed₂ : emitted.1.owed = 1 := if_pos hpending
    refine ⟨_, rfl, hvalid', ?_, ?_, ?_, hemit.length_le, .inr (hemit.full hpending)⟩
    · dsimp only
      omega
    · dsimp only
      omega
    · dsimp only
      rw [htokens, howed₁, howed₂, drop_of_length_le (by rw [length_take]; omega),
        flatMap_nil, append_nil]
  · -- the pending segment is done
    have hrest : emitted.1.rest = [] := rest_eq_nil (eq_false_iff.mpr hpending)
    rw [hrest, append_nil] at htokens
    have hstate : state.hasPending = true := by
      by_contra hidle
      obtain ⟨hcount, hindex⟩ := hvalid.idle (eq_false_iff.mpr hidle)
      have hlength := hemit.length_eq
      rw [htokens, length_rest, hcount, hindex, length_nil] at hlength
      omega
    have howed₁ : state.owed = 1 := if_pos hstate
    obtain ⟨word, words, rfl⟩ : ∃ word rest, words = word :: rest := by
      cases words with
      | nil => rw [howed₁] at howed; cases howed
      | cons word rest => exact ⟨word, rest, rfl⟩
    rw [map_cons, drop_one, tail_cons]
    obtain ⟨p', count, hrun, henc⟩ := encodeSegments_spec hshort
      (fun w hw => hwords w (mem_cons_of_mem _ hw)) ⟨emitted.1.reset, 1, emitted.2⟩
      (State.Valid.reset hwithin) (hasPending_reset _) hemit.length_le
    have hconsumed := henc.consumed
    dsimp only at hconsumed
    refine ⟨p', hrun, henc.valid, by omega, ?_, ?_, henc.length_le, ?_⟩
    · have := henc.count_le
      rw [length_cons]
      omega
    · rw [henc.tokens]
      rw [htokens, howed₁, hconsumed, show 1 + count + p'.state.owed =
        count + p'.state.owed + 1 by omega,
        take_succ_cons, drop_one, tail_cons]
    · rw [length_cons, hconsumed]
      exact henc.full.imp_left fun h => by omega
  · -- nothing was pending
    have hstate : state.hasPending = false := by
      by_contra hpend
      have := hvalid.started (not_eq_false _ ▸ hpend)
      have := hemit.le_index
      omega
    have howed₁ := owed_eq_zero hstate
    have hrest : emitted.1.rest = [] := rest_eq_nil (eq_false_iff.mpr hpending)
    rw [hrest, append_nil, rest_eq_nil hstate] at htokens
    have hvalid' : emitted.1.Valid model initial := by
      obtain ⟨hcount, -⟩ := hvalid.idle hstate
      exact ⟨hcount_le, hwithin, fun _ => ⟨hemit.pendingCount.trans hcount, by omega⟩,
        fun h => absurd h hpending⟩
    obtain ⟨p', count, hrun, henc⟩ := encodeSegments_spec hshort hwords ⟨emitted.1, 0, emitted.2⟩
      hvalid' (eq_false_iff.mpr hpending) hemit.length_le
    have hconsumed := henc.consumed
    rw [Nat.zero_add] at hconsumed
    refine ⟨p', hrun, henc.valid, by omega, ?_, ?_, henc.length_le, ?_⟩
    · rw [hconsumed]
      exact henc.count_le
    · rw [henc.tokens, htokens, rest_eq_nil hstate, howed₁, hconsumed, drop_zero]
    · rw [hconsumed]
      exact henc.full

end Model

lemma finalize_spec {initial : ℕ → Token} {state : State} (capacity : ℕ)
    (hvalid : state.Valid model initial) :
    (finalize state capacity).1.Valid model initial ∧
      (finalize state capacity).2 ++ (finalize state capacity).1.rest = state.rest ∧
        (finalize state capacity).2.length ≤ capacity ∧
          ((finalize state capacity).1.hasPending = true →
            (finalize state capacity).2.length = capacity) := by
  have hemit := state.emit_spec capacity [] (Nat.zero_le _)
  obtain ⟨emitted, hemitted⟩ : ∃ emitted, emitted = state.emit capacity [] := ⟨_, rfl⟩
  have htokens := hemit.tokens_eq
  rw [nil_append] at htokens
  obtain ⟨hwithin, -, hresumed⟩ := hvalid.emitted hemit
  unfold finalize
  rw [← hemitted] at hemit hwithin hresumed htokens ⊢
  by_cases hpending : emitted.1.hasPending = true
  · rw [if_pos hpending]
    exact ⟨(hresumed hpending).2, htokens, hemit.length_le, hemit.full⟩
  · rw [if_neg hpending]
    refine ⟨State.Valid.reset hwithin, ?_, hemit.length_le, fun h => ?_⟩
    · rw [rest_eq_nil (eq_false_iff.mpr hpending)] at htokens
      exact htokens
    · rw [hasPending_reset] at h
      cases h

/-! ### Runs -/

/-- What a caller gives to a call: the next words, as many as it likes, with a buffer that holds
their text.  A segment that is pending is given again, and a partial last segment may follow. -/
structure Delivers (words : List Word) (consumed : ℕ) (state : State) (transformBuffer : List UInt8)
    (segments : SegmentList) (given : List Word) : Prop where
  next : ∃ k, given = (words.drop consumed).take k
  processable : segments.processable = given.map Word.segment
  presents : ∀ word ∈ given, Presents transformBuffer segments.bufferOffset word
  resumed : state.hasPending = true → given ≠ []

/-- The states that calls of `encode` bring about, with the number of segments consumed and the
tokens written. -/
inductive Fed (model : Model) (words : List Word) (initial : ℕ → Token) :
    State → ℕ → List Token → Prop
  | initial : Fed model words initial ⟨initial, 0, 0⟩ 0 []
  | encode {state consumed tokens transformBuffer segments given capacity p'}
      (fed : Fed model words initial state consumed tokens)
      (delivers : Delivers words consumed state transformBuffer segments given)
      (run : model.encode state transformBuffer segments capacity = .ok p') :
      Fed model words initial p'.state (consumed + p'.segmentsConsumed) (tokens ++ p'.tokens)

/-- The states that calls of `finalize` bring about after that, with the number of words
accepted. -/
inductive Drained (model : Model) (words : List Word) (initial : ℕ → Token) :
    State → ℕ → List Token → Prop
  | fed {state consumed tokens} (fed : Fed model words initial state consumed tokens) :
      Drained model words initial state (consumed + state.owed) tokens
  | finalize {state accepted tokens} (capacity : ℕ)
      (drained : Drained model words initial state accepted tokens) :
      Drained model words initial (finalize state capacity).1 accepted
        (tokens ++ (finalize state capacity).2)

section runs

variable {state : State} {consumed : ℕ} {tokens : List Token} {transformBuffer : List UInt8}
  {segments : SegmentList} {given : List Word}

lemma Delivers.owed_le (h : Delivers words consumed state transformBuffer segments given) :
    state.owed ≤ given.length := by
  unfold owed
  split_ifs with hpending
  · exact length_pos_iff.mpr (h.resumed hpending)
  · exact Nat.zero_le _

/-- The words accepted so far: those consumed, and the one that is pending. -/
structure Accounted (model : Model) (words : List Word) (initial : ℕ → Token) (state : State)
    (consumed : ℕ) (tokens : List Token) : Prop where
  valid : state.Valid model initial
  le_length : consumed + state.owed ≤ words.length
  tokens_eq : tokens ++ state.rest = (words.take (consumed + state.owed)).flatMap model.wordTokens

lemma Accounted.encode (h : Accounted model words initial state consumed tokens)
    (hshort : model.ShortTokens)
    (hgiven : Delivers words consumed state transformBuffer segments given) (capacity : ℕ) :
    ∃ p', model.encode state transformBuffer segments capacity = .ok p' ∧
      Model.Called model initial capacity given state p' ∧
        Accounted model words initial p'.state (consumed + p'.segmentsConsumed)
        (tokens ++ p'.tokens) := by
  obtain ⟨p', hrun, hcall⟩ := Model.encode_spec hshort capacity hgiven.processable
    hgiven.presents h.valid hgiven.owed_le
  obtain ⟨k, hk⟩ := hgiven.next
  have hle := hcall.count_le
  have hlen : given.length ≤ words.length - consumed := by
    rw [hk, length_take, length_drop]
    omega
  have hbound := h.le_length
  refine ⟨p', hrun, hcall, hcall.valid, by omega, ?_⟩
  have htake : given.take (p'.segmentsConsumed + p'.state.owed) =
      (words.drop consumed).take (p'.segmentsConsumed + p'.state.owed) := by
    rw [hk, take_take, Nat.min_eq_left]
    rw [hk, length_take] at hle
    omega
  rw [append_assoc, hcall.tokens, ← append_assoc, h.tokens_eq, htake, ← flatMap_append]
  congr 1
  have hsplit := hcall.owed_le
  rw [drop_take, drop_drop, ← take_add]
  congr 1
  omega

lemma Fed.accounted (hshort : model.ShortTokens)
    (h : Fed model words initial state consumed tokens) :
    Accounted model words initial state consumed tokens := by
  induction h with
  | initial =>
    exact ⟨⟨Nat.zero_le _, fun _ _ => rfl, fun _ => ⟨rfl, rfl⟩, fun h => by cases h⟩,
      Nat.zero_le _, rfl⟩
  | @encode state consumed tokens transformBuffer segments given capacity p' _ hgiven hrun ih =>
    obtain ⟨p'', hrun', -, hnext⟩ := ih.encode hshort hgiven capacity
    rw [hrun] at hrun'
    cases hrun'
    exact hnext

theorem Drained.tokens_eq (hshort : model.ShortTokens)
    (h : Drained model words initial state consumed tokens) :
    state.Valid model initial ∧
      tokens ++ state.rest = (words.take consumed).flatMap model.wordTokens := by
  induction h with
  | fed hfed =>
    have h := hfed.accounted hshort
    exact ⟨h.valid, h.tokens_eq⟩
  | finalize capacity _ ih =>
    obtain ⟨hvalid, htokens, -⟩ := finalize_spec capacity ih.1
    refine ⟨hvalid, ?_⟩
    rw [append_assoc, htokens]
    exact ih.2

end runs

/-! ### The pieces of a word -/

/-- Tokens that cover a range one after the other. -/
inductive Partitions : ℕ → ℕ → List Token → Prop
  | nil (position : ℕ) : Partitions position position []
  | cons {token : Token} {stop : ℕ} {tokens : List Token}
    (nonempty : token.startByte < token.endByte)
      (rest : Partitions token.endByte stop tokens) :
      Partitions token.startByte stop (token :: tokens)

lemma partitions_layout {pieces : List (List Char × TokenId)} (h : ∀ p ∈ pieces, p.1 ≠ [])
    (start : ℕ) :
    Partitions start (start + (bytes (pieces.map (·.1)).flatten).length) (layout start pieces) := by
  induction pieces generalizing start with
  | nil => exact .nil start
  | cons piece pieces ih =>
    have hpos : 0 < (bytes piece.1).length :=
      (length_pos_iff.mpr (h piece mem_cons_self)).trans_le (length_le_bytes _)
    have hrest := ih (fun p hp => h p (mem_cons_of_mem _ hp)) (start + (bytes piece.1).length)
    rw [map_cons, flatten_cons, bytes_append, length_append, ← Nat.add_assoc, layout]
    have hlt : (Token.mk piece.2 start (start + (bytes piece.1).length)).startByte <
        (Token.mk piece.2 start (start + (bytes piece.1).length)).endByte :=
      Nat.lt_add_of_pos_right hpos
    exact Partitions.cons hlt hrest

lemma partitions_wordTokens (hfits : word.Fits) (hne : word.chars ≠ []) :
    Partitions word.segment.start word.segment.stop (model.wordTokens word) := by
  have hunk : Partitions word.segment.start word.segment.stop [model.unkToken word] := by
    have hpos : 0 < (bytes word.chars).length :=
      (length_pos_iff.mpr hne).trans_le (length_le_bytes _)
    have hlt : (model.unkToken word).startByte < (model.unkToken word).endByte := by
      show word.segment.start < word.segment.stop
      rw [hfits]
      exact Nat.lt_add_of_pos_right hpos
    exact .cons hlt (.nil _)
  unfold Model.wordTokens
  rw [if_neg hne]
  split_ifs
  · exact hunk
  cases hgreedy : LongestMatch.greedy (model.find false) (model.find true) word.chars with
  | none => exact hunk
  | some =>
    obtain ⟨hjoin, hpieces⟩ := LongestMatch.flatten_greedy hgreedy
    have h := partitions_layout hpieces word.segment.start
    rw [hjoin, ← hfits] at h
    exact h

/-- WordPiece encoding is greedy longest match, whatever the capacities: every call of `encode`
returns and stops early only for a full output; the tokens written and pending are those of the
words accepted, and once nothing is pending all of them are written; nothing is stored behind the
buffer; and the tokens of a word cover it. -/
theorem encode_greedy (model : Model) (hshort : model.ShortTokens) (words : List Word)
    (hfits : ∀ word ∈ words, word.Fits) (initial : ℕ → Token) :
    (∀ state consumed tokens, Fed model words initial state consumed tokens →
      consumed + state.owed ≤ words.length ∧
        tokens ++ state.rest = (words.take (consumed + state.owed)).flatMap model.wordTokens ∧
        state.Valid model initial ∧
          ∀ transformBuffer segments given capacity,
            Delivers words consumed state transformBuffer segments given →
              ∃ p', model.encode state transformBuffer segments capacity = .ok p' ∧
                p'.segmentsConsumed ≤ given.length ∧ p'.tokens.length ≤ capacity ∧
                  (p'.segmentsConsumed = given.length ∨ p'.tokens.length = capacity)) ∧
      (∀ state accepted tokens, Drained model words initial state accepted tokens →
        (∀ capacity, (finalize state capacity).2.length ≤ capacity ∧
          ((finalize state capacity).1.hasPending = true →
            (finalize state capacity).2.length = capacity)) ∧
          (state.hasPending = false → tokens = (words.take accepted).flatMap model.wordTokens)) ∧
        ∀ word ∈ words, word.chars ≠ [] →
          Partitions word.segment.start word.segment.stop (model.wordTokens word) := by
  refine ⟨?_, ?_, fun word hword => partitions_wordTokens (hfits word hword)⟩
  · intro state consumed tokens hfed
    have h := hfed.accounted hshort
    refine ⟨h.le_length, h.tokens_eq, h.valid, ?_⟩
    intro transformBuffer segments given capacity hgiven
    obtain ⟨p', hrun, hcall, -⟩ := h.encode hshort hgiven capacity
    have := hcall.count_le
    exact ⟨p', hrun, by omega, hcall.length_le, hcall.full⟩
  · intro state accepted tokens hdrained
    obtain ⟨hvalid, htokens⟩ := hdrained.tokens_eq hshort
    refine ⟨fun capacity => ?_, fun hidle => ?_⟩
    · obtain ⟨-, -, hle, hfull⟩ := finalize_spec capacity hvalid
      exact ⟨hle, hfull⟩
    · rwa [State.rest_eq_nil hidle, append_nil] at htokens

def unaModel : Model where
  vocab := ⟨fun text =>
    if text = [0x75, 0x6E] then 1 else if text = [0x23, 0x23, 0x61] then 2 else -1⟩
  unkTokenId := 0
  continuingSubwordPrefix := [0x23, 0x23]
  maxInputCharsPerWord := 100
  length_prefix_le := by decide
  max_pos := by decide

def unaWord : Word := ⟨⟨0, 3⟩, ['u', 'n', 'a']⟩

/-- With room for one token the second comes from `finalize`. -/
theorem encode_greedy_una :
    ∃ state tokens, Drained unaModel [unaWord] (fun _ => default) state 1 tokens ∧
      state.hasPending = false ∧ tokens = [⟨1, 0, 2⟩, ⟨2, 2, 3⟩] := by
  have hshort : unaModel.ShortTokens := by
    intro text h
    unfold unaModel at h
    dsimp only at h
    split_ifs at h with h₁ h₂
    · rw [h₁]
      decide
    · rw [h₂]
      decide
    · exact absurd rfl h
  have hfits : ∀ word ∈ [unaWord], word.Fits := by
    intro word hword
    rw [mem_singleton.mp hword]
    rfl
  obtain ⟨-, hdrained, -⟩ := encode_greedy unaModel hshort [unaWord] hfits fun _ => default
  have hdelivers : Delivers [unaWord] 0 ⟨fun _ => default, 0, 0⟩ [0x75, 0x6E, 0x61]
      ⟨[⟨0, 3⟩], false, 0⟩ [unaWord] := by
    refine ⟨⟨1, rfl⟩, rfl, ?_, fun h => by cases h⟩
    intro word hword
    rw [mem_singleton.mp hword]
    exact ⟨rfl, le_rfl, le_rfl, by decide⟩
  have hencode : unaModel.encode ⟨fun _ => default, 0, 0⟩ [0x75, 0x6E, 0x61]
      ⟨[⟨0, 3⟩], false, 0⟩ 1 =
      .ok ⟨⟨Function.update (Function.update (fun _ => default) 0 ⟨1, 0, 2⟩) 1 ⟨2, 2, 3⟩, 2, 1⟩, 0,
        [⟨1, 0, 2⟩]⟩ := rfl
  have hrun := Drained.finalize 1 (.fed (.encode .initial hdelivers hencode))
  exact ⟨_, _, hrun, rfl, (hdrained _ _ _ hrun).2 rfl⟩

end Hrx.Tokenizer.WordPiece
