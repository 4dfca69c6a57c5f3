import Hrx.Base.Status
import Mathlib.Data.List.Infix

/-!
# WordPiece

`iree/tokenizer/model/wordpiece.c`.  The sub-tokens of a segment are computed into a buffer of the
state before the first is written, since a position without a match makes the whole segment unknown.
The output may be full in the middle of a segment; the next call goes on with the buffer, and the
segment is the first of its list.
-/

namespace Hrx.Tokenizer

/-- `iree_tokenizer_segment_t`, a byte range. -/
structure Segment where
  start : ℕ
  stop : ℕ
deriving DecidableEq, Repr

namespace WordPiece

/-- `iree_tokenizer_token_id_t`. -/
abbrev TokenId := Int32

/-- `IREE_TOKENIZER_TOKEN_ID_INVALID`. -/
def tokenIdInvalid : TokenId := -1

/-- `IREE_TOKENIZER_WORDPIECE_MAX_LOOKUP_BYTES`. -/
def maxLookupBytes : ℕ := 512

/-- What the model uses of a vocabulary: `iree_tokenizer_vocab_lookup`. -/
structure Vocab where
  lookup : List UInt8 → TokenId

/-- `iree_tokenizer_wordpiece_model_t`.  The prefix is stored in 16 bytes and the limit is positive,
as `iree_tokenizer_wordpiece_model_allocate` checks. -/
structure Model where
  vocab : Vocab
  unkTokenId : TokenId
  continuingSubwordPrefix : List UInt8
  maxInputCharsPerWord : ℕ
  length_prefix_le : continuingSubwordPrefix.length ≤ 16
  max_pos : 0 < maxInputCharsPerWord

/-- A token with its byte range (`iree_tokenizer_wordpiece_pending_token_t`), also as it is written
to the output. -/
structure Token where
  tokenId : TokenId
  startByte : ℕ
  endByte : ℕ
deriving DecidableEq, Inhabited

/-- `iree_tokenizer_wordpiece_state_t` with the buffer behind it, which has room for
`maxInputCharsPerWord` tokens. -/
structure State where
  pendingTokens : ℕ → Token
  pendingCount : ℕ
  pendingEmitIndex : ℕ

/-- `iree_tokenizer_wordpiece_state_reset`; the buffer is not cleared. -/
def State.reset (state : State) : State := { state with pendingCount := 0, pendingEmitIndex := 0 }

/-! ### Characters -/

/-- `iree_tokenizer_wordpiece_utf8_char_length`. -/
def utf8CharLength (byte : UInt8) : ℕ :=
  if byte < 0x80 then 1
  else if byte &&& 0xE0 = 0xC0 then 2
  else if byte &&& 0xF0 = 0xE0 then 3
  else if byte &&& 0xF8 = 0xF0 then 4
  else 1

/-- The loop of `iree_tokenizer_wordpiece_count_chars`; it advances in every pass. -/
def countCharsFrom (data : List UInt8) : ℕ → ℕ → ℕ → ℕ
  | 0, _, count => count
  | fuel + 1, position, count =>
    if position < data.length then
      countCharsFrom data fuel (position + utf8CharLength (data.getD position 0)) (count + 1)
    else count

/-- `iree_tokenizer_wordpiece_count_chars`. -/
def countChars (data : List UInt8) : ℕ := countCharsFrom data data.length 0 0

/-- Walks back past continuation bytes. -/
def skipBack (data : List UInt8) : ℕ → ℕ
  | 0 => 0
  | p + 1 => if data.getD (p + 1) 0 &&& 0xC0 = 0x80 then skipBack data p else p + 1

/-- `iree_tokenizer_wordpiece_prev_char`. -/
def prevChar (data : List UInt8) (position : ℕ) : ℕ := skipBack data (position - 1)

/-! ### Matches -/

namespace Model

variable (model : Model)

/-- The text that is looked up for a range of a segment. -/
def candidate (data : List UInt8) (startByte stop : ℕ) : List UInt8 :=
  (if 0 < startByte then model.continuingSubwordPrefix else []) ++
    (data.drop startByte).take (stop - startByte)

/-- The loop of `iree_tokenizer_wordpiece_find_longest_match`, from an end that moves back in every
pass. -/
def findFrom (data : List UInt8) (startByte : ℕ) : ℕ → ℕ → TokenId × ℕ
  | 0, _ => (tokenIdInvalid, 0)
  | fuel + 1, stop =>
    if startByte < stop then
      let text := model.candidate data startByte stop
      let tokenId :=
        if text.length ≤ maxLookupBytes then model.vocab.lookup text else tokenIdInvalid
      if tokenId ≠ tokenIdInvalid then (tokenId, stop)
      else findFrom data startByte fuel (prevChar data stop)
    else (tokenIdInvalid, 0)

/-- `iree_tokenizer_wordpiece_find_longest_match`: the token and the end of the match. -/
def findLongestMatch (data : List UInt8) (startByte : ℕ) : TokenId × ℕ :=
  model.findFrom data startByte data.length data.length

/-- The loop of `iree_tokenizer_wordpiece_tokenize_segment`: the buffer and the number of tokens in
it, 0 for a bad word. -/
def tokenizeFrom (data : List UInt8) (baseOffset : ℕ) : ℕ → (ℕ → Token) → ℕ → ℕ → (ℕ → Token) × ℕ
  | 0, pending, _, tokenCount => (pending, tokenCount)
  | fuel + 1, pending, position, tokenCount =>
    if position < data.length then
      let (tokenId, endByte) := model.findLongestMatch data position
      if tokenId = tokenIdInvalid then (pending, 0)
      else if model.maxInputCharsPerWord ≤ tokenCount then (pending, 0)
      else
        tokenizeFrom data baseOffset fuel
          (Function.update pending tokenCount ⟨tokenId, baseOffset + position,
            baseOffset + endByte⟩)
          endByte (tokenCount + 1)
    else (pending, tokenCount)

/-- `iree_tokenizer_wordpiece_tokenize_segment`. -/
def tokenizeSegment (pending : ℕ → Token) (data : List UInt8) (baseOffset : ℕ) : (ℕ → Token) × ℕ :=
  if data.length = 0 then (pending, 0)
  else if model.maxInputCharsPerWord < countChars data then (pending, 0)
  else model.tokenizeFrom data baseOffset data.length pending 0 0

end Model

/-! ### Encoding -/

/-- `iree_tokenizer_segment_list_t`. -/
structure SegmentList where
  values : List Segment
  lastIsPartial : Bool
  bufferOffset : ℕ

/-- The segments to process: a partial last one is left out. -/
def SegmentList.processable (segments : SegmentList) : List Segment :=
  if segments.lastIsPartial then segments.values.dropLast else segments.values

/-- `iree_tokenizer_wordpiece_state_has_pending`. -/
def State.hasPending (state : State) : Bool := state.pendingEmitIndex < state.pendingCount

/-- The loops that write pending tokens while the output has room. -/
def emitPending (capacity : ℕ) : ℕ → State × List Token → State × List Token
  | 0, s => s
  | fuel + 1, (state, tokens) =>
    if state.pendingEmitIndex < state.pendingCount then
      if capacity ≤ tokens.length then (state, tokens)
      else
        emitPending capacity fuel
          ({ state with pendingEmitIndex := state.pendingEmitIndex + 1 },
            tokens ++ [state.pendingTokens state.pendingEmitIndex])
    else (state, tokens)

def State.emit (state : State) (capacity : ℕ) (tokens : List Token) : State × List Token :=
  emitPending capacity (state.pendingCount - state.pendingEmitIndex) (state, tokens)

structure Progress where
  state : State
  segmentsConsumed : ℕ
  tokens : List Token

/-- The bounds that a call checks of a segment. -/
def Segment.inBounds (segment : Segment) (bufferOffset dataLength : ℕ) : Bool :=
  !(segment.start < bufferOffset || segment.stop < segment.start ||
    dataLength < segment.stop - bufferOffset)

def boundsStatus (segment : Segment) (bufferOffset dataLength : ℕ) : Status :=
  let start := segment.start
  let stop := segment.stop
  ⟨.invalidArgument,
    s!"segment bounds out of range: [{start}, {stop}) in buffer at {bufferOffset} of " ++
    s!"{dataLength} bytes"⟩

namespace Model

variable (model : Model)

/-- The loop over the segments of `iree_tokenizer_wordpiece_state_encode`. -/
def encodeSegments (transformBuffer : List UInt8) (bufferOffset capacity : ℕ) :
    List Segment → Progress → Except Status Progress
  | [], p => .ok p
  | segment :: rest, p =>
    if capacity ≤ p.tokens.length then .ok p
    else if !Segment.inBounds segment bufferOffset transformBuffer.length then
      .error (boundsStatus segment bufferOffset transformBuffer.length)
    else
      let segmentData :=
        (transformBuffer.drop (segment.start - bufferOffset)).take (segment.stop - segment.start)
      let (pending, subtokens) :=
        model.tokenizeSegment p.state.pendingTokens segmentData segment.start
      let state := { p.state with pendingTokens := pending }
      if subtokens = 0 ∧ 0 < segmentData.length then
        encodeSegments transformBuffer bufferOffset capacity rest
          ⟨state, p.segmentsConsumed + 1,
            p.tokens ++ [⟨model.unkTokenId, segment.start, segment.stop⟩]⟩
      else if subtokens = 0 then
        encodeSegments transformBuffer bufferOffset capacity rest
          ⟨state, p.segmentsConsumed + 1, p.tokens⟩
      else
        let emitted := State.emit { state with pendingCount := subtokens, pendingEmitIndex := 0 }
          capacity p.tokens
        if emitted.1.hasPending then .ok ⟨emitted.1, p.segmentsConsumed, emitted.2⟩
        else
          encodeSegments transformBuffer bufferOffset capacity rest
            ⟨emitted.1.reset, p.segmentsConsumed + 1, emitted.2⟩

/-- `iree_tokenizer_wordpiece_state_encode`: the state, the segments consumed and the tokens
written. -/
def encode (state : State) (transformBuffer : List UInt8) (segments : SegmentList) (capacity : ℕ) :
    Except Status Progress :=
  let emitted := state.emit capacity []
  if emitted.1.hasPending then .ok ⟨emitted.1, 0, emitted.2⟩
  else if 0 < emitted.1.pendingEmitIndex then
    -- the segment that was pending is the first of the list
    model.encodeSegments transformBuffer segments.bufferOffset capacity
      (segments.processable.drop 1)
      ⟨emitted.1.reset, 1, emitted.2⟩
  else
    model.encodeSegments transformBuffer segments.bufferOffset capacity segments.processable
      ⟨emitted.1, 0, emitted.2⟩

end Model

/-- `iree_tokenizer_wordpiece_state_finalize`. -/
def finalize (state : State) (capacity : ℕ) : State × List Token :=
  let emitted := state.emit capacity []
  if emitted.1.hasPending then emitted else (emitted.1.reset, emitted.2)

end WordPiece

end Hrx.Tokenizer
