import Hrx.Base.Status
import Hrx.Base.Unicode

/-!
# The byte fallback decoder

`iree/tokenizer/decoder/byte_fallback.c`: tokens of the form `<0xHH>` stand for bytes, which are
collected until they make a UTF-8 sequence; other tokens pass through.  Bytes that make no sequence
come out as replacement characters.

Output is written into a buffer of `size` bytes; `output` holds the bytes written so far in the
current call, so its length is the write position.  A caller presents the tokens that were not
consumed again. Names of the source are used without `iree_tokenizer_decoder_byte_fallback_`.
-/

namespace Hrx.Tokenizer.ByteFallback

open Unicode

/-- The bytes of a token string. -/
abbrev Token := List UInt8

/-! ### Byte tokens -/

def hexDigit (c : UInt8) : Option ℕ :=
  if '0'.toUInt8 ≤ c ∧ c ≤ '9'.toUInt8 then some (c.toNat - '0'.toNat)
  else if 'a'.toUInt8 ≤ c ∧ c ≤ 'f'.toUInt8 then some (c.toNat - 'a'.toNat + 10)
  else if 'A'.toUInt8 ≤ c ∧ c ≤ 'F'.toUInt8 then some (c.toNat - 'A'.toNat + 10)
  else none

/-- `isspace` of the C locale. -/
def isSpace (c : UInt8) : Bool := c = 0x20 ∨ (0x09 ≤ c ∧ c ≤ 0x0D)

def hexDigits : List UInt8 → List ℕ
  | [] => []
  | c :: rest => (hexDigit c).elim [] (· :: hexDigits rest)

/-- `0x` in front of a digit is skipped. -/
def skipHexPrefix : List UInt8 → List UInt8
  | zero :: x :: digit :: rest =>
    if zero = '0'.toUInt8 ∧ (x = 'x'.toUInt8 ∨ x = 'X'.toUInt8) ∧
      (hexDigit digit).isSome then digit :: rest
    else zero :: x :: digit :: rest
  | text => text

/-- The number that `strtoul` reads after the sign; `none` if there is no digit. -/
def readHex (negative : Bool) (text : List UInt8) : Option ℕ :=
  match hexDigits (skipHexPrefix text) with
  | [] => none
  | digits =>
    let value := digits.foldl (fun value digit => value * 16 + digit) 0
    some (if negative then (2 ^ 64 - value) % 2 ^ 64 else value)

/-- `strtoul` in base 16 for a text that is too short to overflow: white space, a sign and the
longest run of digits; what follows is ignored. -/
def strtoulBase16 (text : List UInt8) : Option ℕ :=
  match text.dropWhile isSpace with
  | [] => none
  | c :: rest =>
    if c = '-'.toUInt8 then readHex true rest
    else if c = '+'.toUInt8 then readHex false rest
    else readHex false (c :: rest)

def parseByteToken : Token → Option UInt8
  | [c₀, c₁, c₂, c₃, c₄, c₅] =>
    if c₀ ≠ '<'.toUInt8 then none
    else if c₁ ≠ '0'.toUInt8 then none
    else if c₂ ≠ 'x'.toUInt8 ∧ c₂ ≠ 'X'.toUInt8 then none
    else if c₅ ≠ '>'.toUInt8 then none
    else
      match strtoulBase16 [c₃, c₄] with
      | none => none
      | some parsed => if parsed % 2 ^ 32 > 255 then none else some (UInt8.ofNat (parsed % 2 ^ 32))
  | _ => none

/-! ### The decoder -/

structure State where
  /-- The bytes of `pending_bytes` that are in use. -/
  pendingBytes : List UInt8
  expectedLength : ℕ
deriving DecidableEq

/-- `iree_tokenizer_decoder_byte_fallback_state_initialize`. -/
def State.initial : State := ⟨[], 0⟩

/-- The loop of `flushAsReplacement`, over the pending bytes. -/
def flushLoop (size : ℕ) : List UInt8 → List UInt8 → List UInt8 × List UInt8
  | [], output => ([], output)
  | byte :: rest, output =>
    if output.length + 3 > size then (byte :: rest, output)
    else flushLoop size rest (output ++ utf8Encode replacementChar)

variable (size : ℕ)

def flushAsReplacement (state : State) (output : List UInt8) : State × List UInt8 :=
  let (pending, output) := flushLoop size state.pendingBytes output
  (⟨pending, if pending = [] then 0 else state.expectedLength⟩, output)

inductive Emitted where
  | written (state : State) (output : List UInt8)
  | noRoom
  | invalid

def emitValidSequence (state : State) (output : List UInt8) : Emitted :=
  let pending := state.pendingBytes
  let (codepoint, decodePosition) := utf8Decode pending 0
  if decodePosition = pending.length ∧ codepoint ≠ replacementChar then
    if output.length + pending.length > size then .noRoom
    else .written ⟨[], 0⟩ (output ++ pending)
  else .invalid

/-- `iree_tokenizer_decoder_byte_fallback_start_sequence`: whether there was room, which the source
returns as a negative result. -/
def startSequence (byte : UInt8) (output : List UInt8) : Bool × State × List UInt8 :=
  let state : State := ⟨[byte], utf8SequenceLength byte⟩
  if state.expectedLength = 1 ∧ byte &&& 0x80 ≠ 0 then
    if output.length + 3 > size then (false, state, output)
    else
      let (state, output) := flushAsReplacement size state output
      (true, state, output)
  else if state.expectedLength = 1 then
    if output.length + 1 > size then (false, state, output)
    else (true, ⟨[], 0⟩, output ++ [byte])
  else (true, state, output)

/-- Flushes the pending bytes and starts a sequence once they are out. -/
def flushAndStart (state : State) (byte : UInt8) (output : List UInt8) :
    Bool × State × List UInt8 :=
  let (state, output) := flushAsReplacement size state output
  if state.pendingBytes ≠ [] then (false, state, output) else startSequence size byte output

def processByte (state : State) (byte : UInt8) (output : List UInt8) : Bool × State × List UInt8 :=
  if state.pendingBytes = [] then startSequence size byte output
  else if byte &&& 0xC0 ≠ 0x80 then flushAndStart size state byte output
  else if state.pendingBytes.length + 1 = state.expectedLength then
    let completed : State := { state with pendingBytes := state.pendingBytes ++ [byte] }
    match emitValidSequence size completed output with
    | .written state output => (true, state, output)
    | .noRoom => (false, state, output)
    | .invalid =>
      let (flushed, output') := flushAsReplacement size completed output
      if output'.length = output.length then (false, state, output) else (true, flushed, output')
  else if state.pendingBytes.length < 4 then
    (true, { state with pendingBytes := state.pendingBytes ++ [byte] }, output)
  else flushAndStart size state byte output

def processText (state : State) (token : Token) (output : List UInt8) : Bool × State × List UInt8 :=
  if state.pendingBytes ≠ [] ∧ output.length + state.pendingBytes.length * 3 > size then
    (false, state, output)
  else
    let (state, output) :=
      if state.pendingBytes ≠ [] then flushAsReplacement size state output else (state, output)
    if output.length + token.length > size then (false, state, output)
    else (true, state, output ++ token)

/-- One round of the loop over the tokens: whether the token was consumed. -/
def processToken (state : State) (token : Token) (output : List UInt8) :
    Bool × State × List UInt8 :=
  match parseByteToken token with
  | some byte => processByte size state byte output
  | none => processText size state token output

/-- The loop over the tokens, which ends at the first one that is not consumed: the number of tokens
consumed. -/
def processLoop (size : ℕ) : State → List UInt8 → List Token → State × ℕ × List UInt8
  | state, output, [] => (state, 0, output)
  | state, output, token :: tokens =>
    match processToken size state token output with
    | (true, state, output) =>
      let (state, consumed, output) := processLoop size state output tokens
      (state, consumed + 1, output)
    | (false, state, output) => (state, 0, output)

/-- `iree_tokenizer_decoder_byte_fallback_state_process`. -/
def process (state : State) (tokens : List Token) (size : ℕ) : State × ℕ × List UInt8 :=
  processLoop size state [] tokens

/-- `iree_tokenizer_decoder_byte_fallback_state_finalize`. -/
def finalize (state : State) (size : ℕ) : Except Status (State × List UInt8) :=
  if state.pendingBytes ≠ [] then
    if state.pendingBytes.length * 3 > size then
      .error ⟨.resourceExhausted, "output buffer too small for pending bytes"⟩
    else .ok (flushAsReplacement size state [])
  else .ok (state, [])

/-! ### A caller -/

/-- A call of `process`: how many of the tokens left it presents, and the size of its output
buffer. -/
structure Call where
  count : ℕ
  size : ℕ

/-- Some calls, each presenting the tokens that are left: the state, the tokens left and the
output. -/
def drive : State → List Token → List Call → State × List Token × List UInt8
  | state, tokens, [] => (state, tokens, [])
  | state, tokens, call :: calls =>
    let (state, consumed, output) := process state (tokens.take call.count) call.size
    let (state, tokens, rest) := drive state (tokens.drop consumed) calls
    (state, tokens, output ++ rest)

end Hrx.Tokenizer.ByteFallback
