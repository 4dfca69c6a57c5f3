import Mathlib.Algebra.Group.Nat.Defs

/-!
# The UTF-8 codec

The functions of `iree/base/internal/unicode.h` that read and write one code point.  A text is the
list of its bytes.
-/

namespace Hrx.Unicode

/-- `IREE_UNICODE_REPLACEMENT_CHAR`. -/
def replacementChar : UInt32 := 0xFFFD

/-- `IREE_UNICODE_MAX_CODEPOINT`. -/
def maxCodepoint : UInt32 := 0x10FFFF

/-- The sequence length and the first bits of the code point, from a lead byte that is not ASCII. -/
def utf8Lead (firstByte : UInt8) : Option (ℕ × UInt32) :=
  if firstByte &&& 0xE0 = 0xC0 then some (2, (firstByte &&& 0x1F).toUInt32)
  else if firstByte &&& 0xF0 = 0xE0 then some (3, (firstByte &&& 0x0F).toUInt32)
  else if firstByte &&& 0xF8 = 0xF0 then some (4, (firstByte &&& 0x07).toUInt32)
  else none

/-- The loop over the continuation bytes; `none` at a byte that is not one. -/
def utf8Continue (codepoint : UInt32) : List UInt8 → Option UInt32
  | [] => some codepoint
  | continuationByte :: rest =>
    if continuationByte &&& 0xC0 ≠ 0x80 then none
    else utf8Continue (codepoint <<< 6 ||| (continuationByte &&& 0x3F).toUInt32) rest

/-- The checks of range and overlong sequences. -/
def utf8Valid (sequenceLength : ℕ) (codepoint : UInt32) : Bool :=
  if codepoint > maxCodepoint then false
  else if codepoint ≥ 0xD800 ∧ codepoint ≤ 0xDFFF then false
  else if sequenceLength = 2 ∧ codepoint < 0x80 then false
  else if sequenceLength = 3 ∧ codepoint < 0x800 then false
  else if sequenceLength = 4 ∧ codepoint < 0x10000 then false
  else true

/-- `iree_unicode_utf8_decode`: the code point and the position after it. -/
def utf8Decode (text : List UInt8) (position : ℕ) : UInt32 × ℕ :=
  match text.drop position with
  | [] => (replacementChar, position)
  | firstByte :: rest =>
    if firstByte &&& 0x80 = 0 then (firstByte.toUInt32, position + 1)
    else
      match utf8Lead firstByte with
      | none => (replacementChar, position + 1)
      | some (sequenceLength, codepoint) =>
        if position + sequenceLength > text.length then (replacementChar, position + 1)
        else
          match utf8Continue codepoint (rest.take (sequenceLength - 1)) with
          | none => (replacementChar, position + 1)
          | some codepoint =>
            if utf8Valid sequenceLength codepoint then (codepoint, position + sequenceLength)
            else (replacementChar, position + 1)

/-- `iree_unicode_utf8_sequence_length`. -/
def utf8SequenceLength (byte : UInt8) : ℕ :=
  if byte &&& 0x80 = 0 then 1
  else if byte &&& 0xE0 = 0xC0 then 2
  else if byte &&& 0xF0 = 0xE0 then 3
  else if byte &&& 0xF8 = 0xF0 then 4
  else 1

/-- `iree_unicode_utf8_encode`: the bytes written, none for an invalid code point. -/
def utf8Encode (codepoint : UInt32) : List UInt8 :=
  if codepoint > maxCodepoint ∨ (codepoint ≥ 0xD800 ∧ codepoint ≤ 0xDFFF) then []
  else if codepoint < 0x80 then [codepoint.toUInt8]
  else if codepoint < 0x800 then
    [(codepoint >>> 6 ||| 0xC0).toUInt8, (codepoint &&& 0x3F ||| 0x80).toUInt8]
  else if codepoint < 0x10000 then
    [(codepoint >>> 12 ||| 0xE0).toUInt8, (codepoint >>> 6 &&& 0x3F ||| 0x80).toUInt8,
      (codepoint &&& 0x3F ||| 0x80).toUInt8]
  else
    [(codepoint >>> 18 ||| 0xF0).toUInt8, (codepoint >>> 12 &&& 0x3F ||| 0x80).toUInt8,
      (codepoint >>> 6 &&& 0x3F ||| 0x80).toUInt8, (codepoint &&& 0x3F ||| 0x80).toUInt8]

end Hrx.Unicode
