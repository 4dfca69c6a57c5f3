import Hrx.Base.Status
import Mathlib.Data.Nat.Notation

/-!
# Varints

`loom/format/bytecode/varint.c` and the encoders of `varint.h`: seven bits in each byte, the lowest
first, and the top bit of every byte but the last.  A signed value is folded onto the unsigned ones.

The data of a cursor is memory, with a byte at every offset; only `length` of them are the cursor's.
-/

namespace Hrx.Bytecode

/-- `loom_bytecode_cursor_t`. -/
structure Cursor where
  data : ℕ → UInt8
  length : ℕ
  position : ℕ

lemma toNat_shiftRight_seven (value : UInt64) : (value >>> 7).toNat = value.toNat / 128 := by
  rw [UInt64.toNat_shiftRight]
  exact Nat.shiftRight_eq_div_pow _ _

def uvarintLength (value : UInt64) : ℕ :=
  if value ≥ 0x80 then uvarintLength (value >>> 7) + 1 else 1
termination_by value.toNat
decreasing_by
  have h : 128 ≤ value.toNat := UInt64.le_iff_toNat_le.mp (show 0x80 ≤ value by assumption)
  rw [toNat_shiftRight_seven]
  omega

/-- The loop of `loom_uvarint_encode`, which writes a byte in every pass. -/
def uvarintEncodeFrom (value : UInt64) (buffer : List UInt8) (i : ℕ) : List UInt8 × ℕ :=
  let byte := (value &&& 0x7F).toUInt8
  if value >>> 7 ≠ 0 then uvarintEncodeFrom (value >>> 7) (buffer.set i (byte ||| 0x80)) (i + 1)
  else (buffer.set i byte, i + 1)
termination_by value.toNat
decreasing_by
  have h : value >>> 7 ≠ 0 := by assumption
  rw [ne_eq, ← UInt64.toNat_inj, toNat_shiftRight_seven, UInt64.toNat_zero] at h
  rw [toNat_shiftRight_seven]
  omega

/-- The buffer, and how many bytes of it were written. -/
def uvarintEncode (value : UInt64) (buffer : List UInt8) : Except Status (List UInt8 × ℕ) :=
  let needed := uvarintLength value
  if buffer.length < needed then
    .error ⟨.resourceExhausted,
      s!"uvarint encoding needs {needed} bytes but buffer has {buffer.length}"⟩
  else .ok (uvarintEncodeFrom value buffer 0)

/-- One byte of the loop of `loom_uvarint_decode`: the value with its bits, and whether it was the
last. -/
def uvarintDecodeByte (startPosition shift : ℕ) (value : UInt64) (byte : UInt8) :
    Except Status (UInt64 × Bool) :=
  let payload := byte &&& 0x7F
  if shift = 63 ∧ payload > 1 then
    -- the tenth byte has room for one bit
    .error ⟨.invalidArgument, s!"uvarint overflow at offset {startPosition}: 10th byte is " ++
      s!"0x{Nat.digitChar (byte.toNat / 16)}{Nat.digitChar (byte.toNat % 16)} (must be 0 or 1)"⟩
  else
    let value := value ||| payload.toUInt64 <<< UInt64.ofNat shift
    if byte &&& 0x80 = 0 then
      if shift > 0 ∧ payload = 0 then
        .error ⟨.invalidArgument, s!"non-canonical uvarint at offset {startPosition}: " ++
          "final byte carries no payload bits"⟩
      else .ok (value, true)
    else if shift + 7 > 63 then
      .error ⟨.invalidArgument,
        s!"uvarint too long at offset {startPosition}: exceeds 10-byte maximum"⟩
    else .ok (value, false)

/-- The loop of `loom_uvarint_decode`; a failure goes back to the start. -/
def uvarintDecodeFrom (startPosition : ℕ) (cursor : Cursor) (value : UInt64) (shift : ℕ) :
    Except Status UInt64 × Cursor :=
  let failed := { cursor with position := startPosition }
  if cursor.position < cursor.length then
    let byte := cursor.data cursor.position
    let cursor := { cursor with position := cursor.position + 1 }
    match uvarintDecodeByte startPosition shift value byte with
    | .error status => (.error status, failed)
    | .ok (value, true) => (.ok value, cursor)
    | .ok (value, false) => uvarintDecodeFrom startPosition cursor value (shift + 7)
  else
    (.error ⟨.outOfRange,
      s!"truncated uvarint at offset {startPosition}: continuation bit set at end of data"⟩, failed)
termination_by cursor.length - cursor.position

def uvarintDecode (cursor : Cursor) : Except Status UInt64 × Cursor :=
  uvarintDecodeFrom cursor.position cursor 0 0

/-! ### Signed values -/

def zigzag (value : Int64) : UInt64 := value.toUInt64 <<< 1 ^^^ (value >>> 63).toUInt64

def svarintLength (value : Int64) : ℕ := uvarintLength (zigzag value)

def svarintEncode (value : Int64) (buffer : List UInt8) : Except Status (List UInt8 × ℕ) :=
  uvarintEncode (zigzag value) buffer

def unzigzag (zigzag : UInt64) : Int64 := (zigzag >>> 1 ^^^ -(zigzag &&& 1)).toInt64

def svarintDecode (cursor : Cursor) : Except Status Int64 × Cursor :=
  let result := uvarintDecode cursor
  (result.1.map unzigzag, result.2)

end Hrx.Bytecode
