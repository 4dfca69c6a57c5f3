import Hrx.Base.Equiv.Unicode
import Hrx.Bytecode.Varint
import Mathlib.Logic.Equiv.Defs
import Mathlib.Tactic.Ring

/-!
# Varints are canonical

Every number has one sequence of bytes (`uvarint`), which the encoder writes and which is the only
one the decoder takes for it.  A failed decoding is a truncated one exactly where more bytes could
still make a varint of it.
-/

namespace Hrx.Bytecode

/-- The bytes of a number. -/
def uvarint (n : ℕ) : List UInt8 :=
  if n < 128 then [n.toUInt8] else (n % 128 + 128).toUInt8 :: uvarint (n / 128)

namespace Cursor

def advance (cursor : Cursor) (count : ℕ) : Cursor :=
  { cursor with position := cursor.position + count }

/-- The cursor stands at these bytes, none of them beyond its length. -/
def StartsWith (cursor : Cursor) : List UInt8 → Prop
  | [] => True
  | byte :: rest => cursor.position < cursor.length ∧ cursor.data cursor.position = byte ∧
    (cursor.advance 1).StartsWith rest

/-- Memory that has the bytes of the cursor, and perhaps more behind them. -/
structure Continues (cursor : Cursor) (data : ℕ → UInt8) (length : ℕ) : Prop where
  length_le : cursor.length ≤ length
  data_eq : ∀ i < cursor.length, data i = cursor.data i

end Cursor

open Cursor Unicode

/-- An encoder and a decoder of at most ten bytes that are inverse to each other.  The data that a
cursor does not own makes no difference to the decoder. -/
structure IsCanonical {α : Type} (length : α → ℕ)
    (encode : α → List UInt8 → Except Status (List UInt8 × ℕ))
    (decode : Cursor → Except Status α × Cursor) : Prop where
  encodes : ∀ value, ∃ bytes : List UInt8, bytes.length = length value ∧ 1 ≤ length value ∧
    length value ≤ 10 ∧
    (∀ buffer, length value ≤ buffer.length →
      encode value buffer = .ok (bytes ++ buffer.drop (length value), length value)) ∧
    ∀ cursor cursor', decode cursor = (.ok value, cursor') ↔
      cursor.StartsWith bytes ∧ cursor' = cursor.advance (length value)
  fails : ∀ cursor cursor' status, decode cursor = (.error status, cursor') → cursor' = cursor ∧
    (status.code = .outOfRange ↔ ∃ data length, cursor.Continues data length ∧
      ∃ value rest, decode ⟨data, length, cursor.position⟩ = (.ok value, rest))
  reads : ∀ cursor data, cursor.Continues data cursor.length →
    (decode { cursor with data }).1 = (decode cursor).1 ∧
      (decode { cursor with data }).2.position = (decode cursor).2.position

/-! ### Encoding -/

variable {n : ℕ}

lemma uvarint_of_lt (h : n < 128) : uvarint n = [n.toUInt8] := by
  rw [uvarint, if_pos h]

lemma uvarint_of_le (h : 128 ≤ n) : uvarint n = (n % 128 + 128).toUInt8 :: uvarint (n / 128) := by
  rw [uvarint, if_neg h.not_gt]

lemma uvarint_length_pos (n : ℕ) : 1 ≤ (uvarint n).length := by
  rw [uvarint]
  split <;> simp

lemma uvarint_length_le {k : ℕ} (h : n < 128 ^ (k + 1)) : (uvarint n).length ≤ k + 1 := by
  induction k generalizing n with
  | zero => rw [uvarint_of_lt (by omega), List.length_singleton]
  | succ k ih =>
    rw [uvarint]
    split
    · simp
    · rw [Nat.pow_succ] at h
      have := ih (n := n / 128) (by omega)
      rw [List.length_cons]
      omega

lemma uvarintLength_eq (value : UInt64) : uvarintLength value = (uvarint value.toNat).length := by
  fun_induction uvarintLength value with
  | case1 value h ih =>
    have h : 128 ≤ value.toNat := UInt64.le_iff_toNat_le.mp h
    rw [ih, toNat_shiftRight_seven, uvarint_of_le h, List.length_cons]
  | case2 value h =>
    have h : ¬128 ≤ value.toNat := fun hn => h (UInt64.le_iff_toNat_le.mpr hn)
    rw [uvarint_of_lt (by omega), List.length_singleton]

lemma low_bits (value : UInt64) : (value &&& 0x7F).toUInt8 = (value.toNat % 128).toUInt8 := by
  have := Nat.and_two_pow_sub_one_eq_mod value.toNat 7
  apply UInt8.toNat_inj.mp
  rw [UInt64.toNat_toUInt8, UInt64.toNat_and]
  simp_all

lemma low_bits_or (value : UInt64) :
    (value &&& 0x7F).toUInt8 ||| 0x80 = (value.toNat % 128 + 128).toUInt8 := by
  have hor : ∀ k : Fin 128, k.1.toUInt8 ||| 0x80 = (k.1 + 128).toUInt8 := by decide +kernel
  rw [low_bits]
  exact hor ⟨_, Nat.mod_lt _ (by decide)⟩

lemma shiftRight_seven_eq_zero_iff (value : UInt64) : value >>> 7 = 0 ↔ value.toNat < 128 := by
  rw [← UInt64.toNat_inj, toNat_shiftRight_seven, UInt64.toNat_zero]
  omega

/-- The bytes are written from the index on, and no others. -/
lemma uvarintEncodeFrom_append (value : UInt64) (done rest : List UInt8)
    (h : (uvarint value.toNat).length ≤ rest.length) :
    uvarintEncodeFrom value (done ++ rest) done.length =
      (done ++ uvarint value.toNat ++ rest.drop (uvarint value.toNat).length,
        done.length + (uvarint value.toNat).length) := by
  induction hn : value.toNat using Nat.strongRecOn generalizing value done rest with
  | ind n ih =>
    subst hn
    obtain ⟨byte, rest, rfl⟩ := List.exists_cons_of_length_pos ((uvarint_length_pos _).trans h)
    rw [uvarintEncodeFrom]
    by_cases hlt : value.toNat < 128
    · rw [if_neg (not_not.mpr ((shiftRight_seven_eq_zero_iff value).mpr hlt)), uvarint_of_lt hlt,
        low_bits, Nat.mod_eq_of_lt hlt]
      simp
    · have hshift := toNat_shiftRight_seven value
      rw [if_pos (mt (shiftRight_seven_eq_zero_iff value).mp hlt), low_bits_or]
      rw [uvarint_of_le (not_lt.mp hlt)] at h ⊢
      have := ih _ (by omega) (value >>> 7) (done ++ [(value.toNat % 128 + 128).toUInt8]) rest
        (by rw [hshift]; simpa using h) rfl
      rw [hshift] at this
      simpa [Nat.add_assoc, Nat.add_comm 1] using this

/-! ### Decoding -/

lemma advance_uvarint_of_le {cursor : Cursor} (h : 128 ≤ n) :
    cursor.advance (uvarint n).length = (cursor.advance 1).advance (uvarint (n / 128)).length := by
  rw [uvarint_of_le h, List.length_cons, advance, advance, advance, Nat.add_right_comm,
    Nat.add_assoc]

section

variable {cursor : Cursor} {byte : UInt8} (hp : cursor.position < cursor.length)
include hp

lemma startsWith_of_lt (hb : byte.toNat < 128) (hbyte : cursor.data cursor.position = byte) :
    cursor.StartsWith (uvarint n) ↔ n = byte.toNat := by
  subst hbyte
  rw [uvarint]
  split <;> simp only [StartsWith, hp, true_and, and_true, ← UInt8.toNat_inj, UInt8.toNat_ofNat',
    Nat.toUInt8_eq] <;> omega

lemma startsWith_of_le (hb : 128 ≤ byte.toNat) (hbyte : cursor.data cursor.position = byte) :
    cursor.StartsWith (uvarint n) ↔ 128 ≤ n ∧ n % 128 = byte.toNat % 128 ∧
      (cursor.advance 1).StartsWith (uvarint (n / 128)) := by
  subst hbyte
  have hlt := (cursor.data cursor.position).toNat_lt
  rw [uvarint]
  split <;> simp only [StartsWith, hp, true_and, and_true, ← UInt8.toNat_inj, UInt8.toNat_ofNat',
    Nat.toUInt8_eq]
  · omega
  · rw [and_iff_right (not_lt.mp ‹_›)]
    refine and_congr_left fun _ => ?_
    omega

end

lemma toNat_payload (b : UInt8) : (b &&& 0x7F).toNat = b.toNat % 128 := by
  revert b
  exact forall_byte (by decide +kernel)

/-- The bits of a byte are put above those that are there. -/
lemma toNat_or_payload {value : UInt64} {shift : ℕ} {byte : UInt8} (hv : value.toNat < 2 ^ shift)
    (hdvd : 7 ∣ shift) (h63 : shift ≤ 63) (hover : ¬(shift = 63 ∧ 1 < byte.toNat % 128)) :
    (value ||| (byte &&& 0x7F).toUInt64 <<< UInt64.ofNat shift).toNat =
      value.toNat + byte.toNat % 128 * 2 ^ shift := by
  have hlt : byte.toNat % 128 * 2 ^ shift < 2 ^ 64 := by
    by_cases hs : shift = 63
    · rw [hs]
      omega
    · have : 2 ^ shift ≤ 2 ^ 56 := Nat.pow_le_pow_right (by decide) (by omega)
      calc byte.toNat % 128 * 2 ^ shift ≤ 127 * 2 ^ 56 := Nat.mul_le_mul (by omega) this
        _ < 2 ^ 64 := by decide
  rw [UInt64.toNat_or, UInt64.toNat_shiftLeft, UInt8.toNat_toUInt64, UInt64.toNat_ofNat',
    Nat.mod_eq_of_lt (show shift < 2 ^ 64 by omega), Nat.mod_eq_of_lt (show shift < 64 by omega),
    toNat_payload, Nat.shiftLeft_eq, Nat.mod_eq_of_lt hlt, Nat.mul_comm, Nat.or_comm,
    ← Nat.two_pow_add_eq_or_of_lt hv, Nat.add_comm]

section

variable {start shift : ℕ} {value : UInt64} {byte : UInt8}

lemma payload_gt_one_iff : byte &&& 0x7F > 1 ↔ 1 < byte.toNat % 128 := by
  rw [gt_iff_lt, UInt8.lt_iff_toNat_lt, toNat_payload]
  rfl

lemma payload_eq_zero_iff : byte &&& 0x7F = 0 ↔ byte.toNat % 128 = 0 := by
  rw [← UInt8.toNat_inj, toNat_payload]
  rfl

/-- What was read is the last byte of a number or one of its other bytes. -/
lemma of_uvarintDecodeByte_ok {value' : UInt64} {last : Bool} (hv : value.toNat < 2 ^ shift)
    (hdvd : 7 ∣ shift) (h63 : shift ≤ 63)
    (h : uvarintDecodeByte start shift value byte = .ok (value', last)) :
    value'.toNat = value.toNat + byte.toNat % 128 * 2 ^ shift ∧
      if last then byte.toNat < 128 ∧ (shift = 0 ∨ byte.toNat ≠ 0)
      else 128 ≤ byte.toNat ∧ shift + 7 ≤ 63 := by
  unfold uvarintDecodeByte at h
  simp only [payload_gt_one_iff, ascii_iff, payload_eq_zero_iff] at h
  split_ifs at h with hover hend hzero hlong
  all_goals cases h
  all_goals refine ⟨toNat_or_payload hv hdvd h63 hover, ?_⟩
  · simp
    omega
  · simp
    omega

/-- A byte is refused that no number has there. -/
lemma of_uvarintDecodeByte_error {status : Status}
    (h : uvarintDecodeByte start shift value byte = .error status) :
    status.code = .invalidArgument ∧ (shift = 63 ∧ 1 < byte.toNat % 128 ∨ 0 < shift ∧
      byte.toNat = 0 ∨
      56 < shift ∧ 128 ≤ byte.toNat) := by
  unfold uvarintDecodeByte at h
  simp only [payload_gt_one_iff, ascii_iff, payload_eq_zero_iff] at h
  split_ifs at h with hover hend hzero hlong
  all_goals cases h
  all_goals refine ⟨rfl, ?_⟩
  all_goals omega

end

/-- What the loop makes of the bytes from its position on, with `shift` bits of the value done. -/
lemma uvarintDecodeFrom_eq_ok_iff {start shift : ℕ} {cursor cursor' : Cursor}
    {value result : UInt64}
    (hv : value.toNat < 2 ^ shift) (hdvd : 7 ∣ shift) (h63 : shift ≤ 63) :
    uvarintDecodeFrom start cursor value shift = (.ok result, cursor') ↔
      ∃ n, (shift = 0 ∨ n ≠ 0) ∧ result.toNat = value.toNat + n * 2 ^ shift ∧
        cursor.StartsWith (uvarint n) ∧ cursor' = cursor.advance (uvarint n).length := by
  have hresult := result.toNat_lt
  fun_induction uvarintDecodeFrom start cursor value shift with
  | case1 cursor value shift failed hp byte status hbyte =>
    refine iff_of_false (by simp) ?_
    rintro ⟨n, hne, hn, hstart, -⟩
    -- two units of the tenth byte are no word
    have htenth : shift = 63 → n < 2 := by
      rintro rfl
      by_contra hc
      have := Nat.mul_le_mul_right (2 ^ 63) (not_lt.mp hc)
      omega
    have herror := (of_uvarintDecodeByte_error hbyte).2
    by_cases hb : byte.toNat < 128
    · have := (startsWith_of_lt hp hb rfl).mp hstart
      omega
    · have := ((startsWith_of_le hp (not_lt.mp hb) rfl).mp hstart).1
      omega
  | case2 cursor value shift hp byte next value' hbyte =>
    obtain ⟨hvalue, hend, hne⟩ := of_uvarintDecodeByte_ok hv hdvd h63 hbyte
    rw [Nat.mod_eq_of_lt hend] at hvalue
    simp only [startsWith_of_lt hp hend rfl, Prod.mk.injEq, Except.ok.injEq]
    constructor
    · rintro ⟨rfl, rfl⟩
      refine ⟨byte.toNat, hne, hvalue, rfl, ?_⟩
      rw [uvarint_of_lt hend]
      rfl
    · rintro ⟨n, -, hn, rfl, rfl⟩
      rw [uvarint_of_lt hend]
      exact ⟨UInt64.toNat_inj.mp (hvalue.trans hn.symm), rfl⟩
  | case3 cursor value shift hp byte next value' hbyte ih =>
    obtain ⟨hvalue, hend, hlong⟩ := of_uvarintDecodeByte_ok hv hdvd h63 hbyte
    have hpow : 2 ^ (shift + 7) = 128 * 2 ^ shift := by
      rw [pow_add]
      omega
    have hv' : value'.toNat < 2 ^ (shift + 7) := by
      have : byte.toNat % 128 * 2 ^ shift ≤ 127 * 2 ^ shift := Nat.mul_le_mul_right _ (by omega)
      omega
    refine (ih hv' (by omega) hlong).trans ?_
    simp only [startsWith_of_le hp hend rfl, hpow, hvalue]
    constructor
    · rintro ⟨n, hne, hn, hstart, rfl⟩
      have hdiv : (byte.toNat % 128 + 128 * n) / 128 = n := by omega
      refine ⟨byte.toNat % 128 + 128 * n, by omega, by rw [hn]; ring,
        ⟨by omega, by omega, hdiv.symm ▸ hstart⟩, ?_⟩
      rw [advance_uvarint_of_le (n := byte.toNat % 128 + 128 * n) (by omega), hdiv]
      rfl
    · rintro ⟨n, -, hn, ⟨hle, hmod, hstart⟩, rfl⟩
      refine ⟨n / 128, by omega, ?_, hstart, advance_uvarint_of_le hle⟩
      rw [hn, ← hmod]
      conv_lhs => rw [← Nat.mod_add_div n 128]
      ring
  | case4 cursor value shift failed hp =>
    refine iff_of_false (by simp) ?_
    rintro ⟨n, -, -, hstart, -⟩
    rw [uvarint] at hstart
    split at hstart <;> exact hp hstart.1

/-! ### Failures -/

variable {start shift length : ℕ} {cursor : Cursor} {data : ℕ → UInt8} {value : UInt64}
  {status : Status}

lemma uvarintDecodeFrom_snd_of_error
    (h : (uvarintDecodeFrom start cursor value shift).1 = .error status) :
    (uvarintDecodeFrom start cursor value shift).2 = { cursor with position := start } := by
  fun_induction uvarintDecodeFrom start cursor value shift with
  | case1 => rfl
  | case2 => cases h
  | case3 cursor value shift hp byte next value' hbyte ih => exact ih h
  | case4 => rfl

lemma Cursor.Continues.uvarintDecodeFrom_eq (h : cursor.Continues data length)
    (hp : cursor.position < cursor.length) :
    uvarintDecodeFrom start ⟨data, length, cursor.position⟩ value shift =
      match uvarintDecodeByte start shift value (cursor.data cursor.position) with
      | .error status => (.error status, ⟨data, length, start⟩)
      | .ok (value, true) => (.ok value, ⟨data, length, cursor.position + 1⟩)
      | .ok (value, false) =>
        uvarintDecodeFrom start ⟨data, length, cursor.position + 1⟩ value (shift + 7) := by
  rw [← h.data_eq _ hp]
  exact (uvarintDecodeFrom.eq_def ..).trans (if_pos (hp.trans_le h.length_le))

lemma uvarintDecodeFrom_of_continues (h : cursor.Continues data length)
    (hend : length = cursor.length ∨
      ∀ status, (uvarintDecodeFrom start cursor value shift).1 = .error status →
        status.code ≠ .outOfRange) :
    uvarintDecodeFrom start ⟨data, length, cursor.position⟩ value shift =
      ((uvarintDecodeFrom start cursor value shift).1,
        ⟨data, length, (uvarintDecodeFrom start cursor value shift).2.position⟩) := by
  fun_induction uvarintDecodeFrom start cursor value shift with
  | case1 cursor value shift failed hp byte status hbyte => rw [h.uvarintDecodeFrom_eq hp, hbyte]
  | case2 cursor value shift hp byte next value' hbyte => rw [h.uvarintDecodeFrom_eq hp, hbyte]
  | case3 cursor value shift hp byte next value' hbyte ih =>
    rw [h.uvarintDecodeFrom_eq hp, hbyte]
    exact ih ⟨h.length_le, h.data_eq⟩ hend
  | case4 cursor value shift failed hp =>
    have hlength : length = cursor.length := hend.resolve_right fun hn => hn _ rfl rfl
    rw [uvarintDecodeFrom, if_neg (hlength ▸ hp)]

lemma exists_continues_of_outOfRange
    (h : (uvarintDecodeFrom start cursor value shift).1 = .error status)
    (hcode : status.code = .outOfRange) : ∃ data length, cursor.Continues data length ∧
      ∃ value' rest, uvarintDecodeFrom start ⟨data, length, cursor.position⟩ value shift =
        (.ok value', rest) := by
  fun_induction uvarintDecodeFrom start cursor value shift with
  | case1 cursor value shift failed hp byte status hbyte =>
    cases h
    exact absurd hcode (by simp [(of_uvarintDecodeByte_error hbyte).1])
  | case2 => cases h
  | case3 cursor value shift hp byte next value' hbyte ih =>
    obtain ⟨data, length, hlonger, hok⟩ := ih h
    have hlonger : cursor.Continues data length := ⟨hlonger.length_le, hlonger.data_eq⟩
    exact ⟨data, length, hlonger, by rwa [hlonger.uvarintDecodeFrom_eq hp, hbyte]⟩
  | case4 cursor value shift failed hp =>
    -- one byte is missing
    refine ⟨Function.update cursor.data cursor.position 1, cursor.position + 1, ⟨by omega, ?_⟩, ?_⟩
    · intro i hi
      exact Function.update_of_ne (by omega) ..
    · obtain ⟨value', hone⟩ : ∃ value', uvarintDecodeByte start shift value 1 =
          .ok (value', true) := by
        rw [uvarintDecodeByte, if_neg fun hn => absurd hn.2 (by decide), if_pos (by decide),
          if_neg fun hn => absurd hn.2 (by decide)]
        exact ⟨_, rfl⟩
      rw [uvarintDecodeFrom]
      simp [hone]

/-! ### Signed values -/

/-- The lowest bit, in every place. -/
lemma neg_and_one (x : BitVec 64) : -(x &&& 1#64) = .fill 64 (x.getLsbD 0) := by
  rw [BitVec.and_one_eq_setWidth_ofBool_getLsbD]
  cases x.getLsbD 0 <;> rfl

lemma toBitVec_zigzag (value : Int64) :
    (zigzag value).toBitVec = value.toBitVec <<< 1 ^^^ value.toBitVec.sshiftRight 63 := by
  simp [zigzag]

lemma toBitVec_unzigzag (value : UInt64) :
    (unzigzag value).toBitVec = value.toBitVec >>> 1 ^^^ .fill 64 (value.toBitVec.getLsbD 0) := by
  simp [unzigzag, neg_and_one]

/-- The signed values, from zero outwards. -/
def zigzagEquiv : Int64 ≃ UInt64 where
  toFun := zigzag
  invFun := unzigzag
  left_inv value := by
    apply Int64.toBitVec_inj.mp
    rw [toBitVec_unzigzag, toBitVec_zigzag]
    ext i hi
    grind [BitVec.msb_eq_getLsbD_last]
  right_inv value := by
    apply UInt64.toBitVec_inj.mp
    rw [toBitVec_zigzag, toBitVec_unzigzag]
    ext i hi
    grind [BitVec.msb_eq_getLsbD_last]

/-- Encoding through a bijection. -/
lemma IsCanonical.comp {α β : Type} {length : α → ℕ} {encode decode}
    (h : IsCanonical length encode decode) (e : β ≃ α) :
    IsCanonical (fun b => length (e b)) (fun b => encode (e b))
      fun cursor => ((decode cursor).1.map e.symm, (decode cursor).2) := by
  have hok : ∀ cursor cursor' b, ((decode cursor).1.map e.symm, (decode cursor).2) =
      (.ok b, cursor') ↔ decode cursor = (.ok (e b), cursor') := by
    intro cursor cursor' b
    rcases decode cursor with ⟨status | a, rest⟩
    · simp [Except.map]
    · simp [Except.map, e.symm_apply_eq]
  constructor
  case encodes =>
    intro b
    simpa only [hok] using h.encodes (e b)
  case fails =>
    intro cursor cursor' status hstatus
    have hdecode : decode cursor = (.error status, cursor') := by
      rcases hd : decode cursor with ⟨status' | a, rest⟩
      · simpa [hd, Except.map] using hstatus
      · simp [hd, Except.map] at hstatus
    obtain ⟨hcursor, hcode⟩ := h.fails cursor cursor' status hdecode
    refine ⟨hcursor, hcode.trans ?_⟩
    simp only [hok]
    exact exists₂_congr fun _ _ => and_congr_right fun _ => e.surjective.exists
  case reads =>
    intro cursor data hdata
    exact (h.reads cursor data hdata).imp_left (congrArg (Except.map e.symm))

lemma uvarint_isCanonical : IsCanonical uvarintLength uvarintEncode uvarintDecode := by
  constructor
  case encodes =>
    intro value
    rw [uvarintLength_eq]
    refine ⟨uvarint value.toNat, rfl, uvarint_length_pos _, uvarint_length_le ?_,
      fun buffer hle => ?_,
      fun cursor cursor' => ?_⟩
    · exact value.toNat_lt.trans (by decide)
    · rw [uvarintEncode, uvarintLength_eq, if_neg hle.not_gt]
      simpa using uvarintEncodeFrom_append value [] buffer hle
    · rw [uvarintDecode, uvarintDecodeFrom_eq_ok_iff (by simp) (by simp) (by simp)]
      simp
  case fails =>
    intro cursor cursor' status hstatus
    have hfst := congrArg Prod.fst hstatus
    refine ⟨(congrArg Prod.snd hstatus).symm.trans (uvarintDecodeFrom_snd_of_error hfst),
      exists_continues_of_outOfRange hfst, ?_⟩
    rintro ⟨data, length, hlonger, value, rest, hvalue⟩
    by_contra hcode
    have hsame : uvarintDecode ⟨data, length, cursor.position⟩ = _ :=
      uvarintDecodeFrom_of_continues hlonger (.inr fun status' hstatus' => ?_)
    · rw [hvalue] at hsame
      cases (congrArg Prod.fst hsame).trans hfst
    · cases hfst.symm.trans hstatus'
      exact hcode
  case reads =>
    intro cursor data hdata
    have hsame : uvarintDecode { cursor with data } = _ :=
      uvarintDecodeFrom_of_continues hdata (.inl rfl)
    rw [hsame]
    exact ⟨rfl, rfl⟩

/-- **Varints are canonical**, unsigned and signed. -/
theorem varints_isCanonical : IsCanonical uvarintLength uvarintEncode uvarintDecode ∧
    IsCanonical svarintLength svarintEncode svarintDecode :=
  ⟨uvarint_isCanonical, uvarint_isCanonical.comp zigzagEquiv⟩

end Hrx.Bytecode
