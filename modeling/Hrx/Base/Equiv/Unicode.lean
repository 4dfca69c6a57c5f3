import Hrx.Base.Unicode
import Hrx.Lib.Utf8

/-!
# Decoding one code point

A sequence with the right number of continuation bytes is decoded to its value if it encodes one,
and rejected otherwise (`utf8Decode_sequence`).
-/

namespace Hrx.Unicode

open List UInt32 Utf8

/-! ### Bit tests as ranges -/

lemma forall_byte {P : UInt8 → Prop} (h : ∀ n : Fin 256, P (UInt8.ofNat n)) (b : UInt8) : P b := by
  have := h ⟨b.toNat, b.toNat_lt⟩
  rwa [UInt8.ofNat_toNat] at this

lemma ascii_iff : ∀ b : UInt8, b &&& 0x80 = 0 ↔ b.toNat < 0x80 := forall_byte (by decide +kernel)

lemma cont_iff : ∀ b : UInt8, b &&& 0xC0 = 0x80 ↔ IsCont b := forall_byte (by decide +kernel)

lemma toNat_mask : ∀ b : UInt8, (b &&& 0x3F).toNat = b.toNat % 64 := forall_byte (by decide +kernel)

/-- What a lead byte holds. -/
lemma utf8Lead_eq : ∀ b : UInt8, (utf8Lead b).map (fun lead => (lead.1, lead.2.toNat)) =
    if 2 ≤ width b then some (width b, leadValue b) else none := forall_byte (by decide +kernel)

lemma utf8Lead_of_width {b : UInt8} (h : 2 ≤ width b) :
    ∃ codepoint, utf8Lead b = some (width b, codepoint) ∧ codepoint.toNat = leadValue b := by
  have hlead := utf8Lead_eq b
  rw [if_pos h] at hlead
  obtain ⟨⟨n, codepoint⟩, hsome, heq⟩ := Option.map_eq_some_iff.mp hlead
  obtain ⟨rfl, hvalue⟩ := Prod.mk.inj heq
  exact ⟨codepoint, hsome, hvalue⟩

lemma utf8Lead_eq_none {b : UInt8} (h : width b = 0) : utf8Lead b = none := by
  have hlead := utf8Lead_eq b
  rw [if_neg (by omega)] at hlead
  exact Option.map_eq_none_iff.mp hlead

lemma leadValue_lt : ∀ {b : UInt8}, 2 ≤ width b → leadValue b < 32 :=
  @(forall_byte (by decide +kernel))

/-- One more continuation byte. -/
lemma toNat_shift_or {codepoint : UInt32} (h : codepoint.toNat < 2 ^ 26) (b : UInt8) :
    (codepoint <<< 6 ||| (b &&& 0x3F).toUInt32).toNat = codepoint.toNat * 64 + b.toNat % 64 := by
  rw [UInt32.toNat_or, UInt32.toNat_shiftLeft, UInt8.toNat_toUInt32, toNat_mask b,
    show (6 : UInt32).toNat % 32 = 6 from rfl, Nat.shiftLeft_eq, Nat.mod_eq_of_lt (by omega),
    ← Nat.shiftLeft_eq, ← Nat.shiftLeft_add_eq_or_of_lt (by omega), Nat.shiftLeft_eq]

lemma utf8Continue_eq {conts : List UInt8} (h : ∀ x ∈ conts, IsCont x) (codepoint : UInt32)
    (hlt : codepoint.toNat < 2 ^ (32 - 6 * conts.length)) (hlen : conts.length ≤ 3) :
    ∃ v, utf8Continue codepoint conts = some v ∧ v.toNat = valueFrom codepoint.toNat conts := by
  induction conts generalizing codepoint with
  | nil => exact ⟨codepoint, rfl, rfl⟩
  | cons b conts ih =>
    rw [length_cons] at hlt hlen
    have hpow : 2 ^ (32 - 6 * (conts.length + 1)) * 64 = 2 ^ (32 - 6 * conts.length) := by
      rw [show (64 : ℕ) = 2 ^ 6 from rfl, ← Nat.pow_add]
      congr 1
      omega
    have hsmall : codepoint.toNat < 2 ^ 26 :=
      hlt.trans_le (Nat.pow_le_pow_right (by omega) (by omega))
    have hnext := toNat_shift_or hsmall b
    obtain ⟨v, hv, hval⟩ := ih (fun x hx => h x (mem_cons_of_mem _ hx))
      (codepoint <<< 6 ||| (b &&& 0x3F).toUInt32) (by rw [hnext]; omega) (by omega)
    refine ⟨v, ?_, ?_⟩
    · rw [utf8Continue, if_neg (not_not.mpr ((cont_iff b).mpr (h b (mem_cons_self ..)))), hv]
    · rw [hval, hnext]
      rfl

lemma utf8Continue_eq_none {conts : List UInt8} (h : ¬∀ x ∈ conts, IsCont x) (codepoint : UInt32) :
    utf8Continue codepoint conts = none := by
  induction conts generalizing codepoint with
  | nil => exact absurd (by simp) h
  | cons b conts ih =>
    rw [utf8Continue]
    split_ifs with hb
    · rfl
    apply ih
    intro hconts
    refine h fun x hx => ?_
    rcases mem_cons.mp hx with rfl | hx
    · exact (cont_iff x).mp (not_not.mp hb)
    · exact hconts x hx

lemma utf8Valid_iff {n : ℕ} {codepoint : UInt32} :
    utf8Valid n codepoint = true ↔ IsScalar n codepoint.toNat := by
  have hmax : codepoint > maxCodepoint ↔ 0x10FFFF < codepoint.toNat := lt_iff_toNat_lt
  have hlo : codepoint ≥ 0xD800 ↔ 0xD800 ≤ codepoint.toNat := le_iff_toNat_le
  have hhi : codepoint ≤ 0xDFFF ↔ codepoint.toNat ≤ 0xDFFF := le_iff_toNat_le
  have h₂ : codepoint < 0x80 ↔ codepoint.toNat < 0x80 := lt_iff_toNat_lt
  have h₃ : codepoint < 0x800 ↔ codepoint.toNat < 0x800 := lt_iff_toNat_lt
  have h₄ : codepoint < 0x10000 ↔ codepoint.toNat < 0x10000 := lt_iff_toNat_lt
  unfold utf8Valid
  simp only [hmax, hlo, hhi, h₂, h₃, h₄]
  constructor
  · intro h
    split_ifs at h with h₁ h₂ h₃ h₄ h₅
    refine ⟨?_, by omega, by omega⟩
    unfold leastValue
    split_ifs <;> omega
  · rintro ⟨hleast, hle, hsur⟩
    unfold leastValue at hleast
    split_ifs at hleast ⊢ <;> first | rfl | omega

/-! ### Decoding -/

section decode

variable {text : List UInt8} {position : ℕ} {b : UInt8} {rest : List UInt8}

/-- A sequence that encodes a scalar value is decoded. -/
lemma utf8Decode_of_isScalar {conts tail : List UInt8}
    (hb : text.drop position = b :: (conts ++ tail))
    (h : IsSequence b conts) (hs : IsScalar (width b) (valueFrom (leadValue b) conts)) :
    ∃ codepoint, utf8Decode text position = (codepoint, position + (conts.length + 1)) ∧
      codepoint.toNat = valueFrom (leadValue b) conts := by
  have hw := h.width
  have hlen : position + (conts.length + 1) ≤ text.length := by
    have := congrArg List.length hb
    rw [length_drop, length_cons, length_append] at this
    omega
  unfold utf8Decode
  rw [hb]
  dsimp only
  cases conts with
  | nil =>
    have hlt := width_eq_one_iff.mp hw
    rw [if_pos ((ascii_iff b).mpr hlt)]
    refine ⟨_, rfl, ?_⟩
    rw [UInt8.toNat_toUInt32]
    simp only [valueFrom, leadValue, foldl_nil, if_pos hlt]
  | cons x conts =>
    rw [length_cons] at hw hlen
    have hascii : ¬b &&& 0x80 = 0 := fun h' => by
      have := width_eq_one_iff.mpr ((ascii_iff b).mp h')
      omega
    obtain ⟨codepoint, hlead, hval⟩ := utf8Lead_of_width (b := b) (by omega)
    have hle := width_le b
    have hpow : 2 ^ 14 ≤ 2 ^ (32 - 6 * (x :: conts).length) := by
      apply Nat.pow_le_pow_right (by omega)
      rw [length_cons]
      omega
    have hlt := leadValue_lt (b := b) (by omega)
    obtain ⟨v, hv, hvalue⟩ := utf8Continue_eq h.conts codepoint (by omega)
      (by rw [length_cons]; omega)
    rw [hval] at hvalue
    rw [if_neg hascii, hlead]
    dsimp only
    rw [if_neg (by omega), show width b - 1 = (x :: conts).length by rw [length_cons]; omega,
      take_left, hv]
    dsimp only
    rw [if_pos (utf8Valid_iff.mpr (hvalue ▸ hs))]
    exact ⟨v, by rw [length_cons]; simp only [hw], hvalue⟩

/-- Anything else is rejected. -/
lemma utf8Decode_of_not (hb : text.drop position = b :: rest)
    (h : ∀ conts tail, rest = conts ++ tail → IsSequence b conts →
      ¬IsScalar (width b) (valueFrom (leadValue b) conts)) :
    utf8Decode text position = (replacementChar, position + 1) := by
  have hlen : text.length = position + (rest.length + 1) := by
    have := congrArg List.length hb
    rw [length_drop, length_cons] at this
    omega
  have hone : width b ≠ 1 := by
    intro hw
    have hlt := width_eq_one_iff.mp hw
    refine h [] rest rfl ⟨hw, by simp⟩ ?_
    simp only [hw, valueFrom, leadValue, foldl_nil, if_pos hlt]
    exact ⟨Nat.zero_le _, by omega, by omega⟩
  have hascii : ¬b &&& 0x80 = 0 := fun h' => hone (width_eq_one_iff.mpr ((ascii_iff b).mp h'))
  unfold utf8Decode
  rw [hb]
  dsimp only
  rw [if_neg hascii]
  by_cases hzero : width b = 0
  · rw [utf8Lead_eq_none hzero]
  obtain ⟨codepoint, hlead, hval⟩ := utf8Lead_of_width (b := b) (by omega)
  rw [hlead]
  dsimp only
  by_cases hshort : position + width b > text.length
  · rw [if_pos hshort]
  rw [if_neg hshort]
  have hle := width_le b
  have htake : (rest.take (width b - 1)).length = width b - 1 := by
    rw [length_take]
    omega
  by_cases hconts : ∀ x ∈ rest.take (width b - 1), IsCont x
  · have hpow : 2 ^ 14 ≤ 2 ^ (32 - 6 * (rest.take (width b - 1)).length) :=
      Nat.pow_le_pow_right (by omega) (by omega)
    have hlt := leadValue_lt (b := b) (by omega)
    obtain ⟨v, hv, hvalue⟩ := utf8Continue_eq hconts codepoint (by omega) (by omega)
    rw [hv]
    dsimp only
    rw [if_neg]
    rw [utf8Valid_iff, hvalue, hval]
    exact h _ (rest.drop (width b - 1)) (take_append_drop ..).symm ⟨by omega, hconts⟩
  · rw [utf8Continue_eq_none hconts]

end decode

/-- **The decoder reads exactly UTF-8.**  Where the encoding of a character stands, it is read and
passed; any other byte reads as the replacement character and is passed alone. -/
theorem utf8Decode_exact (before : List UInt8) :
    (∀ c after, utf8Decode (before ++ (String.utf8EncodeChar c ++ after)) before.length =
      (c.val, before.length + (String.utf8EncodeChar c).length)) ∧
    ∀ b rest, (∃ c, String.utf8EncodeChar c <+: b :: rest) ∨
      utf8Decode (before ++ b :: rest) before.length = (replacementChar, before.length + 1) := by
  constructor
  · intro c after
    obtain ⟨b, conts, he, hseq, hvalue, hscalar⟩ := encode_spec c
    have hdrop : (before ++ (b :: conts ++ after)).drop before.length = _ := drop_left
    obtain ⟨_, hread, hc⟩ := utf8Decode_of_isScalar hdrop hseq (hvalue ▸ hscalar)
    rw [he, hread, UInt32.toNat_inj.mp (hc.trans hvalue), length_cons]
  · intro b rest
    refine or_iff_not_imp_left.mpr fun h => utf8Decode_of_not drop_left ?_
    intro conts tail hrest hseq hscalar
    obtain ⟨c, hc⟩ := (exists_encode_iff hseq).mpr hscalar
    exact h ⟨c, tail, by rw [hc, hrest, cons_append]⟩

/-- `utf8SequenceLength` also counts one for a byte that leads nothing. -/
lemma utf8SequenceLength_eq : ∀ b : UInt8,
    utf8SequenceLength b = if width b = 0 then 1 else width b := forall_byte (by decide +kernel)

end Hrx.Unicode
