import Hrx.Tokenizer.ByteFallback.Equiv.Step

/-!
# Tokens that are taken for byte tokens

`parse_byte_token` reads the two characters with `strtoul`, which skips white space and a sign and
stops at the first character that is no digit.  So it accepts every token `<0xHH>`, and some others,
always for a byte below 16.
-/

namespace Hrx.Tokenizer.ByteFallback

open List Option Unicode Utf8

lemma hexDigit_lt {c : UInt8} {d : ℕ} (h : hexDigit c = some d) : d < 16 := by
  have hall : ∀ c : UInt8, (hexDigit c).all (· < 16) = true := forall_byte (by decide +kernel)
  have := hall c
  rw [h] at this
  exact of_decide_eq_true this

/-- A digit is neither white space nor a sign. -/
lemma not_skipped : ∀ c : UInt8,
    hexDigit c ≠ none → isSpace c = false ∧ c ≠ '-'.toUInt8 ∧ c ≠ '+'.toUInt8 :=
  forall_byte (by decide +kernel)

lemma strtoulBase16_digits {c c' : UInt8} {d d' : ℕ} (h : hexDigit c = some d)
    (h' : hexDigit c' = some d') :
    strtoulBase16 [c, c'] = some (d * 16 + d') := by
  obtain ⟨hspace, hminus, hplus⟩ := not_skipped c (by rw [h]; exact some_ne_none d)
  unfold strtoulBase16
  rw [dropWhile_cons_of_neg (by rw [hspace]; exact Bool.false_ne_true)]
  simp [hminus, hplus, readHex, skipHexPrefix, hexDigits, h, h']

def signed (negative : Bool) (d : ℕ) : ℕ := if negative then (2 ^ 64 - d) % 2 ^ 64 else d

lemma signed_lt {negative : Bool} {d : ℕ} (hd : d < 16) (hle : signed negative d % 2 ^ 32 ≤ 255) :
    signed negative d % 2 ^ 32 < 16 := by
  unfold signed at hle ⊢
  split_ifs at hle ⊢ <;> omega

lemma readHex_singleton (negative : Bool) (c : UInt8) :
    readHex negative [c] = (hexDigit c).map (signed negative) := by
  unfold readHex skipHexPrefix
  cases h : hexDigit c with
  | none => simp [hexDigits, h]
  | some => simp [hexDigits, h, signed]

/-- One digit is read when one of the two characters is none. -/
lemma strtoulBase16_eq {c c' : UInt8} {parsed : ℕ} (h : strtoulBase16 [c, c'] = some parsed)
    (hnot : hexDigit c = none ∨ hexDigit c' = none) :
    ∃ d negative, (hexDigit c = some d ∨ hexDigit c' = some d) ∧ parsed = signed negative d := by
  have hone : ∀ {x : UInt8} {negative : Bool}, readHex negative [x] = some parsed →
      ∃ d, hexDigit x = some d ∧ parsed = signed negative d := by
    intro x negative hx
    rw [readHex_singleton] at hx
    obtain ⟨d, hd, rfl⟩ := map_eq_some_iff.mp hx
    exact ⟨d, hd, rfl⟩
  unfold strtoulBase16 at h
  by_cases hspace : isSpace c = true
  · rw [dropWhile_cons_of_pos hspace] at h
    by_cases hspace' : isSpace c' = true
    · rw [dropWhile_cons_of_pos hspace', dropWhile_nil] at h
      cases h
    rw [dropWhile_cons_of_neg hspace'] at h
    dsimp only at h
    split_ifs at h
    · cases h
    · cases h
    · obtain ⟨d, hd, hval⟩ := hone h
      exact ⟨d, false, .inr hd, hval⟩
  · rw [dropWhile_cons_of_neg hspace] at h
    dsimp only at h
    split_ifs at h
    · obtain ⟨d, hd, hval⟩ := hone h
      exact ⟨d, true, .inr hd, hval⟩
    · obtain ⟨d, hd, hval⟩ := hone h
      exact ⟨d, false, .inr hd, hval⟩
    -- the first character is the digit
    cases hc : hexDigit c with
    | none =>
      unfold readHex skipHexPrefix hexDigits at h
      rw [hc] at h
      cases h
    | some d =>
      have hc' : hexDigit c' = none := hnot.resolve_left (by rw [hc]; exact some_ne_none d)
      refine ⟨d, false, .inl rfl, ?_⟩
      simpa [readHex, skipHexPrefix, hexDigits, hc, hc', signed] using h.symm

/-! ### Both parsers -/

section parse

variable {token : Token} {byte : UInt8}

/-- The shape that both parsers look for. -/
lemma parseByteToken_cases (h : parseByteToken token = some byte) :
    ∃ x c c', (x = 'x'.toUInt8 ∨ x = 'X'.toUInt8) ∧
    token = ['<'.toUInt8, '0'.toUInt8, x, c, c', '>'.toUInt8] ∧
    ∃ parsed, strtoulBase16 [c, c'] = some parsed ∧ parsed % 2 ^ 32 ≤ 255 ∧
      byte = UInt8.ofNat (parsed % 2 ^ 32) := by
  unfold parseByteToken at h
  split at h
  · split_ifs at h with h₀ h₁ h₂ h₃
    rename_i c₀ c₁ x c c' c₅
    cases hp : strtoulBase16 [c, c'] with
    | none =>
      rw [hp] at h
      cases h
    | some parsed =>
      rw [hp] at h
      dsimp only at h
      split_ifs at h with hle
      refine ⟨x, c, c', ?_, ?_, parsed, hp, not_lt.mp hle, (Option.some.inj h).symm⟩
      · by_contra hx
        exact h₂ (not_or.mp hx)
      · rw [not_not.mp h₀, not_not.mp h₁, not_not.mp h₃]
  · cases h

/-- Every byte token is accepted. -/
lemma parseByteToken_of_byteToken? (h : byteToken? token = some byte) :
    parseByteToken token = some byte := by
  unfold byteToken? at h
  split at h
  · rename_i c₀ c₁ c₂ c₃ c₄ c₅
    split_ifs at h with hshape
    obtain ⟨rfl, rfl, hx, rfl⟩ := hshape
    obtain ⟨d, hd, h⟩ := bind_eq_some_iff.mp h
    obtain ⟨d', hd', rfl⟩ := map_eq_some_iff.mp h
    have hlt := hexDigit_lt hd
    have hlt' := hexDigit_lt hd'
    have hmod : (d * 16 + d') % 2 ^ 32 = d * 16 + d' := Nat.mod_eq_of_lt (by omega)
    unfold parseByteToken
    dsimp only
    rw [if_neg (by simp), if_neg (by simp), if_neg (by rintro ⟨h, h'⟩; exact hx.elim h h'),
      if_neg (by simp),
      strtoulBase16_digits hd hd']
    dsimp only
    rw [hmod, if_neg (by omega)]
  · cases h

/-- Any other token that is accepted stands for a byte below 16. -/
lemma parseByteToken_of_not (h : parseByteToken token = some byte)
    (hnot : byteToken? token ≠ some byte) :
    byte.toNat < 16 ∧ weight token < 0 := by
  obtain ⟨x, c, c', hx, rfl, parsed, hparsed, hle, rfl⟩ := parseByteToken_cases h
  have hdigit : hexDigit c = none ∨ hexDigit c' = none := by
    by_contra hboth
    rw [not_or] at hboth
    obtain ⟨d, hd⟩ := ne_none_iff_exists'.mp hboth.1
    obtain ⟨d', hd'⟩ := ne_none_iff_exists'.mp hboth.2
    have hlt := hexDigit_lt hd
    have hlt' := hexDigit_lt hd'
    rw [strtoulBase16_digits hd hd'] at hparsed
    cases hparsed
    apply hnot
    unfold byteToken?
    dsimp only
    rw [if_pos ⟨rfl, rfl, hx, rfl⟩, hd, hd', Nat.mod_eq_of_lt (by omega)]
    rfl
  obtain ⟨d, negative, hd, rfl⟩ := strtoulBase16_eq hparsed hdigit
  have hd16 : d < 16 := hd.elim hexDigit_lt hexDigit_lt
  have hlt := signed_lt hd16 hle
  refine ⟨by rw [UInt8.toNat_ofNat']; omega, ?_⟩
  -- one of the two characters is a digit
  have hcount : List.count 0xBD [c, c'] ≤ 1 := by
    have hne : ∀ {x : UInt8}, hexDigit x = some d → x ≠ 0xBD := by
      rintro x hx rfl
      rw [show hexDigit 0xBD = none by decide] at hx
      cases hx
    rcases hd with hd | hd
    · rw [count_cons_of_ne (hne hd)]
      exact count_le_length
    · rw [count_cons, count_cons_of_ne (hne hd), count_nil]
      split_ifs <;> omega
  have hsplit : ['<'.toUInt8, '0'.toUInt8, x, c, c', '>'.toUInt8] =
      ['<'.toUInt8, '0'.toUInt8] ++ ([x] ++ ([c, c'] ++ ['>'.toUInt8])) := rfl
  have hpair : weight [c, c'] ≤ 1 := by
    unfold weight
    omega
  have hshape : weight [x] = 0 := by
    rcases hx with rfl | rfl <;> decide
  rw [hsplit, weight_append, weight_append, weight_append, hshape,
    show weight ['<'.toUInt8, '0'.toUInt8] = -2 from by decide,
    show weight ['>'.toUInt8] = 0 from by decide]
  omega

end parse

/-! ### Both texts -/

def Exact (token : Token) : Prop := parseByteToken token = byteToken? token

instance : DecidablePred Exact := fun _ => inferInstanceAs (Decidable (_ = _))

/-- A byte below 0x80 ends what comes before it. -/
lemma textFrom_ascii {parse : Token → Option UInt8} {byte : UInt8} (h : width byte = 1)
    (run : List UInt8)
    (tokens : List Token) :
    textFrom parse (run ++ [byte]) tokens = restore run ++ byte :: textFrom parse [] tokens := by
  have hbreak : ∀ rest, ∀ x ∈ (byte :: rest).head?, ¬IsCont x := by
    intro rest x hx hcont
    obtain rfl : byte = x := Option.some.inj hx
    rw [width_eq_zero_of_isCont hcont] at h
    omega
  rw [textFrom_eq, textFrom_eq, append_assoc, singleton_append, restore_append run (hbreak _),
    restore_ascii h, append_assoc]
  rfl

/-- The decoder's reading of some tokens is the text, or weighs more. -/
lemma textFrom_parse (run : List UInt8) (tokens : List Token) :
    ((∀ token ∈ tokens, Exact token) → textFrom parseByteToken run tokens =
      textFrom byteToken? run tokens) ∧
    ((¬∀ token ∈ tokens, Exact token) →
      weight (textFrom byteToken? run tokens) < weight (textFrom parseByteToken run tokens)) := by
  induction tokens generalizing run with
  | nil => exact ⟨fun _ => rfl, fun h => absurd (by simp) h⟩
  | cons token tokens ih =>
    have hle : ∀ run, weight (textFrom byteToken? run tokens) ≤
        weight (textFrom parseByteToken run tokens) := by
      intro run
      by_cases hall : ∀ token ∈ tokens, Exact token
      · exact Int.le_of_eq (by rw [(ih run).1 hall])
      · exact Int.le_of_lt ((ih run).2 hall)
    have hcons : (∀ t ∈ token :: tokens, Exact t) ↔ Exact token ∧ ∀ t ∈ tokens, Exact t :=
      forall_mem_cons
    rw [hcons]
    by_cases hexact : Exact token
    · rw [and_iff_right hexact]
      cases hp : byteToken? token with
      | some =>
        rw [textFrom_byte hp, textFrom_byte (hexact.trans hp)]
        exact ih _
      | none =>
        rw [textFrom_text hp, textFrom_text (hexact.trans hp)]
        refine ⟨fun hall => by rw [(ih []).1 hall], fun hall => ?_⟩
        rw [weight_append, weight_append _ (textFrom parseByteToken [] tokens)]
        exact Int.add_lt_add_left ((ih []).2 hall) _
    · refine ⟨fun h => absurd h.1 hexact, fun _ => ?_⟩
      -- the token is written out in the text and read as a byte by the decoder
      have hnone : byteToken? token = none := by
        by_contra h
        obtain ⟨byte, hb⟩ := ne_none_iff_exists'.mp h
        exact hexact ((parseByteToken_of_byteToken? hb).trans hb.symm)
      obtain ⟨byte, hb⟩ : ∃ byte, parseByteToken token = some byte := by
        refine ne_none_iff_exists'.mp fun h => hexact (h.trans hnone.symm)
      obtain ⟨hlt, hweight⟩ :=
        parseByteToken_of_not hb (by rw [hnone]; exact (some_ne_none byte).symm)
      have hbyte : weight [byte] = 0 := by
        have hsmall : ∀ b : UInt8, b.toNat < 16 → weight [b] = 0 := forall_byte (by decide +kernel)
        exact hsmall byte hlt
      rw [textFrom_text hnone, textFrom_byte hb, textFrom_ascii (width_eq_one_iff.mpr (by omega)),
        ← singleton_append, weight_append, weight_append, weight_append, weight_append, hbyte]
      have := hle []
      omega

/-- The text of byte tokens is what their bytes restore to. -/
lemma textFrom_bytes {tokens : List Token} {bytes : List UInt8}
    (h : tokens.map byteToken? = bytes.map some)
    (run : List UInt8) : textFrom byteToken? run tokens = restore (run ++ bytes) := by
  induction tokens generalizing run bytes with
  | nil =>
    rw [map_nil] at h
    rw [map_eq_nil_iff.mp h.symm, textFrom, append_nil]
  | cons token tokens ih =>
    cases bytes with
    | nil => cases h
    | cons =>
      obtain ⟨hb, h⟩ := List.cons.inj h
      rw [textFrom_byte hb, ih h, append_assoc]
      rfl

/-- The byte tokens of a string stand for the string. -/
lemma text_utf8 {tokens : List Token} (chars : List Char)
    (h : tokens.map byteToken? = (chars.flatMap String.utf8EncodeChar).map some) :
    text tokens = chars.flatMap String.utf8EncodeChar := by
  rw [text, textFrom_bytes h, nil_append]
  clear h
  induction chars with
  | nil => exact restore_nil
  | cons c chars ih => rw [flatMap_cons, restore_encode_append, ih]

end Hrx.Tokenizer.ByteFallback
