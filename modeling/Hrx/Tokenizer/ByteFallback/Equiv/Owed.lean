import Hrx.Base.Equiv.Unicode
import Hrx.Tokenizer.ByteFallback.Basic

/-!
# The text of some tokens

`textFrom` is what a list of tokens stands for: each run of byte tokens is restored, other tokens
are themselves.  `owed` is what the decoder still has to write in a state, for the tokens that are
left.

A byte token of the header is `<0xHH>` with two digits (`byteToken?`); the decoder accepts more
(`parseByteToken`), so the text is taken for either.
-/

namespace Hrx.Tokenizer.ByteFallback

open List Unicode Utf8

/-- The byte of a token `<0xHH>`. -/
def byteToken? : Token → Option UInt8
  | [c₀, c₁, c₂, c₃, c₄, c₅] =>
    if c₀ = '<'.toUInt8 ∧ c₁ = '0'.toUInt8 ∧ (c₂ = 'x'.toUInt8 ∨ c₂ = 'X'.toUInt8) ∧
      c₅ = '>'.toUInt8 then
      (hexDigit c₃).bind fun high => (hexDigit c₄).map fun low => UInt8.ofNat (high * 16 + low)
    else none
  | _ => none

noncomputable def textFrom (parse : Token → Option UInt8) : List UInt8 → List Token → List UInt8
  | run, [] => restore run
  | run, token :: tokens =>
    match parse token with
    | some byte => textFrom parse (run ++ [byte]) tokens
    | none => restore run ++ token ++ textFrom parse [] tokens

noncomputable def text (tokens : List Token) : List UInt8 := textFrom byteToken? [] tokens

section text

variable {parse : Token → Option UInt8} {token : Token} {tokens : List Token} {run : List UInt8}
  {byte : UInt8}

lemma textFrom_byte (h : parse token = some byte) :
    textFrom parse run (token :: tokens) = textFrom parse (run ++ [byte]) tokens := by
  rw [textFrom, h]

lemma textFrom_text (h : parse token = none) :
    textFrom parse run (token :: tokens) = restore run ++ token ++ textFrom parse [] tokens := by
  rw [textFrom, h]

/-- The bytes that continue a run. -/
def leadBytes (parse : Token → Option UInt8) : List Token → List UInt8
  | [] => []
  | token :: tokens => (parse token).elim [] (· :: leadBytes parse tokens)

noncomputable def textAfter (parse : Token → Option UInt8) : List Token → List UInt8
  | [] => []
  | token :: tokens => (parse token).elim (token ++ textFrom parse [] tokens) fun _ =>
    textAfter parse tokens

lemma textFrom_eq (run : List UInt8) (tokens : List Token) :
    textFrom parse run tokens = restore (run ++ leadBytes parse tokens) ++
    textAfter parse tokens := by
  induction tokens generalizing run with
  | nil => rw [textFrom, leadBytes, textAfter, append_nil, append_nil]
  | cons token tokens ih =>
    cases h : parse token with
    | none =>
      rw [textFrom_text h, leadBytes, textAfter, h, Option.elim_none, Option.elim_none, append_nil,
        append_assoc]
    | some =>
      rw [textFrom_byte h, ih, leadBytes, textAfter, h, Option.elim_some,
        Option.elim_some, append_assoc]
      rfl

/-- What holds for all bytes that may follow holds for the text. -/
lemma textFrom_of_restore {run run' w : List UInt8}
    (h : restore (run ++ leadBytes parse tokens) = w ++ restore (run' ++ leadBytes parse tokens)) :
    textFrom parse run tokens = w ++ textFrom parse run' tokens := by
  rw [textFrom_eq, textFrom_eq, h, append_assoc]

/-- The next token does not continue a sequence. -/
def Breaks (parse : Token → Option UInt8) (tokens : List Token) : Prop :=
  ∀ token ∈ tokens.head?, ∀ byte ∈ parse token, ¬IsCont byte

lemma Breaks.leadBytes (h : Breaks parse tokens) :
    ∀ x ∈ (leadBytes parse tokens).head?, ¬IsCont x := by
  intro x hx
  cases tokens with
  | nil => cases hx
  | cons token =>
    rw [ByteFallback.leadBytes] at hx
    cases hp : parse token with
    | none =>
      rw [hp] at hx
      cases hx
    | some byte =>
      rw [hp] at hx
      obtain rfl : byte = x := Option.some.inj hx
      exact h token rfl byte hp

lemma breaks_text (h : parse token = none) : Breaks parse (token :: tokens) := by
  intro t ht byte hb
  obtain rfl : token = t := Option.some.inj ht
  rw [h] at hb
  cases hb

lemma breaks_byte (h : parse token = some byte) (hb : ¬IsCont byte) :
    Breaks parse (token :: tokens) := by
  intro t ht byte' hb'
  obtain rfl : token = t := Option.some.inj ht
  obtain rfl : byte = byte' := Option.some.inj (h.symm.trans hb')
  exact hb

end text

/-! ### States -/

/-- The states of the decoder: no byte is pending; a byte did not fit when it started a sequence,
and bytes that could not follow it; a sequence was started; some bytes are left of a sequence that
is replaced. -/
inductive Wf : State → Prop where
  | empty (e : ℕ) : Wf ⟨[], e⟩
  | stuck {pending : List UInt8} : pending ≠ [] → pending.length ≤ 4 → Wf ⟨pending, 1⟩
  | started {b : UInt8} {conts : List UInt8} :
    (∀ x ∈ conts, IsCont x) → conts.length + 1 < width b →
      Wf ⟨b :: conts, width b⟩
  | left {conts : List UInt8} {e : ℕ} : conts ≠ [] → (∀ x ∈ conts, IsCont x) →
    conts.length < e → e ≤ 4 →
      Wf ⟨conts, e⟩

/-- What is still to be written.  The bytes of a state that is stuck are replaced, whatever
follows. -/
noncomputable def owed (state : State) (tokens : List Token) : List UInt8 :=
  if state.expectedLength = 1 then
    replaced state.pendingBytes.length ++ textFrom parseByteToken [] tokens
  else textFrom parseByteToken state.pendingBytes tokens

lemma owed_empty (e : ℕ) (tokens : List Token) :
    owed ⟨[], e⟩ tokens = textFrom parseByteToken [] tokens := by
  unfold owed
  split_ifs <;> rfl

lemma owed_stuck (pending : List UInt8) (tokens : List Token) :
    owed ⟨pending, 1⟩ tokens = replaced pending.length ++ textFrom parseByteToken [] tokens := rfl

lemma owed_of_ne {pending : List UInt8} {e : ℕ} (h : e ≠ 1) (tokens : List Token) :
    owed ⟨pending, e⟩ tokens = textFrom parseByteToken pending tokens := if_neg h

lemma owed_left {conts : List UInt8} {e : ℕ} (hne : conts ≠ []) (h : ∀ x ∈ conts, IsCont x)
    (hlt : conts.length < e) (tokens : List Token) :
    owed ⟨conts, e⟩ tokens = replaced conts.length ++ textFrom parseByteToken [] tokens := by
  have hpos := length_pos_iff.mpr hne
  rw [owed_of_ne (by omega)]
  apply textFrom_of_restore
  rw [nil_append]
  exact restore_conts h _

lemma owed_started {b : UInt8} {conts : List UInt8} (h : ∀ x ∈ conts, IsCont x)
    (hlt : conts.length + 1 < width b) {tokens : List Token}
    (hbreaks : width b = 1 ∨ (∀ x ∈ b :: conts, IsCont x) ∨ Breaks parseByteToken tokens) :
    owed ⟨b :: conts, width b⟩ tokens =
      replaced (conts.length + 1) ++ textFrom parseByteToken [] tokens := by
  rw [owed_of_ne (by omega)]
  apply textFrom_of_restore
  rw [nil_append]
  rcases hbreaks with hone | hcont | hbreaks
  · omega
  · have := width_eq_zero_of_isCont (hcont _ (mem_cons_self ..))
    omega
  · exact restore_short h hlt hbreaks.leadBytes

/-! ### Flushing -/

/-- The state after so many pending bytes were replaced. -/
def State.flushed (state : State) (k : ℕ) : State :=
  ⟨state.pendingBytes.drop k, if state.pendingBytes.drop k = [] then 0 else state.expectedLength⟩

lemma flushLoop_eq (size : ℕ) (pending output : List UInt8) : ∃ k ≤ pending.length,
    flushLoop size pending output = (pending.drop k, output ++ replaced k) ∧
    (k < pending.length → size < output.length + 3 * k + 3) ∧
    (0 < k → output.length + 3 * k ≤ size) := by
  induction pending generalizing output with
  | nil => exact ⟨0, le_rfl, by rw [flushLoop]; simp, fun h => absurd h (Nat.lt_irrefl _), by simp⟩
  | cons byte rest ih =>
    rw [flushLoop]
    split_ifs with h
    · exact ⟨0, Nat.zero_le _, by simp, fun _ => by omega, by simp⟩
    obtain ⟨k, hk, heq, hfull, hroom⟩ := ih (output ++ utf8Encode replacementChar)
    have hlen : (output ++ utf8Encode replacementChar).length = output.length + 3 := length_append
    rw [hlen] at hfull hroom
    refine ⟨k + 1, Nat.succ_le_succ hk, ?_, fun hlt => ?_, fun _ => ?_⟩
    · rw [heq, replaced_succ, append_assoc]
      rfl
    · have := hfull (Nat.lt_of_succ_lt_succ hlt)
      omega
    · rcases Nat.eq_zero_or_pos k with rfl | hpos
      · omega
      · omega

/-- Flushing replaces as many bytes as there is room for. -/
lemma flushAsReplacement_eq (size : ℕ) (state : State) (output : List UInt8) :
    ∃ k ≤ state.pendingBytes.length,
      flushAsReplacement size state output = (state.flushed k, output ++ replaced k) ∧
      (k < state.pendingBytes.length → size < output.length + 3 * k + 3) ∧
      (0 < k → output.length + 3 * k ≤ size) := by
  obtain ⟨k, hk, heq, hfull, hroom⟩ := flushLoop_eq size state.pendingBytes output
  refine ⟨k, hk, ?_, hfull, hroom⟩
  unfold flushAsReplacement
  rw [heq]
  rfl

lemma flushed_length (state : State) : state.flushed state.pendingBytes.length = ⟨[], 0⟩ := by
  unfold State.flushed
  rw [drop_length, if_pos rfl]

/-- Flushing leaves a state of the decoder, which owes that much less. -/
lemma Wf.flushed {state : State} (h : Wf state) {k : ℕ} (hk : k ≤ state.pendingBytes.length)
    (tokens : List Token)
    (hbreaks : state.expectedLength = 1 ∨ (∀ x ∈ state.pendingBytes, IsCont x) ∨
      Breaks parseByteToken tokens) :
    Wf (state.flushed k) ∧ owed state tokens = replaced k ++ owed (state.flushed k) tokens := by
  have hall : ∀ {n : ℕ} {rest : List UInt8}, k < n → rest.length = n - k →
      replaced n = replaced k ++ replaced rest.length := by
    intro n rest hlt hlen
    rw [hlen, ← replaced_add]
    congr 1
    omega
  rcases Nat.lt_or_eq_of_le hk with hlt | rfl
  swap
  · -- nothing is left
    rw [flushed_length, owed_empty]
    refine ⟨.empty 0, ?_⟩
    cases h with
    | empty e => exact owed_empty e tokens
    | stuck => rfl
    | started hconts hlen => exact owed_started hconts hlen hbreaks
    | left hne hconts hlen => exact owed_left hne hconts hlen tokens
  have hne : state.pendingBytes.drop k ≠ [] := by
    rw [Ne, drop_eq_nil_iff]
    omega
  have heq : state.flushed k = ⟨state.pendingBytes.drop k, state.expectedLength⟩ := by
    unfold State.flushed
    rw [if_neg hne]
  rw [heq]
  cases h with
  | empty => exact absurd hlt (Nat.not_lt_zero _)
  | @stuck pending hp hle =>
    refine ⟨.stuck hne (by rw [length_drop]; dsimp only at hlt ⊢; omega), ?_⟩
    rw [owed_stuck, owed_stuck, ← append_assoc, ← hall hlt (length_drop ..)]
  | @left conts e hp hconts hlen hle =>
    have hrest : ∀ x ∈ conts.drop k, IsCont x := fun x hx => hconts x (mem_of_mem_drop hx)
    have hshort : (conts.drop k).length < e := by
      rw [length_drop]
      omega
    refine ⟨.left hne hrest hshort hle, ?_⟩
    rw [owed_left hp hconts hlen, owed_left hne hrest hshort, ← append_assoc,
      ← hall hlt (length_drop ..)]
  | @started b conts hconts hlen =>
    cases k with
    | zero => exact ⟨.started hconts hlen, rfl⟩
    | succ k =>
      have hrest : ∀ x ∈ conts.drop k, IsCont x := fun x hx => hconts x (mem_of_mem_drop hx)
      have hshort : (conts.drop k).length < width b := by
        rw [length_drop]
        omega
      have hne : conts.drop k ≠ [] := hne
      refine ⟨.left hne hrest hshort (width_le b), ?_⟩
      rw [owed_started hconts hlen hbreaks]
      show _ = _ ++ owed ⟨conts.drop k, width b⟩ tokens
      rw [owed_left hne hrest hshort, ← append_assoc]
      congr 1
      exact hall hlt (by rw [length_drop]; show _ = conts.length + 1 - _; omega)

end Hrx.Tokenizer.ByteFallback
