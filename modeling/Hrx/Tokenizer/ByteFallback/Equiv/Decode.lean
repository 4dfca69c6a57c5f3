import Hrx.Tokenizer.ByteFallback.Equiv.Tokens

/-!
# Whole runs of the decoder

However the tokens are cut into calls and whatever the sizes of the buffers, the calls get through
the tokens, and together with `finalize` they write the text of the tokens, unless a round stumbles
or a token is taken for a byte token that is none (`decode_eq_text_iff`).
-/

namespace Hrx.Tokenizer.ByteFallback

open List Unicode Utf8

/-! ### Calls -/

lemma Writes.trans {s s₁ s₂ : State} {ts ts₁ ts₂ : List Token} {w w₁ : List UInt8} {p q : Prop}
    (h : Writes s s₁ ts ts₁ w p) (h₁ : Writes s₁ s₂ ts₁ ts₂ w₁ q) :
    Writes s s₂ ts ts₂ (w ++ w₁) (p ∨ q) := by
  refine ⟨h₁.wf, fun hs => ?_, fun hs => ?_⟩
  · rw [not_or] at hs
    rw [h.keeps hs.1, h₁.keeps hs.2, append_assoc]
  have hle : weight (w ++ owed s₁ ts₁) ≤ weight (w ++ w₁ ++ owed s₂ ts₂) := by
    rw [append_assoc, weight_append, weight_append w]
    refine Int.add_le_add_left ?_ _
    by_cases hq : q
    · exact Int.le_of_lt (h₁.exceeds hq)
    · exact Int.le_of_eq (by rw [h₁.keeps hq])
  by_cases hp : p
  · exact Int.lt_of_lt_of_le (h.exceeds hp) hle
  · rw [h.keeps hp, append_assoc, weight_append, weight_append w]
    exact Int.add_lt_add_left (h₁.exceeds (hs.resolve_left hp)) _

/-- A round of a call stumbles. -/
def LoopStumbles (size : ℕ) : State → List UInt8 → List Token → Prop
  | _, _, [] => False
  | state, output, token :: tokens =>
    TokenStumbles size state token output ∨
      match processToken size state token output with
      | (true, state, output) => LoopStumbles size state output tokens
      | (false, _, _) => False

instance decidableLoopStumbles (size : ℕ) :
    ∀ (state : State) (output : List UInt8) (tokens : List Token),
      Decidable (LoopStumbles size state output tokens)
  | _, _, [] => inferInstanceAs (Decidable False)
  | state, output, token :: tokens =>
    have : Decidable (match processToken size state token output with
        | (true, state, output) => LoopStumbles size state output tokens
        | (false, _, _) => False) :=
      match processToken size state token output with
      | (true, state, output) => decidableLoopStumbles size state output tokens
      | (false, _, _) => inferInstanceAs (Decidable False)
    inferInstanceAs (Decidable (_ ∨ _))

lemma processLoop_writes (size : ℕ) {state : State} {output : List UInt8} (hwf : Wf state)
    (hout : output.length ≤ size) (tokens more : List Token) :
    ∃ state' n w, processLoop size state output tokens = (state', n, output ++ w) ∧
      n ≤ tokens.length ∧
      Writes state state' (tokens ++ more) (tokens.drop n ++ more) w
      (LoopStumbles size state output tokens) := by
  induction tokens generalizing state output with
  | nil =>
    exact ⟨state, 0, [], by rw [processLoop, append_nil], le_rfl, .of_eq hwf id rfl⟩
  | cons token tokens ih =>
    obtain ⟨ok, state', w, heq, hle, hwrites⟩ := processToken_writes token (tokens ++ more) hwf hout
    rw [processLoop, LoopStumbles, heq]
    cases ok with
    | false =>
      rw [or_false]
      exact ⟨state', 0, w, rfl, Nat.zero_le _, hwrites⟩
    | true =>
      obtain ⟨state'', n, w', heq', hn, hwrites'⟩ := ih hwrites.wf hle
      dsimp only
      rw [heq']
      exact ⟨state'', n + 1, w ++ w', by rw [append_assoc], Nat.succ_le_succ hn,
        hwrites.trans hwrites'⟩

/-- A round of some calls stumbles. -/
def DriveStumbles : State → List Token → List Call → Prop
  | _, _, [] => False
  | state, tokens, call :: calls =>
    LoopStumbles call.size state [] (tokens.take call.count) ∨
      let (state, consumed, _) := process state (tokens.take call.count) call.size
      DriveStumbles state (tokens.drop consumed) calls

instance decidableDriveStumbles : ∀ (state : State) (tokens : List Token) (calls : List Call),
    Decidable (DriveStumbles state tokens calls)
  | _, _, [] => inferInstanceAs (Decidable False)
  | state, tokens, call :: calls =>
    have := decidableDriveStumbles (process state (tokens.take call.count) call.size).1
      (tokens.drop (process state (tokens.take call.count) call.size).2.1) calls
    inferInstanceAs (Decidable (_ ∨ _))

lemma drive_writes {state : State} (hwf : Wf state) (tokens : List Token) (calls : List Call) :
    ∃ state' rest w, drive state tokens calls = (state', rest, w) ∧
      Writes state state' tokens rest w (DriveStumbles state tokens calls) := by
  induction calls generalizing state tokens with
  | nil => exact ⟨state, tokens, [], rfl, .of_eq hwf id rfl⟩
  | cons call calls ih =>
    obtain ⟨state₁, n, w, heq, hn, hwrites⟩ := processLoop_writes call.size hwf
      (show ([] : List UInt8).length ≤ _ from Nat.zero_le _)
      (tokens.take call.count) (tokens.drop call.count)
    have hrest : (tokens.take call.count).drop n ++ tokens.drop call.count = tokens.drop n := by
      conv_rhs => rw [← take_append_drop call.count tokens]
      exact (drop_append_of_le_length hn).symm
    rw [take_append_drop, hrest] at hwrites
    obtain ⟨state₂, rest, w', heq', hwrites'⟩ := ih hwrites.wf (tokens.drop n)
    rw [drive, DriveStumbles, process, heq]
    dsimp only
    rw [heq', nil_append]
    exact ⟨state₂, rest, w ++ w', rfl, hwrites.trans hwrites'⟩

lemma Wf.length_le {state : State} (hwf : Wf state) : state.pendingBytes.length ≤ 4 := by
  cases hwf with
  | empty => exact Nat.zero_le _
  | stuck _ h => exact h
  | @started b conts _ h =>
    have := width_le b
    dsimp only [length_cons]
    omega
  | left _ _ h h' => exact h.le.trans h'

/-- With room for four replacement characters, everything pending is flushed. -/
lemma flush_all {state : State} (hwf : Wf state) {size : ℕ} (hsize : 12 ≤ size) :
    flushAsReplacement size state [] = (⟨[], 0⟩, replaced state.pendingBytes.length) := by
  have hlen := hwf.length_le
  obtain ⟨k, hk, heq, hfull, -⟩ := flushAsReplacement_eq size state []
  obtain rfl : k = state.pendingBytes.length := by
    by_contra h
    have := hfull (by omega)
    rw [length_nil] at this
    omega
  rw [heq, flushed_length]
  rfl

/-- What `finalize` writes is what is owed when no token is left. -/
lemma finalize_eq {state : State} (hwf : Wf state) {size : ℕ} (hsize : 12 ≤ size) :
    ∃ state' w, finalize state size = .ok (state', w) ∧ state'.pendingBytes = [] ∧
      owed state [] = w := by
  have hlen := hwf.length_le
  have hbreaks : Breaks parseByteToken [] := fun _ h => nomatch h
  obtain ⟨-, howed⟩ := hwf.flushed le_rfl [] (.inr (.inr hbreaks))
  have hnil : textFrom parseByteToken [] [] = [] := by rw [textFrom, restore_nil]
  rw [flushed_length, owed_empty, hnil, append_nil] at howed
  unfold finalize
  by_cases hne : state.pendingBytes = []
  · rw [if_neg (not_not.mpr hne)]
    rw [hne, length_nil, replaced_zero] at howed
    exact ⟨state, [], rfl, hne, howed⟩
  rw [if_pos hne, if_neg (by omega), flush_all hwf hsize]
  exact ⟨⟨[], 0⟩, _, rfl, rfl, howed⟩

/-! ### Progress -/

section progress

variable {size : ℕ} {state : State} {token : Token} {byte : UInt8}

/-- The next call consumes the token. -/
def Ready (state : State) (token : Token) : Prop :=
  state.pendingBytes = [] ∨ (parseByteToken token ≠ none ∧ state.pendingBytes.length ≤ 3)

instance : Decidable (Ready state token) := inferInstanceAs (Decidable (_ ∨ _))

lemma startSequence_fits {output : List UInt8} (h : output.length + 3 ≤ size) :
    (startSequence size byte output).1 = true := by
  unfold startSequence
  dsimp only
  split_ifs
  · omega
  · rfl
  · omega
  · rfl
  · rfl

/-- A byte that does not fit stays pending alone. -/
lemma startSequence_pending {output : List UInt8} (h : (startSequence size byte output).1 ≠ true) :
    (startSequence size byte output).2.1.pendingBytes = [byte] := by
  unfold startSequence at h ⊢
  dsimp only at h ⊢
  split_ifs at h ⊢
  · rfl
  · exact absurd rfl h
  · rfl
  · exact absurd rfl h
  · exact absurd rfl h

lemma flushAndStart_progress (hwf : Wf state) (hne : state.pendingBytes ≠ []) (hsize : 12 ≤ size)
    (hp : parseByteToken token = some byte) :
    (flushAndStart size state byte []).1 = true ∨
      (¬Ready state token ∧ Ready (flushAndStart size state byte []).2.1 token) := by
  unfold flushAndStart
  rw [flush_all hwf hsize]
  dsimp only
  rw [if_neg (by simp)]
  by_cases hok : (startSequence size byte (replaced state.pendingBytes.length)).1 = true
  · exact .inl hok
  right
  constructor
  · rintro (h | ⟨-, h⟩)
    · exact hne h
    apply hok
    apply startSequence_fits
    rw [length_replaced]
    omega
  · refine .inr ⟨by rw [hp]; exact Option.some_ne_none byte, ?_⟩
    rw [startSequence_pending hok]
    exact Nat.le_of_ble_eq_true rfl

lemma processByte_progress (hwf : Wf state) (hsize : 12 ≤ size)
    (hp : parseByteToken token = some byte) :
    (processByte size state byte []).1 = true ∨
      (¬Ready state token ∧ Ready (processByte size state byte []).2.1 token) := by
  have hlen := hwf.length_le
  unfold processByte
  by_cases hne : state.pendingBytes = []
  · rw [if_pos hne]
    refine .inl (startSequence_fits ?_)
    rw [length_nil]
    omega
  rw [if_neg hne]
  by_cases hcont : byte &&& 0xC0 ≠ 0x80
  · rw [if_pos hcont]
    exact flushAndStart_progress hwf hne hsize hp
  rw [if_neg hcont]
  by_cases hfull : state.pendingBytes.length + 1 = state.expectedLength
  · rw [if_pos hfull]
    left
    dsimp only
    cases hemit :
      emitValidSequence size { state with pendingBytes := state.pendingBytes ++ [byte] } [] with
    | written => rfl
    | noRoom =>
      unfold emitValidSequence at hemit
      dsimp only at hemit
      split_ifs at hemit with h₁ h₂
      rw [length_append, length_singleton, length_nil] at h₂
      omega
    | invalid =>
      obtain ⟨k, -, heq, hall, -⟩ :=
        flushAsReplacement_eq size { state with pendingBytes := state.pendingBytes ++ [byte] } []
      rw [heq, if_neg]
      rw [nil_append, length_replaced, length_nil]
      intro hzero
      have := hall (by rw [length_append, length_singleton]; omega)
      rw [length_nil] at this
      omega
  rw [if_neg hfull]
  by_cases hlt : state.pendingBytes.length < 4
  · rw [if_pos hlt]
    exact .inl rfl
  · rw [if_neg hlt]
    exact flushAndStart_progress hwf hne hsize hp

lemma processText_progress (hwf : Wf state) (hsize : 12 ≤ size) (htoken : token.length ≤ size)
    (hp : parseByteToken token = none) :
    (processText size state token []).1 = true ∨
      (¬Ready state token ∧ Ready (processText size state token []).2.1 token) := by
  have hlen := hwf.length_le
  unfold processText
  rw [if_neg (by rw [length_nil]; omega)]
  by_cases hne : state.pendingBytes = []
  · rw [if_neg (not_not.mpr hne)]
    dsimp only
    rw [if_neg (by rw [length_nil]; omega)]
    exact .inl rfl
  rw [if_pos hne, flush_all hwf hsize]
  dsimp only
  split_ifs
  · refine .inr ⟨?_, .inl rfl⟩
    rintro (h | ⟨h, -⟩)
    · exact hne h
    · exact h hp
  · exact .inl rfl

/-- The first round of a call either consumes its token or makes the next call consume it. -/
lemma processToken_progress (hwf : Wf state) (hsize : 12 ≤ size) (htoken : token.length ≤ size) :
    (processToken size state token []).1 = true ∨
      (¬Ready state token ∧ Ready (processToken size state token []).2.1 token) := by
  unfold processToken
  cases hp : parseByteToken token with
  | none => exact processText_progress hwf hsize htoken hp
  | some => exact processByte_progress hwf hsize hp

/-- The calls that are still needed: two for each token, or one if the next call consumes the
token. -/
def needed (state : State) : List Token → ℕ
  | [] => 0
  | token :: tokens => 2 * tokens.length + if Ready state token then 1 else 2

lemma needed_le (state : State) (tokens : List Token) :
    needed state tokens ≤ 2 * tokens.length := by
  cases tokens with
  | nil => exact le_rfl
  | cons =>
    rw [needed, length_cons]
    split_ifs <;> omega

/-- A call that presents a token lowers the number of calls that are needed. -/
lemma process_progress (tokens : List Token) (hwf : Wf state) (hsize : 12 ≤ size)
    (htoken : token.length ≤ size) (count : ℕ) :
    needed (process state (token :: tokens.take count) size).1
      ((token :: tokens).drop (process state (token :: tokens.take count) size).2.1) <
        needed state (token :: tokens) := by
  have hprogress := processToken_progress hwf hsize htoken
  rw [process, processLoop, needed]
  cases hround : processToken size state token [] with
  | mk ok result =>
    obtain ⟨state', output⟩ := result
    rw [hround] at hprogress
    cases ok with
    | true =>
      rw [drop_succ_cons]
      refine (needed_le _ _).trans_lt ?_
      rw [length_drop]
      split_ifs <;> omega
    | false =>
      obtain ⟨hnot, hready⟩ := hprogress.resolve_left Bool.false_ne_true
      rw [drop_zero, needed, if_pos hready, if_neg hnot]
      omega

/-- Enough calls that present a token get through all tokens. -/
lemma drive_progress {tokens : List Token} {calls : List Call} (hwf : Wf state)
    (hcalls : ∀ call ∈ calls, 12 ≤ call.size ∧ ∀ token ∈ tokens, token.length ≤ call.size)
    (henough : needed state tokens ≤ (calls.filter fun call => 0 < call.count).length) :
    (drive state tokens calls).2.1 = [] := by
  induction calls generalizing state tokens with
  | nil =>
    cases tokens with
    | nil => rfl
    | cons =>
      rw [needed, filter_nil, length_nil] at henough
      split_ifs at henough <;> omega
  | cons call calls ih =>
    obtain ⟨hsize, htokens⟩ := hcalls call (mem_cons_self ..)
    obtain ⟨state', n, w, heq, hn, hwrites⟩ := processLoop_writes call.size hwf
      (show ([] : List UInt8).length ≤ _ from Nat.zero_le _) (tokens.take call.count) []
    have hnext : ∀ call ∈ calls, 12 ≤ call.size ∧
        ∀ token ∈ tokens.drop n, token.length ≤ call.size :=
      fun c hc => ⟨(hcalls c (mem_cons_of_mem _ hc)).1, fun t ht =>
        (hcalls c (mem_cons_of_mem _ hc)).2 t (mem_of_mem_drop ht)⟩
    have hdrive : (drive state tokens (call :: calls)).2.1 =
        (drive state' (tokens.drop n) calls).2.1 := by
      rw [drive, process, heq]
    rw [hdrive]
    apply ih hwrites.wf hnext
    rw [filter_cons] at henough
    by_cases hcount : 0 < call.count
    · rw [if_pos (decide_eq_true hcount), length_cons] at henough
      cases tokens with
      | nil =>
        rw [drop_nil]
        exact Nat.zero_le _
      | cons token tokens =>
        have hlt := process_progress tokens hwf hsize (htokens token (mem_cons_self ..))
          (call.count - 1)
        rw [← take_succ_cons, Nat.sub_add_cancel hcount, process, heq] at hlt
        dsimp only at hlt
        omega
    · -- a call without tokens changes nothing
      rw [if_neg (by simpa using hcount)] at henough
      obtain rfl : n = 0 := by
        rw [Nat.eq_zero_of_not_pos hcount, take_zero, length_nil] at hn
        omega
      rw [Nat.eq_zero_of_not_pos hcount, take_zero, processLoop] at heq
      cases heq
      exact henough

end progress

/-! ### The decoder -/

/-- The calls get through the tokens, and what they and `finalize` write is the text exactly if
every token is taken for what it is and no round stumbles.  The text of the byte tokens of a string
is the string. -/
theorem decode_eq_text_iff (tokens : List Token) (calls : List Call) (size : ℕ)
    (hcalls : ∀ call ∈ calls, 12 ≤ call.size ∧ ∀ token ∈ tokens, token.length ≤ call.size)
    (hsize : 12 ≤ size) :
    (2 * tokens.length ≤ (calls.filter fun call => 0 < call.count).length →
      (drive .initial tokens calls).2.1 = []) ∧
    ((drive .initial tokens calls).2.1 = [] → ∃ state w,
      finalize (drive .initial tokens calls).1 size = .ok (state, w) ∧ state.pendingBytes = [] ∧
      ((drive .initial tokens calls).2.2 ++ w = text tokens ↔
        (∀ token ∈ tokens, Exact token) ∧ ¬DriveStumbles .initial tokens calls)) ∧
    ∀ chars : List Char, tokens.map byteToken? = (chars.flatMap String.utf8EncodeChar).map some →
      text tokens = chars.flatMap String.utf8EncodeChar := by
  have hwf : Wf .initial := .empty 0
  refine ⟨fun henough => drive_progress hwf hcalls ((needed_le _ _).trans henough), fun hdone => ?_,
    text_utf8⟩
  obtain ⟨state', rest, w, heq, hwrites⟩ := drive_writes hwf tokens calls
  rw [heq] at hdone ⊢
  obtain rfl : rest = [] := hdone
  obtain ⟨state, w', hfinal, hpending, howed⟩ := finalize_eq hwrites.wf hsize
  refine ⟨state, w', hfinal, hpending, ?_⟩
  obtain ⟨hexact, hmore⟩ := textFrom_parse [] tokens
  have hkeeps := hwrites.keeps
  have hexceeds := hwrites.exceeds
  rw [howed, show owed .initial tokens = textFrom parseByteToken [] tokens from owed_empty 0 tokens]
    at hkeeps hexceeds
  constructor
  · -- each fault makes what is written weigh more than the text
    intro h
    rw [h, text] at hexceeds
    have hall : ∀ token ∈ tokens, Exact token := by
      by_contra hall
      have hlt := hmore hall
      by_cases hs : DriveStumbles .initial tokens calls
      · have := hexceeds hs
        omega
      · rw [hkeeps hs, h, text] at hlt
        omega
    refine ⟨hall, fun hs => ?_⟩
    have := hexceeds hs
    rw [hexact hall] at this
    omega
  · rintro ⟨hall, hs⟩
    rw [← hkeeps hs, hexact hall, text]

def asciiToken (s : String) : Token := s.toList.map Char.toUInt8

/-- The bytes of U+00E9 in two calls. -/
theorem decode_eq_text_iff_acute :
    let tokens := [asciiToken "caf", asciiToken "<0xC3>", asciiToken "<0xA9>"]
    let calls := [Call.mk 2 12, Call.mk 1 12]
    (drive .initial tokens calls).2.1 = [] ∧ ∃ state w,
      finalize (drive .initial tokens calls).1 12 = .ok (state, w) ∧
      (drive .initial tokens calls).2.2 ++ w = text tokens := by
  intro tokens calls
  obtain ⟨-, h, -⟩ := decode_eq_text_iff tokens calls 12 (by decide) le_rfl
  have hdone : (drive .initial tokens calls).2.1 = [] := by decide
  obtain ⟨state, w, hfinal, -, hiff⟩ := h hdone
  refine ⟨hdone, state, w, hfinal, hiff.mpr ⟨by decide, by decide⟩⟩

/-- What the calls and `finalize` write. -/
def decoded (tokens : List Token) (calls : List Call) (size : ℕ) : Except Status (List UInt8) :=
  (finalize (drive .initial tokens calls).1 size).map fun result =>
    (drive .initial tokens calls).2.2 ++ result.2

/-- The replacement character comes out three times; a byte that does not fit at the end of a buffer
comes out again behind a replacement character; and a token that is no byte token is taken for
one. -/
theorem decoded_faults :
    (decoded [asciiToken "<0xEF>", asciiToken "<0xBF>", asciiToken "<0xBD>"] [⟨3, 12⟩] 12 =
      .ok (replaced 3) ∧
      text [asciiToken "<0xEF>", asciiToken "<0xBF>", asciiToken "<0xBD>"] = replacement) ∧
    (decoded [asciiToken "twelve bytes", asciiToken "<0x41>"] [⟨2, 12⟩, ⟨1, 12⟩] 12 =
        .ok (asciiToken "twelve bytes" ++ replacement ++ asciiToken "A") ∧
      text [asciiToken "twelve bytes", asciiToken "<0x41>"] = asciiToken "twelve bytesA") ∧
    (decoded [asciiToken "<0x4G>"] [⟨1, 12⟩] 12 = .ok [4] ∧
      text [asciiToken "<0x4G>"] = asciiToken "<0x4G>") := by
  refine ⟨⟨rfl, ?_⟩, ⟨rfl, ?_⟩, ⟨rfl, ?_⟩⟩
  · exact text_utf8 [Char.ofNat 0xFFFD] rfl
  · rw [text, textFrom_text (by decide), textFrom_byte (show byteToken? (asciiToken "<0x41>") =
      some 0x41 by decide), textFrom]
    rw [nil_append, restore_ascii (by decide), restore_nil]
    decide
  · rw [text, textFrom_text (by decide), textFrom, restore_nil]
    decide

end Hrx.Tokenizer.ByteFallback
