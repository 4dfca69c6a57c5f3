import Hrx.Tokenizer.ByteFallback.Equiv.Owed

/-!
# One token

A round of the decoder writes a part of what it owed, unless it stumbles (`Stumbles`): it completes
the bytes of the replacement character, which it takes for a failed decoding, or it starts a
sequence with a byte that does not fit, which stays pending and is presented again.  Then it owes
more than before, measured by `weight`.
-/

namespace Hrx.Tokenizer.ByteFallback

open List Unicode Utf8

def startRoom (byte : UInt8) : ℕ := if width byte = 0 then 3 else if width byte = 1 then 1 else 0

def Starts (state : State) (byte : UInt8) : Prop :=
  state.pendingBytes = [] ∨ ¬IsCont byte ∨
    (state.pendingBytes.length + 1 ≠ state.expectedLength ∧ 4 ≤ state.pendingBytes.length)

instance (state : State) (byte : UInt8) : Decidable (Starts state byte) :=
  inferInstanceAs (Decidable (_ ∨ _))

/-- The rounds that go wrong. -/
inductive Stumbles (size : ℕ) (state : State) (byte : UInt8) (output : List UInt8) : Prop where
  | replacement : state.pendingBytes.length + 1 = state.expectedLength →
      state.pendingBytes ++ [byte] = replacement → output.length + 3 ≤ size →
        Stumbles size state byte output
  | noRoom : Starts state byte → output.length + 3 * state.pendingBytes.length ≤ size →
      size < output.length + 3 * state.pendingBytes.length + startRoom byte →
      Stumbles size state byte output

instance (size : ℕ) (state : State) (byte : UInt8) (output : List UInt8) :
    Decidable (Stumbles size state byte output) :=
  decidable_of_iff
    ((state.pendingBytes.length + 1 = state.expectedLength ∧
      state.pendingBytes ++ [byte] = replacement ∧
      output.length + 3 ≤ size) ∨
    (Starts state byte ∧ output.length + 3 * state.pendingBytes.length ≤ size ∧
      size < output.length + 3 * state.pendingBytes.length + startRoom byte))
    ⟨fun h => h.elim (fun ⟨h₁, h₂, h₃⟩ => .replacement h₁ h₂ h₃) fun ⟨h₁, h₂, h₃⟩ =>
      .noRoom h₁ h₂ h₃,
      fun h => h.casesOn (fun h₁ h₂ h₃ => .inl ⟨h₁, h₂, h₃⟩) fun h₁ h₂ h₃ => .inr ⟨h₁, h₂, h₃⟩⟩

/-- Counts replacement characters by their last byte; `<` counts against them. -/
def weight (bytes : List UInt8) : ℤ := bytes.count 0xBD - 2 * bytes.count '<'.toUInt8

lemma weight_append (l r : List UInt8) : weight (l ++ r) = weight l + weight r := by
  unfold weight
  rw [count_append, count_append]
  omega

lemma weight_replaced (n : ℕ) : weight (replaced n) = n := by
  induction n with
  | zero => rfl
  | succ n ih =>
    rw [replaced_succ, weight_append, ih, show weight replacement = 1 from rfl]
    omega

/-- What a round does to what is owed. -/
structure Writes (state state' : State) (tokens tokens' : List Token) (w : List UInt8)
    (stumbles : Prop) :
    Prop where
  wf : Wf state'
  keeps : ¬stumbles → owed state tokens = w ++ owed state' tokens'
  exceeds : stumbles → weight (owed state tokens) < weight (w ++ owed state' tokens')

lemma Writes.of_eq {state state' : State} {tokens tokens' : List Token} {w : List UInt8}
    {stumbles : Prop}
    (hwf : Wf state') (hnot : ¬stumbles) (h : owed state tokens = w ++ owed state' tokens') :
    Writes state state' tokens tokens' w stumbles := ⟨hwf, fun _ => h, fun hs => absurd hs hnot⟩

variable {size : ℕ} {state : State} {token : Token} {tokens : List Token} {byte : UInt8}
  {output : List UInt8}

/-- A token that is not consumed is presented again. -/
def rest (consumed : Bool) (token : Token) (tokens : List Token) : List Token :=
  if consumed then tokens else token :: tokens

variable (size state token tokens output) in
/-- What a round returns is what it writes. -/
def Round (result : Bool × State × List UInt8) (stumbles : Prop) : Prop :=
  ∃ ok state' w, result = (ok, state', output ++ w) ∧ (output ++ w).length ≤ size ∧
    Writes state state' (token :: tokens) (rest ok token tokens) w stumbles

lemma Round.congr {result : Bool × State × List UInt8} {p q : Prop}
    (h : Round size state token tokens output result p) (hpq : p ↔ q) :
    Round size state token tokens output result q := by
  rwa [← hpq]

/-- A round that writes nothing. -/
lemma Round.silent {ok : Bool} {state' : State} {stumbles : Prop} (hout : output.length ≤ size)
    (h : Writes state state' (token :: tokens) (rest ok token tokens) [] stumbles) :
    Round size state token tokens output (ok, state', output) stumbles :=
  ⟨ok, state', [], by rw [append_nil], by rwa [append_nil], h⟩

/-- The byte that does not fit stays pending. -/
lemma stuck_writes {e : ℕ} {stumbles : Prop} (h : stumbles) :
    Writes ⟨[], e⟩ ⟨[byte], 1⟩ (token :: tokens) (rest false token tokens) [] stumbles := by
  refine ⟨.stuck (by simp) (by simp), absurd h, fun _ => ?_⟩
  rw [nil_append, owed_stuck, weight_append, owed_empty, weight_replaced]
  exact Int.lt_add_of_pos_left _ (show (0 : ℤ) < 1 by decide)

variable (tokens) in
/-- A byte that starts a sequence, when nothing is pending. -/
lemma startSequence_writes (hp : parseByteToken token = some byte)
    (hout : output.length ≤ size) (e : ℕ) :
    Round size ⟨[], e⟩ token tokens output (startSequence size byte output)
      (size < output.length + startRoom byte) := by
  have hlead : ∀ tokens, owed ⟨[], e⟩ (token :: tokens) =
      textFrom parseByteToken [byte] tokens := by
    intro tokens
    rw [owed_empty, textFrom_byte hp]
    rfl
  unfold startSequence
  rw [utf8SequenceLength_eq]
  have hhigh : byte &&& 0x80 ≠ 0 ↔ width byte ≠ 1 := by rw [Ne, ascii_iff, Ne, width_eq_one_iff]
  simp only [hhigh]
  by_cases hzero : width byte = 0
  · -- a byte that leads nothing
    have hroom : startRoom byte = 3 := if_pos hzero
    rw [if_pos hzero, if_pos ⟨rfl, by omega⟩, hroom]
    by_cases hfit : output.length + 3 > size
    · rw [if_pos hfit]
      exact .silent hout (stuck_writes hfit)
    rw [if_neg hfit]
    refine ⟨true, ⟨[], 0⟩, replacement, ?_, ?_, .of_eq (.empty 0) hfit ?_⟩
    · unfold flushAsReplacement flushLoop
      rw [if_neg hfit]
      rfl
    · rw [length_append]
      exact not_lt.mp hfit
    · rw [hlead, owed_empty]
      apply textFrom_of_restore
      exact restore_of_width_eq_zero hzero _
  rw [if_neg hzero, if_neg (fun h => h.2 h.1)]
  by_cases hone : width byte = 1
  · -- a byte below 0x80
    have hroom : startRoom byte = 1 := by rw [startRoom, if_neg hzero, if_pos hone]
    rw [if_pos hone, hroom]
    by_cases hfit : output.length + 1 > size
    · rw [if_pos hfit, hone]
      exact .silent hout (stuck_writes hfit)
    · rw [if_neg hfit]
      refine ⟨true, ⟨[], 0⟩, [byte], rfl, ?_, .of_eq (.empty 0) hfit ?_⟩
      · rw [length_append]
        exact not_lt.mp hfit
      rw [hlead, owed_empty]
      apply textFrom_of_restore
      exact restore_ascii hone _
  · -- a byte that leads a longer sequence
    have hroom : startRoom byte = 0 := by rw [startRoom, if_neg hzero, if_neg hone]
    rw [if_neg hone, hroom]
    refine .silent hout (.of_eq (.started (by simp) (by rw [length_nil]; omega)) hout.not_gt ?_)
    rw [hlead, owed_of_ne hone]
    rfl

variable (tokens) in
/-- The pending bytes are flushed before a byte starts a sequence. -/
lemma flushAndStart_writes (hwf : Wf state) (hp : parseByteToken token = some byte)
    (hout : output.length ≤ size)
    (hbreaks : state.expectedLength = 1 ∨ Breaks parseByteToken (token :: tokens)) :
    Round size state token tokens output (flushAndStart size state byte output)
      (output.length + 3 * state.pendingBytes.length ≤ size ∧
        size < output.length + 3 * state.pendingBytes.length + startRoom byte) := by
  obtain ⟨k, hk, heq, hfull, hroom⟩ := flushAsReplacement_eq size state output
  have hfit : output.length + 3 * k ≤ size := by
    rcases Nat.eq_zero_or_pos k with rfl | hpos
    · omega
    · exact hroom hpos
  obtain ⟨hwf', howed⟩ := hwf.flushed hk (token :: tokens) (hbreaks.imp_right .inr)
  unfold flushAndStart
  rw [heq]
  dsimp only
  rcases Nat.lt_or_eq_of_le hk with hlt | rfl
  · have hleft : (state.flushed k).pendingBytes ≠ [] := by
      rw [State.flushed, Ne, drop_eq_nil_iff]
      omega
    rw [if_pos hleft]
    refine ⟨false, _, _, rfl, ?_, .of_eq hwf' (by omega) howed⟩
    rw [length_append, length_replaced]
    exact hfit
  · rw [flushed_length] at howed ⊢
    rw [if_neg (by simp)]
    have hout' : (output ++ replaced state.pendingBytes.length).length ≤ size := by
      rw [length_append, length_replaced]
      exact hfit
    obtain ⟨ok, state', w, hstart, hlen, hwrites⟩ := startSequence_writes tokens hp hout' 0
    rw [length_append, length_replaced] at hwrites
    refine ⟨ok, state', replaced state.pendingBytes.length ++ w, ?_, ?_, hwrites.wf, ?_, ?_⟩
    · rw [hstart, append_assoc]
    · rwa [← append_assoc]
    · intro hs
      rw [howed, hwrites.keeps fun h => hs ⟨hfit, h⟩, append_assoc]
    · rintro ⟨-, hs⟩
      rw [howed, append_assoc, weight_append, weight_append]
      exact Int.add_lt_add_left (hwrites.exceeds hs) _

/-- A completed sequence that is replaced, as far as there is room. -/
lemma replace_writes {bytes : List UInt8} {e : ℕ} {stumbles : Prop}
    (hlen : bytes.length = e) (he : e ≤ 4)
    (hpos : 2 ≤ e) (hconts : ∀ x ∈ bytes.tail, IsCont x)
    (howed : ¬stumbles → owed state (token :: tokens) =
      replaced e ++ textFrom parseByteToken [] tokens)
    (hweight : stumbles → weight (owed state (token :: tokens)) <
      weight (replaced e ++ textFrom parseByteToken [] tokens)) (hout : output.length + 3 ≤ size) :
    ∃ state' w, flushAsReplacement size ⟨bytes, e⟩ output = (state', output ++ w) ∧ w ≠ [] ∧
      (output ++ w).length ≤ size ∧ Writes state state' (token :: tokens) tokens w stumbles := by
  obtain ⟨k, hk, heq, hfull, hroom⟩ := flushAsReplacement_eq size ⟨bytes, e⟩ output
  dsimp only at hk hfull hroom
  have hkpos : 0 < k := by
    by_contra h
    omega
  -- once the first byte is out, continuation bytes are left
  obtain ⟨b, conts, rfl⟩ := exists_cons_of_length_pos (show 0 < bytes.length by omega)
  obtain ⟨k, rfl⟩ : ∃ k', k = k' + 1 := ⟨k - 1, by omega⟩
  subst hlen
  have hne : conts ≠ [] := ne_nil_of_length_pos (Nat.lt_of_succ_lt_succ hpos)
  obtain ⟨hleft, hsplit⟩ := (Wf.left hne hconts (Nat.lt_succ_self _) he).flushed
    (Nat.le_of_succ_le_succ hk) tokens (.inr (.inl hconts))
  rw [owed_left hne hconts (Nat.lt_succ_self _)] at hsplit
  have hsplit' : replaced (b :: conts).length ++ textFrom parseByteToken [] tokens =
      replaced (k + 1) ++ owed ((⟨b :: conts, (b :: conts).length⟩ : State).flushed
        (k + 1)) tokens := by
    rw [length_cons, replaced_succ, replaced_succ, append_assoc, hsplit, append_assoc]
    rfl
  refine ⟨_, replaced (k + 1), heq, ?_, ?_, hleft, ?_, ?_⟩
  · intro h
    have := congrArg List.length h
    rw [length_replaced, length_nil] at this
    omega
  · rw [length_append, length_replaced]
    exact hroom hkpos
  · intro hs
    rw [howed hs, hsplit']
  · intro hs
    rw [← hsplit']
    exact hweight hs

lemma isCont_concat {l : List UInt8} (hl : ∀ x ∈ l, IsCont x) (hcont : IsCont byte) :
    ∀ x ∈ l ++ [byte], IsCont x := by
  intro x hx
  rcases mem_append.mp hx with hx | hx
  · exact hl x hx
  · rwa [mem_singleton.mp hx]

lemma encode_replacement : String.utf8EncodeChar (Char.ofNat 0xFFFD) = replacement := by decide

/-- A sequence is the replacement character if its value is. -/
lemma eq_replacement_iff {b : UInt8} {conts : List UInt8} (h : IsSequence b conts)
    (hs : IsScalar (width b) (valueFrom (leadValue b) conts)) :
    b :: conts = replacement ↔ valueFrom (leadValue b) conts = 0xFFFD := by
  constructor
  · intro heq
    cases heq
    decide
  · intro hv
    rw [← encode_of_isScalar h hs (c := Char.ofNat 0xFFFD) (by rw [hv]; rfl), encode_replacement]

lemma not_starts (hne : state.pendingBytes ≠ []) (hcont : IsCont byte)
    (hlen : state.pendingBytes.length + 1 = state.expectedLength ∨ state.pendingBytes.length < 4) :
    ¬Starts state byte := by
  rintro (h | h | ⟨h, h'⟩)
  · exact hne h
  · exact h hcont
  · omega

variable (size output) in
/-- What `emitValidSequence` finds in a completed sequence, and what the sequence is. -/
lemma emit_cases (hwf : Wf state) (hne : state.pendingBytes ≠ []) (hcont : IsCont byte)
    (hlen : state.pendingBytes.length + 1 = state.expectedLength) :
    (∃ c, state.pendingBytes ++ [byte] = String.utf8EncodeChar c ∧
      state.pendingBytes ++ [byte] ≠ replacement ∧
      emitValidSequence size { state with pendingBytes := state.pendingBytes ++ [byte] } output =
        if output.length + (state.pendingBytes.length + 1) > size then .noRoom
        else .written ⟨[], 0⟩ (output ++ (state.pendingBytes ++ [byte]))) ∨
    (emitValidSequence size { state with pendingBytes := state.pendingBytes ++ [byte] } output =
      .invalid ∧
      2 ≤ state.expectedLength ∧ state.expectedLength ≤ 4 ∧
      (∀ x ∈ (state.pendingBytes ++ [byte]).tail, IsCont x) ∧
      (state.pendingBytes ++ [byte] = replacement ∨ (state.pendingBytes ++ [byte] ≠ replacement ∧
        ∀ rest, restore (state.pendingBytes ++ [byte] ++ rest) =
          replaced state.expectedLength ++ restore rest))) := by
  have hinvalid : ∀ (s : State), 2 ≤ s.pendingBytes.length →
      utf8Decode s.pendingBytes 0 = (replacementChar, 1) →
        emitValidSequence size s output = .invalid := by
    intro s hs hdecode
    unfold emitValidSequence
    dsimp only
    rw [hdecode, if_neg]
    rintro ⟨h, -⟩
    omega
  cases hwf with
  | empty => exact absurd rfl hne
  | stuck hp =>
    have := length_pos_iff.mpr hp
    dsimp only at hlen
    omega
  | @left conts e hp hconts hlt hle =>
    right
    have hall := isCont_concat hconts hcont
    have hpos := length_pos_iff.mpr hp
    dsimp only at hlen ⊢
    refine ⟨hinvalid _ (by rw [length_append, length_singleton]; omega) ?_, by omega, hle,
      fun x hx => hall x (mem_of_mem_tail hx), .inr ⟨?_, ?_⟩⟩
    · obtain ⟨b, rest, rfl⟩ := exists_cons_of_ne_nil hp
      refine utf8Decode_of_not (show _ = b :: (rest ++ [byte]) from rfl) fun cs tail _ hseq _ => ?_
      have := hseq.width
      rw [width_eq_zero_of_isCont (hconts b (mem_cons_self ..))] at this
      omega
    · intro heq
      have := hall 0xEF (heq ▸ mem_cons_self ..)
      exact absurd this (by decide)
    · intro rest
      rw [restore_conts hall, length_append, length_singleton, hlen]
  | @started b conts hconts hlt =>
    have hseq : IsSequence b (conts ++ [byte]) :=
      ⟨by rw [length_append, length_singleton]; exact hlen.symm, isCont_concat hconts hcont⟩
    rw [length_cons] at hlen
    have hlen' : (b :: conts ++ [byte]).length = conts.length + 2 := by simp
    have hle := width_le b
    by_cases hs : IsScalar (width b) (valueFrom (leadValue b) (conts ++ [byte]))
    · obtain ⟨codepoint, hdecode, hvalue⟩ := utf8Decode_of_isScalar
        (show (b :: conts ++ [byte]).drop 0 = b :: (conts ++ [byte] ++ []) by simp) hseq hs
      have hrep := eq_replacement_iff hseq hs
      by_cases hfffd : valueFrom (leadValue b) (conts ++ [byte]) = 0xFFFD
      · right
        refine ⟨?_, by omega, hle, hseq.conts, .inl (hrep.mpr hfffd)⟩
        unfold emitValidSequence
        dsimp only
        rw [hdecode, if_neg]
        rintro ⟨-, h⟩
        exact h (UInt32.toNat_inj.mp (hvalue.trans hfffd))
      · left
        obtain ⟨c, hc⟩ := (exists_encode_iff hseq).mpr hs
        refine ⟨c, hc.symm, fun h => hfffd (hrep.mp h), ?_⟩
        unfold emitValidSequence
        dsimp only
        rw [hdecode, if_pos, hlen', length_cons]
        refine ⟨by rw [hlen', length_append, length_singleton]; omega, ?_⟩
        rintro rfl
        exact hfffd hvalue.symm
    · right
      refine ⟨hinvalid _ (by rw [hlen']; omega) ?_, by omega, hle, hseq.conts, .inr ⟨?_, ?_⟩⟩
      · refine utf8Decode_of_not (show _ = b :: (conts ++ [byte]) from rfl)
          fun cs tail hsplit hcs => ?_
        have hlen : (conts ++ [byte]).length = cs.length := by
          have := hseq.width.symm.trans hcs.width
          omega
        rw [← append_nil (conts ++ [byte])] at hsplit
        rwa [← (append_inj hsplit hlen).1]
      · intro heq
        exact hs ((exists_encode_iff hseq).mp ⟨_, encode_replacement.trans heq.symm⟩)
      · intro rest
        show restore (b :: (conts ++ [byte]) ++ rest) = _
        rw [restore_invalid hseq hs, ← hseq.width]

section

variable (hwf : Wf state) (hp : parseByteToken token = some byte)
include hwf hp

/-- A byte that completes a sequence. -/
lemma complete_writes (hout : output.length ≤ size) (hne : state.pendingBytes ≠ [])
    (hcont : IsCont byte)
    (hlen : state.pendingBytes.length + 1 = state.expectedLength) :
    Round size state token tokens output (processByte size state byte output)
      (Stumbles size state byte output) := by
  have hstarts := not_starts hne hcont (.inl hlen)
  have hpos := length_pos_iff.mpr hne
  have howed : owed state (token :: tokens) =
      textFrom parseByteToken (state.pendingBytes ++ [byte]) tokens := by
    rw [owed, if_neg (by omega), textFrom_byte hp]
  unfold processByte
  rw [if_neg hne, if_neg (not_not.mpr ((cont_iff byte).mpr hcont)), if_pos hlen]
  dsimp only
  rcases emit_cases size output hwf hne hcont hlen with
    ⟨c, hc, hnot, hemit⟩ | ⟨hemit, he₂, he₄, hconts, hbytes⟩
  · have hs : ¬Stumbles size state byte output := by
      rintro (⟨-, h, -⟩ | ⟨h, -⟩)
      · exact hnot h
      · exact hstarts h
    rw [hemit]
    by_cases hfit : output.length + (state.pendingBytes.length + 1) > size
    · rw [if_pos hfit]
      exact .silent hout (.of_eq hwf hs rfl)
    rw [if_neg hfit]
    refine ⟨true, ⟨[], 0⟩, _, rfl, ?_, .of_eq (.empty 0) hs ?_⟩
    · rw [length_append, length_append, length_singleton]
      exact not_lt.mp hfit
    rw [howed, owed_empty]
    apply textFrom_of_restore
    rw [hc]
    exact restore_encode_append c _
  · rw [hemit]
    by_cases hroom : output.length + 3 ≤ size
    · have hbytes' : (state.pendingBytes ++ [byte]).length = state.expectedLength := by
        rw [length_append, length_singleton, hlen]
      have hequal : ¬Stumbles size state byte output → owed state (token :: tokens) =
          replaced state.expectedLength ++ textFrom parseByteToken [] tokens := by
        intro hs
        rw [howed]
        apply textFrom_of_restore
        rw [nil_append]
        exact (hbytes.resolve_left fun h => hs (.replacement hlen h hroom)).2 _
      have hmore : Stumbles size state byte output → weight (owed state (token :: tokens)) <
          weight (replaced state.expectedLength ++ textFrom parseByteToken [] tokens) := by
        -- three characters are owed instead of one
        rintro (⟨-, h, -⟩ | ⟨h, -⟩)
        · have hthree : state.expectedLength = 3 := by
            rw [← hbytes', h]
            rfl
          have hone : textFrom parseByteToken replacement tokens =
              replacement ++ textFrom parseByteToken [] tokens := by
            apply textFrom_of_restore
            rw [nil_append, ← encode_replacement]
            exact restore_encode_append _ _
          rw [howed, h, hone, hthree, weight_append, weight_append, weight_replaced]
          exact Int.add_lt_add_right (by decide) _
        · exact absurd h hstarts
      obtain ⟨state', w, hflush, hw, hle, hwrites⟩ :=
        replace_writes hbytes' he₄ he₂ hconts hequal hmore hroom
      have hwrote : ¬(output ++ w).length = output.length := by
        have := length_pos_iff.mpr hw
        rw [length_append]
        omega
      rw [hflush, if_neg hwrote]
      exact ⟨true, state', w, rfl, hle, hwrites⟩
    · have hsame :
          (flushAsReplacement size { state with pendingBytes := state.pendingBytes ++ [byte] }
          output).2 = output := by
        obtain ⟨k, -, heq, -, hk⟩ := flushAsReplacement_eq size
          { state with pendingBytes := state.pendingBytes ++ [byte] } output
        have hzero : k = 0 := by
          by_contra h
          omega
        rw [heq, hzero, replaced_zero, append_nil]
      rw [hsame, if_pos rfl]
      refine .silent hout (.of_eq hwf ?_ rfl)
      rintro (⟨-, -, h⟩ | ⟨h, -⟩)
      · exact hroom h
      · exact hstarts h

/-- A byte that continues a sequence without completing it. -/
lemma collect_writes (hne : state.pendingBytes ≠ []) (hcont : IsCont byte)
    (hlen : state.pendingBytes.length + 1 ≠ state.expectedLength)
    (hlt : state.pendingBytes.length < 4) :
    Writes state { state with pendingBytes := state.pendingBytes ++ [byte] }
    (token :: tokens) tokens []
      (Stumbles size state byte output) := by
  have hs : ¬Stumbles size state byte output := by
    rintro (⟨h, -⟩ | ⟨h, -⟩)
    · exact hlen h
    · exact not_starts hne hcont (.inr hlt) h
  cases hwf with
  | empty => exact absurd rfl hne
  | @stuck pending _ _ =>
    refine .of_eq (.stuck (by simp) ?_) hs ?_
    · rw [length_append, length_singleton]
      exact hlt
    have hone : textFrom parseByteToken [byte] tokens =
        replacement ++ textFrom parseByteToken [] tokens :=
      textFrom_of_restore (restore_of_width_eq_zero (width_eq_zero_of_isCont hcont) _)
    rw [owed_stuck, owed_stuck, textFrom_byte hp, nil_append, hone, length_append,
      length_singleton, replaced_add, append_assoc]
    rfl
  | @left conts e hp' hconts hshort hle =>
    dsimp only at hlen ⊢
    refine .of_eq (.left (by simp) (isCont_concat hconts hcont) ?_ hle) hs ?_
    · rw [length_append, length_singleton]
      omega
    · rw [owed_of_ne (by omega), owed_of_ne (by omega), textFrom_byte hp]
      rfl
  | @started b conts hconts hshort =>
    dsimp only [length_cons] at hlen ⊢
    refine .of_eq (.started (isCont_concat hconts hcont) ?_) hs ?_
    · show (conts ++ [byte]).length + 1 < width b
      rw [length_append, length_singleton]
      omega
    · rw [owed_of_ne (by omega), owed_of_ne (by omega), textFrom_byte hp]
      rfl

omit hwf hp in
/-- A round that starts a sequence stumbles for want of room. -/
lemma stumbles_iff (hrep : state.pendingBytes.length + 1 = state.expectedLength →
    state.pendingBytes ++ [byte] ≠ replacement) (hs : Starts state byte) :
    (output.length + 3 * state.pendingBytes.length ≤ size ∧
      size < output.length + 3 * state.pendingBytes.length + startRoom byte) ↔
    Stumbles size state byte output := by
  constructor
  · exact fun ⟨h, h'⟩ => .noRoom hs h h'
  · rintro (⟨hlen, h, -⟩ | ⟨-, h, h'⟩)
    · exact absurd h (hrep hlen)
    · exact ⟨h, h'⟩

variable (tokens) in
lemma processByte_writes (hout : output.length ≤ size) :
    Round size state token tokens output (processByte size state byte output)
      (Stumbles size state byte output) := by
  by_cases hne : state.pendingBytes = []
  · obtain ⟨pending, e⟩ := state
    obtain rfl : pending = [] := hne
    refine (startSequence_writes tokens hp hout e).congr ?_
    have hrep : ([] : List UInt8) ++ [byte] ≠ replacement := by
      intro h
      cases h
    rw [← stumbles_iff (fun _ => hrep) (.inl rfl), length_nil]
    omega
  by_cases hcont : IsCont byte
  swap
  · -- the sequence is cut short
    unfold processByte
    rw [if_neg hne, if_pos (fun h => hcont ((cont_iff byte).mp h))]
    refine (flushAndStart_writes tokens hwf hp hout (.inr (breaks_byte hp hcont))).congr
      (stumbles_iff (fun _ h => ?_) (.inr (.inl hcont)))
    have hlast := congrArg List.getLast? h
    rw [List.getLast?_concat] at hlast
    obtain rfl : byte = 0xBD := Option.some.inj hlast
    exact hcont (by decide)
  by_cases hlen : state.pendingBytes.length + 1 = state.expectedLength
  · exact complete_writes hwf hp hout hne hcont hlen
  unfold processByte
  rw [if_neg hne, if_neg (not_not.mpr ((cont_iff byte).mpr hcont)), if_neg hlen]
  by_cases hlt : state.pendingBytes.length < 4
  · rw [if_pos hlt]
    exact .silent hout (collect_writes hwf hp hne hcont hlen hlt)
  -- only a state that is stuck has four bytes
  rw [if_neg hlt]
  have hstuck : state.expectedLength = 1 := by
    cases hwf with
    | empty => exact absurd rfl hne
    | stuck => rfl
    | @started b conts _ hshort =>
      have := width_le b
      dsimp only [length_cons] at hlt
      omega
    | left =>
      dsimp only at hlt
      omega
  exact (flushAndStart_writes tokens hwf hp hout (.inl hstuck)).congr
    (stumbles_iff (absurd · hlen) (.inr (.inr ⟨hlen, by omega⟩)))

end

variable (tokens) in
lemma processText_writes (hwf : Wf state) (hp : parseByteToken token = none)
    (hout : output.length ≤ size) :
    Round size state token tokens output (processText size state token output) False := by
  have htext : textFrom parseByteToken [] (token :: tokens) =
      token ++ textFrom parseByteToken [] tokens := by
    rw [textFrom_text hp, restore_nil, nil_append]
  unfold processText
  by_cases hfit : state.pendingBytes ≠ [] ∧ output.length + state.pendingBytes.length * 3 > size
  · rw [if_pos hfit]
    exact .silent hout (.of_eq hwf id rfl)
  rw [if_neg hfit]
  -- nothing is pending after the flush
  obtain ⟨state', heq, howed, hempty, hle⟩ : ∃ state', (if state.pendingBytes ≠ [] then
      flushAsReplacement size state output else (state, output)) =
        (state', output ++ replaced state.pendingBytes.length) ∧
      owed state (token :: tokens) =
        replaced state.pendingBytes.length ++ textFrom parseByteToken [] (token :: tokens) ∧
      state'.pendingBytes = [] ∧ output.length + 3 * state.pendingBytes.length ≤ size := by
    by_cases hne : state.pendingBytes = []
    · obtain ⟨pending, e⟩ := state
      obtain rfl : pending = [] := hne
      exact ⟨⟨[], e⟩, by simp, owed_empty e _, rfl, by rw [length_nil]; omega⟩
    obtain ⟨k, hk, hflush, hfull, -⟩ := flushAsReplacement_eq size state output
    have hall : output.length + state.pendingBytes.length * 3 ≤ size := by
      by_contra h
      exact hfit ⟨hne, by omega⟩
    obtain rfl : k = state.pendingBytes.length := by
      by_contra h
      omega
    obtain ⟨-, howed⟩ := hwf.flushed hk (token :: tokens) (.inr (.inr (breaks_text hp)))
    rw [flushed_length] at hflush howed
    rw [if_pos hne, hflush]
    exact ⟨⟨[], 0⟩, rfl, howed, rfl, by omega⟩
  obtain ⟨pending, e⟩ := state'
  obtain rfl : pending = [] := hempty
  rw [heq]
  dsimp only
  by_cases hroom : (output ++ replaced state.pendingBytes.length).length + token.length > size
  · rw [if_pos hroom]
    refine ⟨false, _, _, rfl, ?_, .of_eq (.empty e) id ?_⟩
    · rw [length_append, length_replaced]
      exact hle
    · rw [howed, rest, if_neg (by decide), owed_empty]
  · rw [if_neg hroom]
    refine ⟨true, ⟨[], e⟩, replaced state.pendingBytes.length ++ token, by rw [append_assoc], ?_,
      .of_eq (.empty e) id ?_⟩
    · rw [← append_assoc, length_append]
      exact not_lt.mp hroom
    · rw [howed, rest, if_pos rfl, owed_empty, htext, append_assoc]

def TokenStumbles (size : ℕ) (state : State) (token : Token) (output : List UInt8) : Prop :=
  ∃ byte, parseByteToken token = some byte ∧ Stumbles size state byte output

instance : Decidable (TokenStumbles size state token output) :=
  inferInstanceAs (Decidable (∃ byte ∈ parseByteToken token, Stumbles size state byte output))

variable (token tokens) in
lemma processToken_writes (hwf : Wf state) (hout : output.length ≤ size) :
    Round size state token tokens output (processToken size state token output)
      (TokenStumbles size state token output) := by
  unfold processToken
  cases hp : parseByteToken token with
  | none =>
    refine (processText_writes tokens hwf hp hout).congr (iff_of_false id ?_)
    rintro ⟨byte, h, -⟩
    rw [hp] at h
    cases h
  | some byte =>
    refine (processByte_writes tokens hwf hp hout).congr ⟨fun h => ⟨byte, hp, h⟩, ?_⟩
    rintro ⟨byte', h, hs⟩
    obtain rfl : byte = byte' := Option.some.inj (hp.symm.trans h)
    exact hs

end Hrx.Tokenizer.ByteFallback
