import Hrx.Tokenizer.WordPiece.Basic
import Hrx.Base.Equiv.Unicode
import Hrx.Lib.LongestMatch
import Mathlib.Data.List.GetD

/-!
# The tokens of one segment

On the bytes of a text the loops of `tokenize_segment` stay on character boundaries: the ends that
are tried are those of the beginnings of what is left, from the longest on (`findLongestMatch_eq`).
A piece takes at least one character, so a word within the limit never has more pieces than the
buffer has room for (`tokenizeFrom_spec`).
-/

namespace Hrx.Tokenizer.WordPiece

open List LongestMatch Unicode Utf8

open String (utf8EncodeChar)

/-! ### Characters -/

lemma utf8CharLength_eq : ∀ {b : UInt8}, width b ≠ 0 → utf8CharLength b = width b :=
  @(forall_byte (by decide +kernel))

lemma countCharsFrom_eq (done rest : List Char) {fuel : ℕ}
    (hfuel : rest.length ≤ fuel) (count : ℕ) :
    countCharsFrom (bytes (done ++ rest)) fuel (bytes done).length count = count + rest.length := by
  induction rest generalizing done fuel count with
  | nil =>
    rw [append_nil]
    cases fuel with
    | zero => rfl
    | succ =>
      rw [countCharsFrom, if_neg (Nat.lt_irrefl _)]
      rfl
  | cons c rest ih =>
    obtain ⟨fuel, rfl⟩ : ∃ k, fuel = k + 1 := ⟨fuel - 1, by rw [length_cons] at hfuel; omega⟩
    obtain ⟨b, conts, he, hseq, -⟩ := encode_spec c
    have hlen : (bytes (done ++ [c])).length = (bytes done).length + utf8CharLength b := by
      rw [utf8CharLength_eq (by rw [hseq.width]; omega), hseq.width, bytes_append, length_append]
      simp [he]
    have hget : (bytes (done ++ c :: rest)).getD (bytes done).length 0 = b := by
      rw [bytes_append, getD_append_right _ _ _ _ le_rfl, Nat.sub_self, bytes_cons, he]
      rfl
    have hlt : (bytes done).length < (bytes (done ++ c :: rest)).length := by
      simp [he]
    rw [countCharsFrom, if_pos hlt, hget, ← hlen, append_cons,
      ih _ (by rw [length_cons] at hfuel; omega), length_cons]
    omega

lemma skipBack_eq {front conts tail : List UInt8} {b : UInt8} (hb : ¬ IsCont b)
    (hconts : ∀ x ∈ conts, IsCont x) {i : ℕ} (hi : i ≤ conts.length) :
    skipBack (front ++ b :: (conts ++ tail)) (front.length + i) = front.length := by
  induction i with
  | zero =>
    cases hfront : front.length with
    | zero => rfl
    | succ p =>
      have hget : (front ++ b :: (conts ++ tail)).getD (p + 1) 0 = b := by
        rw [← hfront, getD_append_right _ _ _ _ le_rfl, Nat.sub_self]
        rfl
      rw [skipBack, hget, if_neg (by rwa [cont_iff])]
  | succ i ih =>
    have hget : (front ++ b :: (conts ++ tail)).getD (front.length + i + 1) 0 =
        conts.get ⟨i, hi⟩ := by
      rw [getD_append_right _ _ _ _ (by omega),
        show front.length + i + 1 - front.length = i + 1 by omega, getD_cons_succ,
        getD_append _ _ _ _ hi, getD_eq_getElem _ _ hi]
      rfl
    show skipBack _ (front.length + i + 1) = _
    rw [skipBack, hget, if_pos ((cont_iff _).mpr (hconts _ (get_mem conts ⟨i, hi⟩)))]
    exact ih (Nat.le_of_succ_le hi)

/-- The end moves back by one character. -/
lemma prevChar_bytes (front rest : List Char) (c : Char) :
    prevChar (bytes (front ++ c :: rest)) (bytes (front ++ [c])).length = (bytes front).length := by
  obtain ⟨b, conts, he, hseq, -⟩ := encode_spec c
  have hb : ¬ IsCont b := fun h => by
    have := width_eq_zero_of_isCont h
    have := hseq.width
    omega
  have hdata : bytes (front ++ c :: rest) = bytes front ++ b :: (conts ++ bytes rest) := by
    rw [bytes_append, bytes_cons, he, cons_append]
  have hend : (bytes (front ++ [c])).length - 1 = (bytes front).length + conts.length := by
    rw [bytes_append, bytes_cons, he]
    simp
  rw [prevChar, hdata, hend]
  exact skipBack_eq hb hseq.conts le_rfl

/-! ### Matches -/

namespace Model

variable (model : Model)

/-- The vocabulary entry of a piece, with the prefix for all but the first. -/
def find (continuing : Bool) (piece : List Char) : Option TokenId :=
  let tokenId := model.vocab.lookup
    ((if continuing then model.continuingSubwordPrefix else []) ++ bytes piece)
  if tokenId = tokenIdInvalid then none else some tokenId

def ShortTokens : Prop := ∀ text, model.vocab.lookup text ≠ tokenIdInvalid →
    text.length ≤ maxLookupBytes

variable {model}

lemma candidate_bytes (model : Model) (front piece rest : List Char) :
    model.candidate (bytes (front ++ (piece ++ rest))) (bytes front).length
      (bytes (front ++ piece)).length =
        (if !front.isEmpty then model.continuingSubwordPrefix else []) ++ bytes piece := by
  have hpos : 0 < (bytes front).length ↔ front ≠ [] := by
    constructor
    · rintro h rfl
      exact absurd h (Nat.lt_irrefl 0)
    · intro h
      exact (length_pos_iff.mpr h).trans_le (length_le_bytes front)
  unfold candidate
  congr 1
  · cases front with
    | nil => rfl
    | cons =>
      rw [if_pos (hpos.mpr (cons_ne_nil _ _))]
      rfl
  · rw [bytes_append, bytes_append, drop_left, bytes_append, length_append,
      Nat.add_sub_cancel_left, take_left]

/-- The ends that are tried are those of the beginnings of the rest. -/
lemma findFrom_eq (hshort : model.ShortTokens) (front rest : List Char) {n fuel : ℕ}
    (hn : n ≤ rest.length) (hfuel : n ≤ fuel) :
    model.findFrom (bytes (front ++ rest)) (bytes front).length fuel
        (bytes (front ++ rest.take n)).length =
      match longestUpTo (model.find (!front.isEmpty)) rest n with
      | none => (tokenIdInvalid, 0)
      | some (m, tokenId) => (tokenId, (bytes (front ++ rest.take m)).length) := by
  induction n generalizing fuel with
  | zero =>
    cases fuel with
    | zero => rfl
    | succ =>
      rw [findFrom, take_zero, append_nil, if_neg (Nat.lt_irrefl _)]
      rfl
  | succ n ih =>
    obtain ⟨fuel, rfl⟩ : ∃ k, fuel = k + 1 := ⟨fuel - 1, by omega⟩
    obtain ⟨text, htext⟩ : ∃ text, text =
        (if !front.isEmpty then model.continuingSubwordPrefix else []) ++
          bytes (rest.take (n + 1)) :=
      ⟨_, rfl⟩
    have hcand : model.candidate (bytes (front ++ rest)) (bytes front).length
        (bytes (front ++ rest.take (n + 1))).length = text := by
      have h := candidate_bytes model front (rest.take (n + 1)) (rest.drop (n + 1))
      rwa [take_append_drop, ← htext] at h
    have hlookup : (if text.length ≤ maxLookupBytes then model.vocab.lookup text
      else tokenIdInvalid) =
        model.vocab.lookup text := by
      split_ifs with hlen
      · rfl
      · by_contra hne
        exact hlen (hshort text (Ne.symm hne))
    have hlt : (bytes front).length < (bytes (front ++ rest.take (n + 1))).length := by
      rw [bytes_append, length_append]
      have hpos := length_le_bytes (rest.take (n + 1))
      rw [length_take_of_le hn] at hpos
      omega
    rw [findFrom, if_pos hlt, hcand, longestUpTo]
    dsimp only
    rw [hlookup]
    unfold find
    rw [← htext]
    by_cases hfound : model.vocab.lookup text = tokenIdInvalid
    · rw [if_neg (not_not.mpr hfound), if_pos hfound]
      have hback : prevChar (bytes (front ++ rest)) (bytes (front ++ rest.take (n + 1))).length =
          (bytes (front ++ rest.take n)).length := by
        have hsplit : front ++ rest =
            (front ++ rest.take n) ++ rest.get ⟨n, hn⟩ :: rest.drop (n + 1) := by
          rw [append_assoc, get_eq_getElem, ← drop_eq_getElem_cons hn, take_append_drop]
        have htake : front ++ rest.take (n + 1) = front ++ rest.take n ++ [rest.get ⟨n, hn⟩] := by
          rw [append_assoc, take_succ_eq_append_getElem hn]
          rfl
        rw [hsplit, htake]
        exact prevChar_bytes _ _ _
      rw [hback, ih (Nat.le_of_succ_le hn) (by omega)]
      rfl
    · rw [if_pos hfound, if_neg hfound]

theorem findLongestMatch_eq (hshort : model.ShortTokens) (front rest : List Char) :
    model.findLongestMatch (bytes (front ++ rest)) (bytes front).length =
      match longest (model.find (!front.isEmpty)) rest with
      | none => (tokenIdInvalid, 0)
      | some (m, tokenId) => (tokenId, (bytes (front ++ rest.take m)).length) := by
  have hfuel : rest.length ≤ (bytes (front ++ rest)).length := by
    have := length_le_bytes (front ++ rest)
    rw [length_append] at this
    omega
  have h := findFrom_eq hshort front rest le_rfl hfuel
  rw [take_length] at h
  exact h

lemma find_ne_invalid {continuing : Bool} {piece : List Char} {tokenId : TokenId}
    (h : model.find continuing piece = some tokenId) : tokenId ≠ tokenIdInvalid := by
  unfold find at h
  by_cases hfound : model.vocab.lookup
      ((if continuing then model.continuingSubwordPrefix else []) ++ bytes piece) = tokenIdInvalid
  · rw [if_pos hfound] at h
    cases h
  · rw [if_neg hfound] at h
    cases h
    exact hfound

end Model

/-! ### Segments -/

/-- The tokens of pieces that follow each other from a position on. -/
def layout (start : ℕ) : List (List Char × TokenId) → List Token
  | [] => []
  | (piece, tokenId) :: pieces =>
    ⟨tokenId, start, start + (bytes piece).length⟩ :: layout (start + (bytes piece).length) pieces

@[simp] lemma length_layout (start : ℕ) (pieces : List (List Char × TokenId)) :
    (layout start pieces).length = pieces.length := by
  induction pieces generalizing start with
  | nil => rfl
  | cons piece pieces ih => rw [layout, length_cons, length_cons, ih]

namespace Model

variable {model : Model}

/-- What the loop of `tokenize_segment` leaves in the buffer. -/
structure Tokenized (model : Model) (pending pending' : ℕ → Token) (count count' : ℕ)
    (tokens : Option (List Token)) : Prop where
  kept : ∀ i < count, pending' i = pending i
  /-- Nothing is written behind the buffer. -/
  within : ∀ i, model.maxInputCharsPerWord ≤ i → pending' i = pending i
  bad : tokens = none → count' = 0
  count_eq : ∀ list, tokens = some list → count' = count + list.length
  written : ∀ list, tokens = some list → ∀ i token, list[i]? = some token →
    pending' (count + i) = token

namespace Tokenized

variable {pending pending' : ℕ → Token} {count count' : ℕ} {tokens : Option (List Token)}

lemma refl (pending : ℕ → Token) (count : ℕ) :
    model.Tokenized pending pending count count (some []) where
  kept _ _ := rfl
  within _ _ := rfl
  bad h := by cases h
  count_eq list h := by
    cases h
    rfl
  written list h i token hi := by
    cases h
    cases hi

lemma stuck (pending : ℕ → Token) (count : ℕ) : model.Tokenized pending pending count 0 none where
  kept _ _ := rfl
  within _ _ := rfl
  bad _ := rfl
  count_eq list h := by cases h
  written list h := by cases h

/-- One more token is stored before the others. -/
lemma cons {token : Token}
    (h : model.Tokenized (Function.update pending count token) pending' (count + 1) count' tokens)
    (hlt : count < model.maxInputCharsPerWord) :
    model.Tokenized pending pending' count count' (tokens.map (token :: ·)) where
  kept i hi := by rw [h.kept i (Nat.lt_succ_of_lt hi), Function.update_of_ne (by omega)]
  within i hi := by rw [h.within i hi, Function.update_of_ne (by omega)]
  bad hnone := h.bad (Option.map_eq_none_iff.mp hnone)
  count_eq list hlist := by
    obtain ⟨rest, hrest, rfl⟩ := Option.map_eq_some_iff.mp hlist
    rw [h.count_eq rest hrest, length_cons]
    omega
  written list hlist i t hi := by
    obtain ⟨rest, hrest, rfl⟩ := Option.map_eq_some_iff.mp hlist
    cases i with
    | zero =>
      cases hi
      rw [Nat.add_zero, h.kept count (Nat.lt_succ_self _), Function.update_self]
    | succ i =>
      rw [← h.written rest hrest i t hi]
      congr 1
      omega

end Tokenized

/-- The loop takes the greedy pieces of what is left. -/
theorem tokenizeFrom_spec (hshort : model.ShortTokens) (start fuel count : ℕ)
    (front rest : List Char)
    (pending : ℕ → Token) (hfuel : rest.length ≤ fuel)
    (hroom : count + rest.length ≤ model.maxInputCharsPerWord) :
    ∃ pending' count', model.tokenizeFrom (bytes (front ++ rest)) start fuel pending
        (bytes front).length count = (pending', count') ∧
      model.Tokenized pending pending' count count'
        ((greedy (model.find (!front.isEmpty)) (model.find true) rest).map
          (layout (start + (bytes front).length))) := by
  induction fuel generalizing front rest pending count with
  | zero =>
    obtain rfl := eq_nil_of_length_eq_zero (Nat.le_zero.mp hfuel)
    exact ⟨pending, count, rfl, .refl pending count⟩
  | succ fuel ih =>
    by_cases hrest : rest = []
    · subst hrest
      refine ⟨pending, count, ?_, .refl pending count⟩
      rw [append_nil, tokenizeFrom, if_neg (Nat.lt_irrefl _)]
    have hlen := length_pos_iff.mpr hrest
    have hlt : (bytes front).length < (bytes (front ++ rest)).length := by
      have := length_le_bytes rest
      rw [bytes_append, length_append]
      omega
    rw [tokenizeFrom, if_pos hlt, findLongestMatch_eq hshort, greedy_of_ne_nil hrest]
    cases hlongest : longest (model.find (!front.isEmpty)) rest with
    | none => exact ⟨pending, 0, rfl, .stuck pending count⟩
    | some found =>
      obtain ⟨m, tokenId⟩ := found
      obtain ⟨hpos, hle, hfind, -⟩ := longest_eq_some hlongest
      have hsplit : front ++ rest = (front ++ rest.take m) ++ rest.drop m := by
        rw [append_assoc, take_append_drop]
      have hcont : (!(front ++ rest.take m).isEmpty) = true := by
        rw [Bool.not_eq_true', isEmpty_eq_false_iff]
        intro hnil
        have := congrArg List.length hnil
        rw [length_append, length_take_of_le hle, length_nil] at this
        omega
      have hstart : start + (bytes (front ++ rest.take m)).length =
          start + (bytes front).length + (bytes (rest.take m)).length := by
        rw [bytes_append, length_append, Nat.add_assoc]
      obtain ⟨pending', count', hrun, hspec⟩ := ih (count + 1) (front ++ rest.take m) (rest.drop m)
        (Function.update pending count
          ⟨tokenId, start + (bytes front).length, start + (bytes (front ++ rest.take m)).length⟩)
        (by rw [length_drop]; omega) (by rw [length_drop]; omega)
      rw [← hsplit] at hrun
      rw [hcont, hstart] at hspec
      refine ⟨pending', count', ?_, ?_⟩
      · dsimp only
        rw [if_neg (find_ne_invalid hfind), if_neg (by omega)]
        exact hrun
      · have hdone := hspec.cons (by omega)
        rw [Option.map_map] at hdone ⊢
        exact hdone

end Model

/-- A segment with the text in it. -/
structure Word where
  segment : Segment
  chars : List Char

/-- The segment is as long as the text. -/
def Word.Fits (word : Word) : Prop :=
  word.segment.stop = word.segment.start + (bytes word.chars).length

namespace Model

variable (model : Model)

def unkToken (word : Word) : Token := ⟨model.unkTokenId, word.segment.start, word.segment.stop⟩

/-- The tokens of a word: nothing for an empty one, the unknown token for one that is too long or
has a rest without a match, and otherwise its greedy pieces. -/
def wordTokens (word : Word) : List Token :=
  if word.chars = [] then []
  else if model.maxInputCharsPerWord < word.chars.length then [model.unkToken word]
  else
    match greedy (model.find false) (model.find true) word.chars with
    | none => [model.unkToken word]
    | some pieces => layout word.segment.start pieces

variable {model}

structure Precomputed (model : Model) (word : Word) (pending pending' : ℕ → Token) (count : ℕ) :
    Prop where
  within : ∀ i, model.maxInputCharsPerWord ≤ i → pending' i = pending i
  count_le : count ≤ model.maxInputCharsPerWord
  bad : count = 0 → model.wordTokens word = if word.chars = [] then [] else [model.unkToken word]
  tokens : 0 < count → model.wordTokens word = (List.range count).map pending'

lemma tokenizeSegment_spec (hshort : model.ShortTokens) (word : Word) (pending : ℕ → Token) :
    ∃ pending' count,
      model.tokenizeSegment pending (bytes word.chars) word.segment.start = (pending', count) ∧
        model.Precomputed word pending pending' count := by
  have hempty : (bytes word.chars).length = 0 ↔ word.chars = [] := by
    constructor
    · intro h
      exact eq_nil_of_length_eq_zero (Nat.le_zero.mp (h ▸ length_le_bytes word.chars))
    · intro h
      rw [h]
      rfl
  have hwithin : ∀ i, model.maxInputCharsPerWord ≤ i → pending i = pending i := fun _ _ => rfl
  have hcount := countCharsFrom_eq [] word.chars (length_le_bytes word.chars) 0
  rw [nil_append, Nat.zero_add] at hcount
  unfold tokenizeSegment countChars
  rw [show countCharsFrom _ _ 0 0 = _ from hcount]
  split_ifs with hzero hlong
  · refine ⟨pending, 0, rfl, hwithin, Nat.zero_le _, fun _ => ?_, fun h => absurd h (by simp)⟩
    rw [wordTokens, if_pos (hempty.mp hzero), if_pos (hempty.mp hzero)]
  · have hne : word.chars ≠ [] := fun h => hzero (hempty.mpr h)
    refine ⟨pending, 0, rfl, hwithin, Nat.zero_le _, fun _ => ?_, fun h => absurd h (by simp)⟩
    rw [wordTokens, if_neg hne, if_neg hne, if_pos hlong]
  have hne : word.chars ≠ [] := fun h => hzero (hempty.mpr h)
  obtain ⟨pending', count, hrun, hspec⟩ := tokenizeFrom_spec hshort word.segment.start
    (bytes word.chars).length 0 [] word.chars pending (length_le_bytes _) (by omega)
  rw [isEmpty_nil, Bool.not_true, bytes_nil, length_nil, Nat.add_zero] at hspec
  cases hgreedy : greedy (model.find false) (model.find true) word.chars with
  | none =>
    rw [hgreedy] at hspec
    obtain rfl := hspec.bad rfl
    refine ⟨pending', 0, hrun, hspec.within, Nat.zero_le _, fun _ => ?_,
      fun h => absurd h (by simp)⟩
    rw [wordTokens, if_neg hne, if_neg hne, if_neg hlong, hgreedy]
  | some pieces =>
    have hlen := length_greedy_le hgreedy
    have hpieces : pieces ≠ [] := by
      rintro rfl
      exact hne (flatten_greedy hgreedy).1.symm
    rw [hgreedy] at hspec
    have hcount := hspec.count_eq _ rfl
    rw [length_layout, Nat.zero_add] at hcount
    refine ⟨pending', count, hrun, hspec.within, by omega, fun h => ?_, fun _ => ?_⟩
    · exact absurd (eq_nil_of_length_eq_zero (hcount ▸ h)) hpieces
    rw [wordTokens, if_neg hne, if_neg hlong, hgreedy]
    apply ext_getElem
    · rw [length_layout, length_map, length_range, hcount]
    · intro i hi _
      rw [getElem_map, getElem_range,
        ← hspec.written _ rfl i _ (List.getElem?_eq_getElem hi), Nat.zero_add]

end Model

end Hrx.Tokenizer.WordPiece
