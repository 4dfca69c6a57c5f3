import Mathlib.Data.List.Infix

/-!
# UTF-8

The sequences that encode a scalar value, by their lead byte and the continuation bytes after it
(`exists_encode_iff`).  No encoding starts in the middle of another: the bytes after the first are
continuation bytes, which lead nothing.

`restore` is the text of a string of bytes: the encodings in it as they are, and a replacement
character for each byte elsewhere.
-/

namespace Utf8

open List

/-! ### Bytes -/

def IsCont (b : UInt8) : Prop := 0x80 ≤ b.toNat ∧ b.toNat < 0xC0

instance : DecidablePred IsCont := fun _ => inferInstanceAs (Decidable (_ ∧ _))

/-- The length of the sequences that a byte leads, or 0 if it leads none. -/
def width (b : UInt8) : ℕ :=
  if b.toNat < 0x80 then 1
  else if b.toNat < 0xC0 then 0
  else if b.toNat < 0xE0 then 2
  else if b.toNat < 0xF0 then 3
  else if b.toNat < 0xF8 then 4
  else 0

/-- The bits of the value in a lead byte. -/
def leadValue (b : UInt8) : ℕ :=
  if b.toNat < 0x80 then b.toNat
  else if b.toNat < 0xE0 then b.toNat % 32
  else if b.toNat < 0xF0 then b.toNat % 16
  else b.toNat % 8

/-- The value of a sequence, from what its lead byte holds. -/
def valueFrom (v : ℕ) (conts : List UInt8) : ℕ := conts.foldl (fun v b => v * 64 + b.toNat % 64) v

/-- The least value that takes so many bytes. -/
def leastValue (n : ℕ) : ℕ :=
  if n = 2 then 0x80 else if n = 3 then 0x800 else if n = 4 then 0x10000 else 0

/-- A value that is encoded in so many bytes. -/
structure IsScalar (n v : ℕ) : Prop where
  least : leastValue n ≤ v
  le_max : v ≤ 0x10FFFF
  not_surrogate : ¬(0xD800 ≤ v ∧ v ≤ 0xDFFF)

/-- A lead byte with as many continuation bytes as it asks for. -/
structure IsSequence (b : UInt8) (conts : List UInt8) : Prop where
  width : width b = conts.length + 1
  conts : ∀ x ∈ conts, IsCont x

variable {b : UInt8} {conts rest : List UInt8} {c : Char}

lemma width_eq_zero_of_isCont (h : IsCont b) : width b = 0 := by
  rw [width, if_neg (by have := h.1; omega), if_pos h.2]

lemma width_eq_one_iff : width b = 1 ↔ b.toNat < 0x80 := by
  unfold width
  split_ifs <;> simp <;> omega

lemma width_eq_two_iff : width b = 2 ↔ 0xC0 ≤ b.toNat ∧ b.toNat < 0xE0 := by
  unfold width
  split_ifs <;> simp <;> omega

lemma width_eq_three_iff : width b = 3 ↔ 0xE0 ≤ b.toNat ∧ b.toNat < 0xF0 := by
  unfold width
  split_ifs <;> simp <;> omega

lemma width_eq_four_iff : width b = 4 ↔ 0xF0 ≤ b.toNat ∧ b.toNat < 0xF8 := by
  unfold width
  split_ifs <;> simp <;> omega

lemma width_le (b : UInt8) : width b ≤ 4 := by
  unfold width
  split_ifs <;> omega

/-! ### Encodings -/

open String (utf8EncodeChar)

lemma toNat_ofNat_of_lt {n : ℕ} (h : n < 256) : (UInt8.ofNat n).toNat = n := by
  rw [UInt8.toNat_ofNat']
  exact Nat.mod_eq_of_lt h

/-- The bytes of an encoding, by the size of its value. -/
lemma encode_eq (c : Char) : let v := c.val.toNat
    (v < 0x80 ∧ ∃ a, utf8EncodeChar c = [a] ∧ a.toNat = v) ∨
    (0x80 ≤ v ∧ v < 0x800 ∧ ∃ a x, utf8EncodeChar c = [a, x] ∧ a.toNat = v / 64 + 192 ∧
      x.toNat = v % 64 + 128) ∨
    (0x800 ≤ v ∧ v < 0x10000 ∧ ∃ a x y, utf8EncodeChar c = [a, x, y] ∧ a.toNat = v / 4096 + 224 ∧
      x.toNat = v / 64 % 64 + 128 ∧ y.toNat = v % 64 + 128) ∨
    (0x10000 ≤ v ∧ ∃ a x y z, utf8EncodeChar c = [a, x, y, z] ∧ a.toNat = v / 262144 + 240 ∧
      x.toNat = v / 4096 % 64 + 128 ∧ y.toNat = v / 64 % 64 + 128 ∧ z.toNat = v % 64 + 128) := by
  intro v
  have hmax : v < 0x110000 := by
    have : v.isValidChar := c.valid
    omega
  unfold utf8EncodeChar
  dsimp only
  split_ifs with h₁ h₂ h₃
  · refine .inl ⟨by omega, _, rfl, toNat_ofNat_of_lt (by omega)⟩
  · refine .inr (.inl ⟨by omega, by omega, _, _, rfl, ?_, toNat_ofNat_of_lt (by omega)⟩)
    rw [toNat_ofNat_of_lt (by omega)]
    omega
  · refine .inr (.inr (.inl ⟨by omega, by omega, _, _, _, rfl, ?_, toNat_ofNat_of_lt (by omega),
      toNat_ofNat_of_lt (by omega)⟩))
    rw [toNat_ofNat_of_lt (by omega)]
    omega
  · refine .inr (.inr (.inr ⟨by omega, _, _, _, _, rfl, ?_, toNat_ofNat_of_lt (by omega),
      toNat_ofNat_of_lt (by omega), toNat_ofNat_of_lt (by omega)⟩))
    rw [toNat_ofNat_of_lt (by omega)]
    omega

/-- An encoding is a sequence that has the value. -/
lemma encode_spec (c : Char) : ∃ b conts, utf8EncodeChar c = b :: conts ∧ IsSequence b conts ∧
    valueFrom (leadValue b) conts = c.val.toNat ∧ IsScalar (width b) c.val.toNat := by
  have hvalid : c.val.toNat.isValidChar := c.valid
  rcases encode_eq c with ⟨hv, a, he, ha⟩ | ⟨hlo, hv, a, x, he, ha, hx⟩ |
    ⟨hlo, hv, a, x, y, he, ha, hx, hy⟩ | ⟨hlo, a, x, y, z, he, ha, hx, hy, hz⟩
  · have hw := width_eq_one_iff.mpr (show a.toNat < 0x80 by omega)
    refine ⟨a, [], he, ⟨hw, by simp⟩, ?_, ⟨by rw [hw]; exact Nat.zero_le _, by omega, by omega⟩⟩
    unfold valueFrom leadValue
    rw [if_pos (by omega)]
    exact ha
  · have hw := width_eq_two_iff.mpr (show 0xC0 ≤ a.toNat ∧ a.toNat < 0xE0 by omega)
    refine ⟨a, [x], he, ⟨hw, ?_⟩, ?_, ⟨by rw [hw]; exact hlo, by omega, by omega⟩⟩
    · simp only [mem_singleton, forall_eq, IsCont]
      omega
    · simp only [valueFrom, leadValue, foldl_cons, foldl_nil]
      split_ifs <;> omega
  · have hw := width_eq_three_iff.mpr (show 0xE0 ≤ a.toNat ∧ a.toNat < 0xF0 by omega)
    refine ⟨a, [x, y], he, ⟨hw, ?_⟩, ?_, ⟨by rw [hw]; exact hlo, by omega, by omega⟩⟩
    · simp only [mem_cons, not_mem_nil, or_false, forall_eq_or_imp, forall_eq, IsCont]
      omega
    · simp only [valueFrom, leadValue, foldl_cons, foldl_nil]
      split_ifs <;> omega
  · have hw := width_eq_four_iff.mpr (show 0xF0 ≤ a.toNat ∧ a.toNat < 0xF8 by omega)
    refine ⟨a, [x, y, z], he, ⟨hw, ?_⟩, ?_, ⟨by rw [hw]; exact hlo, by omega, by omega⟩⟩
    · simp only [mem_cons, not_mem_nil, or_false, forall_eq_or_imp, forall_eq, IsCont]
      omega
    · simp only [valueFrom, leadValue, foldl_cons, foldl_nil]
      split_ifs <;> omega

def bytes (chars : List Char) : List UInt8 := chars.flatMap utf8EncodeChar

@[simp] lemma bytes_nil : bytes [] = [] := rfl

@[simp] lemma bytes_cons (c : Char) (chars : List Char) :
    bytes (c :: chars) = utf8EncodeChar c ++ bytes chars := rfl

@[simp] lemma bytes_append (chars chars' : List Char) :
    bytes (chars ++ chars') = bytes chars ++ bytes chars' := flatMap_append ..

lemma length_le_bytes (chars : List Char) : chars.length ≤ (bytes chars).length := by
  induction chars with
  | nil => exact Nat.le_refl 0
  | cons c =>
    obtain ⟨b, conts, he, -⟩ := encode_spec c
    rw [bytes_cons, he, length_append, length_cons, length_cons]
    omega

/-- A sequence whose value takes as many bytes is the encoding of its value. -/
lemma encode_of_isScalar (h : IsSequence b conts)
    (hs : IsScalar (width b) (valueFrom (leadValue b) conts))
    (hc : c.val.toNat = valueFrom (leadValue b) conts) : utf8EncodeChar c = b :: conts := by
  have hlen : conts.length < 4 := by
    have := h.width
    have := width_le b
    omega
  have hw := h.width
  have hcont := h.conts
  have hleast := hs.least
  rw [← hc] at hleast
  have heq := encode_eq c
  -- the range of the value leaves one length, and the bytes are its digits
  match conts, hlen with
  | [], _ =>
    have hb := width_eq_one_iff.mp hw
    simp only [valueFrom, leadValue, foldl_nil, if_pos hb] at hc
    obtain ⟨-, a, he, ha⟩ := heq.resolve_right (by omega)
    rw [he, UInt8.toNat_inj.mp (ha.trans hc)]
  | [x], _ =>
    obtain ⟨hlo, hhi⟩ := width_eq_two_iff.mp hw
    obtain ⟨hx, hx'⟩ := hcont x (by simp)
    simp only [valueFrom, leadValue, foldl_cons, foldl_nil] at hc
    rw [if_neg (by omega), if_pos hhi] at hc
    rw [hw] at hleast
    replace hleast : 0x80 ≤ c.val.toNat := hleast
    obtain ⟨-, -, a, x', he, ha, hx''⟩ := (heq.resolve_left (by omega)).resolve_right (by omega)
    rw [he, show a = b from UInt8.toNat_inj.mp (by omega),
      show x' = x from UInt8.toNat_inj.mp (by omega)]
  | [x, y], _ =>
    obtain ⟨hlo, hhi⟩ := width_eq_three_iff.mp hw
    obtain ⟨hx, hx'⟩ := hcont x (by simp)
    obtain ⟨hy, hy'⟩ := hcont y (by simp)
    simp only [valueFrom, leadValue, foldl_cons, foldl_nil] at hc
    rw [if_neg (by omega), if_neg (by omega), if_pos hhi] at hc
    rw [hw] at hleast
    replace hleast : 0x800 ≤ c.val.toNat := hleast
    obtain ⟨-, -, a, x', y', he, ha, hx'', hy''⟩ :=
      ((heq.resolve_left (by omega)).resolve_left (by omega)).resolve_right (by omega)
    rw [he, show a = b from UInt8.toNat_inj.mp (by omega),
      show x' = x from UInt8.toNat_inj.mp (by omega),
      show y' = y from UInt8.toNat_inj.mp (by omega)]
  | [x, y, z], _ =>
    obtain ⟨hlo, hhi⟩ := width_eq_four_iff.mp hw
    obtain ⟨hx, hx'⟩ := hcont x (by simp)
    obtain ⟨hy, hy'⟩ := hcont y (by simp)
    obtain ⟨hz, hz'⟩ := hcont z (by simp)
    simp only [valueFrom, leadValue, foldl_cons, foldl_nil] at hc
    rw [if_neg (by omega), if_neg (by omega), if_neg (by omega)] at hc
    rw [hw] at hleast
    replace hleast : 0x10000 ≤ c.val.toNat := hleast
    obtain ⟨-, a, x', y', z', he, ha, hx'', hy'', hz''⟩ :=
      ((heq.resolve_left (by omega)).resolve_left (by omega)).resolve_left (by omega)
    rw [he, show a = b from UInt8.toNat_inj.mp (by omega),
      show x' = x from UInt8.toNat_inj.mp (by omega),
      show y' = y from UInt8.toNat_inj.mp (by omega),
      show z' = z from UInt8.toNat_inj.mp (by omega)]

/-- A sequence encodes a scalar value if its value takes as many bytes. -/
theorem exists_encode_iff (h : IsSequence b conts) :
    (∃ c, utf8EncodeChar c = b :: conts) ↔ IsScalar (width b) (valueFrom (leadValue b) conts) := by
  constructor
  · rintro ⟨c, hc⟩
    obtain ⟨b', conts', he, -, hv, hs⟩ := encode_spec c
    obtain ⟨rfl, rfl⟩ := List.cons.inj (hc.symm.trans he)
    rwa [hv]
  · intro hs
    have hvalid : (valueFrom (leadValue b) conts).isValidChar := by
      have := hs.le_max
      have := hs.not_surrogate
      omega
    refine ⟨Char.ofNatAux _ hvalid, encode_of_isScalar h hs ?_⟩
    exact UInt32.toNat_ofNatLT ..

/-- An encoding at the start of some bytes. -/
lemma exists_of_encode_isPrefix (h : utf8EncodeChar c <+: b :: rest) :
    ∃ conts tail, rest = conts ++ tail ∧ utf8EncodeChar c = b :: conts ∧ IsSequence b conts := by
  obtain ⟨tail, htail⟩ := h
  obtain ⟨b', conts, he, hseq, -⟩ := encode_spec c
  rw [he, cons_append] at htail
  cases htail
  exact ⟨conts, tail, rfl, he, hseq⟩

lemma encode_injective {c' : Char} (h : utf8EncodeChar c = utf8EncodeChar c') : c = c' := by
  obtain ⟨b, conts, he, -, hv, -⟩ := encode_spec c
  obtain ⟨b', conts', he', -, hv', -⟩ := encode_spec c'
  obtain ⟨rfl, rfl⟩ := List.cons.inj (he.symm.trans (h.trans he'))
  exact Char.ext (UInt32.toNat_inj.mp (hv.symm.trans hv'))

/-- Some bytes start with at most one encoding. -/
lemma encode_isPrefix_unique {c' : Char} {bytes : List UInt8} (h : utf8EncodeChar c <+: bytes)
    (h' : utf8EncodeChar c' <+: bytes) : c = c' := by
  cases bytes with
  | nil =>
    obtain ⟨b, conts, he, -⟩ := encode_spec c
    rw [he, prefix_nil] at h
    cases h
  | cons =>
    obtain ⟨conts, tail, hrest, he, hseq⟩ := exists_of_encode_isPrefix h
    obtain ⟨conts', tail', hrest', he', hseq'⟩ := exists_of_encode_isPrefix h'
    have hlen : conts.length = conts'.length := by
      have := hseq.width.symm.trans hseq'.width
      omega
    apply encode_injective
    rw [he, he', (append_inj (hrest.symm.trans hrest') hlen).1]

/-! ### The text of a string of bytes -/

def replacement : List UInt8 := [0xEF, 0xBF, 0xBD]

def replaced (n : ℕ) : List UInt8 := (List.replicate n replacement).flatten

@[simp] lemma replaced_zero : replaced 0 = [] := rfl

lemma replaced_succ (n : ℕ) : replaced (n + 1) = replacement ++ replaced n := rfl

lemma replaced_add (m n : ℕ) : replaced (m + n) = replaced m ++ replaced n := by
  rw [replaced, replicate_add, flatten_append]
  rfl

@[simp] lemma length_replaced (n : ℕ) : (replaced n).length = 3 * n := by
  induction n with
  | zero => rfl
  | succ n ih =>
    rw [replaced_succ, length_append, ih, show replacement.length = 3 from rfl]
    omega

/-- The encodings in some bytes as they are, and a replacement character for each byte elsewhere. -/
noncomputable def restore : List UInt8 → List UInt8
  | [] => []
  | b :: rest =>
    haveI := Classical.propDecidable
    if h : ∃ c, utf8EncodeChar c <+: b :: rest then
      utf8EncodeChar h.choose ++ restore (rest.drop ((utf8EncodeChar h.choose).length - 1))
    else replacement ++ restore rest
termination_by bytes => bytes.length
decreasing_by
  · simp only [length_drop, length_cons]
    omega
  · simp

@[simp] lemma restore_nil : restore [] = [] := by rw [restore.eq_def]

lemma restore_of_not (h : ¬∃ c, utf8EncodeChar c <+: b :: rest) :
    restore (b :: rest) = replacement ++ restore rest := by
  rw [restore.eq_def]
  exact dif_neg h

@[simp] lemma restore_encode_append (c : Char) (rest : List UInt8) :
    restore (utf8EncodeChar c ++ rest) = utf8EncodeChar c ++ restore rest := by
  obtain ⟨b, conts, he, -⟩ := encode_spec c
  have h : ∃ c, utf8EncodeChar c <+: b :: (conts ++ rest) := ⟨c, rest, by rw [he]; rfl⟩
  have hc : h.choose = c := encode_isPrefix_unique h.choose_spec ⟨rest, by rw [he]; rfl⟩
  rw [he, cons_append, restore.eq_def]
  refine (dif_pos h).trans ?_
  rw [hc, he]
  simp

/-- A byte that leads no sequence is replaced. -/
lemma restore_of_width_eq_zero (h : width b = 0) (rest : List UInt8) :
    restore (b :: rest) = replacement ++ restore rest := by
  apply restore_of_not
  rintro ⟨c, hc⟩
  obtain ⟨conts, -, -, -, hseq⟩ := exists_of_encode_isPrefix hc
  have := hseq.width
  omega

lemma restore_conts (h : ∀ x ∈ conts, IsCont x) (rest : List UInt8) :
    restore (conts ++ rest) = replaced conts.length ++ restore rest := by
  induction conts with
  | nil => rfl
  | cons b conts ih =>
    rw [cons_append, restore_of_width_eq_zero (width_eq_zero_of_isCont (h b (mem_cons_self ..))),
      ih fun x hx => h x (mem_cons_of_mem _ hx), length_cons, replaced_succ, append_assoc]

/-- A byte below 0x80 encodes itself. -/
lemma restore_ascii (h : width b = 1) (rest : List UInt8) :
    restore (b :: rest) = b :: restore rest := by
  have hlt := width_eq_one_iff.mp h
  have hseq : IsSequence b [] := ⟨h, by simp⟩
  have hs : IsScalar (width b) (valueFrom (leadValue b) []) := by
    rw [h]
    simp only [valueFrom, leadValue, foldl_nil, if_pos hlt]
    exact ⟨Nat.zero_le _, by omega, by omega⟩
  obtain ⟨c, hc⟩ := (exists_encode_iff hseq).mpr hs
  have := restore_encode_append c rest
  rwa [hc] at this

/-- The bytes of a sequence that encodes nothing are replaced. -/
lemma restore_invalid (h : IsSequence b conts)
    (hs : ¬IsScalar (width b) (valueFrom (leadValue b) conts)) (rest : List UInt8) :
    restore (b :: conts ++ rest) = replaced (conts.length + 1) ++ restore rest := by
  rw [cons_append, restore_of_not, restore_conts h.conts, replaced_succ, append_assoc]
  rintro ⟨c, hc⟩
  obtain ⟨conts', tail, hrest, he, hseq⟩ := exists_of_encode_isPrefix hc
  have hlen : conts.length = conts'.length := by
    have := h.width.symm.trans hseq.width
    omega
  obtain ⟨rfl, -⟩ := append_inj hrest hlen
  exact hs ((exists_encode_iff h).mp ⟨c, he⟩)

/-- Bytes that do not continue a sequence are restored on their own. -/
lemma restore_append (bytes : List UInt8) (h : ∀ x ∈ rest.head?, ¬IsCont x) :
    restore (bytes ++ rest) = restore bytes ++ restore rest := by
  induction hn : bytes.length using Nat.strong_induction_on generalizing bytes with
  | _ n ih =>
    cases bytes with
    | nil => rw [restore_nil, nil_append, nil_append]
    | cons b bytes =>
      by_cases hc : ∃ c, utf8EncodeChar c <+: b :: bytes
      · obtain ⟨c, tail, htail⟩ := hc
        obtain ⟨x, conts, he, -⟩ := encode_spec c
        have hlt : tail.length < n := by
          rw [← hn, ← htail, he, length_append, length_cons]
          omega
        rw [← htail, append_assoc, restore_encode_append, restore_encode_append, ih _ hlt tail rfl,
          append_assoc]
      · rw [restore_of_not hc, cons_append, restore_of_not, ih _ _ bytes rfl, append_assoc]
        · rw [← hn]
          exact Nat.lt_succ_self _
        -- an encoding would have to end in the bytes that follow
        rintro ⟨c, hpre⟩
        obtain ⟨conts, tail, hsplit, he, hseq⟩ := exists_of_encode_isPrefix hpre
        rcases append_eq_append_iff.mp hsplit with ⟨mid, hconts, hrest⟩ | ⟨mid, hbytes, -⟩
        · cases mid with
          | nil =>
            rw [append_nil] at hconts
            exact hc ⟨c, [], by rw [he, hconts, append_nil]⟩
          | cons x =>
            refine h x ?_ (hseq.conts x ?_)
            · rw [hrest]
              rfl
            · rw [hconts]
              simp
        · exact hc ⟨c, mid, by rw [he, hbytes]; rfl⟩

/-- A sequence that is cut short is replaced. -/
lemma restore_short (hconts : ∀ x ∈ conts, IsCont x) (hlen : conts.length + 1 < width b)
    (h : ∀ x ∈ rest.head?, ¬IsCont x) :
    restore (b :: conts ++ rest) = replaced (conts.length + 1) ++ restore rest := by
  have hnot : ¬∃ c, utf8EncodeChar c <+: b :: conts := by
    rintro ⟨c, hc⟩
    obtain ⟨conts', tail, hsplit, -, hseq⟩ := exists_of_encode_isPrefix hc
    have := hseq.width
    have := congrArg List.length hsplit
    rw [length_append] at this
    omega
  have hself := restore_conts hconts []
  rw [append_nil, restore_nil, append_nil] at hself
  rw [restore_append _ h, restore_of_not hnot, hself, replaced_succ]

end Utf8
