import Hrx.Ring.Header

/-!
# Messages laid out in a ring

A message at a position is a prefix with its length and its payload, in one piece before the end of
the region.  A queue holds its messages one after another, with a skip marker over the rest of the
region wherever the next message would not fit.  What is laid out between two positions depends only
on the bytes between them.
-/

namespace Hrx.Ring

open ByteStore

structure Region where
  capacity : ℕ
  alignment : ℕ
  data : ℕ → UInt8

namespace Region

/-- The bytes of a message with its padding. -/
def size (r : Region) (payload : List UInt8) : ℕ := entrySize r.alignment payload.length

/-- A message is stored at a position, in one piece. -/
structure MessageAt (r : Region) (position : ℕ) (payload : List UInt8) : Prop where
  length_lt : payload.length < 2 ^ 62
  fits : position % r.capacity + r.size payload ≤ r.capacity
  length_eq : load32 r.data (position % r.capacity) = payload.length
  payload_eq : slice r.data (position % r.capacity + 4) payload.length = payload

/-- A message is next in the queue: it is stored here, or behind a skip marker. -/
inductive EntryAt (r : Region) : ℕ → List UInt8 → ℕ → Prop where
  | plain {position : ℕ} {payload : List UInt8} : r.MessageAt position payload →
      EntryAt r position payload (position + r.size payload)
  | skipped {position : ℕ} {payload : List UInt8} : position % r.capacity + 4 ≤ r.capacity →
      load32 r.data (position % r.capacity) = skipMarker →
      r.MessageAt (position + (r.capacity - position % r.capacity)) payload →
      EntryAt r position payload
        (position + (r.capacity - position % r.capacity) + r.size payload)

/-- The messages between two positions. -/
def Laid (r : Region) : ℕ → List (List UInt8) → ℕ → Prop
  | position, [], stop => position = stop
  | position, payload :: rest, stop => ∃ next, r.EntryAt position payload next ∧
    Laid r next rest stop

/-- Two regions agree on the bytes between two positions. -/
structure Agrees (r r' : Region) (start stop : ℕ) : Prop where
  capacity : r'.capacity = r.capacity
  alignment : r'.alignment = r.alignment
  data : ∀ p, start ≤ p → p < stop → r'.data (p % r.capacity) = r.data (p % r.capacity)

variable {r r' : Region} {position start stop : ℕ} {payload : List UInt8}
  {messages : List (List UInt8)}

lemma Agrees.mono {start' stop' : ℕ} (h : r.Agrees r' start stop) (hstart : start ≤ start')
    (hstop : stop' ≤ stop) : r.Agrees r' start' stop' :=
  ⟨h.capacity, h.alignment, fun p hp hp' => h.data p (hstart.trans hp) (hp'.trans_le hstop)⟩

/-- Agreement on positions is agreement on offsets, for a range in one piece. -/
lemma Agrees.offset {length : ℕ} (h : r.Agrees r' position (position + length))
    (hfits : position % r.capacity + length ≤ r.capacity) (i : ℕ)
    (hi : position % r.capacity ≤ i) (hi' : i < position % r.capacity + length) :
    r'.data i = r.data i := by
  obtain ⟨k, rfl⟩ := Nat.exists_eq_add_of_le hi
  have hmod : (position + k) % r.capacity = position % r.capacity + k := add_mod_of_fits (by omega)
  rw [← hmod]
  exact h.data _ (by omega) (by omega)

variable (g : Geometry r.capacity r.alignment)
include g

lemma four_add_length_le_size (h : payload.length < 2 ^ 62) : 4 + payload.length ≤ r.size payload :=
  (g.entrySize_spec h).2

lemma MessageAt.payload_le (h : r.MessageAt position payload) :
    position % r.capacity + (4 + payload.length) ≤ r.capacity :=
  (Nat.add_le_add_left (four_add_length_le_size g h.length_lt) _).trans h.fits

/-- A message that is stored is far shorter than the skip marker reads. -/
lemma MessageAt.length_lt_skipMarker (h : r.MessageAt position payload) :
    payload.length < skipMarker := by
  have hle := h.payload_le g
  have hcap := g.capacity_lt
  unfold skipMarker
  omega

lemma MessageAt.congr (h : r.MessageAt position payload)
    (ha : r.Agrees r' position (position + r.size payload)) : r'.MessageAt position payload := by
  have hle := four_add_length_le_size g h.length_lt
  have hsize : r'.size payload = r.size payload := by rw [size, size, ha.alignment]
  have hoffset := ha.offset h.fits
  refine ⟨h.length_lt, ?_, ?_, ?_⟩
  · rw [hsize, ha.capacity]
    exact h.fits
  · rw [ha.capacity, load32_congr fun i hi hi' => hoffset i hi (by omega)]
    exact h.length_eq
  · rw [ha.capacity, slice_congr fun i hi hi' => hoffset i (by omega) (by omega)]
    exact h.payload_eq

lemma EntryAt.lt {next : ℕ} (h : r.EntryAt position payload next) : position < next := by
  cases h with
  | plain hm =>
    have := four_add_length_le_size g hm.length_lt
    omega
  | skipped =>
    omega

lemma EntryAt.congr {next : ℕ} (h : r.EntryAt position payload next)
    (ha : r.Agrees r' position next) : r'.EntryAt position payload next := by
  have hsize : r'.size payload = r.size payload := by rw [size, size, ha.alignment]
  cases h with
  | plain hm =>
    rw [← hsize]
    exact .plain (hm.congr g ha)
  | skipped hroom hmarker hm =>
    have htail : r.Agrees r' position (position + 4) := ha.mono le_rfl (by omega)
    rw [← hsize, ← ha.capacity]
    refine .skipped ?_ ?_ ?_
    · rw [ha.capacity]
      exact hroom
    · rw [ha.capacity, load32_congr fun i hi hi' => htail.offset hroom i hi hi']
      exact hmarker
    · rw [ha.capacity]
      exact hm.congr g (ha.mono (by omega) le_rfl)

lemma Laid.le (h : r.Laid position messages stop) : position ≤ stop := by
  induction messages generalizing position with
  | nil => exact h.le
  | cons payload rest ih =>
    obtain ⟨next, hentry, hrest⟩ := h
    exact (hentry.lt g).le.trans (ih hrest)

/-- Between different positions there is a message. -/
lemma Laid.eq_nil_iff (h : r.Laid position messages stop) : messages = [] ↔ position = stop := by
  cases messages with
  | nil => exact iff_of_true rfl h
  | cons =>
    obtain ⟨next, hentry, hrest⟩ := h
    have hlt := hentry.lt g
    have hle := hrest.le g
    exact iff_of_false (by simp) (by omega)

lemma Laid.congr (h : r.Laid position messages stop) (ha : r.Agrees r' position stop) :
    r'.Laid position messages stop := by
  induction messages generalizing position with
  | nil => exact h
  | cons payload rest ih =>
    obtain ⟨next, hentry, hrest⟩ := h
    have hlt := hentry.lt g
    have hle := hrest.le g
    exact ⟨next, hentry.congr g (ha.mono le_rfl hle), ih hrest (ha.mono hlt.le le_rfl)⟩

omit g in
lemma Laid.concat {next : ℕ} (h : r.Laid position messages stop)
    (hentry : r.EntryAt stop payload next) : r.Laid position (messages ++ [payload]) next := by
  induction messages generalizing position with
  | nil =>
    obtain rfl : position = stop := h
    exact ⟨next, hentry, rfl⟩
  | cons first rest ih =>
    obtain ⟨mid, hfirst, hrest⟩ := h
    exact ⟨mid, hfirst, ih hrest⟩

omit g in
/-- Without a skip marker the first message is stored right here. -/
lemma Laid.messageAt (h : r.Laid position (payload :: messages) stop)
    (hmarker : load32 r.data (position % r.capacity) ≠ skipMarker) :
    r.MessageAt position payload ∧ r.Laid (position + r.size payload) messages stop := by
  obtain ⟨next, hentry, hrest⟩ := h
  cases hentry with
  | plain hm => exact ⟨hm, hrest⟩
  | skipped _ hc => exact absurd hc hmarker

/-- Past a skip marker the same messages are laid out. -/
lemma Laid.skip (h : r.Laid position messages stop) (hlt : position < stop)
    (hmarker : load32 r.data (position % r.capacity) = skipMarker) :
    r.Laid (position + (r.capacity - position % r.capacity)) messages stop := by
  cases messages with
  | nil => exact absurd h hlt.ne
  | cons =>
    obtain ⟨next, hentry, hrest⟩ := h
    cases hentry with
    | plain hm =>
      have hlt := hm.length_lt_skipMarker g
      rw [hm.length_eq] at hmarker
      omega
    | skipped _ _ hm => exact ⟨_, .plain hm, hrest⟩

/-- The first entry has room for its prefix or marker. -/
lemma Laid.room (h : r.Laid position messages stop) (hlt : position < stop) :
    position % r.capacity + 4 ≤ r.capacity := by
  cases messages with
  | nil => exact absurd h hlt.ne
  | cons =>
    obtain ⟨next, hentry, -⟩ := h
    cases hentry with
    | plain hm =>
      have hle := hm.payload_le g
      omega
    | skipped hroom => exact hroom

end Region

end Hrx.Ring
