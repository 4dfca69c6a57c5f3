import Hrx.Ring.Layout
import Hrx.Ring.Mpsc

/-!
# Reservations in a ring

The reservations of an MPSC queue follow each other without a gap, from position 0 to the reserve
position.  Those the consumer has not passed lie less than a ring apart, so that different positions
among them are different bytes; what one of them stores depends only on the bytes of its own range.
-/

namespace Hrx.Ring

open ByteStore

/-! ### Length prefixes -/

section prefixWords

variable {length : ℕ}

lemma or_cancelBit (h : length < 2 ^ 31) : length ||| cancelBit = 2 ^ 31 + length := by
  have hor := Nat.two_pow_add_eq_or_of_lt h 1
  rw [Nat.mul_one] at hor
  rw [hor, Nat.or_comm]
  rfl

lemma and_cancelBit_of_lt (h : length < 2 ^ 31) : length &&& cancelBit = 0 := by
  show length &&& 2 ^ 31 = 0
  apply Nat.eq_of_testBit_eq
  intro i
  rw [Nat.testBit_and, Nat.testBit_two_pow, Nat.zero_testBit]
  by_cases hi : 31 = i
  · rw [← hi, Nat.testBit_lt_two_pow h, Bool.false_and]
  · rw [decide_eq_false hi, Bool.and_false]

lemma or_cancelBit_and_cancelBit : (length ||| cancelBit) &&& cancelBit ≠ 0 := by
  intro hzero
  have hbit : ((length ||| 2 ^ 31) &&& 2 ^ 31).testBit 31 = false := by
    rw [show (length ||| 2 ^ 31) &&& 2 ^ 31 = 0 from hzero, Nat.zero_testBit]
  rw [Nat.testBit_and, Nat.testBit_or, Nat.testBit_two_pow_self, Bool.or_true] at hbit
  exact absurd hbit (by decide)

/-- The length of a cancelled entry is what its prefix holds below the cancel bit. -/
lemma or_cancelBit_and_max (h : length < 2 ^ 31) :
    (length ||| cancelBit) &&& maxPayloadLength = length := by
  rw [or_cancelBit h]
  show (2 ^ 31 + length) &&& (2 ^ 31 - 1) = length
  rw [Nat.and_two_pow_sub_one_eq_mod, Nat.add_mod_left, Nat.mod_eq_of_lt h]

end prefixWords

/-! ### One reservation -/

namespace Reservation

/-- The shape that `begin_write` gives a reservation. -/
structure Shaped (capacity alignment : ℕ) (r : Reservation) : Prop where
  length_pos : 0 < r.length
  length_le : r.length ≤ maxPayloadLength
  size_eq : r.size = entrySize alignment r.length
  aligned : 4 ∣ r.start
  fits : r.position % capacity + r.size ≤ capacity
  skip_eq : 0 < r.skip → r.start % capacity + r.skip = capacity

structure SameRange (r r' : Reservation) : Prop where
  start : r'.start = r.start
  skip : r'.skip = r.skip
  length : r'.length = r.length
  size : r'.size = r.size

/-- What a live reservation keeps in the ring.  Before its marker is stored, the consumer finds zero
there and waits. -/
structure Stored (region : Region) (cleared : ℕ) (r : Reservation) : Prop where
  marker : cleared ≤ r.start → 0 < r.skip →
    load32 region.data (r.start % region.capacity) = if r.marked then skipMarker else 0
  unmarked : r.marked = false → cleared ≤ r.start ∧ r.state = .uncommitted
  word : load32 region.data (r.position % region.capacity) = r.entryState
  payload_eq : slice region.data (r.position % region.capacity + 4) r.length = r.payload

variable {r r' : Reservation} {region region' : Region} {capacity alignment cleared : ℕ}

lemma SameRange.position (h : SameRange r r') : r'.position = r.position := by
  rw [Reservation.position, Reservation.position, h.start, h.skip]

lemma SameRange.stop (h : SameRange r r') : r'.stop = r.stop := by
  rw [Reservation.stop, Reservation.stop, h.start, h.skip, h.size]

lemma Shaped.of_sameRange (h : Shaped capacity alignment r) (hsame : SameRange r r') :
    Shaped capacity alignment r' := by
  obtain ⟨hpos, hle, hsize, haligned, hfits, hskip⟩ := h
  constructor
  · rwa [hsame.length]
  · rwa [hsame.length]
  · rwa [hsame.size, hsame.length]
  · rwa [hsame.start]
  · rwa [hsame.position, hsame.size]
  · rwa [hsame.skip, hsame.start]

lemma start_le_position (r : Reservation) : r.start ≤ r.position := Nat.le_add_right _ _

lemma position_le_stop (r : Reservation) : r.position ≤ r.stop := Nat.le_add_right _ _

section geometry

variable (g : Geometry capacity alignment) (h : Shaped capacity alignment r)
include g h

lemma Shaped.size_spec : 4 ∣ r.size ∧ 4 + r.length ≤ r.size := by
  have hle := h.length_le
  rw [h.size_eq]
  apply g.entrySize_spec
  unfold maxPayloadLength at hle
  omega

/-- An entry of the ring is shorter than the ring, so no prefix reads as the skip marker. -/
lemma Shaped.length_add_four_le : r.length + 4 ≤ 2 ^ 31 := by
  have hsize := (h.size_spec g).2
  have hfits := h.fits
  have hcap := g.capacity_lt
  omega

lemma Shaped.four_le_skip (hskip : 0 < r.skip) : 4 ≤ r.skip := by
  have htail := g.four_le_tail h.aligned
  have heq := h.skip_eq hskip
  omega

lemma Shaped.four_dvd_stop : 4 ∣ r.stop := by
  have hsize := (h.size_spec g).1
  have hstart := h.aligned
  have hskip : 4 ∣ r.skip := by
    rcases Nat.eq_zero_or_pos r.skip with h0 | hpos
    · rw [h0]
      exact Nat.dvd_zero 4
    have heq := h.skip_eq hpos
    have hmod : 4 ∣ r.start % capacity := (Nat.dvd_mod_iff g.four_dvd_capacity).mpr hstart
    apply (Nat.dvd_add_right hmod).mp
    rw [heq]
    exact g.four_dvd_capacity
  exact Nat.dvd_add (Nat.dvd_add hstart hskip) hsize

/-- The value of the prefix tells the states apart. -/
lemma Shaped.entryState_eq_zero_iff : r.entryState = 0 ↔ r.state = .uncommitted := by
  have hpos := h.length_pos
  have hlt := h.length_add_four_le g
  unfold entryState
  cases hs : r.state with
  | uncommitted => simp
  | committed => simp; omega
  | cancelled =>
    rw [or_cancelBit (by omega)]
    simp

lemma Shaped.entryState_lt : r.entryState < skipMarker := by
  have hlt := h.length_add_four_le g
  unfold entryState skipMarker
  cases hs : r.state with
  | uncommitted | committed => dsimp only; omega
  | cancelled =>
    dsimp only
    rw [or_cancelBit (by omega)]
    omega

end geometry

variable (g : Geometry region.capacity region.alignment)
include g

lemma Shaped.marker_congr (h : Shaped region.capacity region.alignment r)
    (ha : region.Agrees region' r.start (r.start + 4)) :
    load32 region'.data (r.start % region'.capacity) =
      load32 region.data (r.start % region.capacity) := by
  rw [ha.capacity]
  exact load32_congr fun i hi hi' => ha.offset (g.four_le_tail h.aligned) i hi hi'

lemma Shaped.entry_congr (h : Shaped region.capacity region.alignment r)
    (ha : region.Agrees region' r.position r.stop) :
    load32 region'.data (r.position % region'.capacity) =
        load32 region.data (r.position % region.capacity) ∧
      slice region'.data (r.position % region'.capacity + 4) r.length =
        slice region.data (r.position % region.capacity + 4) r.length := by
  have hsize := (h.size_spec g).2
  have hentry : region.Agrees region' r.position (r.position + r.size) := ha
  have hoffset := hentry.offset h.fits
  rw [ha.capacity]
  constructor
  · exact load32_congr fun i hi hi' => hoffset i hi (by omega)
  · exact slice_congr fun i hi hi' => hoffset i (by omega) (by omega)

/-- What a reservation stores stays while the consumer's clearing has not come past its skip, and
the rest of its range keeps its bytes. -/
lemma Stored.advance {cleared' : ℕ} (h : Shaped region.capacity region.alignment r)
    (hs : Stored region cleared r) (hle : cleared ≤ cleared') (hposition : cleared' ≤ r.position)
    (hmarked : r.marked = false → cleared' ≤ r.start)
    (ha : region.Agrees region' (max cleared' r.start) r.stop) : Stored region' cleared' r := by
  obtain ⟨hword, hpayload⟩ :=
    h.entry_congr g (ha.mono (max_le hposition r.start_le_position) le_rfl)
  refine ⟨?_, ?_, hword.trans hs.word, hpayload.trans hs.payload_eq⟩
  · intro hstart hskip
    have hfour := h.four_le_skip g hskip
    have hmark : region.Agrees region' r.start (r.start + 4) := by
      apply ha.mono (max_le hstart le_rfl)
      unfold stop
      omega
    exact (h.marker_congr g hmark).trans (hs.marker (hle.trans hstart) hskip)
  · intro hm
    exact ⟨hmarked hm, (hs.unmarked hm).2⟩

end Reservation

/-! ### All reservations -/

/-- Where the reservation of this number starts; past the last one, the reserve position. -/
def startAt (reservations : List Reservation) (reservePosition k : ℕ) : ℕ :=
  (reservations[k]?.map Reservation.start).getD reservePosition

/-- The reservations follow each other up to the reserve position. -/
structure Tiled (capacity alignment : ℕ) (reservations : List Reservation) (reservePosition : ℕ) :
    Prop where
  shaped : ∀ (k : ℕ) (r : Reservation), reservations[k]? = some r → r.Shaped capacity alignment
  next : ∀ (k : ℕ) (r : Reservation), reservations[k]? = some r →
    startAt reservations reservePosition (k + 1) = r.stop
  aligned : 4 ∣ reservePosition

variable {capacity alignment reserve j k : ℕ} {rs : List Reservation} {r r' : Reservation}

lemma startAt_of_some (h : rs[k]? = some r) : startAt rs reserve k = r.start := by
  rw [startAt, h]
  rfl

lemma startAt_of_le (h : rs.length ≤ k) : startAt rs reserve k = reserve := by
  rw [startAt, List.getElem?_eq_none h]
  rfl

lemma Tiled.nil : Tiled capacity alignment [] 0 := by
  refine ⟨?_, ?_, Nat.dvd_zero 4⟩
  · intro k r h
    simp at h
  · intro k r h
    simp at h

section

variable (h : Tiled capacity alignment rs reserve)
include h

lemma Tiled.monotone : Monotone (startAt rs reserve) := by
  apply monotone_nat_of_le_succ
  intro k
  cases hk : rs[k]? with
  | none =>
    have hlen := List.getElem?_eq_none_iff.mp hk
    rw [startAt_of_le hlen, startAt_of_le (by omega)]
  | some r =>
    rw [startAt_of_some hk, h.next k r hk]
    exact r.start_le_position.trans r.position_le_stop

lemma Tiled.stop_le_startAt (hj : rs[j]? = some r) (hlt : j < k) :
    r.stop ≤ startAt rs reserve k := by
  rw [← h.next j r hj]
  exact h.monotone hlt

lemma Tiled.stop_le_start (hj : rs[j]? = some r) (hk : rs[k]? = some r') (hlt : j < k) :
    r.stop ≤ r'.start := by
  have hle := h.stop_le_startAt hj hlt
  rwa [startAt_of_some hk] at hle

lemma Tiled.stop_le_reserve (hj : rs[j]? = some r) : r.stop ≤ reserve := by
  have hlt : j < rs.length := (List.getElem?_eq_some_iff.mp hj).1
  have hle := h.stop_le_startAt hj hlt
  rwa [startAt_of_le le_rfl] at hle

lemma Tiled.startAt_le_reserve (k : ℕ) : startAt rs reserve k ≤ reserve := by
  have hle := h.monotone (le_max_left k rs.length)
  rwa [startAt_of_le (le_max_right k rs.length)] at hle

end

lemma startAt_concat {stop : ℕ} (hstart : r.start = reserve) (hk : k ≤ rs.length) :
    startAt (rs ++ [r]) stop k = startAt rs reserve k := by
  rcases Nat.lt_or_eq_of_le hk with hlt | rfl
  · rw [startAt, startAt, List.getElem?_append_left hlt, List.getElem?_eq_getElem hlt]
    rfl
  · rw [startAt_of_le le_rfl, startAt_of_some List.getElem?_concat_length, hstart]

/-- A new reservation starts at the reserve position and moves it to its end. -/
lemma Tiled.concat (g : Geometry capacity alignment) (h : Tiled capacity alignment rs reserve)
    (hr : r.Shaped capacity alignment) (hstart : r.start = reserve) :
    Tiled capacity alignment (rs ++ [r]) r.stop := by
  refine ⟨?_, ?_, hr.four_dvd_stop g⟩
  · intro k r' hk
    rcases List.mem_append.mp (List.mem_of_getElem? hk) with hmem | hmem
    · obtain ⟨i, hi⟩ := List.mem_iff_getElem?.mp hmem
      exact h.shaped i r' hi
    · obtain rfl := List.mem_singleton.mp hmem
      exact hr
  · intro k r' hk
    have hlt : k < (rs ++ [r]).length := (List.getElem?_eq_some_iff.mp hk).1
    rw [List.length_append, List.length_singleton] at hlt
    rcases Nat.lt_or_eq_of_le (Nat.le_of_lt_succ hlt) with hlt' | rfl
    · rw [List.getElem?_append_left hlt'] at hk
      rw [startAt_concat hstart hlt']
      exact h.next k r' hk
    · rw [List.getElem?_concat_length] at hk
      cases hk
      exact startAt_of_le (by simp)

/-- What a producer notes about its entry moves no range. -/
lemma Tiled.modify {f : Reservation → Reservation} (h : Tiled capacity alignment rs reserve)
    (hf : ∀ r : Reservation, r.SameRange (f r)) :
    Tiled capacity alignment (rs.modify j f) reserve := by
  have hget : ∀ (k : ℕ) (r' : Reservation), (rs.modify j f)[k]? = some r' →
      ∃ r : Reservation, rs[k]? = some r ∧ r.SameRange r' := by
    intro k r' hk
    rw [List.getElem?_modify] at hk
    obtain ⟨r, hr, heq⟩ := Option.map_eq_some_iff.mp hk
    refine ⟨r, hr, ?_⟩
    split_ifs at heq with hj
    · exact heq ▸ hf r
    · exact heq ▸ ⟨rfl, rfl, rfl, rfl⟩
  have hstart : ∀ k, startAt (rs.modify j f) reserve k = startAt rs reserve k := by
    intro k
    unfold startAt
    rw [List.getElem?_modify]
    cases rs[k]? with
    | none => rfl
    | some r =>
      by_cases hj : j = k
      · simp [hj, (hf r).start]
      · simp [hj]
  refine ⟨?_, ?_, h.aligned⟩
  · intro k r' hk
    obtain ⟨r, hr, hsame⟩ := hget k r' hk
    exact (h.shaped k r hr).of_sameRange hsame
  · intro k r' hk
    obtain ⟨r, hr, hsame⟩ := hget k r' hk
    rw [hstart, h.next k r hr, hsame.stop]

end Hrx.Ring
