import Hrx.Ring.Equiv.Reservations

/-!
# The MPSC ring delivers committed messages in reservation order

The invariant ties the bytes of the ring to the list of reservations: those not yet passed by the
consumer lie between the cleared position and the reserve position and store what their producer did
with them, and every other byte is zero.  A producer writes only inside the range of its own
reservation, which stays uncommitted until its last store; the consumer clears only what it passes.

* `Inv.update`: a producer's write inside its own range.
* `Inv.claim`: a successful exchange.
* `Inv.clear`: the consumer zeroes what it passes.
* `mpsc_reachable_delivers`: what holds in every reachable state.
-/

namespace Hrx.Ring

open ByteStore Function List

namespace Mpsc

def region (q : Mpsc) : Region := ⟨q.capacity, q.entryAlignment, q.data⟩

/-- A length that passed the checks of `begin_write`. -/
structure Sized (q : Mpsc) (length : ℕ) : Prop where
  pos : 0 < length
  le : length ≤ maxPayloadLength
  fits : entrySize q.entryAlignment length ≤ q.capacity

end Mpsc

namespace MpscSystem

variable {θ : Type}

/-! ### The invariant -/

/-- The reservation that a producer may still write. -/
def ticket : MpscProducerPc → Option ℕ
  | .markSkip _ _ k => some k
  | .reserved _ _ k => some k
  | _ => none

def ProducerAsserts (q : Mpsc) (rs : List Reservation) : MpscProducerPc → Prop
  | .idle => True
  | .refused => True
  | .loadRead length => q.Sized length
  | .loadReserve length readPos => q.Sized length ∧ readPos ≤ q.readPosition
  -- a stale read position only makes the ring look fuller
  | .exchange length reservePos => q.Sized length ∧
    reservePos + q.totalNeeded length reservePos ≤ q.readPosition + q.capacity
  | .markSkip length reservePos k => ∃ r, rs[k]? = some r ∧ r.start = reservePos ∧
    r.length = length ∧ r.state = .uncommitted ∧ r.marked = false ∧ 0 < r.skip
  | .reserved offset length k => ∃ r, rs[k]? = some r ∧ offset = r.position % q.capacity ∧
    r.length = length ∧ r.state = .uncommitted ∧ r.marked = true

/-- The consumer was handed the payload of this entry. -/
structure Handed (q : Mpsc) (cleared offset length : ℕ) (r : Reservation) : Prop where
  state : r.state = .committed
  cleared_eq : cleared = r.position
  offset_eq : offset = r.position % q.capacity + 4
  length_eq : length = r.length

def ConsumerAsserts (q : Mpsc) (oldest : Option Reservation) (cleared : ℕ) : MpscConsumerPc → Prop
  | .idle => cleared = q.readPosition
  | .peek => cleared = q.readPosition
  | .peekReserve readPos => readPos = cleared ∧ cleared = q.readPosition
  | .peekLoop readPos reservePos _ => readPos = cleared ∧ cleared = q.readPosition ∧
    reservePos ≤ q.reservePosition
  | .skipClear readPos reservePos _ => readPos = cleared ∧ cleared = q.readPosition ∧
    reservePos ≤ q.reservePosition ∧
    ∃ r, oldest = some r ∧ cleared = r.start ∧ 0 < r.skip ∧ r.marked = true
  | .cancelClear readPos reservePos total _ => readPos = cleared ∧
    cleared = q.readPosition ∧ reservePos ≤ q.reservePosition ∧
    ∃ r, oldest = some r ∧ cleared = r.position ∧ r.state = .cancelled ∧ total = r.size
  | .peekStore readPos reservePos _ => readPos = cleared ∧ reservePos ≤ q.reservePosition
  | .empty => cleared = q.readPosition
  | .peeked offset length => cleared = q.readPosition ∧
    ∃ r, oldest = some r ∧ Handed q cleared offset length r
  | .consume offset length => cleared = q.readPosition ∧
    ∃ r, oldest = some r ∧ Handed q cleared offset length r
  | .consumeLoad offset length readPos => readPos = cleared ∧ cleared = q.readPosition ∧
    ∃ r, oldest = some r ∧ Handed q cleared offset length r
  | .consumeClear offset length readPos total => readPos = cleared ∧ cleared = q.readPosition ∧
    ∃ r, oldest = some r ∧ Handed q cleared offset length r ∧ total = r.size
  | .consumeStore readPos => readPos = cleared

structure Inv (s : MpscSystem θ) : Prop where
  geometry : Geometry s.queue.capacity s.queue.entryAlignment
  tiled : Tiled s.queue.capacity s.queue.entryAlignment s.reservations s.queue.reservePosition
  read_le : s.queue.readPosition ≤ s.clearedPosition
  room : s.queue.reservePosition ≤ s.queue.readPosition + s.queue.capacity
  cleared_eq : s.clearedPosition = startAt s.reservations s.queue.reservePosition s.released ∨
    ∃ r, s.oldest = some r ∧ s.clearedPosition = r.position
  stored : ∀ (k : ℕ) (r : Reservation), s.released ≤ k → s.reservations[k]? = some r →
    r.Stored s.queue.region s.clearedPosition
  zero : ∀ p, s.queue.reservePosition ≤ p → p < s.clearedPosition + s.queue.capacity →
    s.queue.data (p % s.queue.capacity) = 0
  released_le : s.released ≤ s.reservations.length
  resolved : ∀ (k : ℕ) (r : Reservation), k < s.released → s.reservations[k]? = some r →
    r.state ≠ .uncommitted
  received : s.received = (s.reservations.take s.released).filterMap Reservation.delivered
  producers : ∀ t, ProducerAsserts s.queue s.reservations (s.producers t)
  distinct : ∀ t t' k, ticket (s.producers t) = some k → ticket (s.producers t') = some k → t = t'
  consumer : ConsumerAsserts s.queue s.oldest s.clearedPosition s.consumer

variable {s : MpscSystem θ}

lemma Init.inv (h : Init s) : s.Inv := by
  obtain ⟨⟨header, memorySize, hok, hcap, halign⟩, hdata, hreserve, hread, hproducers, hconsumer,
    hrs, hreleased, hcleared, hreceived⟩ := h
  constructor
  · rw [hcap, halign]
    exact geometry_of_validateHeader hok
  · rw [hrs, hreserve]
    exact Tiled.nil
  · omega
  · omega
  · left
    rw [hcleared, hrs, hreserve]
    rfl
  · intro k r _ hk
    simp [hrs] at hk
  · intro p _ _
    exact hdata _
  · omega
  · intro k r hk
    omega
  · rw [hreceived, hrs]
    simp
  · intro t
    rw [hproducers t]
    trivial
  · intro t t' k hk
    rw [hproducers t] at hk
    cases hk
  · rw [hconsumer]
    show s.clearedPosition = s.queue.readPosition
    omega

/-! ### Where live reservations lie -/

section live

variable {k : ℕ} {r : Reservation}

lemma Inv.cleared_le_reserve (hi : s.Inv) : s.clearedPosition ≤ s.queue.reservePosition := by
  rcases hi.cleared_eq with h | ⟨r, hr, h⟩
  · rw [h]
    exact hi.tiled.startAt_le_reserve _
  · rw [h]
    exact r.position_le_stop.trans (hi.tiled.stop_le_reserve hr)

/-- The consumer's clearing has not come past the skip of a live reservation. -/
lemma Inv.cleared_le_position (hi : s.Inv) (hle : s.released ≤ k)
    (hk : s.reservations[k]? = some r) : s.clearedPosition ≤ r.position := by
  have hmono := hi.tiled.monotone hle
  rw [startAt_of_some hk] at hmono
  rcases hi.cleared_eq with h | ⟨r', hr', h⟩
  · rw [h]
    exact hmono.trans r.start_le_position
  rcases Nat.lt_or_eq_of_le hle with hlt | rfl
  · rw [h]
    exact r'.position_le_stop.trans ((hi.tiled.stop_le_start hr' hk hlt).trans r.start_le_position)
  · rw [oldest, hk] at hr'
    cases hr'
    exact h.le

variable (hi : s.Inv) (hk : s.reservations[k]? = some r)
include hi hk

/-- The live reservations lie within one ring of the cleared position. -/
lemma Inv.stop_le_window : r.stop ≤ s.clearedPosition + s.queue.capacity := by
  have h1 := hi.tiled.stop_le_reserve hk
  have h2 := hi.room
  have h3 := hi.read_le
  omega

lemma Inv.live_of_uncommitted (hstate : r.state = .uncommitted) : s.released ≤ k := by
  by_contra hc
  exact hi.resolved k r (not_le.mp hc) hk hstate

/-- A range inside a live reservation is apart from the window's positions outside it. -/
lemma Inv.apart {p q size : ℕ} (hp : s.clearedPosition ≤ p)
    (hp' : p < s.clearedPosition + s.queue.capacity)
    (hout : p < r.start ∨ r.stop ≤ p) (hq : s.clearedPosition ≤ q) (hstart : r.start ≤ q)
    (hstop : q + size ≤ r.stop) (hfits : q % s.queue.capacity + size ≤ s.queue.capacity) :
    p % s.queue.capacity < q % s.queue.capacity ∨
      q % s.queue.capacity + size ≤ p % s.queue.capacity := by
  have hwindow := hi.stop_le_window hk
  apply not_mem_of_apart hp hp' hq (by omega) hfits
  omega

end live

/-! ### What stays when others move -/

/-- What becomes of a reservation when its producer works on it. -/
structure Evolves (r r' : Reservation) : Prop where
  range : r.SameRange r'
  marked : r.marked = true → r'.marked = true
  settled : r.state ≠ .uncommitted → r' = r

lemma Evolves.refl (r : Reservation) : Evolves r r := ⟨⟨rfl, rfl, rfl, rfl⟩, id, fun _ => rfl⟩

/-- A producer works on its own uncommitted reservation. -/
lemma modify_evolves {rs : List Reservation} {f : Reservation → Reservation} {j k : ℕ}
    {r r' : Reservation} (hk : rs[k]? = some r') (hstate : r'.state = .uncommitted)
    (hrange : r'.SameRange (f r')) (hmarked : r'.marked = true → (f r').marked = true)
    (hj : rs[j]? = some r) : ∃ o, (rs.modify k f)[j]? = some o ∧ Evolves r o := by
  by_cases hjk : k = j
  · subst hjk
    obtain rfl := Option.some.inj (hk.symm.trans hj)
    rw [List.getElem?_modify_eq, hk]
    exact ⟨f r', rfl, hrange, hmarked, fun hne => absurd hstate hne⟩
  · rw [List.getElem?_modify_ne _ _ hjk]
    exact ⟨r, hj, Evolves.refl r⟩

variable {o o' : Option Reservation} {q q' : Mpsc}

/-- The consumer's knowledge survives the producers' steps: they touch only uncommitted entries. -/
lemma ConsumerAsserts.evolve {cleared : ℕ} {pc : MpscConsumerPc}
    (h : ConsumerAsserts q o cleared pc) (hcap : q'.capacity = q.capacity)
    (hread : q'.readPosition = q.readPosition) (hreserve : q.reservePosition ≤ q'.reservePosition)
    (ho : ∀ r, o = some r → ∃ r', o' = some r' ∧ Evolves r r') :
    ConsumerAsserts q' o' cleared pc := by
  have hhanded : ∀ {offset length : ℕ} {r : Reservation}, o = some r →
      Handed q cleared offset length r → o' = some r ∧ Handed q' cleared offset length r := by
    intro offset length r hr hh
    obtain ⟨r', hr', he⟩ := ho r hr
    obtain rfl := he.settled (by rw [hh.state]; decide)
    refine ⟨hr', hh.state, hh.cleared_eq, ?_, hh.length_eq⟩
    rw [hcap]
    exact hh.offset_eq
  cases pc with
  | idle | peek | empty => exact h.trans hread.symm
  | peekReserve => exact ⟨h.1, h.2.trans hread.symm⟩
  | peekLoop =>
    obtain ⟨h1, h2, h3⟩ := h
    exact ⟨h1, h2.trans hread.symm, h3.trans hreserve⟩
  | skipClear =>
    obtain ⟨h1, h2, h3, r, hr, hstart, hskip, hmarked⟩ := h
    obtain ⟨r', hr', he⟩ := ho r hr
    refine ⟨h1, h2.trans hread.symm, h3.trans hreserve, r', hr', ?_, ?_, he.marked hmarked⟩
    · rw [he.range.start]
      exact hstart
    · rw [he.range.skip]
      exact hskip
  | cancelClear =>
    obtain ⟨h1, h2, h3, r, hr, hposition, hstate, htotal⟩ := h
    obtain ⟨r', hr', he⟩ := ho r hr
    obtain rfl := he.settled (by rw [hstate]; decide)
    exact ⟨h1, h2.trans hread.symm, h3.trans hreserve, _, hr', hposition, hstate, htotal⟩
  | peekStore => exact ⟨h.1, h.2.trans hreserve⟩
  | peeked | consume =>
    obtain ⟨h1, r, hr, hh⟩ := h
    exact ⟨h1.trans hread.symm, r, hhanded hr hh⟩
  | consumeLoad =>
    obtain ⟨h1, h2, r, hr, hh⟩ := h
    exact ⟨h1, h2.trans hread.symm, r, hhanded hr hh⟩
  | consumeClear =>
    obtain ⟨h1, h2, r, hr, hh, htotal⟩ := h
    obtain ⟨hr', hh'⟩ := hhanded hr hh
    exact ⟨h1, h2.trans hread.symm, r, hr', hh', htotal⟩
  | consumeStore => exact h

/-- A producer's knowledge depends on its own reservation and on positions that only grow. -/
lemma ProducerAsserts.mono {rs rs' : List Reservation} {pc : MpscProducerPc}
    (h : ProducerAsserts q rs pc) (hcap : q'.capacity = q.capacity)
    (halign : q'.entryAlignment = q.entryAlignment) (hread : q.readPosition ≤ q'.readPosition)
    (hrs : ∀ k, ticket pc = some k → ∀ r, rs[k]? = some r → rs'[k]? = some r) :
    ProducerAsserts q' rs' pc := by
  have hsized : ∀ {length : ℕ}, q.Sized length → q'.Sized length := by
    intro length hl
    refine ⟨hl.pos, hl.le, ?_⟩
    rw [halign, hcap]
    exact hl.fits
  cases pc with
  | idle | refused => trivial
  | loadRead => exact hsized h
  | loadReserve => exact ⟨hsized h.1, h.2.trans hread⟩
  | exchange =>
    refine ⟨hsized h.1, ?_⟩
    have hle := h.2
    unfold Mpsc.totalNeeded at hle ⊢
    rw [hcap, halign]
    omega
  | markSkip length reservePos k =>
    obtain ⟨r, hr, hrest⟩ := h
    exact ⟨r, hrs k rfl r hr, hrest⟩
  | reserved offset length k =>
    obtain ⟨r, hr, hoffset, hrest⟩ := h
    refine ⟨r, hrs k rfl r hr, ?_, hrest⟩
    rw [hcap]
    exact hoffset

/-! ### Producers -/

section producers

variable [DecidableEq θ] {t : θ} {pc : MpscProducerPc} {k length offset : ℕ} {r : Reservation}
  (hi : s.Inv)
include hi

omit [DecidableEq θ] in
lemma Inv.producer_of (hpc : s.producers t = pc) : ProducerAsserts s.queue s.reservations pc :=
  hpc ▸ hi.producers t

/-- Tickets stay distinct when a producer keeps or drops its own. -/
lemma Inv.distinct_update (hticket : ∀ k, ticket pc = some k → ticket (s.producers t) = some k)
    (t₁ t₂ : θ) (k : ℕ)
    (h₁ : ticket (update s.producers t pc t₁) = some k)
    (h₂ : ticket (update s.producers t pc t₂) = some k) : t₁ = t₂ := by
  have hback : ∀ t', ticket (update s.producers t pc t') = some k →
      ticket (s.producers t') = some k := by
    intro t' h
    by_cases ht : t' = t
    · subst ht
      rw [update_self] at h
      exact hticket k h
    · rwa [update_of_ne ht] at h
  exact hi.distinct t₁ t₂ k (hback t₁ h₁) (hback t₂ h₂)

omit hi in
lemma goto_self (s : MpscSystem θ) (t : θ) : s.goto t (s.producers t) = s := by
  rw [goto, update_eq_self]

/-- A producer moves without touching shared memory. -/
lemma Inv.goto (hpc : ProducerAsserts s.queue s.reservations pc)
    (hticket : ∀ k, ticket pc = some k → ticket (s.producers t) = some k) : (s.goto t pc).Inv := by
  refine { hi with producers := ?_, distinct := hi.distinct_update hticket }
  apply (forall_update_iff _ fun _ => ProducerAsserts s.queue s.reservations).mpr
  exact ⟨hpc, fun t' _ => hi.producers t'⟩

/-- A producer writes inside the range of its own uncommitted reservation. -/
theorem Inv.update {f : Reservation → Reservation} {data : ℕ → UInt8}
    (howner : ticket (s.producers t) = some k) (hk : s.reservations[k]? = some r)
    (hstate : r.state = .uncommitted) (hrange : ∀ r : Reservation, r.SameRange (f r))
    (hmarked : r.marked = true → (f r).marked = true)
    (hagree : ∀ p, s.clearedPosition ≤ p → p < s.clearedPosition + s.queue.capacity →
      (p < r.start ∨ r.stop ≤ p) → data (p % s.queue.capacity) =
      s.queue.data (p % s.queue.capacity))
    (hstored : (f r).Stored (s.write data).queue.region s.clearedPosition)
    (hpc : ProducerAsserts s.queue (s.reservations.modify k f) pc)
    (hticket : ∀ j, ticket pc = some j → j = k) : (((s.write data).note k f).goto t pc).Inv := by
  have hlive := hi.live_of_uncommitted hk hstate
  have hget : ∀ j, j ≠ k → (s.reservations.modify k f)[j]? = s.reservations[j]? := by
    intro j hj
    rw [List.getElem?_modify_ne _ _ hj.symm]
  have hgetk : (s.reservations.modify k f)[k]? = some (f r) := by
    rw [List.getElem?_modify_eq, hk]
    rfl
  have holdest : ∀ o, s.oldest = some o →
      ∃ o', (s.reservations.modify k f)[s.released]? = some o' ∧ Evolves o o' := fun _ ho =>
    modify_evolves hk hstate (hrange r) hmarked ho
  refine ⟨hi.geometry, hi.tiled.modify hrange, hi.read_le, hi.room, ?_, ?_, ?_, ?_, ?_,
    ?_, ?_, ?_, ?_⟩
  · -- the cleared position is that of the same reservation
    rcases hi.cleared_eq with h | ⟨o, ho, h⟩
    · left
      apply h.trans
      cases hr : s.reservations[s.released]? with
      | none =>
        have hlen := List.getElem?_eq_none_iff.mp hr
        have hlen' : (s.reservations.modify k f).length ≤ s.released := by
          rwa [length_modify]
        rw [startAt_of_le hlen]
        exact (startAt_of_le hlen').symm
      | some o =>
        obtain ⟨o', ho', he⟩ := holdest o hr
        rw [startAt_of_some hr]
        exact (he.range.start).symm.trans (startAt_of_some ho').symm
    · obtain ⟨o', ho', he⟩ := holdest o ho
      exact .inr ⟨o', ho', h.trans he.range.position.symm⟩
  · intro j r' hj hr'
    replace hr' : (s.reservations.modify k f)[j]? = some r' := hr'
    by_cases hjk : j = k
    · subst hjk
      rw [hgetk] at hr'
      cases hr'
      exact hstored
    rw [hget j hjk] at hr'
    have hold := hi.stored j r' hj hr'
    have hstart := hi.cleared_le_position hj hr'
    apply hold.advance hi.geometry (hi.tiled.shaped j r' hr') le_rfl hstart
      (fun hm => (hold.unmarked hm).1)
    refine ⟨rfl, rfl, fun p hp hp' => ?_⟩
    have hwindow := hi.stop_le_window hr'
    apply hagree p (by omega) (by omega)
    rcases Nat.lt_or_gt_of_ne hjk with hlt | hgt
    · have := hi.tiled.stop_le_start hr' hk hlt
      omega
    · have := hi.tiled.stop_le_start hk hr' hgt
      omega
  · intro p hp hp'
    have hle := hi.tiled.stop_le_reserve hk
    have hcleared := hi.cleared_le_reserve
    replace hp : s.queue.reservePosition ≤ p := hp
    exact (hagree p (by omega) hp' (by omega)).trans (hi.zero p hp hp')
  · show s.released ≤ (s.reservations.modify k f).length
    rw [length_modify]
    exact hi.released_le
  · intro j r' hj hr'
    replace hr' : (s.reservations.modify k f)[j]? = some r' := hr'
    replace hj : j < s.released := hj
    rw [hget j (by omega)] at hr'
    exact hi.resolved j r' hj hr'
  · show s.received = ((s.reservations.modify k f).take s.released).filterMap Reservation.delivered
    rw [hi.received]
    congr 1
    apply ext_getElem?
    intro j
    rw [List.getElem?_take, List.getElem?_take]
    split_ifs with hj
    · rw [hget j (by omega)]
    · rfl
  · refine (forall_update_iff _ fun _ => ProducerAsserts _ (s.reservations.modify k f)).mpr
      ⟨hpc.mono rfl rfl le_rfl fun _ _ _ h => h, fun t' ht => ?_⟩
    refine (hi.producers t').mono rfl rfl le_rfl fun j hj r' hr' => ?_
    rw [hget j]
    · exact hr'
    · rintro rfl
      exact ht (hi.distinct t' t j hj howner)
  · apply hi.distinct_update
    intro j hj
    rw [hticket j hj]
    exact howner
  · exact hi.consumer.evolve rfl rfl le_rfl holdest

omit [DecidableEq θ] in
/-- A write inside the entry of a live reservation leaves the rest of the window and the marker. -/
lemma Inv.entry_write {q size : ℕ} (data : ℕ → UInt8) (hlive : s.released ≤ k)
    (hk : s.reservations[k]? = some r) (hq : r.position ≤ q) (hstop : q + size ≤ r.stop)
    (hfits : q % s.queue.capacity + size ≤ s.queue.capacity)
    (hdata : ∀ i, i < q % s.queue.capacity ∨ q % s.queue.capacity + size ≤ i →
      data i = s.queue.data i) :
    (∀ p, s.clearedPosition ≤ p → p < s.clearedPosition + s.queue.capacity →
      (p < r.start ∨ r.stop ≤ p) →
      data (p % s.queue.capacity) = s.queue.data (p % s.queue.capacity)) ∧
    (s.clearedPosition ≤ r.start → 0 < r.skip →
      load32 data (r.start % s.queue.capacity) =
        load32 s.queue.data (r.start % s.queue.capacity)) := by
  have hposition := hi.cleared_le_position hlive hk
  have hstart := r.start_le_position
  have hshaped := hi.tiled.shaped k r hk
  constructor
  · intro p hp hp' hout
    exact hdata _ (hi.apart hk hp hp' hout (by omega) (by omega) hstop hfits)
  intro hcleared hskip
  have hfour := hshaped.four_le_skip hi.geometry hskip
  have hwindow := hi.stop_le_window hk
  -- the marker lies before the entry, in the same window
  have hagrees : s.queue.region.Agrees ⟨s.queue.capacity, s.queue.entryAlignment, data⟩
      r.start (r.start + 4) := by
    refine ⟨rfl, rfl, fun p hp hp' => hdata _ ?_⟩
    unfold Reservation.position at hq
    have hlo : s.clearedPosition ≤ p := hcleared.trans hp
    have hhi : p < s.clearedPosition + s.queue.capacity := by omega
    have hout := not_mem_of_apart hlo hhi (by omega) (by omega) hfits (by omega)
    exact hout
  exact hshaped.marker_congr hi.geometry hagrees

/-- `begin_write` stores the skip marker. -/
lemma Inv.markSkip {reservePos : ℕ} (hpc : s.producers t = .markSkip length reservePos k) :
    (((s.write (store32 s.queue.data (physicalOffset s.queue.capacity reservePos) skipMarker)).note
      k fun r => { r with marked := true }).goto t (.reserved 0 length k)).Inv := by
  obtain ⟨r, hk, rfl, rfl, hstate, hmarked, hskip⟩ := hi.producer_of hpc
  have hlive := hi.live_of_uncommitted hk hstate
  have hold := hi.stored k r hlive hk
  have hshaped := hi.tiled.shaped k r hk
  have hcleared := (hold.unmarked hmarked).1
  have hfour := hshaped.four_le_skip hi.geometry hskip
  have hroom := hi.geometry.four_le_tail hshaped.aligned
  have hwindow := hi.stop_le_window hk
  have hstop : r.start + 4 ≤ r.stop := by
    unfold Reservation.stop
    omega
  rw [hi.geometry.physicalOffset_eq]
  have hentry : s.queue.region.Agrees
      (s.write (store32 s.queue.data (r.start % s.queue.capacity) skipMarker)).queue.region
      r.position r.stop := by
    refine ⟨rfl, rfl, fun p hp hp' => store32_of_not_mem ?_⟩
    unfold Reservation.position at hp
    have hlo : s.clearedPosition ≤ p := by omega
    have hhi : p < s.clearedPosition + s.queue.capacity := by omega
    have hout := not_mem_of_apart hlo hhi hcleared (by omega) hroom (by omega)
    exact hout
  obtain ⟨hword, hpayload⟩ := hshaped.entry_congr hi.geometry hentry
  refine hi.update (congrArg ticket hpc) hk hstate (fun _ => ⟨rfl, rfl, rfl, rfl⟩) (fun _ => rfl)
    ?_ ?_ ?_ ?_
  · intro p hp hp' hout
    exact store32_of_not_mem (hi.apart hk hp hp' hout hcleared le_rfl hstop hroom)
  · exact ⟨fun _ _ => load32_store32 (by decide), (fun h => nomatch h), hword.trans hold.word,
      hpayload.trans hold.payload_eq⟩
  · refine ⟨{ r with marked := true }, ?_, ?_, rfl, hstate, rfl⟩
    · rw [List.getElem?_modify_eq, hk]
      rfl
    -- past the skip the ring starts again
    have heq := hshaped.skip_eq hskip
    show 0 = (r.start + r.skip) % s.queue.capacity
    rw [show r.skip = s.queue.capacity - r.start % s.queue.capacity by omega,
      add_sub_mod hi.geometry.capacity_pos]
  · intro j hj
    exact (Option.some.inj hj).symm

/-- The caller of `begin_write` stores a byte of its payload. -/
lemma Inv.store {i : ℕ} (byte : UInt8)
    (hpc : s.producers t = .reserved offset length k) (hlt : i < length) :
    ((s.write (Function.update s.queue.data (offset + 4 + i) byte)).note k
      fun r => { r with payload := r.payload.set i byte }).Inv := by
  obtain ⟨r, hk, rfl, rfl, hstate, hmarked⟩ := hi.producer_of hpc
  have hlive := hi.live_of_uncommitted hk hstate
  have hold := hi.stored k r hlive hk
  have hshaped := hi.tiled.shaped k r hk
  have hsize := (hshaped.size_spec hi.geometry).2
  have hfits := hshaped.fits
  have hmod : (r.position + (4 + i)) % s.queue.capacity =
      r.position % s.queue.capacity + (4 + i) := add_mod_of_fits (by omega)
  have hstop : r.position + (4 + i) + 1 ≤ r.stop := by
    show r.position + (4 + i) + 1 ≤ r.position + r.size
    omega
  obtain ⟨hagree, hmark⟩ := hi.entry_write
    (Function.update s.queue.data (r.position % s.queue.capacity + 4 + i) byte) hlive hk
    (Nat.le_add_right _ _) hstop (by omega) fun j hj => Function.update_of_ne (by omega) ..
  rw [← goto_self (((s.write _).note k _)) t]
  refine hi.update (congrArg ticket hpc) hk hstate
    (fun _ => ⟨rfl, rfl, rfl, rfl⟩) id hagree ?_ ?_ ?_
  · refine ⟨fun hc hs => (hmark hc hs).trans (hold.marker hc hs), hold.unmarked, ?_, ?_⟩
    · refine (load32_congr fun j hj hj' => ?_).trans hold.word
      replace hj' : j < r.position % s.queue.capacity + 4 := hj'
      exact update_of_ne (by omega) ..
    · exact (slice_update byte).trans (congrArg (List.set · i byte) hold.payload_eq)
  · show ProducerAsserts _ _ (s.producers t)
    rw [hpc]
    refine ⟨{ r with payload := r.payload.set i byte }, ?_, rfl, rfl, hstate, hmarked⟩
    rw [List.getElem?_modify_eq, hk]
    rfl
  · intro j hj
    replace hj : ticket (s.producers t) = some j := hj
    rw [hpc] at hj
    exact (Option.some.inj hj).symm

/-- `commit_write` and `cancel_write` store the prefix of the new state. -/
lemma Inv.resolve {word : ℕ} {state : EntryState} (hpc : s.producers t = .reserved offset length k)
    (hword : ∀ r : Reservation, r.length = length → { r with state := state }.entryState = word) :
    (s.resolve t offset k word state).Inv := by
  obtain ⟨r, hk, rfl, rfl, hstate, hmarked⟩ := hi.producer_of hpc
  have hlive := hi.live_of_uncommitted hk hstate
  have hold := hi.stored k r hlive hk
  have hshaped := hi.tiled.shaped k r hk
  have hsize := (hshaped.size_spec hi.geometry).2
  have hfits := hshaped.fits
  have hstop : r.position + 4 ≤ r.stop := by
    show r.position + 4 ≤ r.position + r.size
    omega
  obtain ⟨hagree, hmark⟩ := hi.entry_write
    (store32 s.queue.data (r.position % s.queue.capacity) word) hlive hk le_rfl hstop (by omega)
      fun j hj => store32_of_not_mem hj
  have hshaped' :
      Reservation.Shaped s.queue.capacity s.queue.entryAlignment { r with state := state } :=
    hshaped.of_sameRange ⟨rfl, rfl, rfl, rfl⟩
  have hlt : word < 2 ^ 32 := by
    rw [← hword r rfl]
    exact (hshaped'.entryState_lt hi.geometry).trans (by decide)
  refine hi.update (congrArg ticket hpc) hk hstate
    (fun _ => ⟨rfl, rfl, rfl, rfl⟩) id hagree ?_ ?_ ?_
  · refine ⟨fun hc hs => (hmark hc hs).trans (hold.marker hc hs), ?_, ?_, ?_⟩
    · intro hm
      rw [show r.marked = false from hm] at hmarked
      cases hmarked
    · exact (load32_store32 hlt).trans (hword r rfl).symm
    · refine (slice_congr fun j hj hj' => ?_).trans hold.payload_eq
      exact store32_of_not_mem (Or.inr hj)
  · trivial
  · intro j hj
    cases hj

/-- The reservation of an exchange that finds the reserve position where it was loaded. -/
abbrev next (s : MpscSystem θ) (length : ℕ) : Reservation :=
  reservation s.queue length s.queue.reservePosition

omit hi [DecidableEq θ] in
lemma next_stop : (s.next length).stop =
    s.queue.reservePosition + s.queue.totalNeeded length s.queue.reservePosition :=
      Nat.add_assoc _ _ _

omit [DecidableEq θ] in
lemma Inv.shaped_reservation (hsized : s.queue.Sized length) :
    (s.next length).Shaped s.queue.capacity
      s.queue.entryAlignment := by
  have hlt := Nat.mod_lt s.queue.reservePosition hi.geometry.capacity_pos
  have hoffset := hi.geometry.physicalOffset_eq s.queue.reservePosition
  have hfits := hsized.fits
  refine ⟨hsized.pos, hsized.le, rfl, hi.tiled.aligned, ?_, ?_⟩
  · show (s.queue.reservePosition + Mpsc.skipBytes _ _ _) % s.queue.capacity +
      entrySize s.queue.entryAlignment length ≤ s.queue.capacity
    unfold Mpsc.skipBytes
    rw [hoffset]
    dsimp only
    split_ifs with htail
    · rw [Nat.add_zero]
      omega
    · rw [add_sub_mod hi.geometry.capacity_pos]
      omega
  · show 0 < Mpsc.skipBytes _ _ _ →
      s.queue.reservePosition % s.queue.capacity + Mpsc.skipBytes _ _ _ = s.queue.capacity
    unfold Mpsc.skipBytes
    rw [hoffset]
    dsimp only
    split_ifs with htail
    · omega
    · omega

omit [DecidableEq θ] in
/-- The ring is zero where a new reservation goes, so its prefix reads as uncommitted. -/
lemma Inv.stored_reservation (hsized : s.queue.Sized length)
    (hroom : s.queue.reservePosition + s.queue.totalNeeded length s.queue.reservePosition ≤
      s.queue.readPosition + s.queue.capacity) :
    (s.next length).Stored s.queue.region
      s.clearedPosition := by
  have hshaped := hi.shaped_reservation hsized
  have hsize := (hshaped.size_spec hi.geometry).2
  have hread := hi.read_le
  have hword : ∀ p, s.queue.reservePosition ≤ p →
      p + 4 ≤ (s.next length).stop →
      p % s.queue.capacity + 4 ≤ s.queue.capacity →
      load32 s.queue.data (p % s.queue.capacity) = 0 := by
    intro p hp hp' hfits
    rw [next_stop] at hp'
    refine (load32_congr fun i hle hlt => ?_ : _ = load32 (fun _ => 0) (p % s.queue.capacity))
    obtain ⟨j, rfl⟩ := Nat.exists_eq_add_of_le hle
    rw [← add_mod_of_fits (p := p) (by omega)]
    exact hi.zero _ (by omega) (by omega)
  constructor
  · intro _ hskip
    have hfour := hshaped.four_le_skip hi.geometry hskip
    have hmarked : (s.next length).marked = false :=
      decide_eq_false (Nat.pos_iff_ne_zero.mp hskip)
    rw [hmarked]
    apply hword _ le_rfl _ (hi.geometry.four_le_tail hshaped.aligned)
    exact (Nat.add_le_add_left hfour _).trans (Nat.le_add_right _ _)
  · exact fun _ => ⟨hi.cleared_le_reserve, rfl⟩
  · apply hword (s.next length).position
    · exact Nat.le_add_right _ _
    · exact Nat.add_le_add_left (by omega) _
    · have hfits := hshaped.fits
      omega
  · show slice s.queue.data (_ % s.queue.capacity + 4) length =
      slice s.queue.data (physicalOffset s.queue.capacity _ + 4) length
    rw [hi.geometry.physicalOffset_eq]
    rfl

omit [DecidableEq θ] in
/-- A ticket is the number of an uncommitted reservation. -/
lemma Inv.ticket_uncommitted (t : θ) (h : ticket (s.producers t) = some k) :
    ∃ r, s.reservations[k]? = some r ∧ r.state = .uncommitted := by
  have hasserts := hi.producers t
  generalize s.producers t = pc at h hasserts
  cases pc with
  | markSkip | reserved =>
    cases h
    obtain ⟨r, hr, -, -, hstate, -⟩ := hasserts
    exact ⟨r, hr, hstate⟩
  | _ => cases h

/-- The exchange succeeds. -/
theorem Inv.claim (hpc : s.producers t = .exchange length s.queue.reservePosition) :
    (s.claim t length s.queue.reservePosition).Inv := by
  obtain ⟨hsized, hroom⟩ := hi.producer_of hpc
  have hshaped := hi.shaped_reservation hsized
  have hstored := hi.stored_reservation hsized hroom
  have htiled := hi.tiled.concat hi.geometry hshaped rfl
  rw [next_stop] at htiled
  have hget : ∀ {k : ℕ} {r' : Reservation}, s.reservations[k]? = some r' →
      (s.reservations ++ [s.next length])[k]? = some r' := by
    intro k r' hk
    rw [List.getElem?_append_left (List.getElem?_eq_some_iff.mp hk).1]
    exact hk
  have hticket : ∀ k, ticket ((s.claim t length s.queue.reservePosition).producers t) = some k →
      k = s.reservations.length := by
    intro k hk
    dsimp only [MpscSystem.claim] at hk
    rw [update_self] at hk
    split_ifs at hk
    · exact (Option.some.inj hk).symm
    · exact (Option.some.inj hk).symm
  have hother : ∀ t', t' ≠ t →
      (s.claim t length s.queue.reservePosition).producers t' = s.producers t' :=
    fun t' ht => update_of_ne ht ..
  refine ⟨hi.geometry, htiled, hi.read_le, hroom, ?_, ?_, ?_, ?_, ?_, ?_, ?_, ?_, ?_⟩
  · rcases hi.cleared_eq with h | ⟨r, hr, h⟩
    · left
      have hstart : (s.next length).start = s.queue.reservePosition := rfl
      exact h.trans (startAt_concat hstart hi.released_le).symm
    · exact .inr ⟨r, hget hr, h⟩
  · intro k r hk hr
    replace hr : (s.reservations ++ [_])[k]? = some r := hr
    rcases Nat.lt_or_ge k s.reservations.length with hlt | hge
    · rw [List.getElem?_append_left hlt] at hr
      exact hi.stored k r hk hr
    · rw [List.getElem?_append_right hge] at hr
      obtain rfl := mem_singleton.mp (mem_of_getElem? hr)
      exact hstored
  · intro p hp hp'
    exact hi.zero p ((Nat.le_add_right _ _).trans hp) hp'
  · show s.released ≤ (s.reservations ++ [_]).length
    rw [length_append]
    exact hi.released_le.trans (Nat.le_add_right _ _)
  · intro k r hk hr
    replace hr : (s.reservations ++ [_])[k]? = some r := hr
    replace hk : k < s.released := hk
    rw [List.getElem?_append_left (hk.trans_le hi.released_le)] at hr
    exact hi.resolved k r hk hr
  · show s.received = ((s.reservations ++ [_]).take s.released).filterMap Reservation.delivered
    rw [take_append_of_le_length hi.released_le]
    exact hi.received
  · intro t'
    by_cases ht : t' = t
    · subst ht
      dsimp only [MpscSystem.claim]
      rw [update_self]
      split_ifs with hskip
      · exact ⟨_, List.getElem?_concat_length, rfl, rfl, rfl,
          decide_eq_false (Nat.pos_iff_ne_zero.mp hskip), hskip⟩
      have hzero : (s.next length).skip = 0 :=
        Nat.eq_zero_of_not_pos hskip
      refine ⟨_, List.getElem?_concat_length, ?_, rfl, rfl, decide_eq_true hzero⟩
      rw [hi.geometry.physicalOffset_eq, Reservation.position, hzero]
      rfl
    · rw [hother t' ht]
      exact (hi.producers t').mono rfl rfl le_rfl fun _ _ _ h => hget h
  · intro t₁ t₂ k h₁ h₂
    -- the new ticket is fresh
    have hnew : ∀ t', ticket ((s.claim t length s.queue.reservePosition).producers t') = some k →
        (t' = t ↔ k = s.reservations.length) := by
      intro t' h
      refine ⟨fun ht => hticket k (ht ▸ h), fun hk => by_contra fun ht => ?_⟩
      rw [hother t' ht] at h
      obtain ⟨r, hr, -⟩ := hi.ticket_uncommitted t' h
      exact (List.getElem?_eq_some_iff.mp hr).1.ne hk
    by_cases hk : k = s.reservations.length
    · rw [(hnew t₁ h₁).mpr hk, (hnew t₂ h₂).mpr hk]
    · rw [hother t₁ (mt (hnew t₁ h₁).mp hk)] at h₁
      rw [hother t₂ (mt (hnew t₂ h₂).mp hk)] at h₂
      exact hi.distinct t₁ t₂ k h₁ h₂
  · exact hi.consumer.evolve rfl rfl (Nat.le_add_right _ _) fun r hr => ⟨r, hget hr, Evolves.refl r⟩

omit [DecidableEq θ] in
/-- The free space of a snapshot with a stale read position is free now. -/
lemma Inv.room_of_freeSpace {readPos : ℕ} (hsized : s.queue.Sized length)
    (hread : readPos ≤ s.queue.readPosition)
    (hfree : s.queue.totalNeeded length s.queue.reservePosition ≤
      Mpsc.freeSpace s.queue.capacity s.queue.reservePosition readPos) :
    s.queue.reservePosition + s.queue.totalNeeded length s.queue.reservePosition ≤
      s.queue.readPosition + s.queue.capacity := by
  have hsize := ((hi.shaped_reservation hsized).size_spec hi.geometry).2
  have htotal : (s.next length).size ≤
      s.queue.totalNeeded length s.queue.reservePosition := Nat.le_add_left _ _
  unfold Mpsc.freeSpace at hfree
  split_ifs at hfree with hstale
  · omega
  · omega

/-- One step of a producer inside `begin_write`. -/
lemma Inv.produce (t : θ) : (s.produce t).Inv := by
  have hasserts := hi.producers t
  unfold MpscSystem.produce
  split
  next length hpc =>
    rw [hpc] at hasserts
    exact hi.goto ⟨hasserts, le_rfl⟩ (fun k h => nomatch h)
  next length readPos hpc =>
    rw [hpc] at hasserts
    dsimp only
    split_ifs with hfull
    · exact hi.goto trivial (fun k h => nomatch h)
    · exact hi.goto ⟨hasserts.1, hi.room_of_freeSpace hasserts.1 hasserts.2 (not_lt.mp hfull)⟩
        (fun k h => nomatch h)
  next length reservePos hpc =>
    rw [hpc] at hasserts
    split_ifs with hsame
    · subst hsame
      exact hi.claim hpc
    · exact hi.goto hasserts.1 (fun k h => nomatch h)
  next length reservePos k hpc => exact hi.markSkip hpc
  next => exact hi

/-- A producer calls `begin_write`. -/
lemma Inv.beginWrite (t : θ) (length : ℕ) :
    (s.goto t (MpscSystem.beginWrite s.queue length)).Inv := by
  unfold MpscSystem.beginWrite
  split_ifs with hlength hfits
  · exact hi.goto trivial (fun k h => nomatch h)
  · exact hi.goto trivial (fun k h => nomatch h)
  · refine hi.goto ⟨?_, ?_, not_lt.mp hfits⟩ (fun k h => nomatch h)
    · omega
    · omega

end producers

/-! ### The consumer -/

section consumer

variable {pc : MpscConsumerPc} {received : List (List UInt8)} {r : Reservation} (hi : s.Inv)
include hi

/-- The consumer moves without touching shared memory. -/
lemma Inv.consumer_goto (hpc : ConsumerAsserts s.queue s.oldest s.clearedPosition pc) :
    Inv { s with consumer := pc } :=
  { hi with consumer := hpc }

/-- The consumer publishes what it has cleared. -/
lemma Inv.publish
    (hpc : ConsumerAsserts { s.queue with readPosition := s.clearedPosition } s.oldest
      s.clearedPosition pc) :
    Inv { s with
      queue := { s.queue with readPosition := s.clearedPosition }
      consumer := pc } := by
  refine { hi with read_le := le_rfl, room := ?_, producers := fun t => ?_, consumer := hpc }
  · exact hi.room.trans (Nat.add_le_add_right hi.read_le _)
  · exact (hi.producers t).mono rfl rfl hi.read_le fun _ _ _ h => h

/-- The consumer zeroes what it passes: the cleared range joins the zero bytes, and the live
reservations behind it keep theirs. -/
theorem Inv.clear {size released : ℕ}
    (hfits : s.clearedPosition % s.queue.capacity + size ≤ s.queue.capacity)
    (hreleased : s.released ≤ released) (hlength : released ≤ s.reservations.length)
    (hlive : ∀ (k : ℕ) (r : Reservation), released ≤ k → s.reservations[k]? = some r →
      s.clearedPosition + size ≤ r.position ∧
    (r.marked = false → s.clearedPosition + size ≤ r.start))
    (hend : s.clearedPosition + size = startAt s.reservations s.queue.reservePosition released ∨
      ∃ r, s.reservations[released]? = some r ∧ s.clearedPosition + size = r.position)
    (hresolved : ∀ (k : ℕ) (r : Reservation), k < released → s.reservations[k]? = some r →
      r.state ≠ .uncommitted)
    (hreceived : received = (s.reservations.take released).filterMap Reservation.delivered)
    (hpc : ConsumerAsserts (s.clear s.clearedPosition size).queue s.reservations[released]?
      (s.clearedPosition + size) pc) :
    Inv { s.clear s.clearedPosition size with
      released := released
      received := received
      consumer := pc } := by
  have hle : s.clearedPosition + size ≤ s.queue.reservePosition := by
    rcases hend with h | ⟨r, hr, h⟩
    · rw [h]
      exact hi.tiled.startAt_le_reserve _
    · rw [h]
      exact r.position_le_stop.trans (hi.tiled.stop_le_reserve hr)
  have hdata : (s.clear s.clearedPosition size).queue.data =
      fill s.queue.data (s.clearedPosition % s.queue.capacity) size 0 := by
    show fill s.queue.data (physicalOffset s.queue.capacity s.clearedPosition) size 0 = _
    rw [hi.geometry.physicalOffset_eq]
  -- a position of the old window outside the cleared range keeps its byte
  have hkeep : ∀ p, s.clearedPosition + size ≤ p → p < s.clearedPosition + s.queue.capacity →
      (s.clear s.clearedPosition size).queue.data (p % s.queue.capacity) =
        s.queue.data (p % s.queue.capacity) := by
    intro p hp hp'
    rw [hdata]
    apply fill_of_not_mem
    exact not_mem_of_apart (by omega) hp' le_rfl (by omega) hfits (Or.inr hp)
  refine ⟨hi.geometry, hi.tiled, ?_, hi.room, hend, ?_, ?_, hlength, hresolved, hreceived, ?_,
    hi.distinct, hpc⟩
  · exact hi.read_le.trans (Nat.le_add_right _ _)
  · intro k r hk hr
    obtain ⟨hposition, hmarked⟩ := hlive k r hk hr
    have hwindow := hi.stop_le_window hr
    have hold := hi.stored k r (hreleased.trans hk) hr
    apply hold.advance hi.geometry (hi.tiled.shaped k r hr) (Nat.le_add_right _ _) hposition hmarked
    refine ⟨rfl, rfl, fun p hp hp' => ?_⟩
    exact hkeep p ((le_max_left _ _).trans hp) (by omega)
  · intro p hp hp'
    replace hp' : p < s.clearedPosition + size + s.queue.capacity := hp'
    replace hp : s.queue.reservePosition ≤ p := hp
    rcases Nat.lt_or_ge p (s.clearedPosition + s.queue.capacity) with hlt | hge
    · exact (hkeep p (by omega) hlt).trans (hi.zero p hp hlt)
    -- one ring further the position is in the cleared range
    obtain ⟨i, rfl⟩ := Nat.exists_eq_add_of_le hge
    show (s.clear s.clearedPosition size).queue.data (_ % s.queue.capacity) = 0
    have hmod : (s.clearedPosition + s.queue.capacity + i) % s.queue.capacity =
        s.clearedPosition % s.queue.capacity + i := by
      rw [Nat.add_right_comm, Nat.add_mod_right]
      exact add_mod_of_fits (by omega)
    rw [hdata, hmod]
    exact if_pos ⟨Nat.le_add_right _ _, by omega⟩
  · intro t
    exact (hi.producers t).mono rfl rfl le_rfl fun _ _ _ h => h

/-- The consumer clears the skip in front of the oldest entry. -/
lemma Inv.clearSkip (holdest : s.oldest = some r) (hstart : s.clearedPosition = r.start)
    (hskip : 0 < r.skip) (hmarked : r.marked = true)
    (hpc : ConsumerAsserts (s.clear s.clearedPosition r.skip).queue s.oldest
      (s.clearedPosition + r.skip) pc) :
    Inv { s.clear s.clearedPosition r.skip with consumer := pc } := by
  have hshaped := hi.tiled.shaped s.released r holdest
  have hposition : s.clearedPosition + r.skip = r.position := by
    rw [hstart]
    rfl
  apply hi.clear _ le_rfl hi.released_le _ _ hi.resolved hi.received hpc
  · rw [hstart]
    exact (hshaped.skip_eq hskip).le
  · intro k r' hk hr'
    rw [hposition]
    rcases Nat.lt_or_eq_of_le hk with hlt | rfl
    · have hstop := r.position_le_stop.trans (hi.tiled.stop_le_start holdest hr' hlt)
      exact ⟨hstop.trans r'.start_le_position, fun _ => hstop⟩
    obtain rfl := Option.some.inj (holdest.symm.trans hr')
    refine ⟨le_rfl, fun hm => ?_⟩
    rw [hmarked] at hm
    cases hm
  · exact .inr ⟨r, holdest, hposition⟩

/-- The consumer clears the oldest entry and passes it. -/
lemma Inv.release (holdest : s.oldest = some r) (hposition : s.clearedPosition = r.position)
    (hstate : r.state ≠ .uncommitted) (hreceived : received = s.received ++ r.delivered.toList)
    (hpc : ConsumerAsserts (s.clear s.clearedPosition r.size).queue s.reservations[s.released + 1]?
      (s.clearedPosition + r.size) pc) :
    Inv { s.clear s.clearedPosition r.size with
      released := s.released + 1
      received := received
      consumer := pc } := by
  have hshaped := hi.tiled.shaped s.released r holdest
  have hlt : s.released < s.reservations.length := (List.getElem?_eq_some_iff.mp holdest).1
  have hstop : s.clearedPosition + r.size = r.stop := by
    rw [hposition]
    rfl
  apply hi.clear _ (Nat.le_succ _) hlt _ _ _ _ hpc
  · rw [hposition]
    exact hshaped.fits
  · intro k r' hk hr'
    rw [hstop]
    have hle := hi.tiled.stop_le_start holdest hr' hk
    exact ⟨hle.trans r'.start_le_position, fun _ => hle⟩
  · left
    rw [hstop]
    exact (hi.tiled.next s.released r holdest).symm
  · intro k r' hk hr'
    rcases Nat.lt_or_eq_of_le (Nat.le_of_lt_succ hk) with hlt' | rfl
    · exact hi.resolved k r' hlt' hr'
    · obtain rfl := Option.some.inj (holdest.symm.trans hr')
      exact hstate
  · have hget : s.reservations[s.released]? = some r := holdest
    rw [hreceived, hi.received, take_add_one, hget, filterMap_append]
    cases hd : r.delivered with
    | none | some => simp [hd]

/-- Before the reserve position there is an oldest entry. -/
lemma Inv.exists_oldest (hlt : s.clearedPosition < s.queue.reservePosition) :
    ∃ r, s.oldest = some r := by
  cases holdest : s.oldest with
  | some r => exact ⟨r, rfl⟩
  | none =>
    rcases hi.cleared_eq with h | ⟨r, hr, -⟩
    · rw [startAt_of_le (List.getElem?_eq_none_iff.mp holdest)] at h
      omega
    · rw [holdest] at hr
      cases hr

/-- What the consumer finds at the oldest entry: its skip marker, or its prefix. -/
lemma Inv.oldest_word (holdest : s.oldest = some r) :
    (s.clearedPosition = r.start ∧ 0 < r.skip ∧
      load32 s.queue.data (s.clearedPosition % s.queue.capacity) =
        if r.marked then skipMarker else 0) ∨
    (s.clearedPosition = r.position ∧
      load32 s.queue.data (s.clearedPosition % s.queue.capacity) = r.entryState) := by
  have hstored := hi.stored s.released r le_rfl holdest
  have hentry : s.clearedPosition = r.position → s.clearedPosition = r.position ∧
      load32 s.queue.data (s.clearedPosition % s.queue.capacity) = r.entryState := by
    intro h
    refine ⟨h, ?_⟩
    rw [h]
    exact hstored.word
  rcases hi.cleared_eq with h | ⟨r', hr', h⟩
  · rw [startAt_of_some holdest] at h
    rcases Nat.eq_zero_or_pos r.skip with hzero | hskip
    · right
      apply hentry
      rw [h, Reservation.position, hzero]
      rfl
    · left
      refine ⟨h, hskip, ?_⟩
      rw [h]
      exact hstored.marker h.le hskip
  · obtain rfl := Option.some.inj (holdest.symm.trans hr')
    exact .inr (hentry h)

/-- Any other word than a skip marker is the prefix of the oldest entry, which is resolved. -/
lemma Inv.oldest_entry (holdest : s.oldest = some r)
    (hzero : load32 s.queue.data (s.clearedPosition % s.queue.capacity) ≠ 0)
    (hskip : load32 s.queue.data (s.clearedPosition % s.queue.capacity) ≠ skipMarker) :
    s.clearedPosition = r.position ∧ r.state ≠ .uncommitted ∧
      load32 s.queue.data (s.clearedPosition % s.queue.capacity) = r.entryState := by
  rcases hi.oldest_word holdest with ⟨-, -, hword⟩ | ⟨hposition, hword⟩
  · split_ifs at hword
    · exact absurd hword hskip
    · exact absurd hword hzero
  · have hshaped := hi.tiled.shaped s.released r holdest
    refine ⟨hposition, fun hstate => hzero ?_, hword⟩
    exact hword.trans ((hshaped.entryState_eq_zero_iff hi.geometry).mpr hstate)

/-- One round of the loop of `peek`. -/
lemma Inv.peekLoop {reservePos seen : ℕ} (hread : s.clearedPosition = s.queue.readPosition)
    (hreserve : reservePos ≤ s.queue.reservePosition)
    (hpc : s.consumer = .peekLoop s.clearedPosition reservePos seen) : s.consumeStep.Inv := by
  unfold consumeStep
  rw [hpc]
  dsimp only
  rw [hi.geometry.physicalOffset_eq]
  split_ifs with hlt hzero hskip hcancel
  · exact hi.consumer_goto hread
  · obtain ⟨r, holdest⟩ := hi.exists_oldest (hlt.trans_le hreserve)
    apply hi.consumer_goto
    refine ⟨rfl, hread, hreserve, r, holdest, ?_⟩
    rcases hi.oldest_word holdest with ⟨hstart, hpos, hword⟩ | ⟨-, hword⟩
    · refine ⟨hstart, hpos, ?_⟩
      by_contra hmarked
      rw [if_neg hmarked] at hword
      exact hzero hword
    · exact absurd (hword.symm.trans hskip)
        ((hi.tiled.shaped s.released r holdest).entryState_lt hi.geometry).ne
  · obtain ⟨r, holdest⟩ := hi.exists_oldest (hlt.trans_le hreserve)
    obtain ⟨hposition, hresolved, hword⟩ := hi.oldest_entry holdest hzero hskip
    have hshaped := hi.tiled.shaped s.released r holdest
    have hlength := hshaped.length_add_four_le hi.geometry
    apply hi.consumer_goto
    refine ⟨rfl, hread, hreserve, r, holdest, hposition, ?_⟩
    rw [hword] at hcancel ⊢
    cases hstate : r.state with
    | uncommitted => exact absurd hstate hresolved
    | committed =>
      simp only [Reservation.entryState, hstate] at hcancel
      exact absurd (and_cancelBit_of_lt (by omega)) hcancel
    | cancelled =>
      refine ⟨rfl, ?_⟩
      simp only [Reservation.entryState, hstate]
      rw [or_cancelBit_and_max (by omega), hshaped.size_eq]
  · obtain ⟨r, holdest⟩ := hi.exists_oldest (hlt.trans_le hreserve)
    obtain ⟨hposition, hresolved, hword⟩ := hi.oldest_entry holdest hzero hskip
    apply hi.consumer_goto
    refine ⟨hread, r, holdest, ?_⟩
    rw [hword] at hcancel ⊢
    cases hstate : r.state with
    | uncommitted => exact absurd hstate hresolved
    | committed =>
      refine ⟨hstate, hposition, ?_, ?_⟩
      · rw [hposition]
      · simp only [Reservation.entryState, hstate]
    | cancelled =>
      simp only [Reservation.entryState, hstate] at hcancel
      exact absurd or_cancelBit_and_cancelBit hcancel
  · exact hi.consumer_goto hread

/-- The payload that was handed out is the committed one. -/
lemma Inv.handed_payload {offset length : ℕ} (holdest : s.oldest = some r)
    (hh : Handed s.queue s.clearedPosition offset length r) :
    slice s.queue.data offset length = r.payload := by
  rw [hh.offset_eq, hh.length_eq]
  exact (hi.stored s.released r le_rfl holdest).payload_eq

/-- One step of the consumer inside a call. -/
lemma Inv.consumeStep : s.consumeStep.Inv := by
  have hasserts := hi.consumer
  unfold MpscSystem.consumeStep
  generalize hpc : s.consumer = pc at hasserts ⊢
  cases pc with
  | peekLoop =>
    obtain ⟨rfl, hread, hreserve⟩ := hasserts
    simpa only [MpscSystem.consumeStep, hpc] using hi.peekLoop hread hreserve hpc
  | peek =>
    exact hi.consumer_goto ⟨hasserts.symm, hasserts⟩
  | peekReserve =>
    exact hi.consumer_goto ⟨hasserts.1, hasserts.2, le_rfl⟩
  | skipClear =>
    obtain ⟨rfl, hread, hreserve, r, holdest, hstart, hskip, hmarked⟩ := hasserts
    have hshaped := hi.tiled.shaped s.released r holdest
    have hbytes :
        s.queue.capacity - physicalOffset s.queue.capacity s.clearedPosition = r.skip := by
      have heq := hshaped.skip_eq hskip
      rw [hi.geometry.physicalOffset_eq, hstart]
      omega
    simp only [hbytes]
    exact hi.clearSkip holdest hstart hskip hmarked ⟨rfl, hreserve⟩
  | cancelClear =>
    obtain ⟨rfl, hread, hreserve, r, holdest, hposition, hstate, rfl⟩ := hasserts
    have hne : r.state ≠ .committed := by
      rw [hstate]
      decide
    apply hi.release holdest hposition
    · rw [hstate]
      decide
    · rw [Reservation.delivered, if_neg hne]
      exact (append_nil _).symm
    · exact ⟨rfl, hreserve⟩
  | peekStore =>
    obtain ⟨rfl, hreserve⟩ := hasserts
    exact hi.publish ⟨rfl, rfl, hreserve⟩
  | consume =>
    obtain ⟨hread, r, holdest, hh⟩ := hasserts
    exact hi.consumer_goto ⟨hread.symm, hread, r, holdest, hh⟩
  | consumeLoad =>
    obtain ⟨rfl, hread, r, holdest, hh⟩ := hasserts
    have hword : load32 s.queue.data (physicalOffset s.queue.capacity s.clearedPosition) =
        r.length := by
      rw [hi.geometry.physicalOffset_eq, hh.cleared_eq]
      refine (hi.stored s.released r le_rfl holdest).word.trans ?_
      simp only [Reservation.entryState, hh.state]
    simp only [hword]
    apply hi.consumer_goto
    exact ⟨rfl, hread, r, holdest, hh, (hi.tiled.shaped s.released r holdest).size_eq.symm⟩
  | consumeClear =>
    obtain ⟨rfl, hread, r, holdest, hh, rfl⟩ := hasserts
    apply hi.release holdest hh.cleared_eq
    · rw [hh.state]
      decide
    · rw [hi.handed_payload holdest hh, Reservation.delivered, if_pos hh.state]
      rfl
    · rfl
  | consumeStore readPos =>
    obtain rfl : readPos = s.clearedPosition := hasserts
    exact hi.publish rfl
  | idle | empty | peeked => exact hi

lemma Inv.cleared_of_ready (h : ConsumerReady s.consumer) :
    s.clearedPosition = s.queue.readPosition := by
  have hasserts := hi.consumer
  generalize s.consumer = pc at h hasserts
  cases pc with
  | idle | empty => exact hasserts
  | peeked => exact hasserts.1
  | _ => cases h

end consumer

/-! ### Every reachable state -/

variable [DecidableEq θ] {s' : MpscSystem θ} {j : ℕ} {r : Reservation}

lemma Inv.step (hi : s.Inv) (h : Step s s') : s'.Inv := by
  cases h with
  | produce t => exact hi.produce t
  | consume => exact hi.consumeStep
  | beginWrite t length => exact hi.beginWrite t length
  | store t byte hpc hlt => exact hi.store byte hpc hlt
  | commitWrite t hpc => exact hi.resolve hpc fun r hr => hr
  | cancelWrite t hpc =>
    apply hi.resolve hpc
    intro r hr
    rw [← hr]
    rfl
  | peek hready => exact hi.consumer_goto (hi.cleared_of_ready hready)
  | beginConsume hpc =>
    have hasserts := hi.consumer
    rw [hpc] at hasserts
    exact hi.consumer_goto hasserts

lemma Reachable.inv (h : Reachable s) : s.Inv :=
  Transition.Reachable.invariant (p := Inv) (fun _ h => Init.inv h) (fun _ _ hi h => hi.step h) h

end MpscSystem

end Hrx.Ring
