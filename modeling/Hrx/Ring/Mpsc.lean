import Hrx.Lib.Transition
import Hrx.Ring.Header

/-!
# The multiple-producer single-consumer ring

`iree_mpsc_queue_t` with any number of producers and one consumer, interleaved at every load, store
and exchange of the positions and every access to the data region.  A producer claims its space with
one exchange of the reserve position; the length prefix of an entry tells the consumer its state,
and is zero until the producer commits or cancels.

The system records the reservations in the order their exchange succeeded.  `released` of them have
been passed by the consumer, and `clearedPosition` is where the consumer has zeroed up to: it runs
ahead of the read position between a `memset` and the store of the read position.
-/

namespace Hrx.Ring

open ByteStore

/-- The header of an MPSC queue: `IREE_MPSC_QUEUE_MAGIC`, `IREE_MPSC_QUEUE_VERSION`. -/
def mpscKind : HeaderKind := ⟨"MPSC", 0x514D5249, 1⟩

/-- `IREE_MPSC_QUEUE_CANCEL_BIT`. -/
def cancelBit : ℕ := 0x80000000

/-- `IREE_MPSC_QUEUE_MAX_PAYLOAD_LENGTH`. -/
def maxPayloadLength : ℕ := 0x7FFFFFFF

structure Mpsc where
  capacity : ℕ
  entryAlignment : ℕ
  data : ℕ → UInt8
  reservePosition : ℕ
  readPosition : ℕ

namespace Mpsc

/-- `iree_mpsc_queue_free_space`: nothing is free in an inconsistent snapshot. -/
def freeSpace (capacity reservePos readPos : ℕ) : ℕ :=
  if reservePos < readPos ∨ capacity < reservePos - readPos then 0
  else capacity - (reservePos - readPos)

/-- The bytes before the end of the region that an entry of this size would have to skip. -/
def skipBytes (capacity totalEntryBytes reservePos : ℕ) : ℕ :=
  let contiguousAtTail := capacity - physicalOffset capacity reservePos
  if totalEntryBytes ≤ contiguousAtTail then 0 else contiguousAtTail

/-- The bytes an entry takes in the ring, with those it skips. -/
def totalNeeded (q : Mpsc) (length reservePos : ℕ) : ℕ :=
  let total := entrySize q.entryAlignment length
  skipBytes q.capacity total reservePos + total

end Mpsc

inductive EntryState where
  | uncommitted
  | committed
  | cancelled
deriving DecidableEq

/-- A reservation: the positions the exchange claimed, and what its producer did with them. -/
structure Reservation where
  start : ℕ
  skip : ℕ
  length : ℕ
  size : ℕ
  /-- The skip marker is stored, or there is none. -/
  marked : Bool
  state : EntryState
  payload : List UInt8

namespace Reservation

variable (r : Reservation)

/-- The position of the length prefix. -/
def position : ℕ := r.start + r.skip

/-- The position after the entry. -/
def stop : ℕ := r.start + r.skip + r.size

/-- The value of the length prefix. -/
def entryState : ℕ :=
  match r.state with
  | .uncommitted => 0
  | .committed => r.length
  | .cancelled => r.length ||| cancelBit

/-- The payload, if it was committed. -/
def delivered : Option (List UInt8) := if r.state = .committed then some r.payload else none

end Reservation

/-- Where a producer is.  A ticket is the number of its reservation. -/
inductive MpscProducerPc where
  | idle
  /-- `begin_write`: load the read position, load the reserve position, exchange, mark the skip. -/
  | loadRead (length : ℕ)
  | loadReserve (length readPos : ℕ)
  | exchange (length reservePos : ℕ)
  | markSkip (length reservePos ticket : ℕ)
  /-- `begin_write` returned NULL. -/
  | refused
  /-- `begin_write` returned the payload, which the caller fills. -/
  | reserved (entryOffset payloadLength ticket : ℕ)

/-- Where the consumer is.  `seen` counts the reservations there were when `peek` loaded the reserve
position. -/
inductive MpscConsumerPc where
  | idle
  /-- `peek`: load the read position, load the reserve position, then the loop. -/
  | peek
  | peekReserve (readPos : ℕ)
  | peekLoop (readPos reservePos seen : ℕ)
  | skipClear (readPos reservePos seen : ℕ)
  | cancelClear (readPos reservePos totalEntryBytes seen : ℕ)
  | peekStore (readPos reservePos seen : ℕ)
  /-- `peek` returned NULL. -/
  | empty
  /-- `peek` returned a payload. -/
  | peeked (offset length : ℕ)
  /-- `consume`: load the read position, load the prefix, zero the entry, store the read
  position. -/
  | consume (offset length : ℕ)
  | consumeLoad (offset length readPos : ℕ)
  | consumeClear (offset length readPos totalEntryBytes : ℕ)
  | consumeStore (readPos : ℕ)

structure MpscSystem (θ : Type) where
  queue : Mpsc
  producers : θ → MpscProducerPc
  consumer : MpscConsumerPc
  reservations : List Reservation
  released : ℕ
  clearedPosition : ℕ
  received : List (List UInt8)

namespace MpscSystem

variable {θ : Type} [DecidableEq θ] (s : MpscSystem θ)

def goto (t : θ) (pc : MpscProducerPc) : MpscSystem θ :=
  { s with producers := Function.update s.producers t pc }

def write (data : ℕ → UInt8) : MpscSystem θ := { s with queue := { s.queue with data := data } }

/-- Records what the producer of a reservation did. -/
def note (ticket : ℕ) (f : Reservation → Reservation) : MpscSystem θ :=
  { s with reservations := s.reservations.modify ticket f }

/-- The checks of `begin_write` before its loop. -/
def beginWrite (q : Mpsc) (length : ℕ) : MpscProducerPc :=
  if length = 0 ∨ maxPayloadLength < length then .refused
  else if q.capacity < entrySize q.entryAlignment length then .refused
  else .loadRead length

/-- The reservation that an exchange at this position makes. -/
def reservation (q : Mpsc) (length reservePos : ℕ) : Reservation :=
  let total := entrySize q.entryAlignment length
  let skip := Mpsc.skipBytes q.capacity total reservePos
  { start := reservePos
    skip := skip
    length := length
    size := total
    marked := skip = 0
    state := .uncommitted
    -- the payload holds whatever the region held
    payload := slice q.data (physicalOffset q.capacity (reservePos + skip) + 4) length }

/-- The exchange succeeds: the reserve position moves past the entry. -/
def claim (t : θ) (length reservePos : ℕ) : MpscSystem θ :=
  let ticket := s.reservations.length
  let needsSkip := 0 < Mpsc.skipBytes s.queue.capacity
    (entrySize s.queue.entryAlignment length) reservePos
  { s with
    queue := { s.queue with
      reservePosition := reservePos + s.queue.totalNeeded length reservePos }
    producers := Function.update s.producers t <|
      if needsSkip then .markSkip length reservePos ticket
      else .reserved (physicalOffset s.queue.capacity reservePos) length ticket
    reservations := s.reservations ++ [reservation s.queue length reservePos] }

/-- The next step of a producer inside `begin_write`. -/
def produce (t : θ) : MpscSystem θ :=
  match s.producers t with
  | .loadRead length => s.goto t (.loadReserve length s.queue.readPosition)
  | .loadReserve length readPos =>
    let reservePos := s.queue.reservePosition
    if Mpsc.freeSpace s.queue.capacity reservePos readPos <
        s.queue.totalNeeded length reservePos then s.goto t .refused
    else s.goto t (.exchange length reservePos)
  | .exchange length reservePos =>
    if s.queue.reservePosition = reservePos then s.claim t length reservePos
    -- another producer won
    else s.goto t (.loadRead length)
  | .markSkip length reservePos ticket =>
    ((s.write (store32 s.queue.data (physicalOffset s.queue.capacity reservePos) skipMarker)).note
      ticket fun r => { r with marked := true }).goto t (.reserved 0 length ticket)
  | _ => s

/-- The store of `commit_write` and `cancel_write`. -/
def resolve (t : θ) (entryOffset ticket prefixWord : ℕ) (state : EntryState) : MpscSystem θ :=
  ((s.write (store32 s.queue.data entryOffset prefixWord)).note
    ticket fun r => { r with state := state }).goto t .idle

/-- The oldest entry that the consumer has not passed. -/
def oldest : Option Reservation := s.reservations[s.released]?

/-- Zeroes a range that the consumer has passed. -/
def clear (readPos size : ℕ) : MpscSystem θ :=
  { s with
    queue := { s.queue with
      data := fill s.queue.data (physicalOffset s.queue.capacity readPos) size 0 }
    clearedPosition := readPos + size }

/-- The next step of the consumer inside a call. -/
def consumeStep : MpscSystem θ :=
  match s.consumer with
  | .peek => { s with consumer := .peekReserve s.queue.readPosition }
  | .peekReserve readPos =>
    { s with consumer := .peekLoop readPos s.queue.reservePosition s.reservations.length }
  | .peekLoop readPos reservePos seen =>
    if readPos < reservePos then
      let offset := physicalOffset s.queue.capacity readPos
      let entryState := load32 s.queue.data offset
      if entryState = 0 then { s with consumer := .empty }
      else if entryState = skipMarker then
        { s with consumer := .skipClear readPos reservePos seen }
      else if entryState &&& cancelBit ≠ 0 then
        { s with
          consumer := .cancelClear readPos reservePos
            (entrySize s.queue.entryAlignment (entryState &&& maxPayloadLength)) seen }
      else { s with consumer := .peeked (offset + 4) entryState }
    else { s with consumer := .empty }
  | .skipClear readPos reservePos seen =>
    let skipBytes := s.queue.capacity - physicalOffset s.queue.capacity readPos
    { s.clear readPos skipBytes with
      consumer := .peekStore (readPos + skipBytes) reservePos seen }
  | .cancelClear readPos reservePos total seen =>
    { s.clear readPos total with
      released := s.released + 1
      consumer := .peekStore (readPos + total) reservePos seen }
  | .peekStore readPos reservePos seen =>
    { s with
      queue := { s.queue with readPosition := readPos }
      consumer := .peekLoop readPos reservePos seen }
  | .consume offset length => { s with consumer := .consumeLoad offset length s.queue.readPosition }
  | .consumeLoad offset length readPos =>
    let entryState := load32 s.queue.data (physicalOffset s.queue.capacity readPos)
    { s with
      consumer := .consumeClear offset length readPos
        (entrySize s.queue.entryAlignment entryState) }
  | .consumeClear offset length readPos total =>
    { s.clear readPos total with
      released := s.released + 1
      -- what the caller was handed, as it is when the entry goes
      received := s.received ++ [slice s.queue.data offset length]
      consumer := .consumeStore (readPos + total) }
  | .consumeStore readPos =>
    { s with
      queue := { s.queue with readPosition := readPos }
      consumer := .idle }
  | _ => s

def ProducerReady : MpscProducerPc → Prop
  | .idle => True
  | .refused => True
  | _ => False

def ConsumerReady : MpscConsumerPc → Prop
  | .idle => True
  | .empty => True
  | .peeked _ _ => True
  | _ => False

inductive Step : MpscSystem θ → MpscSystem θ → Prop where
  | produce {s : MpscSystem θ} (t : θ) : Step s (s.produce t)
  | consume {s : MpscSystem θ} : Step s s.consumeStep
  | beginWrite {s : MpscSystem θ} (t : θ) (length : ℕ) : ProducerReady (s.producers t) →
      Step s (s.goto t (beginWrite s.queue length))
  | store {s : MpscSystem θ} (t : θ) {offset length ticket i : ℕ} (byte : UInt8) :
      s.producers t = .reserved offset length ticket → i < length →
      Step s ((s.write (Function.update s.queue.data (offset + 4 + i) byte)).note ticket
        fun r => { r with payload := r.payload.set i byte })
  | commitWrite {s : MpscSystem θ} (t : θ) {offset length ticket : ℕ} :
      s.producers t = .reserved offset length ticket →
      Step s (s.resolve t offset ticket length .committed)
  | cancelWrite {s : MpscSystem θ} (t : θ) {offset length ticket : ℕ} :
      s.producers t = .reserved offset length ticket →
      Step s (s.resolve t offset ticket (length ||| cancelBit) .cancelled)
  | peek {s : MpscSystem θ} : ConsumerReady s.consumer → Step s { s with consumer := .peek }
  | beginConsume {s : MpscSystem θ} {offset length : ℕ} : s.consumer = .peeked offset length →
      Step s { s with consumer := .consume offset length }

/-- A new queue: `initialize` zeroed the region and the header is accepted. -/
def Init : Prop :=
  (∃ header memorySize, validateHeader mpscKind header memorySize = .ok () ∧
    s.queue.capacity = header.capacity.toNat ∧
    s.queue.entryAlignment = header.entryAlignment.toNat) ∧
  (∀ i, s.queue.data i = 0) ∧ s.queue.reservePosition = 0 ∧ s.queue.readPosition = 0 ∧
  (∀ t, s.producers t = .idle) ∧ s.consumer = .idle ∧ s.reservations = [] ∧ s.released = 0 ∧
  s.clearedPosition = 0 ∧ s.received = []

def Reachable : MpscSystem θ → Prop := Transition.Reachable Init Step

end MpscSystem

end Hrx.Ring
