import Hrx.Lib.Transition
import Hrx.Ring.Header

/-!
# The single-producer single-consumer ring

`iree_spsc_queue_t` with one producer and one consumer, interleaved at every load and store of the
positions and every access to the data region.  `begin_write` only plans: where the entry would not
fit before the end of the region it plans a skip marker there, and `commit_write` writes marker and
prefix before it publishes both with one store of the write position.

Between `begin_write` and `commit_write` the caller stores payload bytes one at a time, in any
order; `draft` is what it has stored.  `committed` and `received` list the payloads that were
published and the payloads that were consumed.
-/

namespace Hrx.Ring

open ByteStore

/-- The header of an SPSC queue: `IREE_SPSC_QUEUE_MAGIC`, `IREE_SPSC_QUEUE_VERSION`. -/
def spscKind : HeaderKind := ⟨"SPSC", 0x51525049, 1⟩

/-- The shared memory of a queue and the producer's private fields. -/
structure Spsc where
  capacity : ℕ
  entryAlignment : ℕ
  data : ℕ → UInt8
  writePosition : ℕ
  readPosition : ℕ
  cachedReadPosition : ℕ
  pendingWritePos : ℕ
  pendingSkipOffset : ℕ
  pendingSkipBytes : ℕ
  pendingEntryOffset : ℕ

namespace Spsc

/-- `iree_spsc_queue_free_space`. -/
def freeSpace (capacity writePos readPos : ℕ) : ℕ := capacity - (writePos - readPos)

/-- The first half of `plan_write`: the plan of an entry that fits before the end of the region. -/
def planTail (q : Spsc) (totalEntryBytes writePos : ℕ) : Option Spsc :=
  let offset := physicalOffset q.capacity writePos
  if totalEntryBytes ≤ q.capacity - offset then
    some { q with
      pendingSkipOffset := 0
      pendingSkipBytes := 0
      pendingEntryOffset := offset
      pendingWritePos := writePos }
  else none

/-- The space that an entry behind a skip marker takes. -/
def skipSpace (q : Spsc) (totalEntryBytes writePos : ℕ) : ℕ :=
  q.capacity - physicalOffset q.capacity writePos + totalEntryBytes

/-- The second half of `plan_write`: the plan of an entry behind a skip marker. -/
def planSkip (q : Spsc) (writePos : ℕ) : Spsc :=
  let offset := physicalOffset q.capacity writePos
  let skipBytes := q.capacity - offset
  { q with
    pendingSkipOffset := offset
    pendingSkipBytes := skipBytes
    pendingEntryOffset := 0
    pendingWritePos := writePos + skipBytes }

end Spsc

/-- Where the producer is.  `wasEmpty` notes whether the queue was empty when `begin_write` was
called. -/
inductive ProducerPc where
  | idle
  /-- `begin_write`: load the write position; refresh the read position; refresh it in
  `plan_write`. -/
  | beginWrite (length : ℕ) (wasEmpty : Bool)
  | refresh (length writePos : ℕ) (wasEmpty : Bool)
  | refreshSkip (length writePos : ℕ) (wasEmpty : Bool)
  /-- `begin_write` returned NULL. -/
  | refused (length : ℕ) (wasEmpty : Bool)
  /-- `begin_write` returned the payload, which the caller fills. -/
  | reserved (length : ℕ)
  /-- `commit_write`: write the skip marker, write the prefix, store the write position. -/
  | commitSkip (length : ℕ)
  | commitPrefix (length : ℕ)
  | commitStore (length : ℕ)

/-- Where the consumer is.  `seen` notes how many messages were committed when `peek` loaded the
write position. -/
inductive ConsumerPc where
  | idle
  /-- `peek`: load the read position, load the write position, then the loop. -/
  | peek
  | peekWrite (readPos : ℕ)
  | peekLoop (readPos writePos seen : ℕ)
  | peekSkip (readPos writePos seen : ℕ)
  /-- `peek` returned NULL. -/
  | empty (seen : ℕ)
  /-- `peek` returned a payload. -/
  | peeked (offset length : ℕ)
  /-- `consume`: load the read position, load the prefix, store the read position. -/
  | consume (offset length : ℕ)
  | consumePrefix (offset length readPos : ℕ)
  | consumeStore (offset length readPos : ℕ)

structure SpscSystem where
  queue : Spsc
  producer : ProducerPc
  consumer : ConsumerPc
  draft : List UInt8
  committed : List (List UInt8)
  received : List (List UInt8)

namespace SpscSystem

variable (s : SpscSystem)

/-- The end of a `begin_write` that has a plan. -/
def reserve (length : ℕ) (planned : Spsc) : SpscSystem :=
  { s with
    queue := planned
    producer := .reserved length
    -- the payload holds whatever the region held
    draft := slice planned.data (planned.pendingEntryOffset + 4) length }

/-- `plan_write` with the cached read position. -/
def plan (length writePos : ℕ) (wasEmpty : Bool) : SpscSystem :=
  let total := entrySize s.queue.entryAlignment length
  match s.queue.planTail total writePos with
  | some planned => s.reserve length planned
  | none =>
    if Spsc.freeSpace s.queue.capacity writePos s.queue.cachedReadPosition <
        s.queue.skipSpace total writePos then
      { s with producer := .refreshSkip length writePos wasEmpty }
    else s.reserve length (s.queue.planSkip writePos)

def refreshCache : SpscSystem :=
  { s with queue := { s.queue with cachedReadPosition := s.queue.readPosition } }

/-- The next step of the producer inside a call. -/
def produce : SpscSystem :=
  match s.producer with
  | .beginWrite length wasEmpty =>
    let writePos := s.queue.writePosition
    if Spsc.freeSpace s.queue.capacity writePos s.queue.cachedReadPosition <
        entrySize s.queue.entryAlignment length then
      { s with producer := .refresh length writePos wasEmpty }
    else s.plan length writePos wasEmpty
  | .refresh length writePos wasEmpty =>
    let s := s.refreshCache
    if Spsc.freeSpace s.queue.capacity writePos s.queue.cachedReadPosition <
        entrySize s.queue.entryAlignment length then
      { s with producer := .refused length wasEmpty }
    else s.plan length writePos wasEmpty
  | .refreshSkip length writePos wasEmpty =>
    let s := s.refreshCache
    if Spsc.freeSpace s.queue.capacity writePos s.queue.cachedReadPosition <
        s.queue.skipSpace (entrySize s.queue.entryAlignment length) writePos then
      { s with producer := .refused length wasEmpty }
    else s.reserve length (s.queue.planSkip writePos)
  | .commitSkip length =>
    if 0 < s.queue.pendingSkipBytes then
      { s with
        queue := { s.queue with
          data := store32 s.queue.data s.queue.pendingSkipOffset skipMarker }
        producer := .commitPrefix length }
    else { s with producer := .commitPrefix length }
  | .commitPrefix length =>
    { s with
      queue := { s.queue with
        data := store32 s.queue.data s.queue.pendingEntryOffset (length % 2 ^ 32) }
      producer := .commitStore length }
  | .commitStore length =>
    { s with
      queue := { s.queue with
        writePosition := s.queue.pendingWritePos + entrySize s.queue.entryAlignment length }
      producer := .idle
      committed := s.committed ++ [s.draft] }
  | _ => s

/-- The next step of the consumer inside a call. -/
def consumeStep : SpscSystem :=
  match s.consumer with
  | .peek => { s with consumer := .peekWrite s.queue.readPosition }
  | .peekWrite readPos =>
    { s with consumer := .peekLoop readPos s.queue.writePosition s.committed.length }
  | .peekLoop readPos writePos seen =>
    if readPos < writePos then
      let offset := physicalOffset s.queue.capacity readPos
      let entryLength := load32 s.queue.data offset
      if entryLength = skipMarker then
        { s with consumer := .peekSkip (readPos + (s.queue.capacity - offset)) writePos seen }
      else { s with consumer := .peeked (offset + 4) entryLength }
    else { s with consumer := .empty seen }
  | .peekSkip readPos writePos seen =>
    { s with
      queue := { s.queue with readPosition := readPos }
      consumer := .peekLoop readPos writePos seen }
  | .consume offset length =>
    { s with consumer := .consumePrefix offset length s.queue.readPosition }
  | .consumePrefix offset length readPos =>
    let entryLength := load32 s.queue.data (physicalOffset s.queue.capacity readPos)
    { s with
      consumer := .consumeStore offset length
        (readPos + entrySize s.queue.entryAlignment entryLength) }
  | .consumeStore offset length readPos =>
    { s with
      queue := { s.queue with readPosition := readPos }
      consumer := .idle
      received := s.received ++ [slice s.queue.data offset length] }
  | _ => s

def ProducerReady : ProducerPc → Prop
  | .idle => True
  | .refused _ _ => True
  | _ => False

def ConsumerReady : ConsumerPc → Prop
  | .idle => True
  | .empty _ => True
  | .peeked _ _ => True
  | _ => False

inductive Step : SpscSystem → SpscSystem → Prop where
  | produce {s : SpscSystem} : Step s s.produce
  | consume {s : SpscSystem} : Step s s.consumeStep
  | beginWrite {s : SpscSystem} {length : ℕ} : ProducerReady s.producer → length < 2 ^ 62 →
      Step s { s with
        producer := .beginWrite length (s.queue.writePosition == s.queue.readPosition) }
  | store {s : SpscSystem} {length i : ℕ} (byte : UInt8) : s.producer = .reserved length →
      i < length → Step s { s with
        queue := { s.queue with
          data := Function.update s.queue.data (s.queue.pendingEntryOffset + 4 + i) byte }
        draft := s.draft.set i byte }
  | commitWrite {s : SpscSystem} {length : ℕ} : s.producer = .reserved length →
      Step s { s with producer := .commitSkip length }
  | cancelWrite {s : SpscSystem} {length : ℕ} : s.producer = .reserved length →
      Step s { s with producer := .idle }
  | peek {s : SpscSystem} : ConsumerReady s.consumer → Step s { s with consumer := .peek }
  | beginConsume {s : SpscSystem} {offset length : ℕ} : s.consumer = .peeked offset length →
      Step s { s with consumer := .consume offset length }

/-- A new queue in memory whose header is accepted. -/
def Init : Prop :=
  (∃ header memorySize, validateHeader spscKind header memorySize = .ok () ∧
    s.queue.capacity = header.capacity.toNat ∧
    s.queue.entryAlignment = header.entryAlignment.toNat) ∧
  s.queue.writePosition = 0 ∧ s.queue.readPosition = 0 ∧ s.queue.cachedReadPosition = 0 ∧
  s.producer = .idle ∧ s.consumer = .idle ∧ s.committed = [] ∧ s.received = []

def Reachable : SpscSystem → Prop := Transition.Reachable Init Step

end SpscSystem

end Hrx.Ring
