import Hrx.Ring.Layout
import Hrx.Ring.Spsc

/-!
# The SPSC ring is a lossless FIFO

Between the read and the write position lie the messages that were committed and not yet received.
The producer writes only behind the write position and within one ring of a read position the
consumer has already passed, so it never touches them; the consumer moves the read position only
past what it has received or past a skip marker.
-/

namespace Hrx.Ring

open ByteStore List

def Spsc.region (q : Spsc) : Region := ⟨q.capacity, q.entryAlignment, q.data⟩

/-- The rest of the region that an entry of this size has to skip at a position. -/
def tailSkip (capacity position total : ℕ) : ℕ :=
  if total ≤ capacity - position % capacity then 0 else capacity - position % capacity

/-- A plan that `begin_write` has made: the entry lies in one piece behind the write position,
within a ring of the cached read position. -/
structure Spsc.Planned (q : Spsc) (length : ℕ) : Prop where
  length_lt : length < 2 ^ 62
  offset_eq : q.pendingEntryOffset = q.pendingWritePos % q.capacity
  fits : q.pendingEntryOffset + entrySize q.entryAlignment length ≤ q.capacity
  room : q.pendingWritePos + entrySize q.entryAlignment length ≤ q.cachedReadPosition + q.capacity
  skip : q.pendingSkipBytes = 0 ∧ q.pendingWritePos = q.writePosition ∨
    q.pendingSkipBytes = q.capacity - q.writePosition % q.capacity ∧ 0 < q.pendingSkipBytes ∧
      q.pendingSkipOffset = q.writePosition % q.capacity ∧
      q.pendingWritePos = q.writePosition + q.pendingSkipBytes

namespace SpscSystem

def unread (s : SpscSystem) : List (List UInt8) := s.committed.drop s.received.length

def Front (s : SpscSystem) (offset length : ℕ) : Prop :=
  ∃ payload, s.unread.head? = some payload ∧
    s.queue.region.MessageAt s.queue.readPosition payload ∧
    offset = s.queue.readPosition % s.queue.capacity + 4 ∧ length = payload.length

/-- The planned payload holds what the caller has stored. -/
structure Drafted (q : Spsc) (draft : List UInt8) (length : ℕ) : Prop where
  planned : q.Planned length
  length_eq : draft.length = length
  payload_eq : slice q.data (q.pendingEntryOffset + 4) length = draft

def ProducerAsserts (q : Spsc) (draft : List UInt8) : ProducerPc → Prop
  | .idle => True
  | .beginWrite length wasEmpty => length < 2 ^ 62 ∧
    (wasEmpty = true → q.writePosition = q.readPosition)
  | .refresh length writePos wasEmpty => length < 2 ^ 62 ∧ writePos = q.writePosition ∧
    (wasEmpty = true → q.writePosition = q.readPosition)
  | .refreshSkip length writePos wasEmpty => length < 2 ^ 62 ∧ writePos = q.writePosition ∧
    (wasEmpty = true → q.writePosition = q.readPosition) ∧
    q.capacity - q.writePosition % q.capacity < entrySize q.entryAlignment length
  | .refused length wasEmpty =>
    q.capacity - (q.writePosition - q.cachedReadPosition) < entrySize q.entryAlignment length +
      tailSkip q.capacity q.writePosition (entrySize q.entryAlignment length) ∧
    (wasEmpty = true → q.capacity < 2 * entrySize q.entryAlignment length)
  | .reserved length => Drafted q draft length
  | .commitSkip length => Drafted q draft length
  | .commitPrefix length => Drafted q draft length ∧
    (0 < q.pendingSkipBytes → load32 q.data q.pendingSkipOffset = skipMarker)
  | .commitStore length => Drafted q draft length ∧
    (0 < q.pendingSkipBytes → load32 q.data q.pendingSkipOffset = skipMarker) ∧
    load32 q.data q.pendingEntryOffset = length

/-- What `peek` relies on in its loop: up to the write position it loaded lie the messages that were
committed then. -/
structure Peeking (q : Spsc) (committed received : List (List UInt8)) (writePos seen : ℕ) :
    Prop where
  received_le : received.length ≤ seen
  seen_le : seen ≤ committed.length
  write_le : writePos ≤ q.writePosition
  laid : q.region.Laid q.readPosition ((committed.take seen).drop received.length) writePos

def ConsumerAsserts (s : SpscSystem) : ConsumerPc → Prop
  | .idle => True
  | .peek => True
  | .peekWrite readPos => readPos = s.queue.readPosition
  | .peekLoop readPos writePos seen => readPos = s.queue.readPosition ∧
    Peeking s.queue s.committed s.received writePos seen
  | .peekSkip readPos writePos seen => Peeking s.queue s.committed s.received writePos seen ∧
    s.queue.readPosition < writePos ∧
    load32 s.queue.data (s.queue.readPosition % s.queue.capacity) = skipMarker ∧
    readPos = s.queue.readPosition + (s.queue.capacity - s.queue.readPosition % s.queue.capacity)
  | .empty seen => s.received.length = seen
  | .peeked offset length => s.Front offset length
  | .consume offset length => s.Front offset length
  | .consumePrefix offset length readPos => s.Front offset length ∧ readPos = s.queue.readPosition
  | .consumeStore offset length readPos => s.Front offset length ∧
    readPos = s.queue.readPosition + entrySize s.queue.entryAlignment length

structure Inv (s : SpscSystem) : Prop where
  geometry : Geometry s.queue.capacity s.queue.entryAlignment
  aligned : 4 ∣ s.queue.writePosition
  cached_le : s.queue.cachedReadPosition ≤ s.queue.readPosition
  write_le : s.queue.writePosition ≤ s.queue.cachedReadPosition + s.queue.capacity
  received : s.received <+: s.committed
  laid : s.queue.region.Laid s.queue.readPosition s.unread s.queue.writePosition
  producer : ProducerAsserts s.queue s.draft s.producer
  consumer : s.ConsumerAsserts s.consumer

variable {s : SpscSystem}

lemma Inv.read_le (hi : s.Inv) : s.queue.readPosition ≤ s.queue.writePosition :=
  hi.laid.le hi.geometry

/-! ### The producer leaves the unread messages alone -/

/-- What a step of the producer may do to what the consumer sees. -/
structure Keeps (s s' : SpscSystem) : Prop where
  read : s'.queue.readPosition = s.queue.readPosition
  received : s'.received = s.received
  consumer : s'.consumer = s.consumer
  agrees : s.queue.region.Agrees s'.queue.region s.queue.readPosition s.queue.writePosition
  write_le : s.queue.writePosition ≤ s'.queue.writePosition
  committed : s.committed <+: s'.committed

variable {s' : SpscSystem} {offset length writePos seen readPos : ℕ} {pc : ProducerPc}
  {range : ℕ × ℕ}

section

variable (hi : s.Inv)
include hi

lemma Inv.producer_of (hpc : s.producer = pc) : ProducerAsserts s.queue s.draft pc :=
  hpc ▸ hi.producer

lemma Inv.consumer_of {pc : ConsumerPc} (hpc : s.consumer = pc) : s.ConsumerAsserts pc :=
  hpc ▸ hi.consumer

lemma Keeps.unread_append (hk : s.Keeps s') : ∃ more, s'.unread = s.unread ++ more := by
  obtain ⟨more, hmore⟩ := hk.committed
  refine ⟨more, ?_⟩
  rw [unread, unread, ← hmore, hk.received, drop_append_of_le_length hi.received.length_le]

/-- The first unread message stays where it is. -/
lemma Keeps.front (hk : s.Keeps s') (h : s.Front offset length) : s'.Front offset length := by
  obtain ⟨payload, hhead, hm, hoffset, hlength⟩ := h
  obtain ⟨more, hmore⟩ := hk.unread_append hi
  have hcap : s'.queue.capacity = s.queue.capacity := hk.agrees.capacity
  refine ⟨payload, ?_, ?_, ?_, hlength⟩
  · rw [hmore, List.head?_append, hhead]
    rfl
  · rw [hk.read]
    refine hm.congr hi.geometry (hk.agrees.mono le_rfl ?_)
    obtain ⟨rest, hunread⟩ := head?_eq_some_iff.mp hhead
    have hlaid := hi.laid
    rw [hunread] at hlaid
    obtain ⟨next, hentry, hrest⟩ := hlaid
    have hle := hrest.le hi.geometry
    cases hentry with
    | plain => exact hle
    | skipped => omega
  · rw [hk.read, hcap]
    exact hoffset

lemma Keeps.peeking (hk : s.Keeps s') (h : Peeking s.queue s.committed s.received writePos seen) :
    Peeking s'.queue s'.committed s'.received writePos seen := by
  obtain ⟨more, hmore⟩ := hk.committed
  refine ⟨?_, ?_, h.write_le.trans hk.write_le, ?_⟩
  · rw [hk.received]
    exact h.received_le
  · exact h.seen_le.trans hk.committed.length_le
  · rw [hk.read, hk.received, ← hmore, take_append_of_le_length h.seen_le]
    exact h.laid.congr hi.geometry (hk.agrees.mono le_rfl h.write_le)

/-- What the consumer relies on survives the steps of the producer. -/
lemma Keeps.consumerAsserts (hk : s.Keeps s') : s'.ConsumerAsserts s'.consumer := by
  have hc := hi.consumer
  have hcap : s'.queue.capacity = s.queue.capacity := hk.agrees.capacity
  have halign : s'.queue.entryAlignment = s.queue.entryAlignment := hk.agrees.alignment
  rw [hk.consumer]
  generalize s.consumer = pc at hc ⊢
  cases pc with
  | idle | peek => exact trivial
  | peekWrite =>
    exact hc.trans hk.read.symm
  | peekLoop =>
    exact ⟨hc.1.trans hk.read.symm, hk.peeking hi hc.2⟩
  | peekSkip readPos writePos seen =>
    obtain ⟨hpeeking, hlt, hmarker, hread⟩ := hc
    refine ⟨hk.peeking hi hpeeking, hk.read ▸ hlt, ?_, ?_⟩
    · -- the marker lies below the write position
      have hle := hpeeking.write_le
      have hroom := hpeeking.laid.room hi.geometry hlt
      have hstop : s.queue.readPosition + 4 ≤ s.queue.writePosition := by
        have hskipped := (hpeeking.laid.skip hi.geometry hlt hmarker).le hi.geometry
        omega
      rw [hk.read, hcap]
      refine (load32_congr fun i hi' hi'' => ?_).trans hmarker
      exact (hk.agrees.mono le_rfl hstop).offset hroom i hi' hi''
    · rw [hk.read, hcap]
      exact hread
  | empty =>
    exact (congrArg List.length hk.received).trans hc
  | peeked | consume =>
    exact hk.front hi hc
  | consumePrefix =>
    exact ⟨hk.front hi hc.1, hc.2.trans hk.read.symm⟩
  | consumeStore =>
    refine ⟨hk.front hi hc.1, ?_⟩
    rw [hk.read, halign]
    exact hc.2

/-- A step of the producer that publishes nothing and touches only bytes behind the write position
and within a ring of the read position keeps the invariant. -/
lemma Inv.of_private (hk : s.Keeps s') (hwrite : s'.queue.writePosition = s.queue.writePosition)
    (hcommitted : s'.committed = s.committed)
    (hcached : s'.queue.cachedReadPosition ≤ s.queue.readPosition)
    (hroom : s.queue.writePosition ≤ s'.queue.cachedReadPosition + s.queue.capacity)
    (hproducer : ProducerAsserts s'.queue s'.draft s'.producer) : s'.Inv := by
  have hcap : s'.queue.capacity = s.queue.capacity := hk.agrees.capacity
  have halign : s'.queue.entryAlignment = s.queue.entryAlignment := hk.agrees.alignment
  have hunread : s'.unread = s.unread := by rw [unread, unread, hcommitted, hk.received]
  refine ⟨?_, ?_, ?_, ?_, ?_, ?_, hproducer, hk.consumerAsserts hi⟩
  · rw [hcap, halign]
    exact hi.geometry
  · rw [hwrite]
    exact hi.aligned
  · rw [hk.read]
    exact hcached
  · rw [hwrite, hcap]
    exact hroom
  · rw [hk.received, hcommitted]
    exact hi.received
  · rw [hk.read, hwrite, hunread]
    exact hi.laid.congr hi.geometry hk.agrees

/-- The bytes of a contiguous range behind the write position are not those of unread messages. -/
lemma Inv.offset_not_mem {position size : ℕ} (hposition : s.queue.writePosition ≤ position)
    (hroom : position + size ≤ s.queue.cachedReadPosition + s.queue.capacity)
    (hfits : position % s.queue.capacity + size ≤ s.queue.capacity) {p : ℕ}
    (hp : s.queue.readPosition ≤ p) (hp' : p < s.queue.writePosition) :
    p % s.queue.capacity < position % s.queue.capacity ∨
      position % s.queue.capacity + size ≤ p % s.queue.capacity := by
  have hcached := hi.cached_le
  exact not_mem_of_apart le_rfl (by omega) (by omega) (by omega) hfits (by omega)

/-! ### Steps of the producer -/

omit hi in
/-- A step that leaves the shared memory alone. -/
lemma keeps_of_eq (hcapacity : s'.queue.capacity = s.queue.capacity)
    (halignment : s'.queue.entryAlignment = s.queue.entryAlignment)
    (hdata : s'.queue.data = s.queue.data) (hwrite : s'.queue.writePosition = s.queue.writePosition)
    (hread : s'.queue.readPosition = s.queue.readPosition) (hconsumer : s'.consumer = s.consumer)
    (hcommitted : s'.committed = s.committed) (hreceived : s'.received = s.received) :
    s.Keeps s' where
  read := hread
  received := hreceived
  consumer := hconsumer
  agrees := ⟨hcapacity, halignment, fun _ _ _ => congrFun hdata _⟩
  write_le := hwrite.ge
  committed := hcommitted ▸ prefix_rfl

/-- A step of the producer that only moves it. -/
lemma Inv.moveProducer (hpc : ProducerAsserts s.queue s.draft pc) : { s with producer := pc }.Inv :=
  hi.of_private (keeps_of_eq rfl rfl rfl rfl rfl rfl rfl rfl) rfl rfl hi.cached_le hi.write_le hpc

/-- The end of a `begin_write` that has a plan. -/
lemma Inv.reserve {planned : Spsc} (hcapacity : planned.capacity = s.queue.capacity)
    (halignment : planned.entryAlignment = s.queue.entryAlignment)
    (hdata : planned.data = s.queue.data) (hwrite : planned.writePosition = s.queue.writePosition)
    (hread : planned.readPosition = s.queue.readPosition)
    (hcached : planned.cachedReadPosition = s.queue.cachedReadPosition)
    (hplanned : planned.Planned length) : (s.reserve length planned).Inv := by
  refine hi.of_private (keeps_of_eq hcapacity halignment hdata hwrite hread rfl rfl rfl) hwrite rfl
    ?_ ?_ ⟨hplanned, length_slice, rfl⟩
  · exact hcached.le.trans hi.cached_le
  · exact hi.write_le.trans
      (by rw [show (s.reserve length planned).queue.cachedReadPosition = _ from hcached])

/-- The plan of an entry that fits before the end of the region. -/
lemma Inv.planned_tail (hlength : length < 2 ^ 62)
    (hfits : entrySize s.queue.entryAlignment length ≤
      s.queue.capacity - s.queue.writePosition % s.queue.capacity)
    (hfree : entrySize s.queue.entryAlignment length ≤
      s.queue.capacity - (s.queue.writePosition - s.queue.cachedReadPosition)) :
    Spsc.Planned { s.queue with
      pendingSkipOffset := 0
      pendingSkipBytes := 0
      pendingEntryOffset := s.queue.writePosition % s.queue.capacity
      pendingWritePos := s.queue.writePosition } length := by
  have hlt := Nat.mod_lt s.queue.writePosition hi.geometry.capacity_pos
  have hwrite := hi.write_le
  refine ⟨hlength, rfl, ?_, ?_, Or.inl ⟨rfl, rfl⟩⟩
  · dsimp only
    omega
  · dsimp only
    omega

/-- The plan of an entry behind a skip marker. -/
lemma Inv.planned_skip (hlength : length < 2 ^ 62)
    (hnot : s.queue.capacity - s.queue.writePosition % s.queue.capacity <
      entrySize s.queue.entryAlignment length)
    (hfree : s.queue.capacity - s.queue.writePosition % s.queue.capacity +
      entrySize s.queue.entryAlignment length ≤
      s.queue.capacity - (s.queue.writePosition - s.queue.cachedReadPosition)) :
    (s.queue.planSkip s.queue.writePosition).Planned length := by
  have hpos := hi.geometry.capacity_pos
  have hlt := Nat.mod_lt s.queue.writePosition hpos
  have hoffset := hi.geometry.physicalOffset_eq s.queue.writePosition
  unfold Spsc.planSkip
  rw [hoffset]
  refine ⟨hlength, ?_, ?_, ?_, Or.inr ⟨rfl, ?_, rfl, rfl⟩⟩
  · exact (add_sub_mod hpos).symm
  · dsimp only
    omega
  · dsimp only
    omega
  · dsimp only
    omega

/-- `plan_write` with the cached read position. -/
lemma Inv.plan {wasEmpty : Bool} (hlength : length < 2 ^ 62)
    (hempty : wasEmpty = true → s.queue.writePosition = s.queue.readPosition)
    (hfree : entrySize s.queue.entryAlignment length ≤
      s.queue.capacity - (s.queue.writePosition - s.queue.cachedReadPosition)) :
    (s.plan length s.queue.writePosition wasEmpty).Inv := by
  have hoffset := hi.geometry.physicalOffset_eq s.queue.writePosition
  unfold SpscSystem.plan Spsc.planTail Spsc.skipSpace Spsc.freeSpace
  dsimp only
  rw [hoffset]
  by_cases hfits : entrySize s.queue.entryAlignment length ≤
      s.queue.capacity - s.queue.writePosition % s.queue.capacity
  · rw [if_pos hfits]
    exact hi.reserve rfl rfl rfl rfl rfl rfl (hi.planned_tail hlength hfits hfree)
  rw [if_neg hfits]
  split_ifs with hskip
  · exact hi.moveProducer ⟨hlength, rfl, hempty, not_le.mp hfits⟩
  · exact hi.reserve rfl rfl rfl rfl rfl rfl
      (hi.planned_skip hlength (not_le.mp hfits) (not_lt.mp hskip))

/-- Loading the read position into the cache. -/
lemma Inv.refreshCache (pc : ProducerPc)
    (hpc : ProducerAsserts { s.queue with cachedReadPosition := s.queue.readPosition } s.draft pc) :
    { s.refreshCache with producer := pc }.Inv := by
  refine hi.of_private (keeps_of_eq rfl rfl rfl rfl rfl rfl rfl rfl) rfl rfl le_rfl ?_ hpc
  exact hi.write_le.trans (Nat.add_le_add_right hi.cached_le _)

/-! ### Writes of the producer -/

omit hi in
/-- A planned entry lies behind the write position. -/
lemma Inv.write_le_pending (hp : s.queue.Planned length) :
    s.queue.writePosition ≤ s.queue.pendingWritePos := by
  rcases hp.skip with ⟨-, heq⟩ | ⟨-, -, -, heq⟩ <;> omega

/-- A skip marker lies behind the entry that comes after it. -/
lemma Inv.entry_le_skipOffset (hp : s.queue.Planned length) (hskip : 0 < s.queue.pendingSkipBytes) :
    s.queue.pendingEntryOffset + entrySize s.queue.entryAlignment length ≤
      s.queue.pendingSkipOffset := by
  obtain ⟨hzero, -⟩ | ⟨hbytes, -, hoffset, hpending⟩ := hp.skip
  · omega
  have hstart : s.queue.pendingEntryOffset = 0 := by
    rw [hp.offset_eq, hpending, hbytes, add_sub_mod hi.geometry.capacity_pos]
  have hcached := hi.cached_le
  have hread := hi.read_le
  have hroom := hp.room
  have hwindow : s.queue.writePosition % s.queue.capacity <
      s.queue.pendingWritePos % s.queue.capacity ∨
      s.queue.pendingWritePos % s.queue.capacity + entrySize s.queue.entryAlignment length ≤
        s.queue.writePosition % s.queue.capacity :=
    not_mem_of_apart le_rfl (by omega) (by omega) (by omega)
      (by rw [← hp.offset_eq]; exact hp.fits) (by omega)
  rw [← hp.offset_eq, ← hoffset] at hwindow
  omega

/-- A write into the planned entry leaves the unread messages alone. -/
lemma Inv.keeps_of_entry (hp : s.queue.Planned length) (data : ℕ → UInt8)
    (pc : ProducerPc) (draft : List UInt8)
    (hdata : ∀ i, i < s.queue.pendingEntryOffset ∨
      s.queue.pendingEntryOffset + entrySize s.queue.entryAlignment length ≤ i →
      data i = s.queue.data i) :
    s.Keeps { s with queue := { s.queue with data }, producer := pc, draft } where
  read := rfl
  received := rfl
  consumer := rfl
  agrees := by
    refine ⟨rfl, rfl, fun p hp' hp'' => hdata _ ?_⟩
    have hfits := hp.fits
    rw [hp.offset_eq] at hfits ⊢
    exact hi.offset_not_mem (Inv.write_le_pending hp) hp.room hfits hp' hp''
  write_le := le_rfl
  committed := prefix_rfl

/-- The caller stores a payload byte. -/
lemma Inv.store {i : ℕ} (byte : UInt8) (hpc : s.producer = .reserved length)
    (hlt : i < length) : Inv { s with
      queue := { s.queue with
        data := Function.update s.queue.data (s.queue.pendingEntryOffset + 4 + i) byte }
      draft := s.draft.set i byte } := by
  have hd : Drafted s.queue s.draft length := hi.producer_of hpc
  have hsize := (hi.geometry.entrySize_spec hd.planned.length_lt).2
  refine hi.of_private (hi.keeps_of_entry hd.planned _ s.producer _ fun k hk =>
    Function.update_of_ne (by omega) ..) rfl rfl hi.cached_le hi.write_le ?_
  rw [hpc]
  refine ⟨{ hd.planned with }, by rw [length_set, hd.length_eq], ?_⟩
  apply (slice_update byte).trans
  rw [hd.payload_eq]

/-- `commit_write` writes the skip marker. -/
lemma Inv.commitSkip (hpc : s.producer = .commitSkip length)
    (hskip : 0 < s.queue.pendingSkipBytes) : Inv { s with
      queue := { s.queue with
        data := store32 s.queue.data s.queue.pendingSkipOffset skipMarker }
      producer := .commitPrefix length } := by
  have hd : Drafted s.queue s.draft length := hi.producer_of hpc
  have hsize := (hi.geometry.entrySize_spec hd.planned.length_lt).2
  have hentry := hi.entry_le_skipOffset hd.planned hskip
  have htail := hi.geometry.four_le_tail hi.aligned
  have hroom := hd.planned.room
  obtain ⟨hzero, -⟩ | ⟨hbytes, -, hoffset, hpending⟩ := hd.planned.skip
  · omega
  refine hi.of_private ⟨rfl, rfl, rfl, ⟨rfl, rfl, fun p hp hp' => ?_⟩, le_rfl, prefix_rfl⟩ rfl
    rfl hi.cached_le hi.write_le
    ⟨⟨{ hd.planned with }, hd.length_eq, ?_⟩, fun _ => load32_store32 (by decide)⟩
  · refine store32_of_not_mem ?_
    rw [hoffset]
    exact hi.offset_not_mem le_rfl (by omega) htail hp hp'
  · refine (slice_congr fun k hk hk' => ?_).trans hd.payload_eq
    dsimp only at hk hk'
    exact store32_of_not_mem (Or.inl (by omega))

/-- `commit_write` writes the length prefix. -/
lemma Inv.commitPrefix (hpc : s.producer = .commitPrefix length) : Inv { s with
      queue := { s.queue with
        data := store32 s.queue.data s.queue.pendingEntryOffset (length % 2 ^ 32) }
      producer := .commitStore length } := by
  obtain ⟨hd, hmarker⟩ := hi.producer_of hpc
  have hsize := (hi.geometry.entrySize_spec hd.planned.length_lt).2
  have hfits := hd.planned.fits
  have hcapacity := hi.geometry.capacity_lt
  refine hi.of_private (hi.keeps_of_entry hd.planned _ _ s.draft fun k hk =>
    store32_of_not_mem (by omega)) rfl rfl hi.cached_le hi.write_le
    ⟨⟨{ hd.planned with }, hd.length_eq, ?_⟩, fun hskip => ?_, ?_⟩
  · refine (slice_congr fun k hk hk' => ?_).trans hd.payload_eq
    exact store32_of_not_mem (Or.inr hk)
  · have hentry := hi.entry_le_skipOffset hd.planned hskip
    refine (load32_congr fun k hk hk' => ?_).trans (hmarker hskip)
    dsimp only at hk hk'
    exact store32_of_not_mem (Or.inr (by omega))
  · refine (load32_store32 (Nat.mod_lt _ (by decide))).trans (Nat.mod_eq_of_lt ?_)
    omega

/-- The planned entry, as the consumer will find it. -/
lemma Inv.entryAt_pending (hd : Drafted s.queue s.draft length)
    (hmarker : 0 < s.queue.pendingSkipBytes →
      load32 s.queue.data s.queue.pendingSkipOffset = skipMarker)
    (hword : load32 s.queue.data s.queue.pendingEntryOffset = length) :
    s.queue.region.EntryAt s.queue.writePosition s.draft
      (s.queue.pendingWritePos + entrySize s.queue.entryAlignment length) := by
  have hlength := hd.length_eq
  have hsize : s.queue.region.size s.draft = entrySize s.queue.entryAlignment length := by
    rw [Region.size, hlength]
    rfl
  have hmessage : s.queue.region.MessageAt s.queue.pendingWritePos s.draft := by
    have hoffset : s.queue.pendingWritePos % s.queue.region.capacity = s.queue.pendingEntryOffset :=
      hd.planned.offset_eq.symm
    refine ⟨hlength ▸ hd.planned.length_lt, ?_, ?_, ?_⟩
    · rw [hoffset, hsize]
      exact hd.planned.fits
    · rw [hoffset, hlength]
      exact hword
    · rw [hoffset, hlength]
      exact hd.payload_eq
  rw [← hsize]
  rcases hd.planned.skip with ⟨-, heq⟩ | ⟨hbytes, hpos, hoffset, heq⟩
  · rw [heq] at hmessage ⊢
    exact .plain hmessage
  rw [heq, hbytes] at hmessage ⊢
  refine .skipped (hi.geometry.four_le_tail hi.aligned) ?_ hmessage
  have hload := hmarker hpos
  rwa [hoffset] at hload

/-- `commit_write` publishes the entry. -/
lemma Inv.commitStore (hpc : s.producer = .commitStore length) : Inv { s with
      queue := { s.queue with
        writePosition := s.queue.pendingWritePos + entrySize s.queue.entryAlignment length }
      producer := .idle
      committed := s.committed ++ [s.draft] } := by
  obtain ⟨hd, hmarker, hword⟩ := hi.producer_of hpc
  obtain ⟨hdvd, hsize⟩ := hi.geometry.entrySize_spec hd.planned.length_lt
  have hpending := Inv.write_le_pending hd.planned
  have haligned : 4 ∣ s.queue.pendingWritePos := by
    rcases hd.planned.skip with ⟨-, heq⟩ | ⟨hbytes, -, -, heq⟩
    · rw [heq]
      exact hi.aligned
    · have hzero := add_sub_mod (p := s.queue.writePosition) hi.geometry.capacity_pos
      rw [heq, hbytes]
      exact Nat.dvd_trans hi.geometry.four_dvd_capacity (Nat.dvd_of_mod_eq_zero hzero)
  refine ⟨hi.geometry, Nat.dvd_add haligned hdvd, hi.cached_le, hd.planned.room,
    hi.received.trans (prefix_append _ _), ?_, trivial, Keeps.consumerAsserts hi
      ⟨rfl, rfl, rfl, ⟨rfl, rfl, fun _ _ _ => rfl⟩, by dsimp only; omega, prefix_append _ _⟩⟩
  have hunread : (s.committed ++ [s.draft]).drop s.received.length = s.unread ++ [s.draft] :=
    drop_append_of_le_length hi.received.length_le
  show s.queue.region.Laid s.queue.readPosition
      ((s.committed ++ [s.draft]).drop s.received.length) _
  rw [hunread]
  exact hi.laid.concat (hi.entryAt_pending hd hmarker hword)

/-- Every step of the producer inside a call keeps the invariant. -/
lemma Inv.produce : s.produce.Inv := by
  have hproducer := hi.producer
  have hoffset := hi.geometry.physicalOffset_eq s.queue.writePosition
  unfold SpscSystem.produce
  generalize hpc : s.producer = pc at hproducer ⊢
  cases pc with
  | idle | refused | reserved => exact hi
  | beginWrite =>
    dsimp only
    split_ifs with hfull
    · exact hi.moveProducer ⟨hproducer.1, rfl, hproducer.2⟩
    · exact hi.plan hproducer.1 hproducer.2 (not_lt.mp hfull)
  | refresh =>
    obtain ⟨hlength, rfl, hempty⟩ := hproducer
    have hrefreshed : s.refreshCache.Inv :=
      hi.refreshCache s.producer (hpc ▸ ⟨hlength, rfl, hempty⟩)
    dsimp only
    split_ifs with hfull
    · refine hi.refreshCache _ ⟨?_, fun hc => ?_⟩
      · exact hfull.trans_le (Nat.le_add_right _ _)
      have hsame := hempty hc
      unfold Spsc.freeSpace SpscSystem.refreshCache at hfull
      dsimp only at hfull ⊢
      omega
    · exact hrefreshed.plan hlength hempty (not_lt.mp hfull)
  | refreshSkip =>
    obtain ⟨hlength, rfl, hempty, hnot⟩ := hproducer
    have hrefreshed : s.refreshCache.Inv :=
      hi.refreshCache s.producer (hpc ▸ ⟨hlength, rfl, hempty, hnot⟩)
    dsimp only
    split_ifs with hfull
    · unfold Spsc.freeSpace Spsc.skipSpace SpscSystem.refreshCache at hfull
      dsimp only at hfull
      rw [hoffset] at hfull
      refine hi.refreshCache _ ⟨?_, fun hc => ?_⟩
      · rw [tailSkip, if_neg hnot.not_ge, Nat.add_comm]
        exact hfull
      · have hsame := hempty hc
        dsimp only
        omega
    · unfold Spsc.freeSpace Spsc.skipSpace SpscSystem.refreshCache at hfull
      rw [hoffset] at hfull
      exact hrefreshed.reserve rfl rfl rfl rfl rfl rfl
        (hrefreshed.planned_skip hlength hnot (not_lt.mp hfull))
  | commitSkip =>
    split_ifs with hskip
    · exact hi.commitSkip hpc hskip
    · exact hi.moveProducer ⟨hproducer, fun hc => absurd hc hskip⟩
  | commitPrefix => exact hi.commitPrefix hpc
  | commitStore => exact hi.commitStore hpc

/-! ### Steps of the consumer -/

omit hi in
/-- What the producer relies on survives the steps of the consumer, which cannot move in an empty
queue. -/
lemma producerAsserts_of_read {q : Spsc} {draft : List UInt8} (h : ProducerAsserts q draft pc)
    (hstays : q.writePosition = q.readPosition → readPos = q.readPosition) :
    ProducerAsserts { q with readPosition := readPos } draft pc := by
  have hempty : ∀ {wasEmpty : Bool}, (wasEmpty = true → q.writePosition = q.readPosition) →
      wasEmpty = true → q.writePosition = readPos := by
    intro wasEmpty hc hw
    rw [hstays (hc hw)]
    exact hc hw
  have hdrafted : ∀ {length : ℕ}, Drafted q draft length →
      Drafted { q with readPosition := readPos } draft length := fun hd =>
    { hd with planned := { hd.planned with } }
  cases pc with
  | idle => exact trivial
  | beginWrite => exact ⟨h.1, hempty h.2⟩
  | refresh => exact ⟨h.1, h.2.1, hempty h.2.2⟩
  | refreshSkip => exact ⟨h.1, h.2.1, hempty h.2.2.1, h.2.2.2⟩
  | refused => exact h
  | reserved | commitSkip => exact hdrafted h
  | commitPrefix | commitStore => exact ⟨hdrafted h.1, h.2⟩

/-- A step of the consumer that only moves it. -/
lemma Inv.moveConsumer {pc : ConsumerPc}
    (hpc : { s with consumer := pc }.ConsumerAsserts pc) : { s with consumer := pc }.Inv :=
  { hi with consumer := hpc }

omit hi in
/-- The messages a `peek` can see come first among the unread ones. -/
lemma unread_of_seen {payload : List UInt8} {rest : List (List UInt8)}
    (h : (s.committed.take seen).drop s.received.length = payload :: rest) :
    ∃ more, s.unread = payload :: more := by
  refine ⟨rest ++ s.committed.drop (max seen s.received.length), ?_⟩
  rw [unread, ← cons_append, ← h]
  rcases Nat.lt_or_ge seen s.received.length with hlt | hge
  · rw [drop_eq_nil_of_le (by rw [length_take]; omega)] at h
    exact absurd h (by simp)
  rw [max_eq_left hge, ← drop_append_of_le_length, take_append_drop]
  rcases Nat.lt_or_ge s.received.length s.committed.length with hlen | hlen
  · rw [length_take]
    omega
  · rw [drop_eq_nil_of_le (by rw [length_take]; omega)] at h
    exact absurd h (by simp)

/-- Storing the position past a skip marker. -/
lemma Inv.peekSkip (hpc : s.consumer = .peekSkip readPos writePos seen) : Inv { s with
      queue := { s.queue with readPosition := readPos }
      consumer := .peekLoop readPos writePos seen } := by
  obtain ⟨hpeeking, hlt, hmarker, rfl⟩ := hi.consumer_of hpc
  have hle := hpeeking.write_le
  refine ⟨hi.geometry, hi.aligned, hi.cached_le.trans (Nat.le_add_right _ _),
    hi.write_le, hi.received,
    hi.laid.skip hi.geometry (hlt.trans_le hle) hmarker,
    producerAsserts_of_read hi.producer fun hc => ?_, rfl,
    ⟨hpeeking.received_le, hpeeking.seen_le, hle, hpeeking.laid.skip hi.geometry hlt hmarker⟩⟩
  omega

/-- Storing the position past the message that was peeked. -/
lemma Inv.consumeStore (hpc : s.consumer = .consumeStore offset length readPos) : Inv { s with
      queue := { s.queue with readPosition := readPos }
      consumer := .idle
      received := s.received ++ [slice s.queue.data offset length] } := by
  obtain ⟨⟨payload, hhead, hm, rfl, rfl⟩, rfl⟩ := hi.consumer_of hpc
  obtain ⟨rest, hunread⟩ := head?_eq_some_iff.mp hhead
  have hcommitted : s.committed = s.received ++ payload :: rest := by
    obtain ⟨more, hmore⟩ := hi.received
    rw [unread, ← hmore, drop_left] at hunread
    rw [← hmore, hunread]
  have hpayload : slice s.queue.data (s.queue.readPosition % s.queue.capacity + 4) payload.length =
      payload := hm.payload_eq
  have hlaid := hi.laid
  rw [hunread] at hlaid
  have hmarker : load32 s.queue.region.data (s.queue.readPosition % s.queue.region.capacity) ≠
      skipMarker := by
    rw [hm.length_eq]
    exact (hm.length_lt_skipMarker hi.geometry).ne
  have hrest := (hlaid.messageAt hmarker).2
  rw [hpayload]
  refine ⟨hi.geometry, hi.aligned, hi.cached_le.trans (Nat.le_add_right _ _), hi.write_le, ?_, ?_,
    producerAsserts_of_read hi.producer fun hc => ?_, trivial⟩
  · rw [hcommitted, append_cons]
    exact prefix_append _ _
  · show s.queue.region.Laid _ (s.committed.drop (s.received ++ [payload]).length) _
    rw [hcommitted, append_cons, drop_left]
    exact hrest
  · have hlt : s.unread ≠ [] := by rw [hunread]; simp
    exact absurd ((hi.laid.eq_nil_iff hi.geometry).mpr hc.symm) hlt

/-- Every step of the consumer inside a call keeps the invariant. -/
lemma Inv.consumeStep : s.consumeStep.Inv := by
  have hconsumer := hi.consumer
  have hoffset := hi.geometry.physicalOffset_eq s.queue.readPosition
  unfold SpscSystem.consumeStep
  generalize hpc : s.consumer = pc at hconsumer ⊢
  cases pc with
  | idle | empty | peeked => exact hi
  | peek => exact hi.moveConsumer rfl
  | peekWrite =>
    refine hi.moveConsumer ⟨hconsumer, hi.received.length_le, le_rfl, le_rfl, ?_⟩
    rw [take_length]
    exact hi.laid
  | peekLoop readPos writePos seen =>
    obtain ⟨rfl, hpeeking⟩ := hconsumer
    dsimp only
    rw [hoffset]
    split_ifs with hlt hmarker
    · exact hi.moveConsumer ⟨hpeeking, hlt, hmarker, rfl⟩
    · cases hseen : (s.committed.take seen).drop s.received.length with
      | nil =>
        have hc := (hpeeking.laid.eq_nil_iff hi.geometry).mp hseen
        omega
      | cons payload =>
        obtain ⟨more, hunread⟩ := unread_of_seen hseen
        have hlaid := hpeeking.laid
        rw [hseen] at hlaid
        have hm := (hlaid.messageAt hmarker).1
        refine hi.moveConsumer ⟨payload, ?_, hm, rfl, hm.length_eq⟩
        show s.unread.head? = some payload
        rw [hunread]
        rfl
    · -- the loop ends where the loaded write position is
      have hle := hpeeking.laid.le hi.geometry
      have hnil := (hpeeking.laid.eq_nil_iff hi.geometry).mpr (by omega)
      have hlength := congrArg List.length hnil
      rw [length_drop, length_take, length_nil] at hlength
      have hge := hpeeking.received_le
      have hle' := hpeeking.seen_le
      refine hi.moveConsumer (show s.received.length = seen from ?_)
      omega
  | peekSkip => exact hi.peekSkip hpc
  | consume =>
    exact hi.moveConsumer ⟨hconsumer, rfl⟩
  | consumePrefix =>
    obtain ⟨hfront, rfl⟩ := hconsumer
    refine hi.moveConsumer ⟨hfront, ?_⟩
    obtain ⟨payload, -, hm, -, rfl⟩ := hfront
    rw [hoffset, show load32 s.queue.data (s.queue.readPosition % s.queue.capacity) = _ from
      hm.length_eq]
  | consumeStore => exact hi.consumeStore hpc

/-- Every step keeps the invariant. -/
lemma Inv.step (h : Step s s') : s'.Inv := by
  cases h with
  | produce => exact hi.produce
  | consume => exact hi.consumeStep
  | beginWrite _ hlength => exact hi.moveProducer ⟨hlength, beq_iff_eq.mp⟩
  | store byte hpc hlt => exact hi.store byte hpc hlt
  | commitWrite hpc =>
    have hd : Drafted s.queue s.draft _ := hi.producer_of hpc
    exact hi.moveProducer hd
  | cancelWrite => exact hi.moveProducer trivial
  | peek => exact hi.moveConsumer trivial
  | beginConsume hpc => exact hi.moveConsumer (hi.consumer_of hpc)

omit hi in
lemma Inv.init (h : Init s) : s.Inv := by
  obtain ⟨⟨header, memorySize, hvalid, hcapacity, halignment⟩, hwrite, hread, hcached, hproducer,
    hconsumer, hcommitted, hreceived⟩ := h
  constructor
  · rw [hcapacity, halignment]
    exact geometry_of_validateHeader hvalid
  · rw [hwrite]
    exact Nat.dvd_zero 4
  · rw [hcached]
    exact Nat.zero_le _
  · rw [hwrite]
    exact Nat.zero_le _
  · rw [hreceived]
    exact nil_prefix
  · rw [unread, hcommitted, drop_nil, hread, hwrite]
    rfl
  · rw [hproducer]
    exact trivial
  · rw [hconsumer]
    exact trivial

omit hi in
lemma Reachable.inv (h : Reachable s) : s.Inv :=
  Transition.Reachable.invariant (p := Inv) (fun _ => Inv.init) (fun _ _ hi => hi.step) h

/-! ### The queue as its users see it -/

end

end SpscSystem

end Hrx.Ring
