import Hrx.Base.Alignment
import Hrx.Base.Status
import Hrx.Lib.ByteStore

/-!
# Message rings in shared memory: header and geometry

The two message queues of the runtime (`iree_spsc_queue_t`, `iree_mpsc_queue_t`) share their memory
layout: a header, two positions on cache lines of their own and a data region whose size is a power
of two.  A message is a four-byte length prefix with its payload, padded to the entry alignment.

Positions count the bytes ever written or read and are 64-bit in the source; they are natural
numbers here.
-/

namespace Hrx.Ring

/-- The header at offset 0 of the memory region. -/
structure Header where
  magic : UInt32
  version : UInt32
  capacity : UInt32
  entryAlignment : UInt32

/-- What tells the headers of the two queues apart. -/
structure HeaderKind where
  name : String
  magic : UInt32
  version : UInt32

/-- `IREE_SPSC_QUEUE_HEADER_SIZE` and `IREE_MPSC_QUEUE_HEADER_SIZE`. -/
def headerSize : ℕ := 256

/-- `IREE_SPSC_QUEUE_MIN_CAPACITY` and `IREE_MPSC_QUEUE_MIN_CAPACITY`. -/
def minCapacity : ℕ := 64

/-- The value in a length prefix that sends the consumer back to offset 0. -/
def skipMarker : ℕ := 2 ^ 32 - 1

/-- A hexadecimal rendering as `0x%08X` prints it. -/
def hex8 (n : ℕ) : String :=
  let digits := (Nat.toDigits 16 n).map Char.toUpper
  "0x" ++ String.ofList (List.replicate (8 - digits.length) '0' ++ digits)

/-- The memory a queue of this capacity takes (`required_size`). -/
def requiredSize (capacity : ℕ) : ℕ := headerSize + capacity

/-- Checks the header of an existing queue (`validate_header`). -/
def validateHeader (kind : HeaderKind) (header : Header) (memorySize : ℕ) : Except Status Unit :=
  let capacity := header.capacity.toNat
  let alignment := header.entryAlignment.toNat
  if header.magic ≠ kind.magic then
    .error ⟨.invalidArgument, kind.name ++ " queue magic mismatch: expected " ++
      hex8 kind.magic.toNat ++ ", got " ++ hex8 header.magic.toNat⟩
  else if header.version ≠ kind.version then
    .error ⟨.invalidArgument, kind.name ++ " queue version mismatch: expected " ++
      s!"{kind.version.toNat}, got {header.version.toNat}"⟩
  else if capacity < minCapacity then
    .error ⟨.invalidArgument, kind.name ++
      s!" queue capacity {capacity} is below minimum {minCapacity}"⟩
  else if hostSizeIsPowerOfTwo capacity = false then
    .error ⟨.invalidArgument, kind.name ++ s!" queue capacity {capacity} is not a power of two"⟩
  else if alignment < 4 then
    .error ⟨.invalidArgument, kind.name ++
      s!" queue entry_alignment {alignment} is less than minimum 4 (sizeof uint32_t)"⟩
  else if hostSizeIsPowerOfTwo alignment = false then
    .error ⟨.invalidArgument, kind.name ++
      s!" queue entry_alignment {alignment} is not a power of two"⟩
  else if memorySize < requiredSize capacity then
    .error ⟨.invalidArgument, kind.name ++
      s!" queue memory_size {memorySize} is less than required {requiredSize capacity}" ++
      s!" for capacity {capacity}"⟩
  else .ok ()

/-- The bytes an entry takes: prefix, payload and padding (`entry_size`). -/
def entrySize (entryAlignment payloadLength : ℕ) : ℕ := hostAlign (4 + payloadLength) entryAlignment

/-- The offset of a position in the data region, `position & mask`. -/
def physicalOffset (capacity position : ℕ) : ℕ := position &&& (capacity - 1)

/-! ### Geometry -/

/-- A capacity and an alignment that `validateHeader` accepts. -/
structure Geometry (capacity alignment : ℕ) : Prop where
  capacity_pow : ∃ k < 32, capacity = 2 ^ k
  alignment_pow : ∃ k < 32, alignment = 2 ^ k
  minCapacity_le : 64 ≤ capacity
  four_le : 4 ≤ alignment

lemma lt_32_of_two_pow {value k : ℕ} (h : value < 2 ^ 32) (hk : value = 2 ^ k) : k < 32 := by
  rw [hk] at h
  exact (Nat.pow_lt_pow_iff_right (by decide)).mp h

lemma geometry_of_validateHeader {kind : HeaderKind} {header : Header} {memorySize : ℕ}
    (h : validateHeader kind header memorySize = .ok ()) :
    Geometry header.capacity.toNat header.entryAlignment.toNat := by
  unfold validateHeader at h
  dsimp only at h
  split_ifs at h with hmagic hversion hmin hpow hfour halign hmemory
  rw [Bool.not_eq_false] at hpow halign
  obtain ⟨k, hk⟩ := exists_eq_two_pow hpow
  obtain ⟨j, hj⟩ := exists_eq_two_pow halign
  exact ⟨⟨k, lt_32_of_two_pow header.capacity.toNat_lt hk, hk⟩,
    ⟨j, lt_32_of_two_pow header.entryAlignment.toNat_lt hj, hj⟩, not_lt.mp hmin, not_lt.mp hfour⟩

variable {capacity alignment length position : ℕ} (g : Geometry capacity alignment)
include g

lemma Geometry.capacity_pos : 0 < capacity := by
  have := g.minCapacity_le
  omega

lemma Geometry.capacity_lt : capacity ≤ 2 ^ 31 := by
  obtain ⟨k, hk, rfl⟩ := g.capacity_pow
  exact Nat.pow_le_pow_right (by decide) (by omega)

lemma Geometry.physicalOffset_eq (position : ℕ) :
    physicalOffset capacity position = position % capacity := by
  obtain ⟨k, -, rfl⟩ := g.capacity_pow
  exact Nat.and_two_pow_sub_one_eq_mod position k

lemma Geometry.four_dvd_capacity : 4 ∣ capacity := by
  obtain ⟨k, -, rfl⟩ := g.capacity_pow
  have hk : 2 ≤ k := by
    refine (Nat.pow_le_pow_iff_right (a := 2) (by decide)).mp ?_
    have := g.minCapacity_le
    omega
  exact Nat.pow_dvd_pow 2 hk

/-- The size of an entry, where the sum does not overflow. -/
lemma Geometry.entrySize_spec (hlength : length < 2 ^ 62) :
    4 ∣ entrySize alignment length ∧ 4 + length ≤ entrySize alignment length := by
  obtain ⟨j, hj, rfl⟩ := g.alignment_pow
  have hpow : 2 ^ j ≤ 2 ^ 31 := Nat.pow_le_pow_right (by decide) (by omega)
  have hfits : 4 + length + (2 ^ j - 1) < 2 ^ 64 := by omega
  obtain ⟨hdvd, hle, -⟩ := maskAlignment_roundUp hfits
  have hj2 : 2 ≤ j := by
    refine (Nat.pow_le_pow_iff_right (a := 2) (by decide)).mp ?_
    have := g.four_le
    omega
  exact ⟨Nat.dvd_trans (Nat.pow_dvd_pow 2 hj2) hdvd, hle⟩

/-- The rest of the ring after an aligned position has room for a length prefix. -/
lemma Geometry.four_le_tail (hdvd : 4 ∣ position) : position % capacity + 4 ≤ capacity := by
  have hlt := Nat.mod_lt position g.capacity_pos
  have hmod : 4 ∣ position % capacity := (Nat.dvd_mod_iff g.four_dvd_capacity).mpr hdvd
  obtain ⟨a, ha⟩ := hmod
  obtain ⟨b, hb⟩ := g.four_dvd_capacity
  omega

end Hrx.Ring
