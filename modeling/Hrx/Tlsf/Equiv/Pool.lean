import Mathlib.Data.Nat.Log
import Hrx.Tlsf.Ops

/-!
# The node pool is a map from indices to nodes

Distinct indices have distinct places in the segments, so a write to one node is seen at that index
only (`Allocator.blockAt_modifyBlock`).  Everything above the pool uses this and never looks at
segments again, except for the publication of a new one.
-/

namespace Hrx.Tlsf

open Allocator

/-! ### Places -/

lemma log2_mono {m n : ℕ} (h : m ≤ n) : Nat.log2 m ≤ Nat.log2 n := by
  rw [Nat.log2_eq_log_two, Nat.log2_eq_log_two]
  exact Nat.log_mono_right h

lemma log2_eq_of_lt {m n : ℕ} (hle : 2 ^ m ≤ n) (hlt : n < 2 ^ (m + 1)) : Nat.log2 n = m := by
  have hn : n ≠ 0 := by have := Nat.two_pow_pos m; omega
  exact (Nat.log2_eq_iff hn).mpr ⟨hle, hlt⟩

namespace BlockPool

lemma locate_of_lt {pool : BlockPool} {index : ℕ} (h : index < pool.initialBlockCapacity) :
    pool.locate index = (0, index) :=
  if_pos h

lemma locate_of_le {pool : BlockPool} {index : ℕ} (h : pool.initialBlockCapacity ≤ index) :
    pool.locate index =
      (Nat.log2 index - pool.initialBlockShift + 1, index - 2 ^ Nat.log2 index) :=
  if_neg h.not_gt

/-- Two indices never share a place. -/
lemma locate_injective (pool : BlockPool) : Function.Injective pool.locate := by
  intro i j hij
  rcases lt_or_ge i pool.initialBlockCapacity with hi | hi <;>
    rcases lt_or_ge j pool.initialBlockCapacity with hj | hj
  · rw [locate_of_lt hi, locate_of_lt hj, Prod.mk.injEq] at hij
    exact hij.2
  · rw [locate_of_lt hi, locate_of_le hj, Prod.mk.injEq] at hij
    omega
  · rw [locate_of_le hi, locate_of_lt hj, Prod.mk.injEq] at hij
    omega
  · rw [locate_of_le hi, locate_of_le hj, Prod.mk.injEq, pool.shift_eq] at hij
    -- Beyond the first segment the segment determines the top bit, and the place the rest.
    have hi' := log2_mono hi
    have hj' := log2_mono hj
    have hlog : Nat.log2 i = Nat.log2 j := by omega
    have hpos := pool.capacity_pos
    have hile := Nat.log2_self_le (n := i) (by omega)
    have hjle := Nat.log2_self_le (n := j) (by omega)
    rw [hlog] at hile hij
    omega

@[simp] theorem blockAt_modifyBlock (pool : BlockPool) (i j : ℕ) (f : Block → Block) :
    (pool.modifyBlock i f).blockAt j = if j = i then f (pool.blockAt j) else pool.blockAt j := by
  show (if pool.locate j = pool.locate i then f (pool.blockAt j) else pool.blockAt j) = _
  simp only [pool.locate_injective.eq_iff]

end BlockPool

/-! ### Writes to a node -/

namespace Allocator

variable (s : Allocator) (i : ℕ) (f : Block → Block)

@[simp] theorem blockAt_modifyBlock (j : ℕ) :
    (s.modifyBlock i f).blockAt j = if j = i then f (s.blockAt j) else s.blockAt j :=
  s.pool.blockAt_modifyBlock i j f

@[simp] lemma modifyBlock_flBitmap : (s.modifyBlock i f).flBitmap = s.flBitmap := rfl

@[simp] lemma modifyBlock_slBitmaps : (s.modifyBlock i f).slBitmaps = s.slBitmaps := rfl

@[simp] lemma modifyBlock_freeLists : (s.modifyBlock i f).freeLists = s.freeLists := rfl

@[simp] lemma modifyBlock_freeBlockCount :
    (s.modifyBlock i f).freeBlockCount = s.freeBlockCount := rfl

/-- What writes to nodes and to the bin matrix leave alone: everything but these. -/
def outline : Allocator :=
  { s with
    flBitmap := 0
    slBitmaps := fun _ => 0
    freeLists := fun _ _ => 0
    freeBlockCount := 0
    taintedCoalesceCount := 0
    pool := { s.pool with blockSegments := fun _ _ => Block.zero } }

@[simp] lemma outline_modifyBlock : (s.modifyBlock i f).outline = s.outline := rfl

/-- How frontiers are kept: the inline capacity and the handler for what does not fit. -/
def policy (s : Allocator) : UInt8 × Option (Frontier → Frontier → Frontier) :=
  (s.frontierCapacity, s.frontierOverflow)

variable {s} {s' : Allocator} (h : s'.outline = s.outline)
include h

lemma rangeLength_of_outline : s'.rangeLength = s.rangeLength := (congrArg rangeLength h :)

lemma alignment_of_outline : s'.alignment = s.alignment := (congrArg alignment h :)

lemma blockCapacity_of_outline : s'.pool.blockCapacity = s.pool.blockCapacity :=
  (congrArg (fun t => t.pool.blockCapacity) h :)

lemma unusedNodeHead_of_outline : s'.unusedNodeHead = s.unusedNodeHead :=
  (congrArg unusedNodeHead h :)

lemma bytesAllocated_of_outline : s'.bytesAllocated = s.bytesAllocated :=
  (congrArg bytesAllocated h :)

lemma bytesFree_of_outline : s'.bytesFree = s.bytesFree := (congrArg bytesFree h :)

lemma outline_setUnused : { s' with unusedNodeHead := s.unusedNodeHead }.outline = s.outline :=
  (congrArg (fun t => { t with unusedNodeHead := s.unusedNodeHead }) h :)

lemma policy_of_outline : s'.policy = s.policy := (congrArg policy h :)

lemma allocationCount_of_outline : s'.allocationCount = s.allocationCount :=
  (congrArg allocationCount h :)

end Allocator

end Hrx.Tlsf
