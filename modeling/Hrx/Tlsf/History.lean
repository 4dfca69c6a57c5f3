import Hrx.Lib.Transition
import Hrx.Tlsf.Ops

/-!
# Histories of allocator calls

An allocator together with what its callers know: the handles they hold and, for every byte of the
range, the epochs it was last freed with.  A history makes one call at a time; `free` and `restore`
are only called on handles that are held, as the allocator requires of its callers.
-/

namespace Hrx.Tlsf

/-- The epochs of an optional frontier; none requires nothing. -/
def requiredEpoch (death : Option Frontier) (axis : ℕ) : ℕ :=
  match death with
  | none => 0
  | some frontier => frontier.epochAt axis

/-- The epochs each byte of the range requires before it is reused. -/
abbrev Prerequisites := ℕ → ℕ → ℕ

def Block.Holds (b : Block) (byte : ℕ) : Prop := b.offset ≤ byte ∧ byte < b.offset + b.length

instance (b : Block) (byte : ℕ) : Decidable (b.Holds byte) := inferInstanceAs (Decidable (_ ∧ _))

/-- The requirements after a block has been freed with the given frontier. -/
def Prerequisites.record (need : Prerequisites) (b : Block) (death : Option Frontier) :
    Prerequisites :=
  fun byte => if b.Holds byte then requiredEpoch death else need byte

/-- A growth that `prepareGrowth` returned for some state, possibly an earlier one. -/
def Growth.Prepared (growth : Growth) : Prop :=
  ∃ (s : Allocator) (blockIndex alignedLength : ℕ) (hostAllocates : Bool),
    prepareGrowth (s.queryGrowth blockIndex alignedLength) hostAllocates = .ok growth

/-- An allocator, the handles its callers hold, and the frontiers its bytes were last freed with. -/
structure History where
  tlsf : Allocator
  live : Finset ℕ
  death : Prerequisites

/-- The history of an allocator just initialized: every byte inherits the initial frontier. -/
def History.start (options : Options) (s : Allocator) : History :=
  ⟨s, ∅, fun _ => requiredEpoch options.initialFrontier⟩

/-- One call.  The death frontiers that are passed to `free` satisfy `accepts`. -/
inductive Step (accepts : Option Frontier → Prop) : History → History → Prop where
  | allocate {h : History} {length : ℕ} {hostAllocates : Bool} {s : Allocator} {a : Allocation} :
    h.tlsf.tryAllocate length hostAllocates = .ok (s, some a) →
      Step accepts h { h with tlsf := s, live := insert a.blockIndex h.live }
  | exhausted {h : History} {length : ℕ} {hostAllocates : Bool} {s : Allocator} :
    h.tlsf.tryAllocate length hostAllocates = .ok (s, none) →
      Step accepts h { h with tlsf := s }
  | failed {h : History} {length : ℕ} {hostAllocates : Bool} {status : Status} :
    h.tlsf.tryAllocate length hostAllocates = .error status → Step accepts h h
  | free {h : History} {blockIndex : ℕ} {death : Option Frontier} :
    blockIndex ∈ h.live → accepts death →
      Step accepts h
        { tlsf := h.tlsf.free blockIndex death
          live := h.live.erase blockIndex
          death := h.death.record (h.tlsf.blockAt blockIndex) death }
  | restore {h : History} {blockIndex : ℕ} : blockIndex ∈ h.live →
      Step accepts h
        { h with tlsf := h.tlsf.restore blockIndex, live := h.live.erase blockIndex }
  | grow {h : History} {growth : Growth} : growth.Prepared →
      Step accepts h { h with tlsf := (h.tlsf.applyGrowth growth).1 }

/-- The histories that finitely many calls reach after an initialization. -/
def Reachable (accepts : Option Frontier → Prop) (options : Options) (s : Allocator) :
    History → Prop :=
  Transition.Reachable (· = History.start options s) (Step accepts)

end Hrx.Tlsf
