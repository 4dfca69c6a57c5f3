import Hrx.Frontier.Equiv.Lattice
import Hrx.Tlsf.History
import Hrx.Tlsf.Equiv.Blocks

/-!
# Reuse dependencies

A block's inline frontier, or its TAINTED flag, says when its bytes may be reused.  The requirement
is stated byte by byte: a block *covers* a map from bytes to epochs when it is tainted or its
frontier dominates the epochs of each of its bytes.  A block covers less when it shrinks, a merge
covers what both frontiers covered, and a merge that does not fit taints.
-/

namespace Hrx

open Frontier

namespace Frontier

@[simp] lemma toList_copyOver (target source : Frontier) :
    (target.copyOver source).toList = source.toList := by
  refine List.map_congr_left fun i hi => ?_
  show (if i < source.count then source.entries i else target.entries i) = source.entries i
  have hlt : i < source.count := List.mem_range.mp hi
  rw [if_pos hlt]

@[simp] lemma toList_clear (f : Frontier) : f.clear.toList = [] := rfl

variable {f : Frontier}

lemma valid_of_toList_eq {g : Frontier} (h : f.toList = g.toList) (hg : g.Valid) : f.Valid := by
  unfold Valid
  rwa [h]

lemma epochAt_of_toList_eq {g : Frontier} (h : f.toList = g.toList) : f.epochAt = g.epochAt := by
  unfold epochAt
  rw [h]

lemma valid_clear (f : Frontier) : f.clear.Valid := by
  unfold Valid
  rw [toList_clear]
  exact VectorClock.IsClock.nil

/-- An empty frontier requires nothing. -/
lemma epochAt_of_entryCount (h : f.entryCount = 0) (axis : ℕ) : f.epochAt axis = 0 := by
  unfold epochAt
  rw [toList_eq_nil_of_entryCount h]
  rfl

end Frontier

namespace Tlsf

/-- A block whose metadata is well formed and dominates what its bytes require, or is tainted. -/
structure Block.Covers (capacity : UInt8) (need : Prerequisites) (b : Block) : Prop where
  valid : b.frontier.Valid
  fits : b.frontier.entryCount ≤ capacity
  dominates : b.flags.tainted = false →
    ∀ byte, b.Holds byte → ∀ axis, need byte axis ≤ b.frontier.epochAt axis

/-- All blocks cover what their bytes require, and no handler captures what does not fit. -/
structure Covered (s : Allocator) (layout : List ℕ) (need : Prerequisites) : Prop where
  handler : s.frontierOverflow = none
  covers : ∀ i ∈ layout, (s.blockAt i).Covers s.frontierCapacity need

variable {s : Allocator} {need : Prerequisites} {b b' : Block} {capacity : UInt8} {j a : ℕ}

/-- Covering is a matter of the blocks and of the frontier policy. -/
lemma Covered.of_blocks {s' : Allocator} {layout layout' : List ℕ} {need' : Prerequisites}
    (h : Covered s layout need) (hpolicy : s'.policy = s.policy)
    (hblocks : ∀ i ∈ layout', (s'.blockAt i).Covers s.frontierCapacity need') :
    Covered s' layout' need' := by
  obtain ⟨hcapacity, hhandler⟩ := Prod.mk.injEq .. ▸ hpolicy
  exact ⟨hhandler.trans h.handler, fun i hi => hcapacity ▸ hblocks i hi⟩

/-- The block without its links. -/
def Block.payload (b : Block) : Block :=
  { b with prevPhysical := 0, nextPhysical := 0, prevFree := 0, nextFree := 0 }

lemma Block.payload_of_core (h : b'.core = b.core) : b'.payload = b.payload :=
  (congrArg payload h :)

lemma Block.free_of_payload_eq (h : b'.payload = b) : b'.flags.free = b.flags.free := h ▸ rfl

lemma Block.free_of_payload (h : b'.payload = b.payload) : b'.flags.free = b.flags.free :=
  congrArg (fun b => b.flags.free) h

/-- The fields of a payload. -/
lemma Block.fields_of_payload (h : b'.payload = b.payload) :
    b'.offset = b.offset ∧ b'.length = b.length ∧ b'.flags = b.flags ∧
      b'.frontier = b.frontier := by
  rw [Block.mk.injEq] at h
  exact ⟨h.1, h.2.1, h.2.2.2.2.2.2.1, h.2.2.2.2.2.2.2⟩

/-- Covering is a matter of the payload. -/
lemma Block.covers_payload_iff : b.payload.Covers capacity need ↔ b.Covers capacity need :=
  ⟨fun h => { h with }, fun h => { h with }⟩

lemma Block.Covers.of_payload (h : b.Covers capacity need) (hpayload : b'.payload = b.payload) :
    b'.Covers capacity need := by
  rwa [← covers_payload_iff, hpayload, covers_payload_iff]

/-- A block with the same metadata and no more bytes covers as much. -/
lemma Block.Covers.shrink (h : b.Covers capacity need)
    (htaint : b'.flags.tainted = b.flags.tainted) (hlist : b'.frontier.toList = b.frontier.toList)
    (hcount : b'.frontier.entryCount = b.frontier.entryCount)
    (hbytes : ∀ byte, b'.Holds byte → b.Holds byte) : b'.Covers capacity need where
  valid := valid_of_toList_eq hlist h.valid
  fits := hcount ▸ h.fits
  dominates := by
    intro htainted byte hbyte axis
    rw [epochAt_of_toList_eq hlist]
    exact h.dominates (htaint ▸ htainted) byte (hbytes byte hbyte) axis

/-! ### Merging frontiers -/

lemma Allocator.blockAt_mergeFrontiers_of_ne (s : Allocator) {target : ℕ} (source : Frontier)
    (hj : j ≠ target) : (s.mergeFrontiers target source).blockAt j = s.blockAt j := by
  unfold mergeFrontiers
  dsimp only
  split_ifs
  · rfl
  · rfl
  · rw [blockAt_modifyBlock, if_neg hj]
  · split
    · rw [blockAt_modifyBlock, if_neg hj]
    · show (Allocator.modifyBlock _ _ _).blockAt j = _
      rw [blockAt_modifyBlock, if_neg hj]

/-- Without a handler a merge keeps the target's metadata well formed, and an untainted target
dominates both frontiers. -/
lemma Allocator.mergeFrontiers_spec {target : ℕ} {source : Frontier}
    (hhandler : s.frontierOverflow = none) (ht : (s.blockAt target).frontier.Valid)
    (hfits : (s.blockAt target).frontier.entryCount ≤ s.frontierCapacity) (hs : source.Valid) :
    ((s.mergeFrontiers target source).blockAt target).frontier.Valid ∧
    ((s.mergeFrontiers target source).blockAt target).frontier.entryCount ≤ s.frontierCapacity ∧
    (((s.mergeFrontiers target source).blockAt target).flags.tainted = false →
      (s.blockAt target).flags.tainted = false ∧ ∀ axis,
        (s.blockAt target).frontier.epochAt axis ≤
          ((s.mergeFrontiers target source).blockAt target).frontier.epochAt axis ∧
        source.epochAt axis ≤
          ((s.mergeFrontiers target source).blockAt target).frontier.epochAt axis) := by
  unfold mergeFrontiers
  dsimp only
  split_ifs with hempty htainted hmerged
  · refine ⟨ht, hfits, fun h => ⟨h, fun axis => ⟨le_rfl, ?_⟩⟩⟩
    rw [epochAt_of_entryCount hempty]
    exact Nat.zero_le _
  · refine ⟨ht, hfits, fun h => ?_⟩
    rw [htainted] at h
    exact absurd h (by decide)
  · rw [blockAt_modifyBlock, if_pos rfl]
    refine ⟨valid_mergeImpl ht hs hfits hmerged,
      entryCount_mergeImpl_le ht hs hfits, fun h => ⟨h, fun axis => ?_⟩⟩
    have hmax := epochAt_mergeImpl ht hs hfits hmerged axis
    show _ ≤ (mergeImpl _ _ _).target.epochAt axis ∧
      _ ≤ (mergeImpl _ _ _).target.epochAt axis
    rw [hmax]
    exact ⟨le_max_left _ _, le_max_right _ _⟩
  · -- The merge did not fit: the block is tainted and its frontier emptied.
    rw [hhandler]
    have hat : ∀ t : Allocator, ∀ n, ({ t with taintedCoalesceCount := n } : Allocator).blockAt
        target = t.blockAt target := fun _ _ => rfl
    rw [hat, blockAt_modifyBlock, if_pos rfl]
    exact ⟨valid_clear _, UInt8.le_iff_toNat_le.mpr (Nat.zero_le _),
      fun h => absurd h (by simp)⟩

/-! ### Freeing a block -/

lemma Allocator.blockAt_setDeathFrontier_of_ne (s : Allocator) {i : ℕ} (death : Option Frontier)
    (hj : j ≠ i) : (s.setDeathFrontier i death).blockAt j = s.blockAt j := by
  unfold setDeathFrontier
  cases death with
  | none => simp [clearFrontier, clearTaint, hj]
  | some =>
    dsimp only
    split_ifs
    · simp [clearFrontier, clearTaint, hj]
    · simp [clearTaint, hj]
    · rw [Allocator.blockAt_mergeFrontiers_of_ne _ _ hj]
      simp [clearFrontier, clearTaint, hj]

/-- A freed block covers its death frontier, whatever it covered before. -/
lemma Allocator.covers_setDeathFrontier {i : ℕ} {death : Option Frontier}
    (hhandler : s.frontierOverflow = none) (hvalid : ∀ f ∈ death, f.Valid) :
    ((s.setDeathFrontier i death).blockAt i).Covers s.frontierCapacity
      (need.record (s.blockAt i) death) := by
  have hstep := MetadataStep.setDeathFrontier s i death
  have hholds : ∀ byte, ((s.setDeathFrontier i death).blockAt i).Holds byte →
      (s.blockAt i).Holds byte := by
    intro byte h
    have hoffset := hstep.field Block.offset (fun _ => rfl) i
    have hlength := hstep.field Block.length (fun _ => rfl) i
    unfold Block.Holds at h ⊢
    rwa [hoffset, hlength] at h
  -- It is enough to dominate the death frontier itself.
  suffices hdom : ((s.setDeathFrontier i death).blockAt i).frontier.Valid ∧
      ((s.setDeathFrontier i death).blockAt i).frontier.entryCount ≤ s.frontierCapacity ∧
      (((s.setDeathFrontier i death).blockAt i).flags.tainted = false → ∀ axis,
        requiredEpoch death axis ≤
          ((s.setDeathFrontier i death).blockAt i).frontier.epochAt axis) by
    refine ⟨hdom.1, hdom.2.1, fun htaint byte hbyte axis => ?_⟩
    unfold Prerequisites.record
    rw [if_pos (hholds byte hbyte)]
    exact hdom.2.2 htaint axis
  have hempty : ∀ c : UInt8, (0 : UInt8) ≤ c := fun c =>
    UInt8.le_iff_toNat_le.mpr (Nat.zero_le _)
  unfold setDeathFrontier
  cases death with
  | none =>
    simp only [clearFrontier, blockAt_modifyBlock, if_pos]
    exact ⟨valid_clear _, hempty _, fun _ axis => Nat.zero_le _⟩
  | some f =>
    have hf : f.Valid := hvalid f rfl
    dsimp only [requiredEpoch]
    split_ifs with hzero hfits
    · simp only [clearFrontier, blockAt_modifyBlock, if_pos]
      refine ⟨valid_clear _, hempty _, fun _ axis => ?_⟩
      rw [epochAt_of_entryCount hzero]
      exact Nat.zero_le _
    · simp only [blockAt_modifyBlock, if_pos]
      refine ⟨valid_of_toList_eq (toList_copyOver _ _) hf, hfits,
        fun _ axis => ?_⟩
      rw [epochAt_of_toList_eq (toList_copyOver _ _)]
    -- Wider than the inline storage: merged into the emptied frontier.
    have hcleared : (((s.clearTaint i).clearFrontier i).blockAt i).frontier =
        (s.blockAt i).frontier.clear := by
      simp [clearFrontier, clearTaint]
    have hclear_valid : (((s.clearTaint i).clearFrontier i).blockAt i).frontier.Valid := by
      rw [hcleared]
      exact valid_clear _
    have hclear_fits : (((s.clearTaint i).clearFrontier i).blockAt i).frontier.entryCount ≤
        s.frontierCapacity := by
      rw [hcleared]
      exact hempty _
    have hspec := mergeFrontiers_spec (s := (s.clearTaint i).clearFrontier i) hhandler
      hclear_valid hclear_fits hf
    exact ⟨hspec.1, hspec.2.1, fun htaint axis => ((hspec.2.2 htaint).2 axis).2⟩

/-! ### Coalescing -/

lemma Allocator.payload_absorbInto_of_ne (s : Allocator) {b : ℕ} (hj : j ≠ a) :
    ((s.absorbInto a b).blockAt j).payload = (s.blockAt j).payload := by
  unfold absorbInto
  dsimp only
  split_ifs <;>
    simp only [blockAt_modifyBlock, if_neg hj, s.blockAt_mergeFrontiers_of_ne _ hj] <;>
    split <;> rfl

/-- The metadata of the surviving block: the merged frontier, or the taint of the absorbed one. -/
lemma Allocator.metadata_absorbInto (s : Allocator) {b : ℕ}
    (hnext : (s.blockAt b).nextPhysical ≠ a) :
    (((s.absorbInto a b).blockAt a).flags.tainted, ((s.absorbInto a b).blockAt a).frontier) =
      if (s.blockAt b).flags.tainted then
        (true, ((s.mergeFrontiers a (s.blockAt b).frontier).blockAt a).frontier.clear)
      else
        (((s.mergeFrontiers a (s.blockAt b).frontier).blockAt a).flags.tainted,
          ((s.mergeFrontiers a (s.blockAt b).frontier).blockAt a).frontier) := by
  unfold absorbInto
  dsimp only
  split_ifs <;>
    simp only [blockAt_modifyBlock, if_true, if_neg hnext.symm]

/-- A block that has absorbed its right neighbour covers what both covered. -/
lemma Allocator.covers_absorbInto {b : ℕ} (hhandler : s.frontierOverflow = none)
    (hnext : (s.blockAt b).nextPhysical ≠ a)
    (hadjacent : (s.blockAt b).offset = (s.blockAt a).offset + (s.blockAt a).length)
    (ha : (s.blockAt a).Covers s.frontierCapacity need)
    (hb : (s.blockAt b).Covers s.frontierCapacity need) :
    ((s.absorbInto a b).blockAt a).Covers s.frontierCapacity need := by
  have hspec := mergeFrontiers_spec hhandler ha.valid ha.fits hb.valid
  have hstep := MetadataStep.absorbInto s a b
  have hlinks := s.blockAt_absorbLinks hnext a
  rw [if_pos rfl] at hlinks
  have hoffset : ((s.absorbInto a b).blockAt a).offset = (s.blockAt a).offset := by
    rw [hstep.field Block.offset (fun _ => rfl), hlinks]
  have hlength : ((s.absorbInto a b).blockAt a).length =
      (s.blockAt a).length + (s.blockAt b).length := by
    rw [hstep.field Block.length (fun _ => rfl), hlinks]
  have hmeta := s.metadata_absorbInto hnext
  by_cases htainted : (s.blockAt b).flags.tainted = true
  · rw [if_pos htainted, Prod.mk.injEq] at hmeta
    refine ⟨hmeta.2 ▸ valid_clear _, ?_, fun h => ?_⟩
    · rw [hmeta.2]
      exact UInt8.le_iff_toNat_le.mpr (Nat.zero_le _)
    · rw [hmeta.1] at h
      exact absurd h (by decide)
  · rw [if_neg htainted, Prod.mk.injEq] at hmeta
    rw [Bool.not_eq_true] at htainted
    refine ⟨hmeta.2 ▸ hspec.1, hmeta.2 ▸ hspec.2.1, fun h byte hbyte axis => ?_⟩
    obtain ⟨huntainted, hdom⟩ := hspec.2.2 (hmeta.1 ▸ h)
    unfold Block.Holds at hbyte
    rw [hoffset, hlength] at hbyte
    rw [hmeta.2]
    -- The byte comes from one of the two blocks.
    by_cases hside : byte < (s.blockAt a).offset + (s.blockAt a).length
    · exact (ha.dominates huntainted byte ⟨hbyte.1, hside⟩ axis).trans (hdom axis).1
    · exact (hb.dominates htainted byte ⟨by omega, by omega⟩ axis).trans (hdom axis).2

end Tlsf

end Hrx
