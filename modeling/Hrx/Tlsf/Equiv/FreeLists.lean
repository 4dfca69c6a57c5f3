import Hrx.Lib.DoublyLinked
import Hrx.Tlsf.Equiv.SizeClass

/-!
# The segregated free lists

`FreeLists s bins listed` says that `bins` are the doubly linked lists behind the heads of the bin
matrix, that they hold exactly the blocks of `listed`, each in the bin of its length, and that the
two bitmap levels and the block count agree with them.  `insertFreeBlock` and `removeFreeBlock` add
and remove one block; the set `listed` is a parameter because both run in states in which a block
is already flagged FREE but not listed.
-/

namespace Hrx.Tlsf

open Allocator DoublyLinked Function List

/-! ### Bits -/

variable {w : ℕ} {s : Allocator} {bins : ℕ → ℕ → List ℕ} {listed : Finset ℕ}

lemma getLsbD_or_bit (x : BitVec w) (i k : ℕ) (hk : k < w) :
    (x ||| (1#w <<< i)).getLsbD k = (x.getLsbD k || decide (k = i)) := by
  rw [BitVec.getLsbD_or, ← BitVec.twoPow_eq, BitVec.getLsbD_twoPow]
  congr 1
  by_cases h : k = i
  · simp [← h, hk]
  · simp [h, Ne.symm h]

lemma getLsbD_and_not_bit (x : BitVec w) (i k : ℕ) (hk : k < w) :
    (x &&& ~~~(1#w <<< i)).getLsbD k = (x.getLsbD k && !decide (k = i)) := by
  have h := getLsbD_or_bit (0#w) i k hk
  rw [BitVec.zero_or, BitVec.getLsbD_zero, Bool.false_or] at h
  rw [BitVec.getLsbD_and, BitVec.getLsbD_not, h]
  simp [hk]

lemma ne_zero_iff_getLsbD (x : BitVec w) : x ≠ 0 ↔ ∃ k, k < w ∧ x.getLsbD k = true := by
  constructor
  · intro h
    exact ⟨x.ctz.toNat, BitVec.lt_of_getLsbD (BitVec.getLsbD_true_ctz_of_ne_zero h),
      BitVec.getLsbD_true_ctz_of_ne_zero h⟩
  · rintro ⟨k, -, hk⟩ rfl
    simp at hk

/-! ### The invariant -/

/-- The bin matrix holds exactly the blocks of `listed`, in doubly linked lists by size class, and
the bitmaps and the block count agree. -/
structure FreeLists (s : Allocator) (bins : ℕ → ℕ → List ℕ) (listed : Finset ℕ) : Prop where
  linked : ∀ fl sl, IsList (fun i => (s.blockAt i).nextFree) (fun i => (s.blockAt i).prevFree)
    indexNone (s.freeLists fl sl) (bins fl sl)
  mem_iff : ∀ fl sl i, i ∈ bins fl sl ↔
    i ∈ listed ∧ mappingInsert (s.blockAt i).length = (fl, sl)
  slBit : ∀ fl sl, fl < 64 → sl < 32 →
    ((s.slBitmaps fl).getLsbD sl = true ↔ s.freeLists fl sl ≠ indexNone)
  flBit : ∀ fl, fl < 64 → (s.flBitmap.getLsbD fl = true ↔ s.slBitmaps fl ≠ 0)
  count : s.freeBlockCount = listed.card

def Allocator.matrix (s : Allocator) : (ℕ → ℕ → ℕ) × (ℕ → BitVec 32) × BitVec 64 × ℕ :=
  (s.freeLists, s.slBitmaps, s.flBitmap, s.freeBlockCount)

@[simp] lemma Allocator.matrix_modifyBlock (s : Allocator) (i : ℕ) (f : Block → Block) :
    (s.modifyBlock i f).matrix = s.matrix := rfl

def Block.listing (b : Block) : ℕ × ℕ × ℕ := (b.length, b.prevFree, b.nextFree)

namespace FreeLists

variable {s' : Allocator} {i : ℕ}

/-- The free lists only depend on the matrix and on the list fields of the listed blocks. -/
lemma congr (h : FreeLists s bins listed) (hmatrix : s'.matrix = s.matrix)
    (hlisting : ∀ j ∈ listed, (s'.blockAt j).listing = (s.blockAt j).listing) :
    FreeLists s' bins listed := by
  obtain ⟨hlists, hsl, hfl, hcount⟩ := by
    simpa only [matrix, Prod.mk.injEq] using hmatrix
  refine ⟨fun fl sl => ?_, fun fl sl j => ?_, ?_, ?_, hcount.trans h.count⟩
  · have hmem : ∀ j ∈ bins fl sl, j ∈ listed := fun j hj => ((h.mem_iff fl sl j).mp hj).1
    rw [hlists]
    exact (h.linked fl sl).congr (fun j hj => congrArg (fun p => p.2.2) (hlisting j (hmem j hj)))
      (fun j hj => congrArg (fun p => p.2.1) (hlisting j (hmem j hj)))
  · rw [h.mem_iff]
    refine and_congr_right fun hj => ?_
    have hlength : (s'.blockAt j).length = (s.blockAt j).length := congrArg Prod.fst (hlisting j hj)
    rw [hlength]
  · rw [hlists, hsl]
    exact h.slBit
  · rw [hsl, hfl]
    exact h.flBit

/-- Bins of different size classes are disjoint. -/
lemma bin_unique (h : FreeLists s bins listed) {fl sl fl' sl' j : ℕ} (hj : j ∈ bins fl sl)
    (hj' : j ∈ bins fl' sl') : fl' = fl ∧ sl' = sl := by
  have h₁ := ((h.mem_iff fl sl j).mp hj).2
  have h₂ := ((h.mem_iff fl' sl' j).mp hj').2
  rw [h₁, Prod.mk.injEq] at h₂
  exact ⟨h₂.1.symm, h₂.2.symm⟩

lemma mem_listed (h : FreeLists s bins listed) {fl sl j : ℕ} (hj : j ∈ bins fl sl) : j ∈ listed :=
  ((h.mem_iff fl sl j).mp hj).1

end FreeLists

/-! ### Insertion -/

namespace Allocator

variable (s : Allocator) (index : ℕ)

lemma binOf_snd_lt : (s.binOf index).2 < 32 := mappingInsert_snd_lt _

/-- Linking writes free-list links only. -/
lemma blockAt_linkFree (fl sl j : ℕ) :
    (s.linkFree index fl sl).blockAt j =
      { s.blockAt j with
        prevFree :=
          if s.freeLists fl sl ≠ indexNone ∧ j = s.freeLists fl sl then index
          else if j = index then indexNone else (s.blockAt j).prevFree
        nextFree := if j = index then s.freeLists fl sl else (s.blockAt j).nextFree } := by
  show (if s.freeLists fl sl ≠ indexNone then _ else _ : Allocator).blockAt j = _
  by_cases hhead : s.freeLists fl sl ≠ indexNone
  · rw [if_pos hhead, blockAt_modifyBlock, blockAt_modifyBlock]
    simp only [hhead, ne_eq, not_false_eq_true, true_and]
    split_ifs <;> rfl
  · rw [if_neg hhead, blockAt_modifyBlock]
    simp only [hhead, false_and, if_false]
    split_ifs <;> rfl

lemma linkFree_fields (fl sl : ℕ) :
    (s.linkFree index fl sl).freeLists =
        (fun fl' sl' => if fl' = fl ∧ sl' = sl then index else s.freeLists fl' sl') ∧
      (s.linkFree index fl sl).slBitmaps = s.slBitmaps ∧
      (s.linkFree index fl sl).flBitmap = s.flBitmap ∧
      (s.linkFree index fl sl).freeBlockCount = s.freeBlockCount := by
  by_cases hhead : s.freeLists fl sl = indexNone <;> simp [linkFree, setFreeList, hhead]

lemma outline_linkFree (fl sl : ℕ) : (s.linkFree index fl sl).outline = s.outline := by
  by_cases hhead : s.freeLists fl sl = indexNone
  · simp only [linkFree, hhead, ne_eq, not_true_eq_false, if_false]
    rfl
  · simp only [linkFree, hhead, ne_eq, not_false_eq_true, if_true]
    rfl

@[simp] lemma outline_insertFreeBlock : (s.insertFreeBlock index).outline = s.outline :=
  s.outline_linkFree index (s.binOf index).1 (s.binOf index).2

lemma blockAt_insertFreeBlock (j : ℕ) : (s.insertFreeBlock index).blockAt j =
    (s.linkFree index (s.binOf index).1 (s.binOf index).2).blockAt j := rfl

lemma insertFreeBlock_freeLists (fl sl : ℕ) :
    (s.insertFreeBlock index).freeLists fl sl =
      if fl = (s.binOf index).1 ∧ sl = (s.binOf index).2 then index else s.freeLists fl sl := by
  show (s.linkFree index (s.binOf index).1 (s.binOf index).2).freeLists fl sl = _
  rw [(s.linkFree_fields index _ _).1]

lemma insertFreeBlock_slBitmaps :
    (s.insertFreeBlock index).slBitmaps = update s.slBitmaps (s.binOf index).1
      (s.slBitmaps (s.binOf index).1 ||| (1#32 <<< (s.binOf index).2)) := by
  rw [← (s.linkFree_fields index (s.binOf index).1 (s.binOf index).2).2.1]
  rfl

lemma insertFreeBlock_flBitmap :
    (s.insertFreeBlock index).flBitmap = s.flBitmap ||| (1#64 <<< (s.binOf index).1) := by
  rw [← (s.linkFree_fields index (s.binOf index).1 (s.binOf index).2).2.2.1]
  rfl

lemma insertFreeBlock_freeBlockCount :
    (s.insertFreeBlock index).freeBlockCount = s.freeBlockCount + 1 := by
  rw [← (s.linkFree_fields index (s.binOf index).1 (s.binOf index).2).2.2.2]
  rfl

end Allocator

/-- The bins after a block has been pushed on its own. -/
def pushBin (bins : ℕ → ℕ → List ℕ) (bin : ℕ × ℕ) (index fl sl : ℕ) : List ℕ :=
  if fl = bin.1 ∧ sl = bin.2 then index :: bins fl sl else bins fl sl

/-- **Insertion** adds one block to the free lists. -/
lemma FreeLists.insert {i : ℕ} (h : FreeLists s bins listed) (hi : i ∉ listed)
    (hnone : i ≠ indexNone) :
    FreeLists (s.insertFreeBlock i) (pushBin bins (s.binOf i) i) (insert i listed) where
  linked fl sl := by
    have hne : ∀ fl sl, ∀ y ∈ bins fl sl, y ≠ i := fun fl sl y hy hyi => hi (hyi ▸ h.mem_listed hy)
    rw [insertFreeBlock_freeLists, pushBin]
    simp only [blockAt_insertFreeBlock, blockAt_linkFree]
    split
    · rename_i hbin
      rw [hbin.1, hbin.2]
      have hlist := h.linked (s.binOf i).1 (s.binOf i).2
      refine hlist.push (fun hmem => hne _ _ i hmem rfl) hnone (if_pos rfl) ?_ ?_ ?_
      · -- The block is not its own predecessor.
        have hhead : ¬ (s.freeLists (s.binOf i).1 (s.binOf i).2 ≠ indexNone ∧
            i = s.freeLists (s.binOf i).1 (s.binOf i).2) :=
          fun hc => hne _ _ _ (hlist.head_mem hc.1) hc.2.symm
        rw [if_neg hhead, if_pos rfl]
      · exact fun y hy => if_neg (hne _ _ y hy)
      · intro y hy
        rw [if_neg (hne _ _ y hy)]
        have hy' : y ≠ indexNone := fun hy' => hlist.nil_not_mem (hy' ▸ hy)
        by_cases hyh : y = s.freeLists (s.binOf i).1 (s.binOf i).2
        · rw [if_pos ⟨hyh ▸ hy', hyh⟩, if_pos hyh]
        · rw [if_neg (fun hc => hyh hc.2), if_neg hyh]
    · rename_i hbin
      -- Other bins do not contain the old head.
      refine (h.linked fl sl).congr (fun y hy => if_neg (hne _ _ y hy)) (fun y hy => ?_)
      have hhead : ¬ (s.freeLists (s.binOf i).1 (s.binOf i).2 ≠ indexNone ∧
          y = s.freeLists (s.binOf i).1 (s.binOf i).2) := by
        rintro ⟨hhead, rfl⟩
        exact hbin (h.bin_unique ((h.linked _ _).head_mem hhead) hy)
      rw [if_neg hhead, if_neg (hne _ _ y hy)]
  mem_iff fl sl j := by
    rw [pushBin, blockAt_insertFreeBlock, blockAt_linkFree, Finset.mem_insert]
    have hbin : mappingInsert (s.blockAt i).length = ((s.binOf i).1, (s.binOf i).2) := rfl
    by_cases hj : j = i
    · subst hj
      have hnot : j ∉ bins fl sl := fun hmem => hi (h.mem_listed hmem)
      rw [hbin, Prod.mk.injEq]
      by_cases hb : fl = (s.binOf j).1 ∧ sl = (s.binOf j).2
      · rw [if_pos hb]; simp [hb]
      · rw [if_neg hb]
        refine iff_of_false hnot fun hc => hb ⟨hc.2.1.symm, hc.2.2.symm⟩
    · have hmem : (j ∈ if fl = (s.binOf i).1 ∧ sl = (s.binOf i).2 then i :: bins fl sl
          else bins fl sl) ↔ j ∈ bins fl sl := by
        split
        · rw [mem_cons]; simp [hj]
        · exact Iff.rfl
      rw [hmem, h.mem_iff]
      simp [hj]
  slBit fl sl hfl hsl := by
    rw [insertFreeBlock_slBitmaps, insertFreeBlock_freeLists]
    by_cases hf : fl = (s.binOf i).1
    · subst hf
      rw [update_self, getLsbD_or_bit _ _ _ hsl]
      by_cases hs : sl = (s.binOf i).2
      · simp [hs, hnone]
      · simp only [hs, decide_false, Bool.or_false, and_false, if_false]
        exact h.slBit _ sl hfl hsl
    · rw [update_of_ne hf, if_neg (fun hc => hf hc.1)]
      exact h.slBit fl sl hfl hsl
  flBit fl hfl := by
    rw [insertFreeBlock_slBitmaps, insertFreeBlock_flBitmap, getLsbD_or_bit _ _ _ hfl]
    by_cases hf : fl = (s.binOf i).1
    · rw [hf, update_self, ne_zero_iff_getLsbD]
      refine iff_of_true (by simp) ⟨(s.binOf i).2, s.binOf_snd_lt i, ?_⟩
      rw [getLsbD_or_bit _ _ _ (s.binOf_snd_lt i)]
      simp
    · rw [update_of_ne hf]
      simp only [hf, decide_false, Bool.or_false]
      exact h.flBit fl hfl
  count := by
    rw [insertFreeBlock_freeBlockCount, Finset.card_insert_of_notMem hi, h.count]

/-! ### Removal -/

namespace Allocator

variable (s : Allocator) (index : ℕ)

/-- Unlinking writes free-list links only. -/
lemma blockAt_unlinkFree (fl sl j : ℕ) :
    (s.unlinkFree index fl sl).blockAt j =
      { s.blockAt j with
        prevFree :=
          if j = index then indexNone
          else if (s.blockAt index).nextFree ≠ indexNone ∧ j = (s.blockAt index).nextFree then
            (s.blockAt index).prevFree
          else (s.blockAt j).prevFree
        nextFree :=
          if j = index then indexNone
          else if (s.blockAt index).prevFree ≠ indexNone ∧ j = (s.blockAt index).prevFree then
            (s.blockAt index).nextFree
          else (s.blockAt j).nextFree } := by
  unfold unlinkFree setFreeList
  rw [blockAt_modifyBlock]
  generalize (s.blockAt index).prevFree = p
  generalize (s.blockAt index).nextFree = n
  by_cases hn : n ≠ indexNone <;> by_cases hp : p ≠ indexNone <;>
    simp only [hn, hp, ne_eq, not_false_eq_true, if_true, if_false, true_and, false_and,
      blockAt_modifyBlock] <;>
    split_ifs <;> rfl

lemma unlinkFree_fields (fl sl : ℕ) :
    (s.unlinkFree index fl sl).freeLists =
        (fun fl' sl' => if (s.blockAt index).prevFree = indexNone ∧ fl' = fl ∧ sl' = sl then
          (s.blockAt index).nextFree else s.freeLists fl' sl') ∧
      (s.unlinkFree index fl sl).slBitmaps = s.slBitmaps ∧
      (s.unlinkFree index fl sl).flBitmap = s.flBitmap ∧
      (s.unlinkFree index fl sl).freeBlockCount = s.freeBlockCount := by
  unfold unlinkFree setFreeList
  by_cases hp : (s.blockAt index).prevFree = indexNone <;>
    by_cases hn : (s.blockAt index).nextFree = indexNone <;>
    simp [hp, hn]

@[simp] lemma outline_removeFreeBlock : (s.removeFreeBlock index).outline = s.outline := by
  have hclear : ∀ (t : Allocator) (fl sl : ℕ), (t.clearBitsIfEmpty fl sl).outline = t.outline := by
    intro t fl sl
    unfold clearBitsIfEmpty
    split <;> rfl
  show ((s.unlinkFree index _ _).clearBitsIfEmpty (s.binOf index).1 (s.binOf index).2).outline = _
  rw [hclear]
  by_cases hp : (s.blockAt index).prevFree = indexNone <;>
    by_cases hn : (s.blockAt index).nextFree = indexNone <;>
    simp only [unlinkFree, hp, hn, ne_eq, not_false_eq_true, not_true_eq_false,
      if_true, if_false] <;>
    rfl

lemma blockAt_removeFreeBlock (j : ℕ) : (s.removeFreeBlock index).blockAt j =
    (s.unlinkFree index (s.binOf index).1 (s.binOf index).2).blockAt j := by
  show ((s.unlinkFree index _ _).clearBitsIfEmpty _ _).blockAt j = _
  unfold clearBitsIfEmpty
  split <;> rfl

lemma removeFreeBlock_freeLists (fl sl : ℕ) :
    (s.removeFreeBlock index).freeLists fl sl =
      if (s.blockAt index).prevFree = indexNone ∧ fl = (s.binOf index).1 ∧ sl = (s.binOf index).2
      then (s.blockAt index).nextFree else s.freeLists fl sl := by
  have hfields := (s.unlinkFree_fields index (s.binOf index).1 (s.binOf index).2).1
  show ((s.unlinkFree index _ _).clearBitsIfEmpty _ _).freeLists fl sl = _
  rw [← congrFun (congrFun hfields fl) sl]
  unfold clearBitsIfEmpty
  split <;> rfl

lemma removeFreeBlock_freeBlockCount :
    (s.removeFreeBlock index).freeBlockCount = s.freeBlockCount - 1 := by
  rw [← (s.unlinkFree_fields index (s.binOf index).1 (s.binOf index).2).2.2.2]
  show ((s.unlinkFree index _ _).clearBitsIfEmpty _ _).freeBlockCount - 1 = _
  unfold clearBitsIfEmpty
  split <;> rfl

/-- Clearing restores the agreement of the bitmaps with the lists when only the given bin, whose
bit is set, may have become empty. -/
lemma clearBitsIfEmpty_bits {fl sl : ℕ} (hfl : fl < 64) (hsl : sl < 32)
    (hother : ∀ fl' sl', fl' < 64 → sl' < 32 → ¬ (fl' = fl ∧ sl' = sl) →
      ((s.slBitmaps fl').getLsbD sl' = true ↔ s.freeLists fl' sl' ≠ indexNone))
    (hbit : (s.slBitmaps fl).getLsbD sl = true)
    (hlevel : ∀ fl', fl' < 64 → (s.flBitmap.getLsbD fl' = true ↔ s.slBitmaps fl' ≠ 0)) :
    (∀ fl' sl', fl' < 64 → sl' < 32 →
      (((s.clearBitsIfEmpty fl sl).slBitmaps fl').getLsbD sl' = true ↔
        (s.clearBitsIfEmpty fl sl).freeLists fl' sl' ≠ indexNone)) ∧
    (∀ fl', fl' < 64 → ((s.clearBitsIfEmpty fl sl).flBitmap.getLsbD fl' = true ↔
      (s.clearBitsIfEmpty fl sl).slBitmaps fl' ≠ 0)) := by
  unfold clearBitsIfEmpty
  by_cases hempty : s.freeLists fl sl = indexNone
  · simp only [hempty, if_true]
    constructor
    · intro fl' sl' hfl' hsl'
      by_cases hf : fl' = fl
      · subst hf
        rw [update_self, getLsbD_and_not_bit _ _ _ hsl']
        by_cases hs : sl' = sl
        · subst hs
          simp [hempty]
        · simp only [hs, decide_false, Bool.not_false, Bool.and_true]
          exact hother fl' sl' hfl' hsl' fun hc => hs hc.2
      · rw [update_of_ne hf]
        exact hother fl' sl' hfl' hsl' fun hc => hf hc.1
    · intro fl' hfl'
      by_cases hf : fl' = fl
      · subst hf
        rw [update_self]
        split
        · rename_i hzero
          rw [getLsbD_and_not_bit _ _ _ hfl']
          simp [hzero]
        rename_i hzero
        -- A bitmap that still has a bit had one before.
        have hne : s.slBitmaps fl' ≠ 0 := by
          intro h0
          rw [h0] at hbit
          simp at hbit
        exact iff_of_true ((hlevel fl' hfl').mpr hne) hzero
      · rw [update_of_ne hf, ← hlevel fl' hfl']
        split
        · rw [getLsbD_and_not_bit _ _ _ hfl']
          simp [hf]
        · exact Iff.rfl
  · simp only [hempty, if_false]
    refine ⟨fun fl' sl' hfl' hsl' => ?_, hlevel⟩
    by_cases hbin : fl' = fl ∧ sl' = sl
    · rw [hbin.1, hbin.2]
      exact iff_of_true hbit hempty
    · exact hother fl' sl' hfl' hsl' hbin

end Allocator

/-- The bins after a block has left its own. -/
def eraseBin (bins : ℕ → ℕ → List ℕ) (bin : ℕ × ℕ) (index fl sl : ℕ) : List ℕ :=
  if fl = bin.1 ∧ sl = bin.2 then (bins fl sl).erase index else bins fl sl

/-- **Removal** takes one block off the free lists. -/
lemma FreeLists.remove {i : ℕ} (h : FreeLists s bins listed) (hi : i ∈ listed)
    (hlength : (s.blockAt i).length < 2 ^ 64) :
    FreeLists (s.removeFreeBlock i) (eraseBin bins (s.binOf i) i) (listed.erase i) := by
  have hmem : i ∈ bins (s.binOf i).1 (s.binOf i).2 := (h.mem_iff _ _ i).mpr ⟨hi, rfl⟩
  obtain ⟨l₁, l₂, hl⟩ := append_of_mem hmem
  have hlist := h.linked (s.binOf i).1 (s.binOf i).2
  rw [hl] at hlist
  have herase : (bins (s.binOf i).1 (s.binOf i).2).erase i = l₁ ++ l₂ := by
    rw [hl, erase_append_right _ hlist.not_mem_left, erase_cons_head]
  have hne_i : ∀ y ∈ l₁ ++ l₂, y ≠ i := fun y hy =>
    ne_of_mem_of_not_mem hy (by simp [hlist.not_mem_left, hlist.not_mem_right])
  have hnone : ∀ y ∈ l₁ ++ l₂, y ≠ indexNone := by
    rintro y hy rfl
    refine hlist.nil_not_mem ?_
    rcases mem_append.mp hy with hy | hy <;> simp [hy]
  have hlinked : ∀ fl sl, IsList (fun j => ((s.removeFreeBlock i).blockAt j).nextFree)
      (fun j => ((s.removeFreeBlock i).blockAt j).prevFree) indexNone
      ((s.removeFreeBlock i).freeLists fl sl) (eraseBin bins (s.binOf i) i fl sl) := by
    intro fl sl
    rw [removeFreeBlock_freeLists, eraseBin]
    simp only [blockAt_removeFreeBlock, blockAt_unlinkFree]
    by_cases hbin : fl = (s.binOf i).1 ∧ sl = (s.binOf i).2
    · rw [if_pos hbin, hbin.1, hbin.2, herase]
      simp only [and_true]
      refine hlist.unlink (fun y hy => ?_) (fun y hy => ?_)
      · rw [if_neg (hne_i y hy)]
        have hiff : ((s.blockAt i).prevFree ≠ indexNone ∧ y = (s.blockAt i).prevFree) ↔
            y = (s.blockAt i).prevFree :=
          ⟨fun hc => hc.2, fun hc => ⟨hc ▸ hnone y hy, hc⟩⟩
        simp only [hiff]
      · rw [if_neg (hne_i y hy)]
        have hiff : ((s.blockAt i).nextFree ≠ indexNone ∧ y = (s.blockAt i).nextFree) ↔
            y = (s.blockAt i).nextFree :=
          ⟨fun hc => hc.2, fun hc => ⟨hc ▸ hnone y hy, hc⟩⟩
        simp only [hiff]
    · rw [if_neg hbin, if_neg (fun hc => hbin hc.2)]
      have hout : ∀ y ∈ bins fl sl, y ∉ bins (s.binOf i).1 (s.binOf i).2 :=
        fun y hy hy' => hbin (h.bin_unique hy' hy)
      have hyi : ∀ y ∈ bins fl sl, y ≠ i := fun y hy hyi => hout y hy (hyi ▸ hmem)
      -- A neighbour of `i` in the list lies in the bin of `i`.
      refine (h.linked fl sl).congr (fun y hy => ?_) (fun y hy => ?_)
      · rw [if_neg (hyi y hy), if_neg]
        rintro ⟨hne, rfl⟩
        exact hout _ hy (hl ▸ mem_append_left _ (hlist.prev_mem hne))
      · rw [if_neg (hyi y hy), if_neg]
        rintro ⟨hne, rfl⟩
        exact hout _ hy (hl ▸ mem_append_right _ (mem_cons_of_mem _ (hlist.next_mem hne)))
  -- The bitmaps: `i` was listed, so its bit was set and only its bin can have become empty.
  obtain ⟨hfields, hslb, hflb, -⟩ := s.unlinkFree_fields i (s.binOf i).1 (s.binOf i).2
  have hfl : (s.binOf i).1 < 64 := mappingInsert_fst_lt hlength
  have hbits := (s.unlinkFree i (s.binOf i).1 (s.binOf i).2).clearBitsIfEmpty_bits hfl
    (s.binOf_snd_lt i)
    (by
      intro fl' sl' hfl' hsl' hbin
      rw [hslb, hfields]
      simp only [hbin, and_false, if_false]
      exact h.slBit fl' sl' hfl' hsl')
    (by
      rw [hslb, h.slBit _ _ hfl (s.binOf_snd_lt i), ne_eq, ← (h.linked _ _).nil_iff]
      exact ne_nil_of_mem hmem)
    (by rw [hslb, hflb]; exact h.flBit)
  refine ⟨hlinked, ?_, hbits.1, hbits.2, ?_⟩
  · intro fl sl j
    rw [eraseBin, blockAt_removeFreeBlock, blockAt_unlinkFree, Finset.mem_erase]
    rw [and_assoc, ← h.mem_iff]
    split
    · exact (h.linked fl sl).nodup.mem_erase_iff
    rename_i hbin
    refine ⟨fun hj => ⟨?_, hj⟩, fun hj => hj.2⟩
    rintro rfl
    exact hbin (h.bin_unique hmem hj)
  · rw [removeFreeBlock_freeBlockCount, Finset.card_erase_of_mem hi, h.count]

/-! ### Search -/

/-- The mask that keeps the bits above a position. -/
lemma getLsbD_maskAbove_iff {w : ℕ} (x : BitVec w) {n : ℕ} (hn : n < w) (k : ℕ) :
    (x &&& ~~~(BitVec.allOnes w >>> (w - 1 - n))).getLsbD k = true ↔
      x.getLsbD k = true ∧ n < k ∧ k < w := by
  rw [BitVec.getLsbD_and, BitVec.getLsbD_not, BitVec.getLsbD_ushiftRight, BitVec.getLsbD_allOnes]
  simp only [Bool.and_eq_true, Bool.not_eq_true', decide_eq_true_eq,
    decide_eq_false_iff_not, not_lt]
  refine and_congr_right fun _ => ?_
  omega

lemma getLsbD_maskFrom_iff {w : ℕ} (x : BitVec w) (n k : ℕ) :
    (x &&& (BitVec.allOnes w <<< n)).getLsbD k = true ↔ x.getLsbD k = true ∧ n ≤ k ∧ k < w := by
  rw [BitVec.getLsbD_and, BitVec.getLsbD_shiftLeft, BitVec.getLsbD_allOnes]
  simp only [Bool.and_eq_true, Bool.not_eq_true', decide_eq_true_eq,
    decide_eq_false_iff_not, not_lt]
  refine and_congr_right fun _ => ?_
  omega

/-- The head of a bin whose bit is set is a listed block of that size class. -/
lemma FreeLists.head_mem (h : FreeLists s bins listed) {fl sl : ℕ}
    (hhead : s.freeLists fl sl ≠ indexNone) :
    s.freeLists fl sl ∈ listed ∧
      mappingInsert (s.blockAt (s.freeLists fl sl)).length = (fl, sl) :=
  (h.mem_iff fl sl _).mp ((h.linked fl sl).head_mem hhead)

/-- **Search**: a block that is found is listed and long enough. -/
lemma FreeLists.findSuitableBlock_spec (h : FreeLists s bins listed)
    (hpos : ∀ j ∈ listed, (s.blockAt j).length ≠ 0) {length : ℕ} (hlen : length ≠ 0)
    (hlt : length < 2 ^ 64) (hfound : s.findSuitableBlock length ≠ indexNone) :
    s.findSuitableBlock length ∈ listed ∧
      length ≤ (s.blockAt (s.findSuitableBlock length)).length := by
  -- Whichever bin the search ends in, its head is listed and its class bounds the length.
  have hbin : ∀ fl sl fl' sl', mappingSearch length = some (fl, sl) →
      (fl' = fl ∧ sl ≤ sl' ∨ fl < fl') → s.freeLists fl' sl' ≠ indexNone →
      s.freeLists fl' sl' ∈ listed ∧ length ≤ (s.blockAt (s.freeLists fl' sl')).length := by
    intro fl sl fl' sl' hsearch horder hhead
    obtain ⟨hmem, hclass⟩ := h.head_mem hhead
    refine ⟨hmem, le_of_mappingSearch hlen (hpos _ hmem) hsearch ?_⟩
    rw [hclass]
    exact horder
  revert hfound
  unfold Allocator.findSuitableBlock
  dsimp only
  split_ifs with hcontaining
  · exact fun _ => ⟨(h.head_mem hcontaining.1).1, hcontaining.2⟩
  cases hsearch : mappingSearch length with
  | none => exact fun hfound => absurd rfl hfound
  | some bin =>
    obtain ⟨fl, sl⟩ := bin
    dsimp only
    have hrange := mappingSearch_lt hlt hsearch
    split_ifs with hsl hfl
    · intro hfound
      have hbit := (getLsbD_maskFrom_iff _ _ _).mp (BitVec.getLsbD_true_ctz_of_ne_zero hsl)
      exact hbin fl sl _ _ hsearch (.inl ⟨rfl, hbit.2.1⟩) hfound
    · exact fun hfound => absurd rfl hfound
    · intro hfound
      have hbit := (getLsbD_maskAbove_iff _ hrange.1 _).mp (BitVec.getLsbD_true_ctz_of_ne_zero hfl)
      exact hbin fl sl _ _ hsearch (.inr hbit.2.1) hfound

end Hrx.Tlsf
