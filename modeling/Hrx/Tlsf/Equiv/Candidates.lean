import Mathlib.Data.List.Range
import Hrx.Tlsf.Calls
import Hrx.Tlsf.Equiv.Layout

/-!
# Size classes in order, and the enumeration of free blocks

The bins of the matrix in the order of their lengths: `binRank` numbers them, longer blocks have
higher bins, and the bin that `mappingSearch` names is at most one above that of the length itself.
A search that finds nothing has seen every bin from there on empty.  The enumeration of free blocks
walks the bins in this order, so that after any number of queries what is left to visit is the rest
of one list (`queryLoop_spec`).
-/

namespace Hrx.Tlsf

open Allocator DoublyLinked List

/-! ### The order of the bins -/

/-- The position of a bin in the matrix. -/
def binRank (bin : ℕ × ℕ) : ℕ := slCount * bin.1 + bin.2

lemma binRank_def (fl sl : ℕ) : binRank (fl, sl) = 32 * fl + sl := rfl

variable {fl sl length : ℕ}

lemma binRank_lt (hfl : fl < 64) (hsl : sl < 32) : binRank (fl, sl) < 2048 := by
  rw [binRank_def]
  omega

lemma binRank_lt_iff {fl' sl' : ℕ} (hsl : sl < 32) (hsl' : sl' < 32) :
    binRank (fl, sl) < binRank (fl', sl') ↔ fl < fl' ∨ fl = fl' ∧ sl < sl' := by
  rw [binRank_def, binRank_def]
  omega

/-- The quotient that the second level is cut from. -/
lemma binRank_mappingInsert_of_lt (h : 5 < Nat.log2 length) :
    binRank (mappingInsert length) =
      32 * (Nat.log2 length - 1) + length / 2 ^ (Nat.log2 length - 5) := by
  have hsl := mappingInsert_snd_of_lt h
  have hlow := le_quotient h
  show 32 * Nat.log2 length + (mappingInsert length).2 = _
  omega

/-- Up to 63 bytes the rank counts one bin for each length. -/
lemma binRank_mappingInsert_of_le (h : Nat.log2 length ≤ 5) :
    binRank (mappingInsert length) = 32 * Nat.log2 length + length % 32 := by
  show 32 * Nat.log2 length + (mappingInsert length).2 = _
  rw [mappingInsert_snd_of_le h]

/-- A longer block has no lower bin. -/
lemma binRank_mappingInsert_mono {m n : ℕ} (hm : m ≠ 0) (h : m ≤ n) :
    binRank (mappingInsert m) ≤ binRank (mappingInsert n) := by
  have hlog := log2_mono h
  have hsl := mappingInsert_snd_lt m
  rcases Nat.lt_or_eq_of_le hlog with hlt | heq
  · show 32 * Nat.log2 m + (mappingInsert m).2 ≤ 32 * Nat.log2 n + (mappingInsert n).2
    omega
  by_cases h5 : 5 < Nat.log2 m
  · rw [binRank_mappingInsert_of_lt h5, binRank_mappingInsert_of_lt (heq ▸ h5), ← heq]
    exact Nat.add_le_add_left (Nat.div_le_div_right h) _
  rw [binRank_mappingInsert_of_le (not_lt.mp h5),
    binRank_mappingInsert_of_le (heq ▸ not_lt.mp h5), ← heq]
  -- Both lengths have the same top bit, at most the fifth.
  have hm' := Nat.log2_self_le hm
  have hlt := Nat.lt_log2_self (n := n)
  rw [← heq, Nat.pow_succ] at hlt
  rcases Nat.lt_or_eq_of_le (not_lt.mp h5) with hlt5 | heq5
  · have : 2 ^ Nat.log2 m ≤ 2 ^ 4 := Nat.pow_le_pow_right (by decide) (by omega)
    omega
  · rw [heq5] at hm' hlt
    omega

/-- The searched bin is that of the length or the next one. -/
lemma binRank_mappingSearch_le (hlen : length ≠ 0) {bin : ℕ × ℕ}
    (h : mappingSearch length = some bin) : binRank bin ≤ binRank (mappingInsert length) + 1 := by
  unfold mappingSearch at h
  simp only [and_slCount] at h
  split_ifs at h with hlog hover hnew
  · -- The rounding carries: the length was in the last bin of its first level.
    cases h
    rw [binRank_mappingInsert_of_lt hlog, binRank_def]
    rw [Nat.one_shiftLeft] at hnew ⊢
    have hshift : slLog2 = 5 := rfl
    rw [hshift] at hnew hlog ⊢
    set shift := Nat.log2 length - 5 with hs
    have hpos := Nat.two_pow_pos shift
    have hpow : 2 ^ Nat.log2 length = 32 * 2 ^ shift := two_pow_log2 hlog
    have hlow := Nat.log2_self_le hlen
    have hhigh := Nat.lt_log2_self (n := length)
    rw [Nat.pow_succ, hpow] at hhigh
    rw [hpow] at hlow
    have hcarry : 64 * 2 ^ shift ≤ length + (2 ^ shift - 1) := by
      by_contra hlt
      refine hnew (log2_eq_of_lt (hpow ▸ by omega) ?_)
      rw [Nat.pow_succ, hpow]
      omega
    have hquot : 63 ≤ length / 2 ^ shift := by
      rw [Nat.le_div_iff_mul_le hpos]
      omega
    have hnew_eq : Nat.log2 (length + (2 ^ shift - 1)) = Nat.log2 length + 1 := by
      refine log2_eq_of_lt ?_ ?_
      · rw [Nat.pow_succ, hpow]
        omega
      · rw [Nat.pow_succ, Nat.pow_succ, hpow]
        omega
    omega
  · cases h
    rw [binRank_mappingInsert_of_lt hlog, binRank_def, Nat.shiftRight_eq_div_pow, Nat.one_shiftLeft]
    have hshift : slLog2 = 5 := rfl
    rw [hshift] at hlog ⊢
    set shift := Nat.log2 length - 5 with hs
    have hpos := Nat.two_pow_pos shift
    have hpow : 2 ^ Nat.log2 length = 32 * 2 ^ shift := two_pow_log2 hlog
    have hlow : 32 ≤ length / 2 ^ shift := le_quotient hlog
    have hround : (length + (2 ^ shift - 1)) / 2 ^ shift ≤ length / 2 ^ shift + 1 := by
      have hle : length + (2 ^ shift - 1) ≤ length + 2 ^ shift := by omega
      refine (Nat.div_le_div_right hle).trans ?_
      rw [Nat.add_div_right _ hpos]
    have hlog' := not_not.mp hnew
    rw [Nat.one_shiftLeft, hshift, ← hs] at hlog'
    have hhigh := Nat.lt_log2_self (n := length + (2 ^ shift - 1))
    rw [hlog', Nat.pow_succ, hpow] at hhigh
    have hquot : (length + (2 ^ shift - 1)) / 2 ^ shift < 64 := by
      rw [Nat.div_lt_iff_lt_mul hpos]
      omega
    have hge : length / 2 ^ shift ≤ (length + (2 ^ shift - 1)) / 2 ^ shift :=
      Nat.div_le_div_right (Nat.le_add_right _ _)
    omega
  · cases h
    rw [binRank_mappingInsert_of_le (not_lt.mp hlog)]
    exact Nat.le_succ _

/-- Where the rounding overflows, the length is in the last bin of the matrix. -/
lemma binRank_of_mappingSearch_none (hlt : length < 2 ^ 64) (h : mappingSearch length = none) :
    2047 ≤ binRank (mappingInsert length) := by
  unfold mappingSearch at h
  simp only [and_slCount] at h
  split_ifs at h with hlog hover
  rw [binRank_mappingInsert_of_lt hlog]
  rw [Nat.one_shiftLeft] at hover
  have hshift : slLog2 = 5 := rfl
  have hmax : deviceSizeMax = 2 ^ 64 - 1 := rfl
  rw [hshift] at hlog hover
  rw [hmax] at hover
  have hfl := log2_lt_64 hlt
  have hround : 2 ^ (Nat.log2 length - 5) ≤ 2 ^ 58 := Nat.pow_le_pow_right (by decide) (by omega)
  have htop : Nat.log2 length = 63 := by
    refine log2_eq_of_lt ?_ ?_
    · omega
    · exact hlt
  rw [htop] at hover ⊢
  omega

/-! ### Bitmap scans -/

lemma getLsbD_of_maskAbove_eq_zero {w n k : ℕ} {x : BitVec w} (hn : n < w)
    (h : x &&& ~~~(BitVec.allOnes w >>> (w - 1 - n)) = 0) (hlt : n < k) (hk : k < w) :
    x.getLsbD k ≠ true := by
  intro hbit
  have hmask := (getLsbD_maskAbove_iff x hn k).mpr ⟨hbit, hlt, hk⟩
  rw [h] at hmask
  simp at hmask

variable {s : Allocator} {bins : ℕ → ℕ → List ℕ} {listed : Finset ℕ}

section matrix

variable (h : FreeLists s bins listed)
include h

section

variable (hfl : fl < 64) (hsl : sl < 32)
include hfl hsl

lemma FreeLists.bit_iff : (s.slBitmaps fl).getLsbD sl = true ↔ bins fl sl ≠ [] := by
  rw [h.slBit fl sl hfl hsl, ne_eq, ne_eq, (h.linked fl sl).nil_iff]

/-- A first level whose bit is clear has no blocks. -/
lemma FreeLists.level_empty (hbit : s.flBitmap.getLsbD fl ≠ true) : bins fl sl = [] := by
  have hzero : s.slBitmaps fl = 0 := by
    by_contra hne
    exact hbit ((h.flBit fl hfl).mpr hne)
  by_contra hne
  have := (h.bit_iff hfl hsl).mpr hne
  rw [hzero] at this
  simp at this

/-- Behind the bin from which the scan finds nothing all bins are empty. -/
lemma FreeLists.nextBin_none (hnext : s.nextBin fl sl = none)
    {fl' sl' : ℕ} (hfl' : fl' < 64) (hsl' : sl' < 32)
    (hrank : binRank (fl, sl) < binRank (fl', sl')) : bins fl' sl' = [] := by
  unfold nextBin at hnext
  dsimp only at hnext
  split_ifs at hnext with hslMap hflMap
  rcases (binRank_lt_iff hsl hsl').mp hrank with hlt | ⟨rfl, hlt⟩
  · exact h.level_empty hfl' hsl' (getLsbD_of_maskAbove_eq_zero hfl hflMap hlt hfl')
  · by_contra hne
    exact getLsbD_of_maskAbove_eq_zero hsl hslMap hlt hsl' ((h.bit_iff hfl hsl').mpr hne)

/-- The bin that the scan finds is the first nonempty one behind the bin it started from. -/
lemma FreeLists.nextBin_some {fl' sl' : ℕ} (hnext : s.nextBin fl sl = some (fl', sl')) :
    fl' < 64 ∧ sl' < 32 ∧ binRank (fl, sl) < binRank (fl', sl') ∧
    ∀ fl'' sl'', fl'' < 64 → sl'' < 32 → binRank (fl, sl) < binRank (fl'', sl'') →
      binRank (fl'', sl'') < binRank (fl', sl') → bins fl'' sl'' = [] := by
  unfold nextBin at hnext
  by_cases hslMap : s.slBitmaps fl &&& ~~~(BitVec.allOnes 32 >>> (31 - sl)) = 0
  · rw [if_pos hslMap] at hnext
    by_cases hflMap : s.flBitmap &&& ~~~(BitVec.allOnes 64 >>> (63 - fl)) = 0
    · rw [if_pos hflMap] at hnext
      cases hnext
    -- A later first level: its lowest second level.
    rw [if_neg hflMap] at hnext
    cases hnext
    have hfound := (getLsbD_maskAbove_iff s.flBitmap hfl _).mp
      (BitVec.getLsbD_true_ctz_of_ne_zero hflMap)
    have hbelow : ∀ k, fl < k →
        k < (s.flBitmap &&& ~~~(BitVec.allOnes 64 >>> (63 - fl))).ctz.toNat →
        s.flBitmap.getLsbD k ≠ true := by
      intro k hk hlt hbit
      have := (getLsbD_maskAbove_iff s.flBitmap hfl k).mpr ⟨hbit, hk, hlt.trans hfound.2.2⟩
      rw [BitVec.getLsbD_false_of_lt_ctz hlt] at this
      cases this
    generalize (s.flBitmap &&& ~~~(BitVec.allOnes 64 >>> (63 - fl))).ctz.toNat = found at *
    have hne : s.slBitmaps found ≠ 0 := (h.flBit found hfound.2.2).mp hfound.1
    have hsl' := BitVec.lt_of_getLsbD (BitVec.getLsbD_true_ctz_of_ne_zero hne)
    refine ⟨hfound.2.2, hsl', (binRank_lt_iff hsl hsl').mpr (.inl hfound.2.1), ?_⟩
    intro fl'' sl'' hfl'' hsl'' hafter hbefore
    rcases (binRank_lt_iff hsl'' hsl').mp hbefore with hlt | ⟨rfl, hlt⟩
    · rcases (binRank_lt_iff hsl hsl'').mp hafter with hgt | ⟨rfl, hgt⟩
      · exact h.level_empty hfl'' hsl'' (hbelow fl'' hgt hlt)
      by_contra hne'
      exact getLsbD_of_maskAbove_eq_zero hsl hslMap hgt hsl'' ((h.bit_iff hfl hsl'').mpr hne')
    · by_contra hne'
      have := (h.bit_iff hfl'' hsl'').mpr hne'
      rw [BitVec.getLsbD_false_of_lt_ctz hlt] at this
      cases this
  · -- A later second level of the same first level.
    rw [if_neg hslMap] at hnext
    cases hnext
    have hfound := (getLsbD_maskAbove_iff (s.slBitmaps fl) hsl _).mp
      (BitVec.getLsbD_true_ctz_of_ne_zero hslMap)
    rw [show 32 - 1 - sl = 31 - sl from rfl] at hfound
    refine ⟨hfl, hfound.2.2, (binRank_lt_iff hsl hfound.2.2).mpr (.inr ⟨rfl, hfound.2.1⟩), ?_⟩
    intro fl'' sl'' hfl'' hsl'' hafter hbefore
    obtain ⟨rfl, hgt, hlt⟩ : fl = fl'' ∧ sl < sl'' ∧
        sl'' < (s.slBitmaps fl &&& ~~~(BitVec.allOnes 32 >>> (31 - sl))).ctz.toNat := by
      have hafter' := (binRank_lt_iff hsl hsl'').mp hafter
      have hbefore' := (binRank_lt_iff hsl'' hfound.2.2).mp hbefore
      omega
    by_contra hne
    have := (getLsbD_maskAbove_iff (s.slBitmaps fl) hsl sl'').mpr
      ⟨(h.bit_iff hfl hsl'').mpr hne, hgt, hsl''⟩
    rw [BitVec.getLsbD_false_of_lt_ctz hlt] at this
    cases this

end

/-- A search without a result has seen the head of the length's own bin too short, and every bin
from the searched one on empty. -/
lemma FreeLists.findSuitableBlock_none {length : ℕ} (hlt : length < 2 ^ 64)
    (hnone : s.findSuitableBlock length = indexNone) :
    (s.freeLists (mappingInsert length).1 (mappingInsert length).2 ≠ indexNone →
      (s.blockAt (s.freeLists (mappingInsert length).1 (mappingInsert length).2)).length < length) ∧
    ∀ fl sl, mappingSearch length = some (fl, sl) → ∀ fl' sl', fl' < 64 → sl' < 32 →
      binRank (fl, sl) ≤ binRank (fl', sl') → bins fl' sl' = [] := by
  unfold findSuitableBlock at hnone
  dsimp only at hnone
  by_cases hcontaining : s.freeLists (mappingInsert length).1 (mappingInsert length).2 ≠ indexNone ∧
      length ≤ (s.blockAt (s.freeLists (mappingInsert length).1 (mappingInsert length).2)).length
  · rw [if_pos hcontaining] at hnone
    exact absurd hnone hcontaining.1
  rw [if_neg hcontaining] at hnone
  refine ⟨fun hhead => not_le.mp fun hle => hcontaining ⟨hhead, hle⟩, ?_⟩
  intro fl sl hsearch fl' sl' hfl' hsl' hrank
  obtain ⟨hfl, hsl⟩ := mappingSearch_lt hlt hsearch
  rw [hsearch] at hnone
  dsimp only at hnone
  by_cases hslMap : s.slBitmaps fl &&& (BitVec.allOnes 32 <<< sl) ≠ 0
  · rw [if_pos hslMap] at hnone
    have hfound := (getLsbD_maskFrom_iff _ _ _).mp (BitVec.getLsbD_true_ctz_of_ne_zero hslMap)
    exact absurd hnone ((h.slBit fl _ hfl hfound.2.2).mp hfound.1)
  rw [if_neg hslMap] at hnone
  have hslMap := not_not.mp hslMap
  by_cases hflMap : s.flBitmap &&& ~~~(BitVec.allOnes 64 >>> (63 - fl)) = 0
  · rcases lt_trichotomy fl fl' with hlt' | rfl | hgt
    · exact h.level_empty hfl' hsl' (getLsbD_of_maskAbove_eq_zero hfl hflMap hlt' hfl')
    · by_contra hne
      have hle : sl ≤ sl' := by
        rw [binRank_def, binRank_def] at hrank
        omega
      have := (getLsbD_maskFrom_iff (s.slBitmaps fl) sl sl').mpr
        ⟨(h.bit_iff hfl hsl').mpr hne, hle, hsl'⟩
      rw [hslMap] at this
      simp at this
    · rw [binRank_def, binRank_def] at hrank
      omega
  · -- A later first level with its bit set has a listed block.
    rw [if_neg hflMap] at hnone
    have hfound := (getLsbD_maskAbove_iff s.flBitmap hfl _).mp
      (BitVec.getLsbD_true_ctz_of_ne_zero hflMap)
    have hne := (h.flBit _ hfound.2.2).mp hfound.1
    have hbit := BitVec.getLsbD_true_ctz_of_ne_zero hne
    exact absurd hnone ((h.slBit _ _ hfound.2.2 (BitVec.lt_of_getLsbD hbit)).mp hbit)

/-- A search without a result leaves no listed block in a bin above that of the length. -/
lemma FreeLists.binRank_le_of_findSuitableBlock_none {length : ℕ} (hlen : length ≠ 0)
    (hlt : length < 2 ^ 64) (hnone : s.findSuitableBlock length = indexNone) {i : ℕ}
    (hi : i ∈ listed) (hblock : (s.blockAt i).length < 2 ^ 64) :
    binRank (mappingInsert (s.blockAt i).length) ≤ binRank (mappingInsert length) := by
  have hfl := mappingInsert_fst_lt hblock
  have hsl := mappingInsert_snd_lt (s.blockAt i).length
  have hmem : i ∈ bins (mappingInsert (s.blockAt i).length).1
      (mappingInsert (s.blockAt i).length).2 :=
    (h.mem_iff _ _ i).mpr ⟨hi, rfl⟩
  by_contra hgt
  cases hsearch : mappingSearch length with
  | none =>
    have htop := binRank_of_mappingSearch_none hlt hsearch
    have := binRank_lt hfl hsl
    rw [Prod.mk.eta] at this
    omega
  | some bin =>
    have hle := binRank_mappingSearch_le hlen hsearch
    have hempty := (h.findSuitableBlock_none hlt hnone).2 bin.1 bin.2 hsearch _ _ hfl hsl
      (by rw [Prod.mk.eta, Prod.mk.eta]; omega)
    rw [hempty] at hmem
    exact not_mem_nil hmem

end matrix

/-! ### The enumeration -/

def binAt (bins : ℕ → ℕ → List ℕ) (rank : ℕ) : List ℕ := bins (rank / 32) (rank % 32)

/-- The blocks of all bins behind a rank, in the order of the enumeration. -/
def blocksAfter (bins : ℕ → ℕ → List ℕ) (rank : ℕ) : List ℕ :=
  (List.range' (rank + 1) (2047 - rank)).flatMap (binAt bins)

lemma binAt_binRank (bins : ℕ → ℕ → List ℕ) (hsl : sl < 32) :
    binAt bins (binRank (fl, sl)) = bins fl sl := by
  unfold binAt
  rw [binRank_def, show (32 * fl + sl) / 32 = fl by omega, show (32 * fl + sl) % 32 = sl by omega]

lemma binRank_div_mod (rank : ℕ) : binRank (rank / 32, rank % 32) = rank := by
  rw [binRank_def]
  omega

lemma mem_blocksAfter {bins : ℕ → ℕ → List ℕ} {rank i : ℕ} :
    i ∈ blocksAfter bins rank ↔ ∃ r, rank < r ∧ r < 2048 ∧ i ∈ binAt bins r := by
  unfold blocksAfter
  rw [mem_flatMap]
  refine exists_congr fun r => ?_
  rw [mem_range'_1, ← and_assoc]
  refine and_congr_left fun _ => ?_
  omega

/-- Empty bins do not matter. -/
lemma blocksAfter_skip {bins : ℕ → ℕ → List ℕ} {rank rank' : ℕ} (hlt : rank < rank')
    (hlt' : rank' < 2048) (hempty : ∀ r, rank < r → r < rank' → binAt bins r = []) :
    blocksAfter bins rank = binAt bins rank' ++ blocksAfter bins rank' := by
  unfold blocksAfter
  have hsplit : List.range' (rank + 1) (2047 - rank) =
      List.range' (rank + 1) (rank' - rank - 1) ++ List.range' rank' (2047 - rank' + 1) := by
    rw [show 2047 - rank = (rank' - rank - 1) + (2047 - rank' + 1) by omega,
      List.range'_append_1.symm, show rank + 1 + (rank' - rank - 1) = rank' by omega]
  have hnone : (List.range' (rank + 1) (rank' - rank - 1)).flatMap (binAt bins) = [] := by
    rw [flatMap_eq_nil_iff]
    intro r hr
    rw [mem_range'_1] at hr
    exact hempty r (by omega) (by omega)
  rw [hsplit, flatMap_append, hnone, nil_append, List.range'_succ, flatMap_cons]

variable {minimumLength : ℕ}

/-- The block at a place of the enumeration: what the loop needs to go on behind it. -/
structure Place (s : Allocator) (bins : ℕ → ℕ → List ℕ) (fl sl index : ℕ) (suffix : List ℕ) :
    Prop where
  fl_lt : fl < 64
  sl_lt : sl < 32
  chain : IsChain (fun i => (s.blockAt i).nextFree) indexNone index suffix
  mem : ∀ i ∈ suffix, i ∈ bins fl sl

/-- A bin from its head on. -/
lemma FreeLists.place (h : FreeLists s bins listed) (hfl : fl < 64) (hsl : sl < 32) :
    Place s bins fl sl (s.freeLists fl sl) (bins fl sl) :=
  ⟨hfl, hsl, (h.linked fl sl).isChain, fun _ hi => hi⟩

/-- What is left to visit from a place on. -/
def remaining (bins : ℕ → ℕ → List ℕ) (fl sl : ℕ) (suffix : List ℕ) : List ℕ :=
  suffix ++ blocksAfter bins (binRank (fl, sl))

variable (minimumLength) in
/-- **The query loop** stops at the first block that is long enough of what is left to visit, and
the place behind that block is where the next query resumes.  It reaches it in as many rounds as
there are blocks and bins left. -/
theorem FreeLists.queryLoop_spec (h : FreeLists s bins listed) {index : ℕ} {suffix : List ℕ}
    (hplace : Place s bins fl sl index suffix) (fuel : ℕ) :
    (s.queryLoop minimumLength fuel fl sl index = none ∧
      fuel ≤ (remaining bins fl sl suffix).length + (2047 - binRank (fl, sl))) ∨
    (s.queryLoop minimumLength fuel fl sl index = some Allocator.Candidate.none ∧
      ∀ i ∈ remaining bins fl sl suffix, ¬minimumLength ≤ (s.blockAt i).length) ∨
    ∃ before x fl' sl' suffix',
      s.queryLoop minimumLength fuel fl sl index = some (s.candidateOf x) ∧
      remaining bins fl sl suffix = before ++ x :: remaining bins fl' sl' suffix' ∧
      (∀ i ∈ before, ¬minimumLength ≤ (s.blockAt i).length) ∧ minimumLength ≤ (s.blockAt x).length ∧
      x ≠ indexNone ∧ mappingInsert (s.blockAt x).length = (fl', sl') ∧
      binRank (fl, sl) ≤ binRank (fl', sl') ∧
      Place s bins fl' sl' (s.blockAt x).nextFree suffix' := by
  induction fuel generalizing fl sl index suffix with
  | zero => exact .inl ⟨rfl, Nat.zero_le _⟩
  | succ fuel ih =>
    rw [queryLoop]
    cases suffix with
    | cons x suffix =>
      obtain ⟨rfl, hchain⟩ := hplace.chain
      have hx := hplace.mem index (mem_cons_self ..)
      have hne : index ≠ indexNone := fun hc => (h.linked fl sl).nil_not_mem (hc ▸ hx)
      have hrest : Place s bins fl sl (s.blockAt index).nextFree suffix :=
        ⟨hplace.fl_lt, hplace.sl_lt, hchain, fun i hi => hplace.mem i (mem_cons_of_mem _ hi)⟩
      have hcons : remaining bins fl sl (index :: suffix) =
          index :: remaining bins fl sl suffix := rfl
      rw [if_pos hne, hcons]
      by_cases hfits : minimumLength ≤ (s.blockAt index).length
      · rw [if_pos hfits]
        exact .inr (.inr ⟨[], index, fl, sl, suffix, rfl, rfl, by simp, hfits, hne,
          ((h.mem_iff fl sl index).mp hx).2, le_rfl, hrest⟩)
      rw [if_neg hfits]
      rcases ih hrest with ⟨heq, hfuel⟩ | ⟨heq, hshort⟩ |
          ⟨before, x, fl', sl', suffix', heq, hsplit, hshort, hrest⟩
      · exact .inl ⟨heq, by rw [length_cons]; omega⟩
      · refine .inr (.inl ⟨heq, fun i hi => ?_⟩)
        rcases mem_cons.mp hi with rfl | hi
        · exact hfits
        · exact hshort i hi
      · refine .inr (.inr ⟨index :: before, x, fl', sl', suffix', heq, ?_, fun i hi => ?_, hrest⟩)
        · rw [hsplit, cons_append]
        · rcases mem_cons.mp hi with rfl | hi
          · exact hfits
          · exact hshort i hi
    | nil =>
      obtain rfl : index = indexNone := hplace.chain
      rw [if_neg (not_not.mpr rfl)]
      cases hnext : s.nextBin fl sl with
      | none =>
        refine .inr (.inl ⟨rfl, fun i hi => ?_⟩)
        obtain ⟨r, hr, hr', hmem⟩ := mem_blocksAfter.mp hi
        have hempty := h.nextBin_none hplace.fl_lt hplace.sl_lt hnext
          (show r / 32 < 64 by omega) (show r % 32 < 32 by omega)
            (by rw [binRank_div_mod]; exact hr)
        rw [binAt, hempty] at hmem
        exact absurd hmem not_mem_nil
      | some bin =>
        obtain ⟨fl', sl'⟩ := bin
        obtain ⟨hfl', hsl', hrank, hbetween⟩ := h.nextBin_some hplace.fl_lt hplace.sl_lt hnext
        have hskip : remaining bins fl sl [] = remaining bins fl' sl' (bins fl' sl') := by
          show blocksAfter bins (binRank (fl, sl)) = _
          rw [blocksAfter_skip hrank (binRank_lt hfl' hsl'), binAt_binRank bins hsl', remaining]
          intro r hr hr'
          have := binRank_lt hfl' hsl'
          exact hbetween _ _ (by omega) (by omega) (by rw [binRank_div_mod]; exact hr)
            (by rw [binRank_div_mod]; exact hr')
        rw [hskip]
        rcases ih (h.place hfl' hsl') with ⟨heq, hfuel⟩ | hrest |
            ⟨before, x, fl'', sl'', suffix', heq, hsplit, hshort, hfits, hne, hclass, hle, hplace'⟩
        · have := binRank_lt hfl' hsl'
          exact .inl ⟨heq, by omega⟩
        · exact .inr (.inl hrest)
        · exact .inr (.inr ⟨before, x, fl'', sl'', suffix', heq, hsplit, hshort, hfits, hne, hclass,
            hrank.le.trans hle, hplace'⟩)

/-- The blocks of a list that are long enough. -/
def eligible (s : Allocator) (minimumLength : ℕ) (blocks : List ℕ) : List ℕ :=
  blocks.filter fun i => minimumLength ≤ (s.blockAt i).length

/-- **The iterated query** from a place on visits what is left and long enough, in order. -/
lemma FreeLists.candidates_spec (h : FreeLists s bins listed) {index afterBlock fuel : ℕ}
    {suffix : List ℕ} (hplace : Place s bins fl sl index suffix)
    (hquery : s.queryFreeBlock fuel minimumLength afterBlock =
      s.queryLoop minimumLength fuel fl sl index)
    (queries : ℕ) :
    (s.candidates fuel minimumLength queries afterBlock = none ∧
      (fuel ≤ (remaining bins fl sl suffix).length + (2047 - binRank (fl, sl)) ∨
        queries ≤ (remaining bins fl sl suffix).length)) ∨
    s.candidates fuel minimumLength queries afterBlock =
      some ((eligible s minimumLength (remaining bins fl sl suffix)).map s.candidateOf) := by
  induction queries generalizing fl sl index afterBlock suffix with
  | zero => exact .inl ⟨rfl, .inr (Nat.zero_le _)⟩
  | succ queries ih =>
    rw [candidates, hquery]
    rcases h.queryLoop_spec minimumLength hplace fuel with ⟨heq, hfuel⟩ |
        ⟨heq, hshort⟩ | ⟨before, x, fl', sl', suffix', heq, hsplit, hshort, hfits, hne, hclass, hle,
          hplace'⟩
    · rw [heq]
      exact .inl ⟨rfl, .inl hfuel⟩
    · rw [heq]
      have hnone : eligible s minimumLength (remaining bins fl sl suffix) = [] := by
        refine filter_eq_nil_iff.mpr fun i hi => ?_
        simpa using hshort i hi
      rw [hnone]
      exact .inr rfl
    · rw [heq]
      have hresume : s.queryFreeBlock fuel minimumLength x =
          s.queryLoop minimumLength fuel fl' sl' (s.blockAt x).nextFree := by
        unfold queryFreeBlock
        rw [if_neg hne]
        dsimp only
        rw [hclass]
      have heligible : eligible s minimumLength (remaining bins fl sl suffix) =
          x :: eligible s minimumLength (remaining bins fl' sl' suffix') := by
        have hbefore : before.filter (fun i => minimumLength ≤ (s.blockAt i).length) = [] :=
          filter_eq_nil_iff.mpr fun i hi => by simpa using hshort i hi
        unfold eligible
        rw [hsplit, filter_append, hbefore, nil_append, filter_cons_of_pos (by simpa using hfits)]
      have hlength : (remaining bins fl' sl' suffix').length <
          (remaining bins fl sl suffix).length := by
        rw [hsplit, length_append, length_cons]
        omega
      dsimp only [bind, Option.bind]
      rw [if_neg (show (s.candidateOf x).blockIndex ≠ indexNone from hne)]
      rcases ih hplace' hresume with ⟨hnone, hbound⟩ | hsome
      · refine .inl ⟨?_, hbound.imp (fun hf => by omega) fun hq => by omega⟩
        rw [show (s.candidateOf x).blockIndex = x from rfl, hnone]
      · refine .inr ?_
        rw [show (s.candidateOf x).blockIndex = x from rfl, hsome, heligible]
        rfl

/-- All bins from that of the minimum length on: the listed blocks that are long enough, once
each. -/
lemma FreeLists.eligible_remaining (h : FreeLists s bins listed) (hpos : minimumLength ≠ 0)
    (hlength : ∀ i ∈ listed, (s.blockAt i).length < 2 ^ 64) (hsl : sl < 32)
    (hbin : mappingInsert minimumLength = (fl, sl)) :
    (eligible s minimumLength (remaining bins fl sl (bins fl sl))).Nodup ∧
    ∀ i, i ∈ eligible s minimumLength (remaining bins fl sl (bins fl sl)) ↔
      i ∈ listed ∧ minimumLength ≤ (s.blockAt i).length := by
  have hmem : ∀ i, i ∈ remaining bins fl sl (bins fl sl) ↔
      ∃ r, binRank (fl, sl) ≤ r ∧ (r = binRank (fl, sl) ∨ r < 2048) ∧ i ∈ binAt bins r := by
    intro i
    unfold remaining
    rw [mem_append, mem_blocksAfter]
    constructor
    · rintro (hi | ⟨r, hr, hr', hi⟩)
      · exact ⟨_, le_rfl, .inl rfl, by rwa [binAt_binRank bins hsl]⟩
      · exact ⟨r, hr.le, .inr hr', hi⟩
    · rintro ⟨r, hr, hr', hi⟩
      rcases Nat.eq_or_lt_of_le hr with rfl | hlt
      · exact .inl (by rwa [binAt_binRank bins hsl] at hi)
      · exact .inr ⟨r, hlt, hr'.resolve_left (by omega), hi⟩
  constructor
  · -- Each bin lists a block once, and no block is in two bins.
    refine List.Nodup.filter _ ?_
    refine nodup_append.mpr ⟨(h.linked fl sl).nodup, ?_, ?_⟩
    · refine nodup_flatMap.mpr ⟨fun r _ => (h.linked _ _).nodup, ?_⟩
      refine (nodup_range').imp fun {r r'} hne i hi hi' => hne ?_
      obtain ⟨hdiv, hmod⟩ := h.bin_unique hi hi'
      rw [← binRank_div_mod r, ← binRank_div_mod r', hdiv, hmod]
    · rintro i hi j hj rfl
      obtain ⟨r, hr, -, hi'⟩ := mem_blocksAfter.mp hj
      obtain ⟨hdiv, hmod⟩ := h.bin_unique hi hi'
      rw [← binRank_div_mod r, hdiv, hmod] at hr
      exact lt_irrefl _ hr
  · intro i
    unfold eligible
    rw [mem_filter, hmem, decide_eq_true_eq]
    refine and_congr_left fun hfits => ?_
    constructor
    · rintro ⟨r, -, -, hi⟩
      exact h.mem_listed hi
    intro hi
    have hsl' := mappingInsert_snd_lt (s.blockAt i).length
    refine ⟨binRank (mappingInsert (s.blockAt i).length), ?_, .inr ?_, ?_⟩
    · rw [← hbin]
      exact binRank_mappingInsert_mono hpos hfits
    · exact binRank_lt (mappingInsert_fst_lt (hlength i hi)) hsl'
    · rw [binAt_binRank bins hsl']
      exact (h.mem_iff _ _ i).mpr ⟨hi, rfl⟩

end Hrx.Tlsf
