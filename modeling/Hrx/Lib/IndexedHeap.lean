import Mathlib.Data.Nat.Basic
import Mathlib.Order.Lattice

/-!
# Indexed d-ary heaps

A min-heap in level order over an array, with a table that records the position of every item, so
that an item can be removed from the middle.  A sift carries one entry along a path and writes it
only at the end; its invariants are stated for the heap with the entry already placed in the hole,
where one turn of the loop is an exchange of two entries.
-/

namespace IndexedHeap

open Function List

structure Entry (κ ι : Type*) where
  key : κ
  item : ι

/-- The heap storage: entries below `count` are used, and `position` says where an item is. -/
structure Heap (κ ι : Type*) where
  entries : ℕ → Entry κ ι
  count : ℕ
  position : ι → Option ℕ

def parent (d i : ℕ) : ℕ := (i - 1) / d

namespace Heap

variable {κ ι : Type*} [DecidableEq ι]

/-- Writes an entry at a position and records it there. -/
def place (h : Heap κ ι) (i : ℕ) (e : Entry κ ι) : Heap κ ι :=
  { h with
    entries := update h.entries i e
    position := update h.position e.item (some i) }

def clear (h : Heap κ ι) (item : ι) : Heap κ ι := { h with position := update h.position item none }

section sift

variable [LT κ] [DecidableLT κ]

/-- Carries an entry up from the hole at `i`; `fuel` bounds the path, `i` is enough. -/
def siftUp (d : ℕ) : ℕ → Heap κ ι → ℕ → Entry κ ι → Heap κ ι
  | 0, h, i, e => h.place i e
  | fuel + 1, h, i, e =>
    if 0 < i ∧ e.key < (h.entries (parent d i)).key then
      siftUp d fuel (h.place i (h.entries (parent d i))) (parent d i) e
    else h.place i e

/-- The position of the least key among `child` and its `n` right siblings. -/
def leastChild (h : Heap κ ι) (child : ℕ) : ℕ → ℕ
  | 0 => child
  | n + 1 =>
    let best := leastChild h child n
    if (h.entries (child + n + 1)).key < (h.entries best).key then child + n + 1 else best

/-- Carries an entry down from the hole at `i`; `fuel` bounds the path, `count` is enough. -/
def siftDown (d : ℕ) : ℕ → Heap κ ι → ℕ → Entry κ ι → Heap κ ι
  | 0, h, i, e => h.place i e
  | fuel + 1, h, i, e =>
    let first := i * d + 1
    if first < h.count then
      let child := leastChild h first (min (first + d) h.count - first - 1)
      if (h.entries child).key < e.key then
        siftDown d fuel (h.place i (h.entries child)) child e
      else h.place i e
    else h.place i e

def insert (d : ℕ) (h : Heap κ ι) (e : Entry κ ι) : Heap κ ι :=
  siftUp d h.count { h with count := h.count + 1 } h.count e

/-- Removes the item at a position: the last entry takes its place and is sifted. -/
def removeAt (d : ℕ) (h : Heap κ ι) (i : ℕ) (item : ι) : Heap κ ι :=
  let shrunk := { h with count := h.count - 1 }
  let moved :=
    if i ≠ shrunk.count then
      let e := h.entries shrunk.count
      if 0 < i ∧ e.key < (h.entries (parent d i)).key then siftUp d i shrunk i e
      else siftDown d shrunk.count shrunk i e
    else shrunk
  moved.clear item

/-- Removes the roots while their key is at most `key`; `fuel` bounds the number, `count` is
enough. -/
def takeUpTo [LE κ] [DecidableLE κ] (d : ℕ) (key : κ) : ℕ → Heap κ ι → List ι × Heap κ ι
  | 0, h => ([], h)
  | fuel + 1, h =>
    if 0 < h.count ∧ (h.entries 0).key ≤ key then
      let item := (h.entries 0).item
      let (items, rest) := takeUpTo d key fuel (h.removeAt d 0 item)
      (item :: items, rest)
    else ([], h)

end sift

/-- Takes the items of the first `n` positions out in one pass without repair, last one first. -/
def drain (h : Heap κ ι) : ℕ → List ι × Heap κ ι
  | 0 => ([], h)
  | n + 1 =>
    let (items, rest) := drain h n
    ((h.entries n).item :: items, rest.clear (h.entries n).item)

def drainAll (h : Heap κ ι) : List ι × Heap κ ι :=
  let (items, rest) := h.drain h.count
  (items, { rest with count := 0 })

/-! ### Positions -/

def Holds (h : Heap κ ι) (key : κ) (item : ι) : Prop := ∃ i < h.count, h.entries i = ⟨key, item⟩

/-- The position table is right. -/
def Indexed (h : Heap κ ι) : Prop :=
  ∀ item i, h.position item = some i ↔ i < h.count ∧ (h.entries i).item = item

variable {h : Heap κ ι} {i j : ℕ} {e : Entry κ ι}

omit [DecidableEq ι] in
lemma Indexed.injective (hx : h.Indexed) (hi : i < h.count) (hj : j < h.count)
    (heq : (h.entries i).item = (h.entries j).item) : i = j := by
  have hpi := (hx _ i).mpr ⟨hi, heq⟩
  rw [(hx _ j).mpr ⟨hj, rfl⟩] at hpi
  exact (Option.some.inj hpi).symm

@[simp] lemma place_count (h : Heap κ ι) (i : ℕ) (e : Entry κ ι) : (h.place i e).count = h.count :=
  rfl

@[simp] lemma place_entries_self (h : Heap κ ι) (i : ℕ) (e : Entry κ ι) :
    (h.place i e).entries i = e := update_self ..

lemma place_entries_of_ne (h : Heap κ ι) (e : Entry κ ι) (hne : j ≠ i) :
    (h.place i e).entries j = h.entries j := update_of_ne hne ..

/-- One turn of a sift: the entry of `j` moves into the hole at `i`, and the hole to `j`. -/
lemma exchange_entries (h : Heap κ ι) (e : Entry κ ι) (hne : i ≠ j) (k : ℕ) :
    ((h.place i (h.entries j)).place j e).entries k =
      if k = j then e else if k = i then h.entries j else h.entries k := by
  split_ifs with hj hi
  · rw [hj, place_entries_self]
  · rw [hi, place_entries_of_ne _ _ hne, place_entries_self]
  · rw [place_entries_of_ne _ _ hj, place_entries_of_ne _ _ hi]

/-- An exchange keeps the position table right. -/
lemma Indexed.exchange (hx : (h.place i e).Indexed) (hi : i < h.count) (hj : j < h.count)
    (hne : i ≠ j) : ((h.place i (h.entries j)).place j e).Indexed := by
  have hother : (h.entries j).item ≠ e.item := by
    intro hc
    have hinj := hx.injective (i := i) (j := j) hi hj
    rw [place_entries_self, place_entries_of_ne _ _ hne.symm] at hinj
    exact hne (hinj hc.symm)
  intro item k
  have hold := hx item k
  have hold_i := hx item i
  have hold_j := hx item j
  rw [place_entries_self] at hold_i
  rw [place_entries_of_ne _ _ hne.symm] at hold_j
  rw [exchange_entries h e hne]
  show update (update h.position (h.entries j).item (some i)) e.item (some j) item = some k ↔ _
  have hplace : (h.place i e).position = update h.position e.item (some i) := rfl
  rw [hplace] at hold hold_i hold_j
  rcases eq_or_ne item e.item with rfl | hne_e
  · rw [update_self] at hold ⊢
    constructor
    · intro hk
      cases hk
      exact ⟨hj, by rw [if_pos rfl]⟩
    rintro ⟨hk, heq⟩
    split_ifs at heq with hkj hki
    · rw [hkj]
    · exact absurd heq hother
    · rw [place_entries_of_ne _ _ hki] at hold
      exact absurd (Option.some.inj (hold.mpr ⟨hk, heq⟩)).symm hki
  · rw [update_of_ne hne_e] at hold hold_j ⊢
    rcases eq_or_ne item (h.entries j).item with rfl | hne_j
    · rw [update_self]
      have hpos := hold_j.mpr ⟨hj, rfl⟩
      constructor
      · intro hk
        cases hk
        exact ⟨hi, by rw [if_neg hne, if_pos rfl]⟩
      rintro ⟨hk, heq⟩
      split_ifs at heq with hkj hki
      · exact absurd heq.symm hne_e
      · rw [hki]
      · rw [place_entries_of_ne _ _ hki, hpos] at hold
        exact absurd (Option.some.inj (hold.mpr ⟨hk, heq⟩)).symm hkj
    · rw [update_of_ne hne_j, hold]
      refine and_congr_right fun hk => ?_
      split_ifs with hkj hki
      · rw [hkj, place_entries_of_ne _ _ hne.symm]
        exact ⟨fun hc => absurd hc.symm hne_j, fun hc => absurd hc.symm hne_e⟩
      · rw [hki, place_entries_self]
        exact ⟨fun hc => absurd hc.symm hne_e, fun hc => absurd hc.symm hne_j⟩
      · rw [place_entries_of_ne _ _ hki]

/-- An exchange keeps the entries. -/
lemma holds_exchange (hi : i < h.count) (hj : j < h.count) (hne : i ≠ j) (key : κ) (item : ι) :
    ((h.place i (h.entries j)).place j e).Holds key item ↔ (h.place i e).Holds key item := by
  unfold Holds
  simp only [exchange_entries h e hne, place_count]
  constructor
  · rintro ⟨k, hk, heq⟩
    split_ifs at heq with hkj hki
    · exact ⟨i, hi, by rw [place_entries_self, heq]⟩
    · exact ⟨j, hj, by rw [place_entries_of_ne _ _ hne.symm, heq]⟩
    · exact ⟨k, hk, by rw [place_entries_of_ne _ _ hki, heq]⟩
  · rintro ⟨k, hk, heq⟩
    rcases eq_or_ne k i with rfl | hki
    · rw [place_entries_self] at heq
      exact ⟨j, hj, by rw [if_pos rfl, heq]⟩
    rw [place_entries_of_ne _ _ hki] at heq
    rcases eq_or_ne k j with rfl | hkj
    · exact ⟨i, hi, by rw [if_neg hne, if_pos rfl, heq]⟩
    · exact ⟨k, hk, by rw [if_neg hkj, if_neg hki, heq]⟩

/-! ### Order -/

variable [LinearOrder κ] {d : ℕ}

def keyAt (h : Heap κ ι) (i : ℕ) : κ := (h.entries i).key

def Ordered (d : ℕ) (h : Heap κ ι) : Prop :=
  ∀ j, 0 < j → j < h.count → h.keyAt (parent d j) ≤ h.keyAt j

/-- In order but for the entry at `i`, which may be too small for its place. -/
structure UpOrdered (d : ℕ) (h : Heap κ ι) (i : ℕ) : Prop where
  others : ∀ j, 0 < j → j < h.count → j ≠ i → h.keyAt (parent d j) ≤ h.keyAt j
  across : 0 < i → ∀ j, 0 < j → j < h.count → parent d j = i → h.keyAt (parent d i) ≤ h.keyAt j

/-- In order but for the entry at `i`, which may be too large for its place. -/
structure DownOrdered (d : ℕ) (h : Heap κ ι) (i : ℕ) : Prop where
  others : ∀ j, 0 < j → j < h.count → parent d j ≠ i → h.keyAt (parent d j) ≤ h.keyAt j
  across : 0 < i → ∀ j, 0 < j → j < h.count → parent d j = i → h.keyAt (parent d i) ≤ h.keyAt j

omit [DecidableEq ι] in
lemma parent_lt (hi : 0 < i) : parent d i < i := by
  have hle : (i - 1) / d ≤ i - 1 := Nat.div_le_self _ _
  unfold parent
  omega

omit [DecidableEq ι] in
lemma parent_eq_iff (hd : 0 < d) (hj : 0 < j) :
    parent d j = i ↔ i * d + 1 ≤ j ∧ j < i * d + 1 + d := by
  unfold parent
  rw [Nat.div_eq_iff hd]
  omega

omit [DecidableEq ι] in
/-- The root has a least key. -/
lemma Ordered.root_le (ho : h.Ordered d) (hi : i < h.count) : h.keyAt 0 ≤ h.keyAt i := by
  induction i using Nat.strongRecOn with
  | ind i ih =>
    rcases Nat.eq_zero_or_pos i with rfl | hpos
    · exact le_rfl
    · have hlt := parent_lt (d := d) hpos
      exact (ih _ hlt (hlt.trans hi)).trans (ho i hpos hi)

omit [LinearOrder κ] in
lemma keyAt_exchange (h : Heap κ ι) (e : Entry κ ι) (hne : i ≠ j) (k : ℕ) :
    ((h.place i (h.entries j)).place j e).keyAt k =
      if k = j then e.key else if k = i then h.keyAt j else h.keyAt k := by
  unfold keyAt
  rw [exchange_entries h e hne]
  split_ifs <;> rfl

omit [LinearOrder κ] in
lemma keyAt_place (h : Heap κ ι) (e : Entry κ ι) (k : ℕ) :
    (h.place i e).keyAt k = if k = i then e.key else h.keyAt k := by
  unfold keyAt
  split_ifs with hk
  · rw [hk, place_entries_self]
  · rw [place_entries_of_ne _ _ hk]

/-- Moving a smaller entry up keeps everything else in order. -/
lemma UpOrdered.exchange (hu : UpOrdered d (h.place i e) i) (hi : 0 < i) (hlt : i < h.count)
    (hkey : e.key < h.keyAt (parent d i)) :
    UpOrdered d ((h.place i (h.entries (parent d i))).place (parent d i) e) (parent d i) := by
  have hp : parent d i < i := parent_lt hi
  have hne : i ≠ parent d i := hp.ne'
  obtain ⟨hothers, hacross⟩ := hu
  simp only [keyAt_place, place_count] at hothers hacross
  have hparent : 0 < parent d i → h.keyAt (parent d (parent d i)) ≤ h.keyAt (parent d i) := by
    intro hpos
    have hpp := parent_lt (d := d) hpos
    have hle := hothers (parent d i) hpos (hp.trans hlt) hne.symm
    rwa [if_neg (by omega), if_neg hne.symm] at hle
  have hsibling : ∀ j, 0 < j → j < h.count → j ≠ i → parent d j = parent d i →
      h.keyAt (parent d i) ≤ h.keyAt j := by
    intro j hj hjc hji hpj
    have hle := hothers j hj hjc hji
    rwa [hpj, if_neg hne.symm, if_neg hji] at hle
  constructor
  · intro j hj hjc hjp
    rw [keyAt_exchange h e hne, keyAt_exchange h e hne, if_neg hjp]
    rcases eq_or_ne j i with rfl | hji
    · rw [if_pos rfl, if_pos rfl]
      exact hkey.le
    rw [if_neg hji]
    split_ifs with h1 h2
    · exact hkey.le.trans (hsibling j hj hjc hji h1)
    · have hle := hacross hi j hj hjc h2
      rwa [if_neg hne.symm, if_neg hji] at hle
    · have hle := hothers j hj hjc hji
      rwa [if_neg h2, if_neg hji] at hle
  · intro hpos j hj hjc hpj
    have hpp := parent_lt (d := d) hpos
    have hjp : j ≠ parent d i := by
      rintro rfl
      omega
    rw [keyAt_exchange h e hne, keyAt_exchange h e hne, if_neg (by omega), if_neg (by omega),
      if_neg hjp]
    split_ifs with hji
    · exact hparent hpos
    · exact (hparent hpos).trans (hsibling j hj hjc hji hpj)

/-- An entry that is not below its parent ends a sift up. -/
lemma UpOrdered.finish (hu : UpOrdered d (h.place i e) i)
    (hle : 0 < i → h.keyAt (parent d i) ≤ e.key) : (h.place i e).Ordered d := by
  intro j hj hjc
  rcases eq_or_ne j i with rfl | hji
  · have hp := parent_lt (d := d) hj
    rw [keyAt_place, keyAt_place, if_neg (by omega), if_pos rfl]
    exact hle hj
  · exact hu.others j hj hjc hji

/-- What a sift or a whole operation leaves behind: an ordered, indexed heap of the same size as
`h` with the entries of `h`. -/
structure Restores (d : ℕ) (h h' : Heap κ ι) : Prop where
  ordered : h'.Ordered d
  indexed : h'.Indexed
  count : h'.count = h.count
  holds : ∀ key item, h'.Holds key item ↔ h.Holds key item

variable {fuel n : ℕ} {item : ι}

/-- A sift up ends in order with the same entries. -/
lemma siftUp_restores (hfuel : i ≤ fuel) (hlt : i < h.count) (hx : (h.place i e).Indexed)
    (hu : UpOrdered d (h.place i e) i) : Restores d (h.place i e) (siftUp d fuel h i e) := by
  induction fuel generalizing h i with
  | zero =>
    rw [siftUp]
    exact ⟨hu.finish fun hpos => by omega, hx, rfl, fun _ _ => Iff.rfl⟩
  | succ fuel ih =>
    rw [siftUp]
    split_ifs with hcond
    · obtain ⟨hpos, hkey⟩ := hcond
      have hp : parent d i < i := parent_lt hpos
      have hpc : parent d i < (h.place i (h.entries (parent d i))).count := hp.trans hlt
      obtain ⟨hordered, hindexed, hcount, hholds⟩ :=
        ih (by omega) hpc (hx.exchange hlt hpc hp.ne') (hu.exchange hpos hlt hkey)
      exact ⟨hordered, hindexed, hcount,
        fun key item => (hholds key item).trans (holds_exchange hlt hpc hp.ne' key item)⟩
    · refine ⟨hu.finish fun hpos => ?_, hx, rfl, fun _ _ => Iff.rfl⟩
      exact not_lt.mp fun hkey => hcond ⟨hpos, hkey⟩

omit [DecidableEq ι] in
/-- The child a sift down chooses is one of the siblings and has a least key among them. -/
lemma leastChild_spec (h : Heap κ ι) (child n : ℕ) :
    child ≤ leastChild h child n ∧ leastChild h child n ≤ child + n ∧
      ∀ j, child ≤ j → j ≤ child + n → h.keyAt (leastChild h child n) ≤ h.keyAt j := by
  induction n with
  | zero =>
    refine ⟨le_rfl, le_rfl, fun j hj hj' => ?_⟩
    rw [hj'.antisymm hj]
    exact le_rfl
  | succ n ih =>
    obtain ⟨hlo, hhi, hleast⟩ := ih
    rw [leastChild]
    split_ifs with hlt
    · refine ⟨by omega, by omega, fun j hj hj' => ?_⟩
      rcases Nat.lt_or_ge j (child + n + 1) with hjn | hjn
      · exact hlt.le.trans (hleast j hj (by omega))
      · rw [show j = child + n + 1 by omega]
    · refine ⟨hlo, by omega, fun j hj hj' => ?_⟩
      rcases Nat.lt_or_ge j (child + n + 1) with hjn | hjn
      · exact hleast j hj (by omega)
      · rw [show j = child + n + 1 by omega]
        exact not_lt.mp hlt

/-- Moving a larger entry down to its least child keeps everything else in order. -/
lemma DownOrdered.exchange {c : ℕ} (hdown : DownOrdered d (h.place i e) i) (hc : 0 < c)
    (hlt : c < h.count) (hpc : parent d c = i) (hkey : h.keyAt c < e.key)
    (hleast : ∀ j, 0 < j → j < h.count → parent d j = i → h.keyAt c ≤ h.keyAt j) :
    DownOrdered d ((h.place i (h.entries c)).place c e) c := by
  have hic : i < c := hpc ▸ parent_lt hc
  have hne : i ≠ c := hic.ne
  obtain ⟨hothers, hacross⟩ := hdown
  simp only [keyAt_place, place_count] at hothers hacross
  constructor
  · intro j hj hjc hpj
    rw [keyAt_exchange h e hne, keyAt_exchange h e hne, if_neg hpj]
    rcases eq_or_ne j c with rfl | hjc'
    · rw [if_pos hpc, if_pos rfl]
      exact hkey.le
    rw [if_neg hjc']
    split_ifs with h1 h2 h3
    · -- `j = i` would be its own parent
      have := parent_lt (d := d) hj
      omega
    · exact hleast j hj hjc h1
    · subst h3
      have hle := hacross hj c hc hlt hpc
      rwa [if_neg h1, if_neg hne.symm] at hle
    · have hle := hothers j hj hjc h1
      rwa [if_neg h1, if_neg h3] at hle
  · intro _ j hj hjc hpj
    have hjc' : c < j := hpj ▸ parent_lt hj
    rw [keyAt_exchange h e hne, keyAt_exchange h e hne, hpc, if_neg hne, if_pos rfl,
      if_neg (by omega), if_neg (by omega)]
    have hle := hothers j hj hjc (by omega)
    rwa [hpj, if_neg hne.symm, if_neg (by omega)] at hle

/-- An entry that is not above a child ends a sift down. -/
lemma DownOrdered.finish (hdown : DownOrdered d (h.place i e) i)
    (hle : ∀ j, 0 < j → j < h.count → parent d j = i → e.key ≤ h.keyAt j) :
    (h.place i e).Ordered d := by
  intro j hj hjc
  rcases eq_or_ne (parent d j) i with hpj | hpj
  · have hp : parent d j < j := parent_lt hj
    rw [keyAt_place, keyAt_place, if_pos hpj, if_neg (by omega)]
    exact hle j hj hjc hpj
  · exact hdown.others j hj hjc hpj

/-- A sift down ends in order with the same entries. -/
lemma siftDown_restores (hd : 0 < d) (hfuel : h.count ≤ i + fuel) (hlt : i < h.count)
    (hx : (h.place i e).Indexed) (hdown : DownOrdered d (h.place i e) i) :
    Restores d (h.place i e) (siftDown d fuel h i e) := by
  induction fuel generalizing h i with
  | zero => omega
  | succ fuel ih =>
    rw [siftDown]
    dsimp only
    split_ifs with hfirst hkey
    · obtain ⟨hlo, hhi, hleast⟩ := leastChild_spec h (i * d + 1)
        (min (i * d + 1 + d) h.count - (i * d + 1) - 1)
      generalize leastChild h (i * d + 1) (min (i * d + 1 + d) h.count - (i * d + 1) - 1) = c at *
      have hc : 0 < c := by omega
      have hcc : c < h.count := by omega
      have hpc : parent d c = i := (parent_eq_iff hd hc).mpr ⟨hlo, by omega⟩
      have hic : i < c := hpc ▸ parent_lt hc
      have hcc' : c < (h.place i (h.entries c)).count := hcc
      obtain ⟨hordered, hindexed, hcount, hholds⟩ :=
        ih (by rw [place_count]; omega) hcc' (hx.exchange hlt hcc hic.ne)
          (hdown.exchange hc hcc hpc hkey fun j hj hjc hpj => by
            obtain ⟨h1, h2⟩ := (parent_eq_iff hd hj).mp hpj
            exact hleast j h1 (by omega))
      exact ⟨hordered, hindexed, hcount,
        fun key item => (hholds key item).trans (holds_exchange hlt hcc hic.ne key item)⟩
    · obtain ⟨hlo, hhi, hleast⟩ := leastChild_spec h (i * d + 1)
        (min (i * d + 1 + d) h.count - (i * d + 1) - 1)
      refine ⟨hdown.finish fun j hj hjc hpj => ?_, hx, rfl, fun _ _ => Iff.rfl⟩
      obtain ⟨h1, h2⟩ := (parent_eq_iff hd hj).mp hpj
      exact (not_lt.mp hkey).trans (hleast j h1 (by omega))
    · refine ⟨hdown.finish fun j hj hjc hpj => ?_, hx, rfl, fun _ _ => Iff.rfl⟩
      obtain ⟨h1, -⟩ := (parent_eq_iff hd hj).mp hpj
      omega

/-! ### Operations -/

structure WellFormed (d : ℕ) (h : Heap κ ι) : Prop where
  ordered : h.Ordered d
  indexed : h.Indexed

omit [LinearOrder κ] in
/-- A new entry behind the last one is indexed. -/
lemma Indexed.append (hx : h.Indexed) (hnew : h.position e.item = none) :
    (place { h with count := h.count + 1 } h.count e).Indexed := by
  intro item k
  show update h.position e.item (some h.count) item = some k ↔ k < h.count + 1 ∧ _
  rcases eq_or_ne k h.count with rfl | hk
  · rw [place_entries_self]
    rcases eq_or_ne item e.item with rfl | hne
    · simp
    · rw [update_of_ne hne, hx]
      exact ⟨fun hc => absurd hc.1 (lt_irrefl _), fun hc => absurd hc.2.symm hne⟩
  · rw [place_entries_of_ne _ _ hk]
    have hlt : k < h.count + 1 ↔ k < h.count := by omega
    rcases eq_or_ne item e.item with rfl | hne
    · rw [update_self, hlt]
      refine ⟨fun hc => absurd (Option.some.inj hc).symm hk, fun hc => ?_⟩
      rw [(hx _ k).mpr hc] at hnew
      exact absurd hnew (by simp)
    · rw [update_of_ne hne, hx, hlt]

/-- `insert` adds its entry and keeps the heap. -/
lemma WellFormed.insert (hw : h.WellFormed d) (hnew : h.position e.item = none) :
    (h.insert d e).WellFormed d ∧ (h.insert d e).count = h.count + 1 ∧
      ∀ key item, (h.insert d e).Holds key item ↔
        h.Holds key item ∨ (⟨key, item⟩ : Entry κ ι) = e := by
  have hup : UpOrdered d (place { h with count := h.count + 1 } h.count e) h.count := by
    constructor
    · intro j hj hjc hne
      have hp := parent_lt (d := d) hj
      rw [place_count] at hjc
      have hjc' : j < h.count := by
        have : j < h.count + 1 := hjc
        omega
      rw [keyAt_place, keyAt_place, if_neg (by omega), if_neg hne]
      exact hw.ordered j hj hjc'
    · intro _ j hj hjc hpj
      have hp := parent_lt (d := d) hj
      have : j < h.count + 1 := hjc
      omega
  obtain ⟨hordered, hindexed, hcount, hholds⟩ :=
    siftUp_restores (h := { h with count := h.count + 1 }) le_rfl (Nat.lt_succ_self _)
      (hw.indexed.append hnew) hup
  refine ⟨⟨hordered, hindexed⟩, hcount, fun key item => (hholds key item).trans ?_⟩
  constructor
  · rintro ⟨k, hk, heq⟩
    have hk' : k < h.count + 1 := hk
    rcases eq_or_ne k h.count with rfl | hne
    · rw [place_entries_self] at heq
      exact Or.inr heq.symm
    · rw [place_entries_of_ne _ _ hne] at heq
      exact Or.inl ⟨k, by omega, heq⟩
  · rintro (⟨k, hk, heq⟩ | heq)
    · exact ⟨k, Nat.lt_succ_of_lt hk, by rwa [place_entries_of_ne _ _ hk.ne]⟩
    · exact ⟨h.count, Nat.lt_succ_self _, by rw [place_entries_self, heq]⟩

omit [LinearOrder κ] in
lemma clear_place (hne : e.item ≠ item) : (h.place i e).clear item = (h.clear item).place i e := by
  unfold clear place
  congr 1
  exact update_comm hne ..

omit [LinearOrder κ] in
/-- Moving an entry into the hole leaves an item that was only in the hole nowhere else. -/
lemma item_ne_of_place (hne : ∀ k < h.count, k ≠ i → (h.entries k).item ≠ item) (hj : j < h.count)
    (hij : j ≠ i) :
    ∀ k < (h.place i (h.entries j)).count, k ≠ j →
      ((h.place i (h.entries j)).entries k).item ≠ item := by
  intro k hk hkj
  rcases eq_or_ne k i with rfl | hki
  · rw [place_entries_self]
    exact hne j hj hij
  · rw [place_entries_of_ne _ _ hki]
    exact hne k hk hki

/-- A sift up does not touch an item that is only in its hole. -/
lemma clear_siftUp (fuel : ℕ) (he : e.item ≠ item) (hi : i < h.count)
    (hne : ∀ k < h.count, k ≠ i → (h.entries k).item ≠ item) :
    (siftUp d fuel h i e).clear item = siftUp d fuel (h.clear item) i e := by
  induction fuel generalizing h i with
  | zero => exact clear_place he
  | succ fuel ih =>
    have hentries : (h.clear item).entries = h.entries := rfl
    rw [siftUp, siftUp, hentries]
    split_ifs with hcond
    · have hp : parent d i < i := parent_lt hcond.1
      have hpc : parent d i < h.count := hp.trans hi
      rw [ih (h := h.place i (h.entries (parent d i))) hpc (item_ne_of_place hne hpc hp.ne),
        clear_place (hne _ hpc hp.ne)]
    · exact clear_place he

/-- A sift down does not touch an item that is only in its hole. -/
lemma clear_siftDown (fuel : ℕ) (hd : 0 < d) (he : e.item ≠ item) (hi : i < h.count)
    (hne : ∀ k < h.count, k ≠ i → (h.entries k).item ≠ item) :
    (siftDown d fuel h i e).clear item = siftDown d fuel (h.clear item) i e := by
  induction fuel generalizing h i with
  | zero => exact clear_place he
  | succ fuel ih =>
    have hleast : ∀ child n, leastChild (h.clear item) child n = leastChild h child n := by
      intro child n
      induction n with
      | zero => rfl
      | succ n ihn =>
        rw [leastChild, leastChild, ihn]
        rfl
    have hcount : (h.clear item).count = h.count := rfl
    have hentries : (h.clear item).entries = h.entries := rfl
    rw [siftDown, siftDown]
    simp only [hleast, hcount, hentries]
    split_ifs with hfirst hkey
    · obtain ⟨hlo, hhi, -⟩ := leastChild_spec h (i * d + 1)
        (min (i * d + 1 + d) h.count - (i * d + 1) - 1)
      generalize leastChild h (i * d + 1) (min (i * d + 1 + d) h.count - (i * d + 1) - 1) = c at *
      have hcc : c < h.count := by omega
      have hci : c ≠ i := by
        have hpc : parent d c = i := (parent_eq_iff hd (by omega)).mpr ⟨hlo, by omega⟩
        have hlt := parent_lt (d := d) (i := c) (by omega)
        omega
      rw [ih (h := h.place i (h.entries c)) hcc (item_ne_of_place hne hcc hci),
        clear_place (hne _ hcc hci)]
    · exact clear_place he
    · exact clear_place he

omit [LinearOrder κ] in
/-- Dropping the last entry forgets its item. -/
lemma Indexed.dropLast (hx : h.Indexed) (hpos : 0 < h.count) :
    (clear { h with count := h.count - 1 } (h.entries (h.count - 1)).item).Indexed ∧
      ∀ key item, (clear { h with count := h.count - 1 }
        (h.entries (h.count - 1)).item).Holds key item ↔
        h.Holds key item ∧ item ≠ (h.entries (h.count - 1)).item := by
  have hlast : ∀ k < h.count, (h.entries k).item ≠ (h.entries (h.count - 1)).item ↔
      k < h.count - 1 := by
    intro k hk
    refine ⟨fun hne => ?_, fun hk' hc => ?_⟩
    · have : k ≠ h.count - 1 := fun hc => hne (by rw [hc])
      omega
    · have := hx.injective hk (by omega) hc
      omega
  constructor
  · intro item k
    show update h.position (h.entries (h.count - 1)).item none item = some k ↔
      k < h.count - 1 ∧ (h.entries k).item = item
    rcases eq_or_ne item (h.entries (h.count - 1)).item with rfl | hne
    · rw [update_self]
      refine ⟨fun hc => absurd hc (by simp), fun hc => ?_⟩
      exact absurd hc.2 ((hlast k (by omega)).mpr hc.1)
    · rw [update_of_ne hne, hx]
      refine and_congr_left fun hitem => ⟨fun hk => (hlast k hk).mp (hitem ▸ hne),
        fun hk => by omega⟩
  · intro key item
    constructor
    · rintro ⟨k, hk, heq⟩
      have hk' : k < h.count - 1 := hk
      have hentry : h.entries k = ⟨key, item⟩ := heq
      have hne := (hlast k (by omega)).mpr hk'
      rw [hentry] at hne
      exact ⟨⟨k, by omega, heq⟩, hne⟩
    · rintro ⟨⟨k, hk, heq⟩, hne⟩
      exact ⟨k, (hlast k hk).mp (by rwa [heq]), heq⟩

omit [LinearOrder κ] in
/-- With the last entry moved over the entry at `i`, only the item of `i` is gone: the two are
exchanged and the last one is dropped. -/
lemma Indexed.overwrite (hx : h.Indexed) (hi : i < h.count - 1) :
    ((clear { h with count := h.count - 1 } (h.entries i).item).place i
      (h.entries (h.count - 1))).Indexed ∧
      ∀ key item, ((clear { h with count := h.count - 1 } (h.entries i).item).place i
        (h.entries (h.count - 1))).Holds key item ↔
          h.Holds key item ∧ item ≠ (h.entries i).item := by
  have hlast : h.count - 1 < h.count := by omega
  have hself : h.place i (h.entries i) = h := by
    have hpos := (hx _ i).mpr ⟨hi.trans hlast, rfl⟩
    unfold place
    rw [update_eq_self, ← hpos, update_eq_self]
  have hne : (h.entries (h.count - 1)).item ≠ (h.entries i).item := fun hc =>
    hi.ne' (hx.injective hlast (hi.trans hlast) hc)
  obtain ⟨hindexed, hholds⟩ :=
    (Indexed.exchange (hself.symm ▸ hx) (hi.trans hlast) hlast hi.ne).dropLast
      (Nat.zero_lt_of_lt hlast)
  simp only [place_count, place_entries_self] at hindexed hholds
  -- beyond the count the entries do not matter
  have hentries : ∀ k < h.count - 1, (h.place i (h.entries (h.count - 1))).entries k =
      ((h.place i (h.entries (h.count - 1))).place (h.count - 1) (h.entries i)).entries k :=
    fun k hk => (place_entries_of_ne _ _ hk.ne).symm
  constructor
  · intro item k
    refine Iff.trans ?_ ((hindexed item k).trans (and_congr_right fun hk => ?_))
    · show update (update _ _ _) _ _ item = _ ↔ update (update (update _ _ _) _ _) _ _ item = _
      rw [update_idem, update_comm hne]
    · exact iff_of_eq (congrArg (·.item = item) (hentries k hk).symm)
  · intro key item
    have hexchange := holds_exchange (e := h.entries i) (hi.trans hlast) hlast hi.ne key item
    rw [hself] at hexchange
    rw [← hexchange, ← hholds]
    refine exists_congr fun k => and_congr_right fun hk => ?_
    exact iff_of_eq (congrArg (· = _) (hentries k hk))

section

variable (hw : h.WellFormed d) (hd : 0 < d)
include hw hd

/-- The sift that `removeAt` chooses restores the order. -/
lemma WellFormed.overwrite_restores (hi : i < h.count - 1) :
    Restores d ((clear { h with count := h.count - 1 } (h.entries i).item).place i
      (h.entries (h.count - 1))) (h.removeAt d i (h.entries i).item) := by
  have hx := (hw.indexed.overwrite hi).1
  have hother : ∀ k < h.count, k ≠ i → (h.entries k).item ≠ (h.entries i).item := by
    intro k hk hki hc
    exact hki (hw.indexed.injective hk (by omega) hc)
  have hacross : 0 < i → ∀ j, 0 < j → j < h.count - 1 → parent d j = i →
      h.keyAt (parent d i) ≤ h.keyAt j := by
    intro hpos j hj hjc hpj
    have hle := hw.ordered j hj (by omega)
    rw [hpj] at hle
    exact (hw.ordered i hpos (by omega)).trans hle
  have hacross' : 0 < i → ∀ j, 0 < j → j < h.count - 1 → parent d j = i →
      (h.place i (h.entries (h.count - 1))).keyAt (parent d i) ≤
        (h.place i (h.entries (h.count - 1))).keyAt j := by
    intro hpos j hj hjc hpj
    have hp := parent_lt (d := d) hpos
    have hp' := parent_lt (d := d) hj
    rw [keyAt_place, keyAt_place, if_neg (by omega), if_neg (by omega)]
    exact hacross hpos j hj hjc hpj
  unfold removeAt
  dsimp only
  rw [if_pos hi.ne]
  split_ifs with hcond
  · rw [clear_siftUp _ (hother _ (by omega) (by omega)) (h := { h with count := h.count - 1 }) hi
      fun k hk hki => hother k (by have : k < h.count - 1 := hk; omega) hki]
    refine siftUp_restores le_rfl hi hx ⟨fun j hj hjc hne => ?_, hacross'⟩
    have hjc' : j < h.count - 1 := hjc
    rw [keyAt_place, keyAt_place, if_neg hne]
    split_ifs with hpj
    · exact hcond.2.le.trans (hacross hcond.1 j hj hjc' hpj)
    · exact hw.ordered j hj (by omega)
  · rw [clear_siftDown _ hd (hother _ (by omega) (by omega))
      (h := { h with count := h.count - 1 }) hi
      fun k hk hki => hother k (by have : k < h.count - 1 := hk; omega) hki]
    refine siftDown_restores hd (Nat.le_add_left _ _) hi hx ⟨fun j hj hjc hne => ?_, hacross'⟩
    have hjc' : j < h.count - 1 := hjc
    rw [keyAt_place, keyAt_place, if_neg hne]
    split_ifs with hji
    · subst hji
      exact not_lt.mp fun hlt => hcond ⟨hj, hlt⟩
    · exact hw.ordered j hj (by omega)

/-- `removeAt` removes its item and keeps the heap. -/
lemma WellFormed.removeAt (hi : i < h.count) : (h.removeAt d i (h.entries i).item).WellFormed d ∧
      (h.removeAt d i (h.entries i).item).count = h.count - 1 ∧
      ∀ key item, (h.removeAt d i (h.entries i).item).Holds key item ↔
        h.Holds key item ∧ item ≠ (h.entries i).item := by
  rcases Nat.lt_or_ge i (h.count - 1) with hlt | hge
  · obtain ⟨hordered, hindexed, hcount, hholds⟩ := hw.overwrite_restores hd hlt
    exact ⟨⟨hordered, hindexed⟩, hcount,
      fun key item => (hholds key item).trans ((hw.indexed.overwrite hlt).2 key item)⟩
  -- the last entry is dropped without a sift
  obtain rfl : i = h.count - 1 := by omega
  have hdrop : h.removeAt d (h.count - 1) (h.entries (h.count - 1)).item =
      clear { h with count := h.count - 1 } (h.entries (h.count - 1)).item := by
    unfold Heap.removeAt
    dsimp only
    rw [if_neg (not_not.mpr rfl)]
  rw [hdrop]
  obtain ⟨hindexed, hholds⟩ := hw.indexed.dropLast (by omega)
  refine ⟨⟨fun j hj hjc => ?_, hindexed⟩, rfl, hholds⟩
  have hjc' : j < h.count - 1 := hjc
  exact hw.ordered j hj (by omega)

/-- `takeUpTo` takes every item whose key is at most `key`, once, and leaves the others. -/
lemma WellFormed.takeUpTo (hfuel : h.count ≤ fuel) (bound : κ) :
    (h.takeUpTo d bound fuel).2.WellFormed d ∧ (h.takeUpTo d bound fuel).1.Nodup ∧
      (∀ item, item ∈ (h.takeUpTo d bound fuel).1 ↔ ∃ key ≤ bound, h.Holds key item) ∧
      ∀ key item, (h.takeUpTo d bound fuel).2.Holds key item ↔ h.Holds key item ∧ bound < key := by
  induction fuel generalizing h with
  | zero =>
    have hnone : ∀ key item, ¬h.Holds key item := by
      rintro key item ⟨i, hi, -⟩
      omega
    rw [Heap.takeUpTo]
    exact ⟨hw, nodup_nil, by simp [hnone], by simp [hnone]⟩
  | succ fuel ih =>
    rw [Heap.takeUpTo]
    split_ifs with hcond
    · obtain ⟨hpos, hroot⟩ := hcond
      obtain ⟨hw', hcount, hholds⟩ := hw.removeAt hd hpos
      obtain ⟨hwf, hnodup, hmem, hrest⟩ := ih hw' (by omega)
      refine ⟨hwf, nodup_cons.mpr ⟨fun hc => ?_, hnodup⟩, fun item => ?_, fun key item => ?_⟩
      · obtain ⟨key, -, hkey⟩ := (hmem _).mp hc
        exact ((hholds key _).mp hkey).2 rfl
      · rw [mem_cons, hmem]
        constructor
        · rintro (rfl | ⟨key, hle, hkey⟩)
          · exact ⟨_, hroot, 0, hpos, rfl⟩
          · exact ⟨key, hle, ((hholds key item).mp hkey).1⟩
        · rintro ⟨key, hle, hkey⟩
          rcases eq_or_ne item (h.entries 0).item with heq | hne
          · exact Or.inl heq
          · exact Or.inr ⟨key, hle, (hholds key item).mpr ⟨hkey, hne⟩⟩
      · rw [hrest, hholds]
        refine ⟨fun hc => ⟨hc.1.1, hc.2⟩, fun hc => ⟨⟨hc.1, ?_⟩, hc.2⟩⟩
        -- an item above the bound is not the root's
        rintro rfl
        obtain ⟨i, hi, heq⟩ := hc.1
        have hzero : i = 0 := hw.indexed.injective hi hpos (by rw [heq])
        rw [hzero] at heq
        rw [heq] at hroot
        exact absurd hroot hc.2.not_ge
    · have hlarge : ∀ key item, h.Holds key item → bound < key := by
        rintro key item ⟨i, hi, heq⟩
        have hroot : ¬(h.entries 0).key ≤ bound := fun hc => hcond ⟨by omega, hc⟩
        have hle := hw.ordered.root_le hi
        unfold keyAt at hle
        rw [heq] at hle
        exact (not_le.mp hroot).trans_le hle
      refine ⟨hw, nodup_nil, fun item => ?_, fun key item => ?_⟩
      · refine ⟨fun hc => absurd hc not_mem_nil, ?_⟩
        rintro ⟨key, hle, hkey⟩
        exact absurd hle (hlarge key item hkey).not_ge
      · exact ⟨fun hc => ⟨hc, hlarge key item hc⟩, And.left⟩

/-- `takeUpTo` takes entries in the order of their keys. -/
lemma WellFormed.takeUpTo_sorted (bound : κ) (fuel : ℕ) :
    ∃ taken : List (Entry κ ι), (h.takeUpTo d bound fuel).1 = taken.map Entry.item ∧
      taken.Pairwise (fun a b => a.key ≤ b.key) ∧ ∀ e ∈ taken, h.Holds e.key e.item := by
  induction fuel generalizing h with
  | zero => exact ⟨[], rfl, .nil, by simp⟩
  | succ fuel ih =>
    rw [Heap.takeUpTo]
    split_ifs with hcond
    · obtain ⟨hw', -, hholds⟩ := hw.removeAt hd hcond.1
      obtain ⟨taken, heq, hsorted, hmem⟩ := ih hw'
      have hold : ∀ e ∈ taken, h.Holds e.key e.item := fun e he => ((hholds _ _).mp (hmem e he)).1
      refine ⟨h.entries 0 :: taken, by simp [heq], pairwise_cons.mpr ⟨fun e he => ?_, hsorted⟩, ?_⟩
      · -- the root was the least of all
        obtain ⟨i, hi, hentry⟩ := hold e he
        have hroot := hw.ordered.root_le hi
        unfold keyAt at hroot
        rwa [hentry] at hroot
      · rintro e (_ | ⟨_, he⟩)
        · exact ⟨0, hcond.1, rfl⟩
        · exact hold e he
    · exact ⟨[], rfl, .nil, by simp⟩

end

omit [DecidableEq ι] in
/-- Entries beyond the used ones do not matter. -/
lemma WellFormed.congr (hw : h.WellFormed d) {entries : ℕ → Entry κ ι}
    (heq : ∀ i < h.count, entries i = h.entries i) : { h with entries }.WellFormed d := by
  refine ⟨fun i hi hic => ?_, fun item i => (hw.indexed item i).trans ?_⟩
  · have hic' : i < h.count := hic
    unfold keyAt
    dsimp only
    rw [heq i hic', heq _ ((parent_lt hi).trans hic')]
    exact hw.ordered i hi hic'
  · exact and_congr_right fun hi => by rw [← heq i hi]

omit [LinearOrder κ] in
lemma mem_drain : item ∈ (h.drain n).1 ↔ ∃ i < n, (h.entries i).item = item := by
  induction n with
  | zero => simp [drain]
  | succ n ih =>
    rw [drain, mem_cons, ih]
    constructor
    · rintro (rfl | ⟨i, hi, heq⟩)
      · exact ⟨n, Nat.lt_succ_self n, rfl⟩
      · exact ⟨i, by omega, heq⟩
    · rintro ⟨i, hi, heq⟩
      rcases eq_or_ne i n with rfl | hne
      · exact Or.inl heq.symm
      · exact Or.inr ⟨i, by omega, heq⟩

omit [LinearOrder κ] in
lemma Indexed.drain_nodup (hx : h.Indexed) (hn : n ≤ h.count) : (h.drain n).1.Nodup := by
  induction n with
  | zero => exact nodup_nil
  | succ n ih =>
    rw [drain, nodup_cons, mem_drain]
    refine ⟨?_, ih (by omega)⟩
    rintro ⟨i, hi, heq⟩
    have := hx.injective (by omega) (by omega) heq
    omega

omit [LinearOrder κ] in
lemma drain_position (item : ι) :
    (h.drain n).2.position item = if item ∈ (h.drain n).1 then none else h.position item := by
  induction n with
  | zero => simp [drain]
  | succ n ih =>
    rw [drain]
    show update (h.drain n).2.position (h.entries n).item none item = _
    rcases eq_or_ne item (h.entries n).item with rfl | hne
    · rw [update_self, if_pos mem_cons_self]
    · rw [update_of_ne hne, ih]
      simp only [mem_cons, hne, false_or]

/-- `drainAll` takes every item once and leaves an empty heap. -/
lemma WellFormed.drainAll (hw : h.WellFormed d) :
    h.drainAll.2.WellFormed d ∧ h.drainAll.2.count = 0 ∧ h.drainAll.1.Nodup ∧
      ∀ item, item ∈ h.drainAll.1 ↔ ∃ key, h.Holds key item := by
  have hmem : ∀ item, item ∈ h.drainAll.1 ↔ ∃ key, h.Holds key item := by
    intro item
    refine mem_drain.trans ⟨?_, ?_⟩
    · rintro ⟨i, hi, rfl⟩
      exact ⟨_, i, hi, rfl⟩
    · rintro ⟨key, i, hi, heq⟩
      exact ⟨i, hi, by rw [heq]⟩
  refine ⟨⟨fun j _ hjc => absurd hjc (Nat.not_lt_zero j), fun item i => ?_⟩, rfl,
    hw.indexed.drain_nodup le_rfl, hmem⟩
  refine ⟨fun hc => ?_, fun hc => absurd hc.1 (Nat.not_lt_zero i)⟩
  have hpos : (if item ∈ h.drainAll.1 then none else h.position item) = some i :=
    (drain_position item).symm.trans hc
  split_ifs at hpos with hin
  obtain ⟨hi, heq⟩ := (hw.indexed item i).mp hpos
  exact absurd ((hmem item).mpr ⟨_, i, hi, by rw [← heq]⟩) hin

omit [LinearOrder κ] [DecidableEq ι] in
/-- An item is in the heap exactly when it has a position. -/
lemma Indexed.position_eq_none_iff (hx : h.Indexed) (item : ι) :
    h.position item = none ↔ ∀ key, ¬h.Holds key item := by
  constructor
  · rintro hnone key ⟨i, hi, heq⟩
    rw [(hx item i).mpr ⟨hi, by rw [heq]⟩] at hnone
    exact absurd hnone (by simp)
  intro hno
  cases hpos : h.position item with
  | none => rfl
  | some i =>
    obtain ⟨hi, rfl⟩ := (hx item i).mp hpos
    exact absurd ⟨i, hi, rfl⟩ (hno (h.entries i).key)

end Heap

end IndexedHeap
