import Mathlib.Algebra.BigOperators.Group.List.Basic
import Mathlib.Data.List.Chain
import Hrx.Tlsf.Basic
import Mathlib.Algebra.GroupWithZero.Nat

/-!
# Tilings of the address range

What the allocator is for, without nodes and lists: the range `[0, rangeLength)` cut into
consecutive extents, each free or allocated.  An allocation splits an extent, a free changes a flag
and joins neighbours; this module says what these do to the tiling, to the LAST mark and to the byte
and block totals.
-/

namespace Hrx.Tlsf

open List

/-- A block as a piece of the address range. -/
structure Extent where
  offset : ℕ
  length : ℕ
  free : Bool
  last : Bool
deriving DecidableEq, Repr

def Block.extent (b : Block) : Extent := ⟨b.offset, b.length, b.flags.free, b.flags.last⟩

lemma Block.extent_of_free {b : Block} (h : b.flags.free = true) :
    b.extent = ⟨b.offset, b.length, true, b.flags.last⟩ := h ▸ rfl

/-- The extents of `l` cover `[start, stop)` in order, without gap or overlap, each nonempty and
aligned. -/
def Tiles (alignment : ℕ) : ℕ → List Extent → ℕ → Prop
  | start, [], stop => start = stop
  | start, e :: l, stop =>
    e.offset = start ∧ 0 < e.length ∧ alignment ∣ e.offset ∧ alignment ∣ e.length ∧
      Tiles alignment (start + e.length) l stop

def LastOnly : List Extent → Prop
  | [] => False
  | [e] => e.last = true
  | e :: e' :: l => e.last = false ∧ LastOnly (e' :: l)

variable (l : List Extent)

def NoAdjacentFree : Prop := l.IsChain fun a b => ¬ (a.free = true ∧ b.free = true)

def freeBytes : ℕ := (l.map fun e => if e.free then e.length else 0).sum

def allocatedBytes : ℕ := (l.map fun e => if e.free then 0 else e.length).sum

variable {alignment start stop : ℕ} {l₁ l₂ : List Extent} {e e' front rest left right : Extent}

def allocatedCount : ℕ := l.countP fun e => !e.free

/-! ### Cutting and joining a tiling -/

lemma tiles_append :
    Tiles alignment start (l₁ ++ l₂) stop ↔
      ∃ mid, Tiles alignment start l₁ mid ∧ Tiles alignment mid l₂ stop := by
  induction l₁ generalizing start with
  | nil => simp [Tiles]
  | cons e l ih =>
    simp only [cons_append, Tiles, ih]
    constructor
    · rintro ⟨ho, hl, hao, hal, mid, h₁, h₂⟩
      exact ⟨mid, ⟨ho, hl, hao, hal, h₁⟩, h₂⟩
    · rintro ⟨mid, ⟨ho, hl, hao, hal, h₁⟩, h₂⟩
      exact ⟨ho, hl, hao, hal, mid, h₁, h₂⟩

/-- The end of a tiling lies behind every extent. -/
lemma Tiles.le {l : List Extent} (h : Tiles alignment start l stop) : start ≤ stop := by
  induction l generalizing start with
  | nil => exact h.le
  | cons e l ih =>
    obtain ⟨-, -, -, -, h'⟩ := h
    have := ih h'
    omega

lemma Tiles.mem_bounds {l : List Extent} (h : Tiles alignment start l stop) (he : e ∈ l) :
    0 < e.length ∧ alignment ∣ e.offset ∧ alignment ∣ e.length ∧ start ≤ e.offset ∧
      e.offset + e.length ≤ stop := by
  obtain ⟨l₁, l₂, rfl⟩ := append_of_mem he
  obtain ⟨mid, h₁, ho, hl, hao, hal, h₂⟩ := tiles_append.mp h
  have hle₁ := h₁.le
  have hle₂ := h₂.le
  exact ⟨hl, hao, hal, by omega, by omega⟩

section

variable (h : Tiles alignment start (l₁ ++ e :: l₂) stop)
include h

/-- Flags do not matter to a tiling. -/
lemma Tiles.replace (hoffset : e'.offset = e.offset) (hlength : e'.length = e.length) :
    Tiles alignment start (l₁ ++ e' :: l₂) stop := by
  obtain ⟨mid, h₁, ho, hl, hao, hal, h₂⟩ := tiles_append.mp h
  refine tiles_append.mpr ⟨mid, h₁, ?_⟩
  simp only [Tiles, hoffset, hlength]
  exact ⟨ho, hl, hao, hal, h₂⟩

/-- Splitting an extent keeps the tiling. -/
lemma Tiles.split (hpos : 0 < front.length)
    (halign : alignment ∣ front.length) (hfront : front.offset = e.offset)
    (hrest : rest.offset = e.offset + front.length)
    (hlength : front.length + rest.length = e.length) (hrpos : 0 < rest.length) :
    Tiles alignment start (l₁ ++ front :: rest :: l₂) stop := by
  obtain ⟨mid, h₁, ho, hl, hao, hal, h₂⟩ := tiles_append.mp h
  refine tiles_append.mpr ⟨mid, h₁, by omega, hpos, hfront ▸ hao, halign, by omega, hrpos, ?_, ?_,
    ?_⟩
  · rw [hrest]; exact Nat.dvd_add hao halign
  · exact (Nat.dvd_add_right halign).mp (hlength ▸ hal)
  · rwa [Nat.add_assoc, hlength]

omit h in
/-- Joining two neighbours keeps the tiling. -/
lemma Tiles.join {joined : Extent} (h : Tiles alignment start (l₁ ++ left :: right :: l₂) stop)
    (hoffset : joined.offset = left.offset) (hlength : joined.length = left.length + right.length) :
    Tiles alignment start (l₁ ++ joined :: l₂) stop := by
  obtain ⟨mid, h₁, ho, hl, hao, hal, -, -, -, har, h₂⟩ := tiles_append.mp h
  refine tiles_append.mpr ⟨mid, h₁, by omega, by omega, hoffset ▸ hao, ?_, ?_⟩
  · rw [hlength]; exact Nat.dvd_add hal har
  · rwa [hlength, ← Nat.add_assoc]

omit h in
/-- Neighbours meet. -/
lemma Tiles.adjacent (h : Tiles alignment start (l₁ ++ left :: right :: l₂) stop) :
    right.offset = left.offset + left.length := by
  obtain ⟨mid, -, hleft, -, -, -, hright, -⟩ := tiles_append.mp h
  omega

/-- No other extent reaches into an extent of the tiling. -/
lemma Tiles.disjoint (he' : e' ∈ l₁ ++ l₂) :
    e'.offset + e'.length ≤ e.offset ∨ e.offset + e.length ≤ e'.offset := by
  obtain ⟨mid, h₁, ho, -, -, -, h₂⟩ := tiles_append.mp h
  rcases mem_append.mp he' with he' | he'
  · have := h₁.mem_bounds he'
    omega
  · have := h₂.mem_bounds he'
    omega

end

/-! ### The LAST mark -/

lemma lastOnly_append (hne : l₂ ≠ []) :
    LastOnly (l₁ ++ l₂) ↔ (∀ e ∈ l₁, e.last = false) ∧ LastOnly l₂ := by
  induction l₁ with
  | nil => simp
  | cons e l ih =>
    have hcons : ∃ e' l', l ++ l₂ = e' :: l' := by
      cases hl : l ++ l₂ with
      | nil => exact absurd (append_eq_nil_iff.mp hl).2 hne
      | cons e' l' => exact ⟨e', l', rfl⟩
    obtain ⟨e', l', hl⟩ := hcons
    rw [cons_append, hl, LastOnly, ← hl, ih]
    simp [and_assoc]

/-- An extent is marked LAST exactly when nothing follows it. -/
lemma LastOnly.last_iff (h : LastOnly (l₁ ++ e :: l₂)) : e.last = true ↔ l₂ = [] := by
  have h' := ((lastOnly_append (cons_ne_nil _ _)).mp h).2
  cases l₂ with
  | nil => exact iff_of_true h' rfl
  | cons => simp [h'.1]

/-- Replacing an extent by one with the same mark. -/
lemma LastOnly.replace (h : LastOnly (l₁ ++ e :: l₂)) (hlast : e'.last = e.last) :
    LastOnly (l₁ ++ e' :: l₂) := by
  rw [lastOnly_append (cons_ne_nil _ _)] at h ⊢
  refine ⟨h.1, ?_⟩
  cases l₂ with
  | nil => exact hlast.trans h.2
  | cons => exact ⟨hlast.trans h.2.1, h.2.2⟩

/-- A split passes the mark on to the rest. -/
lemma LastOnly.split (h : LastOnly (l₁ ++ e :: l₂)) (hfront : front.last = false)
    (hrest : rest.last = e.last) : LastOnly (l₁ ++ front :: rest :: l₂) := by
  have h' := h.replace hrest
  rw [lastOnly_append (cons_ne_nil _ _)] at h' ⊢
  exact ⟨h'.1, hfront, h'.2⟩

/-- A join takes the mark over from the right. -/
lemma LastOnly.join {joined : Extent} (h : LastOnly (l₁ ++ left :: right :: l₂))
    (hjoined : joined.last = (left.last || right.last)) : LastOnly (l₁ ++ joined :: l₂) := by
  rw [lastOnly_append (cons_ne_nil _ _)] at h ⊢
  obtain ⟨h₁, hleft, h₂⟩ := h
  refine ⟨h₁, ?_⟩
  rw [hleft, Bool.false_or] at hjoined
  cases l₂ with
  | nil => exact hjoined.trans h₂
  | cons => exact ⟨hjoined.trans h₂.1, h₂.2⟩

/-! ### Neighbouring free extents -/

lemma noAdjacentFree_append_cons :
    NoAdjacentFree (l₁ ++ e :: l₂) ↔ NoAdjacentFree l₁ ∧ NoAdjacentFree l₂ ∧
      (∀ x ∈ l₁.getLast?, ¬ (x.free = true ∧ e.free = true)) ∧
      (∀ x ∈ l₂.head?, ¬ (e.free = true ∧ x.free = true)) := by
  unfold NoAdjacentFree
  rw [isChain_append, isChain_cons]
  simp only [List.head?_cons, Option.mem_def, Option.some.injEq, forall_eq']
  tauto

/-- Taking a free extent out leaves no new free neighbours. -/
lemma NoAdjacentFree.take (h : NoAdjacentFree (l₁ ++ e :: l₂)) (he' : e'.free = false) :
    NoAdjacentFree (l₁ ++ e' :: l₂) := by
  rw [noAdjacentFree_append_cons] at h ⊢
  refine ⟨h.1, h.2.1, fun x _ hx => ?_, fun x _ hx => ?_⟩
  · simp [he'] at hx
  · simp [he'] at hx

/-- Taking the front of a free extent leaves the rest in its place. -/
lemma NoAdjacentFree.takeFront (h : NoAdjacentFree (l₁ ++ e :: l₂)) (hfront : front.free = false)
    (hrest : rest.free = e.free) : NoAdjacentFree (l₁ ++ front :: rest :: l₂) := by
  rw [noAdjacentFree_append_cons] at h
  have hrest_chain : NoAdjacentFree ([] ++ rest :: l₂) := by
    rw [noAdjacentFree_append_cons, hrest]
    exact ⟨List.IsChain.nil, h.2.1, by simp, h.2.2.2⟩
  rw [noAdjacentFree_append_cons]
  exact ⟨h.1, hrest_chain, by simp [hfront], by simp [hfront]⟩

/-! ### Totals -/

@[simp] lemma freeBytes_append (l₁ l₂ : List Extent) :
    freeBytes (l₁ ++ l₂) = freeBytes l₁ + freeBytes l₂ := by
  simp [freeBytes]

@[simp] lemma freeBytes_cons (e : Extent) (l : List Extent) :
    freeBytes (e :: l) = (if e.free then e.length else 0) + freeBytes l := by
  simp [freeBytes]

@[simp] lemma allocatedBytes_append (l₁ l₂ : List Extent) :
    allocatedBytes (l₁ ++ l₂) = allocatedBytes l₁ + allocatedBytes l₂ := by
  simp [allocatedBytes]

@[simp] lemma allocatedBytes_cons (e : Extent) (l : List Extent) :
    allocatedBytes (e :: l) = (if e.free then 0 else e.length) + allocatedBytes l := by
  simp [allocatedBytes]

@[simp] lemma allocatedCount_append (l₁ l₂ : List Extent) :
    allocatedCount (l₁ ++ l₂) = allocatedCount l₁ + allocatedCount l₂ := by
  simp [allocatedCount]

@[simp] lemma allocatedCount_cons (e : Extent) (l : List Extent) :
    allocatedCount (e :: l) = (if e.free then 0 else 1) + allocatedCount l := by
  unfold allocatedCount
  rw [countP_cons, Nat.add_comm]
  cases e.free <;> rfl

end Hrx.Tlsf
