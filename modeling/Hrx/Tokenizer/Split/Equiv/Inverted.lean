import Hrx.Tokenizer.Split.Equiv.Segments
import Mathlib.Data.List.Pairwise

/-!
# Inverted splits

With `invert` the matches are the content.  A gap that is buffered for the next segment lies before
the match that was just emitted, so the two behaviors that buffer go wrong where there is a gap.
-/

namespace Hrx.Tokenizer.Split

open List

/-- No text lies before or between the matches. -/
def Packed : ℕ → List Segment → Prop
  | _, [] => True
  | position, m :: rest => m.start = position ∧ Packed m.stop rest

/-- Every match is contained in exactly one segment. -/
def Covers (segments found : List Segment) : Prop :=
  ∀ m ∈ found, ∃! s, s ∈ segments ∧ s.start ≤ m.start ∧ m.stop ≤ s.stop

def Behavior.Buffers (behavior : Behavior) : Prop :=
  behavior = .mergedWithNext ∨ behavior = .contiguous

variable {behavior : Behavior} {inputEnd last : ℕ} {found segments cut : List Segment} {m : Segment}

lemma nonempty_mk {start stop : ℕ} : (Segment.mk start stop).Nonempty ↔ start < stop := Iff.rfl

section

variable (h : Matches inputEnd last found)
include h

lemma Matches.nonempty (hm : m ∈ found) : m.Nonempty := by
  induction found generalizing last with
  | nil => cases hm
  | cons first rest ih =>
    rcases mem_cons.mp hm with rfl | hm
    · exact h.2.1
    · exact ih h.2.2 hm

omit h in
/-- Two ordered segments that contain a match are the same. -/
lemma Ordered.covers (h : Ordered segments) (hfound : Matches inputEnd last found)
    (hex : ∀ m ∈ found, ∃ s ∈ segments, s.start ≤ m.start ∧ m.stop ≤ s.stop) :
    Covers segments found := by
  intro m hm
  obtain ⟨s, hs, hcontains⟩ := hex m hm
  refine ⟨s, ⟨hs, hcontains⟩, fun t ⟨ht, hle⟩ => ?_⟩
  by_contra hne
  have : Std.Symm fun a b : Segment => a.stop ≤ b.start ∨ b.stop ≤ a.start := ⟨fun _ _ => Or.symm⟩
  have hapart : segments.Pairwise fun a b => a.stop ≤ b.start ∨ b.stop ≤ a.start :=
    h.2.imp Or.inl
  have hdisjoint := hapart.forall ht hs hne
  have hlt : m.start < m.stop := hfound.nonempty hm
  omega

lemma matches_sublist : found <+ pieces inputEnd last (bounds found) := by
  induction found generalizing last with
  | nil => exact nil_sublist _
  | cons m rest ih =>
    have hm : between m.start m.stop = [m] := if_pos h.2.1
    have hpieces : pieces inputEnd last (bounds (m :: rest)) =
        between last m.start ++ ([m] ++ pieces inputEnd m.stop (bounds rest)) := by
      rw [← hm]
      rfl
    rw [hpieces]
    exact ((ih h.2.2).cons_cons m).trans (sublist_append_right _ _)

/-! ### Behaviors that keep the order -/

/-- Only the matches are emitted. -/
lemma outputs_inverted (hbehavior : behavior = .removed ∨ behavior.Buffers ∧ Packed last found) :
    outputs behavior true inputEnd last none found = found := by
  induction found generalizing last with
  | nil => rcases hbehavior with rfl | ⟨rfl | rfl, -⟩ <;> rfl
  | cons m rest ih =>
    have hm : between m.start m.stop = [m] := if_pos h.2.1
    rcases hbehavior with rfl | ⟨hbuffers, rfl, hpacked⟩
    · simp [outputs, handleMatch, handleRemoved, hm, ih h.2.2 (.inl rfl)]
    · have hrest := ih h.2.2 (.inr ⟨hbuffers, hpacked⟩)
      rcases hbuffers with rfl | rfl <;>
        simp [outputs, handleMatch, handleMergedWithNext, handleContiguous, nonempty_mk, hm, hrest]

omit h in
lemma outputs_mergedWithPrevious_sublist :
    outputs .mergedWithPrevious true inputEnd last none found <+
      pieces inputEnd last (found.map Segment.stop) := by
  induction found generalizing last with
  | nil => exact nil_sublist _
  | cons m rest ih =>
    simp only [outputs, handleMatch, handleMergedWithPrevious, filter_nonempty_cons, filter_nil,
      append_nil, map_cons, pieces]
    exact Sublist.append (Sublist.refl _) ih

lemma exists_mergedWithPrevious (hm : m ∈ found) :
    ∃ s ∈ outputs .mergedWithPrevious true inputEnd last none found,
      s.start ≤ m.start ∧ m.stop ≤ s.stop := by
  induction found generalizing last with
  | nil => cases hm
  | cons first rest ih =>
    simp only [outputs, handleMatch, handleMergedWithPrevious, filter_nonempty_cons, filter_nil,
      append_nil, mem_append]
    rcases mem_cons.mp hm with rfl | hm
    · exact ⟨_, .inl (mem_between.mpr ⟨h.1.trans_lt h.2.1, rfl⟩), h.1, le_rfl⟩
    · obtain ⟨s, hs, hcontains⟩ := ih h.2.2 hm
      exact ⟨s, .inr hs, hcontains⟩

end

/-! ### Behaviors that buffer a gap -/

/-- A gap that is buffered starts a later segment. -/
lemma exists_start_eq (hbuffers : behavior.Buffers) {gap : Segment} (hgap : gap.Nonempty)
    (hlt : gap.stop < last) (h : Matches inputEnd last found) :
    ∃ s ∈ outputs behavior true inputEnd last (some gap) found, s.start = gap.start := by
  have hlt' : gap.start < gap.stop := hgap
  cases found with
  | nil =>
    have hle : last ≤ inputEnd := h
    rcases hbuffers with rfl | rfl
    · refine ⟨⟨gap.start, inputEnd⟩, ?_, rfl⟩
      simp [outputs, trailing, mem_between, hlt.trans_le hle]
      omega
    · exact ⟨gap, by simp [outputs, trailing, mem_between]; omega, rfl⟩
  | cons m =>
    have hle := h.1
    have hm : m.start < m.stop := h.2.1
    rcases hbuffers with rfl | rfl
    · refine ⟨⟨gap.start, m.stop⟩, ?_, rfl⟩
      simp [outputs, handleMatch, handleMergedWithNext, mem_between]
      omega
    · refine ⟨gap, ?_, rfl⟩
      simp [outputs, handleMatch, handleContiguous, mem_between, hlt.ne]
      omega

lemma packed_of_ordered (hbuffers : behavior.Buffers) (h : Matches inputEnd last found)
    (hordered : Ordered (outputs behavior true inputEnd last none found)) : Packed last found := by
  induction found generalizing last with
  | nil => trivial
  | cons m rest ih =>
    have hm : between m.start m.stop = [m] := if_pos h.2.1
    have hcons : outputs behavior true inputEnd last none (m :: rest) =
        m :: outputs behavior true inputEnd m.stop
          (if last < m.start then some ⟨last, m.start⟩ else none) rest := by
      rcases hbuffers with rfl | rfl <;>
        simp [outputs, handleMatch, handleMergedWithNext, handleContiguous, nonempty_mk, hm]
    rw [hcons] at hordered
    have hbehind := (pairwise_cons.mp hordered.2).1
    split_ifs at hordered hbehind with hgap
    · -- the gap is emitted after the match behind it
      obtain ⟨s, hs, hstart⟩ := exists_start_eq hbuffers (nonempty_mk.mpr hgap) h.2.1 h.2.2
      have hle := hbehind s hs
      have hlt : m.start < m.stop := h.2.1
      dsimp only at hstart
      omega
    · have hle := h.1
      exact ⟨by omega, ih h.2.2 (hordered.sublist (sublist_cons_self _ _))⟩

/-- Inverted splits emit the matches once and in order for the behaviors that buffer nothing, and
for the others exactly if no text lies before or between the matches. -/
theorem inverted_split_ordered_iff (behavior : Behavior) {inputEnd capacity : ℕ}
    {found : List Segment}
    (hfound : Matches inputEnd 0 found) (hcapacity : 2 * found.length + 2 ≤ capacity) :
    (Ordered (split behavior true capacity inputEnd found) ∧
        Covers (split behavior true capacity inputEnd found) found) ↔
      ¬behavior.Buffers ∨ Packed 0 found := by
  rw [split_eq hcapacity]
  constructor
  · rintro ⟨hordered, -⟩
    by_contra hnot
    obtain ⟨hbuffers, hpacked⟩ := not_or.mp hnot
    exact hpacked (packed_of_ordered (not_not.mp hbuffers) hfound hordered)
  intro h
  have hsub := matches_sublist hfound
  have hpieces := ordered_pieces hfound.cuts_bounds
  -- where exactly the matches are emitted
  have hsame : outputs behavior true inputEnd 0 none found = found →
      Ordered (outputs behavior true inputEnd 0 none found) ∧
        Covers (outputs behavior true inputEnd 0 none found) found := by
    intro heq
    rw [heq]
    exact ⟨hpieces.sublist hsub, (hpieces.sublist hsub).covers hfound fun m hm =>
      ⟨m, hm, le_rfl, le_rfl⟩⟩
  have hbuffers : behavior.Buffers → _ := fun hb =>
    hsame (outputs_inverted hfound (.inr ⟨hb, h.resolve_left (not_not.mpr hb)⟩))
  cases behavior with
  | removed => exact hsame (outputs_inverted hfound (.inl rfl))
  | isolated =>
    rw [outputs_isolated]
    exact ⟨hpieces, hpieces.covers hfound fun m hm => ⟨m, hsub.subset hm, le_rfl, le_rfl⟩⟩
  | mergedWithPrevious =>
    have hordered := (ordered_pieces hfound.cuts_stop).sublist outputs_mergedWithPrevious_sublist
    exact ⟨hordered, hordered.covers hfound fun m hm => exists_mergedWithPrevious hfound hm⟩
  | mergedWithNext => exact hbuffers (.inl rfl)
  | contiguous => exact hbuffers (.inr rfl)

/-- Without a gap the buffering behaviors emit the two matches. -/
theorem inverted_split_ordered_iff_adjacent :
    Ordered (split .contiguous true 9 5 [⟨0, 2⟩, ⟨2, 3⟩]) ∧
      Covers (split .contiguous true 9 5 [⟨0, 2⟩, ⟨2, 3⟩]) [⟨0, 2⟩, ⟨2, 3⟩] :=
  (inverted_split_ordered_iff .contiguous (by decide) (by decide)).mpr (.inr ⟨rfl, rfl, trivial⟩)

/-- A match behind a gap: the gap is emitted again with the match, respectively after it. -/
theorem inverted_split_disordered :
    split .mergedWithNext true 9 2 [⟨1, 2⟩] = [⟨1, 2⟩, ⟨0, 2⟩] ∧
      split .contiguous true 9 2 [⟨1, 2⟩] = [⟨1, 2⟩, ⟨0, 1⟩] ∧
      ¬Ordered [⟨1, 2⟩, ⟨0, 2⟩] ∧ ¬Ordered [⟨1, 2⟩, ⟨0, 1⟩] := by
  refine ⟨by decide, by decide, fun h => ?_, fun h => ?_⟩ <;>
    exact absurd ((pairwise_cons.mp h.2).1 _ (mem_singleton_self _)) (by decide)

end Hrx.Tokenizer.Split
