import Hrx.Tokenizer.Split.Basic

/-!
# What the split behaviors mean

Each behavior is described by the positions at which it cuts the input.  The segments between
successive cuts, without the empty ones, follow each other and make up the input.
-/

namespace Hrx.Tokenizer.Split

open List

/-! ### Matches and cuts -/

/-- Ordered, disjoint and nonempty matches from a position on. -/
def Matches (inputEnd : ℕ) : ℕ → List Segment → Prop
  | position, [] => position ≤ inputEnd
  | position, m :: rest => position ≤ m.start ∧ m.Nonempty ∧ Matches inputEnd m.stop rest

instance decidableMatches (inputEnd : ℕ) :
    ∀ position found, Decidable (Matches inputEnd position found)
  | _, [] => Nat.decLe _ _
  | _, m :: rest =>
    have := decidableMatches inputEnd m.stop rest
    inferInstanceAs (Decidable (_ ∧ _ ∧ _))

/-- Nonempty segments, each behind the ones before. -/
def Ordered (segments : List Segment) : Prop :=
  (∀ s ∈ segments, s.Nonempty) ∧ segments.Pairwise fun a b => a.stop ≤ b.start

/-- The segments between successive cuts. -/
def pieces (inputEnd : ℕ) : ℕ → List ℕ → List Segment
  | position, [] => between position inputEnd
  | position, cut :: rest => between position cut ++ pieces inputEnd cut rest

/-- The gaps between the matches. -/
def gaps (inputEnd : ℕ) : ℕ → List Segment → List Segment
  | position, [] => between position inputEnd
  | position, m :: rest => between position m.start ++ gaps inputEnd m.stop rest

/-- The maximal runs of adjacent matches, given the run so far. -/
def runsFrom (run : Segment) : List Segment → List Segment
  | [] => [run]
  | m :: rest =>
    if run.stop = m.start then runsFrom ⟨run.start, m.stop⟩ rest else run :: runsFrom m rest

def runs : List Segment → List Segment
  | [] => []
  | m :: rest => runsFrom m rest

def bounds (segments : List Segment) : List ℕ := segments.flatMap fun s => [s.start, s.stop]

/-- What the behaviors stand for. -/
def meaning (behavior : Behavior) (inputEnd : ℕ) (found : List Segment) : List Segment :=
  match behavior with
  | .removed => gaps inputEnd 0 found
  | .isolated => pieces inputEnd 0 (bounds found)
  | .mergedWithPrevious => pieces inputEnd 0 (found.map Segment.stop)
  | .mergedWithNext => pieces inputEnd 0 (found.map Segment.start)
  | .contiguous => pieces inputEnd 0 (bounds (runs found))

/-! ### Emission without a limit -/

variable {behavior : Behavior} {invert : Bool} {capacity inputEnd : ℕ} {values found : List Segment}

/-- What is flushed at the end. -/
def trailing (behavior : Behavior) (invert : Bool) (inputEnd last : ℕ) :
    Option Segment → List Segment
  | none => if ¬invert ∨ behavior = .isolated then between last inputEnd else []
  | some pending =>
    if behavior = .mergedWithNext then
      if ¬invert ∨ inputEnd > pending.stop then between pending.start inputEnd
      else between pending.start pending.stop
    else
      between pending.start pending.stop ++
        if ¬invert ∨ behavior = .isolated then between pending.stop inputEnd else []

/-- The segments from a state on. -/
def outputs (behavior : Behavior) (invert : Bool) (inputEnd : ℕ) :
    ℕ → Option Segment → List Segment → List Segment
  | last, pending, [] => trailing behavior invert inputEnd last pending
  | last, pending, m :: rest =>
    let result := handleMatch ⟨last, m.start⟩ m pending invert behavior
    result.segments.filter (·.Nonempty) ++
      outputs behavior invert inputEnd result.lastEmitEnd result.pending rest

@[simp]
lemma filter_nonempty_cons (s : Segment) (rest : List Segment) :
    (s :: rest).filter (·.Nonempty) = between s.start s.stop ++ rest.filter (·.Nonempty) := by
  unfold between Segment.Nonempty
  by_cases h : s.start < s.stop <;> simp [h]

@[simp]
lemma filter_between (start stop : ℕ) :
    (between start stop).filter (·.Nonempty) = between start stop := by
  unfold between
  split_ifs with h <;> simp [Segment.Nonempty, h]

lemma length_between_le (start stop : ℕ) : (between start stop).length ≤ 1 := by
  unfold between
  split_ifs <;> simp

lemma emit_eq (h : values.length < capacity) (s : Segment) :
    emit ⟨capacity, values, false⟩ s = ⟨capacity, values ++ between s.start s.stop, false⟩ := by
  unfold emit between Segment.Nonempty
  by_cases hs : s.start < s.stop <;> simp [hs, h.not_ge]

lemma foldl_emit {segments : List Segment} (h : values.length + segments.length ≤ capacity) :
    segments.foldl emit ⟨capacity, values, false⟩ =
      ⟨capacity, values ++ segments.filter (·.Nonempty), false⟩ := by
  induction segments generalizing values with
  | nil => simp
  | cons s rest ih =>
    have hle := length_between_le s.start s.stop
    rw [length_cons] at h
    rw [foldl_cons, emit_eq (by omega), ih (by rw [length_append]; omega), append_assoc,
      filter_nonempty_cons]

variable (behavior invert) in
lemma length_segments_le (gap m : Segment) (pending : Option Segment) :
    (handleMatch gap m pending invert behavior).segments.length ≤ 2 := by
  cases behavior <;> cases pending <;>
    grind [handleMatch, handleRemoved, handleIsolated, handleMergedWithPrevious,
      handleMergedWithNext, handleContiguous, length_between_le]

lemma finalizeFlush_eq {last : ℕ} {pending : Option Segment} (h : values.length + 2 ≤ capacity) :
    finalizeFlush behavior invert ⟨⟨capacity, values, false⟩, last, pending⟩ inputEnd =
      ⟨capacity, values ++ trailing behavior invert inputEnd last pending, false⟩ := by
  have hemit := emit_eq (show values.length < capacity by omega)
  unfold finalizeFlush trailing
  cases pending with
  | none => grind
  | some pending =>
    have hle := length_between_le pending.start pending.stop
    have hnext : (values ++ between pending.start pending.stop).length < capacity := by
      rw [length_append]
      omega
    have hsecond := emit_eq hnext
    grind

lemma feed_eq {last : ℕ} {pending : Option Segment}
    (h : values.length + 2 * found.length + 2 ≤ capacity) :
    finalizeFlush behavior invert
      (feed behavior invert ⟨⟨capacity, values, false⟩, last, pending⟩ found) inputEnd =
      ⟨capacity, values ++ outputs behavior invert inputEnd last pending found, false⟩ := by
  induction found generalizing values last pending with
  | nil =>
    rw [feed, finalizeFlush_eq h]
    rfl
  | cons m rest ih =>
    have hlength := length_segments_le behavior invert ⟨last, m.start⟩ m pending
    rw [length_cons] at h
    unfold feed inlineCallback
    dsimp only
    rw [foldl_emit (by omega)]
    simp only [Bool.false_eq_true, if_false]
    have hle := length_filter_le (fun s : Segment => decide s.Nonempty)
      (handleMatch ⟨last, m.start⟩ m pending invert behavior).segments
    rw [ih (by rw [length_append]; omega), append_assoc]
    rfl

lemma split_eq (h : 2 * found.length + 2 ≤ capacity) :
    split behavior invert capacity inputEnd found =
      outputs behavior invert inputEnd 0 none found := by
  rw [split, feed_eq (by rw [length_nil]; omega), nil_append]

/-! ### The cuts of each behavior -/

variable {last position : ℕ}

@[simp]
lemma between_self : between position position = [] := if_neg (lt_irrefl position)

lemma outputs_removed : outputs .removed false inputEnd last none found =
    gaps inputEnd last found := by
  induction found generalizing last with
  | nil => simp [outputs, trailing, gaps]
  | cons m rest ih => simp [outputs, handleMatch, handleRemoved, gaps, ih]

lemma outputs_isolated :
    outputs .isolated invert inputEnd last none found = pieces inputEnd last (bounds found) := by
  induction found generalizing last with
  | nil => simp [outputs, trailing, bounds, pieces]
  | cons m rest ih =>
    simp [outputs, handleMatch, handleIsolated, bounds, pieces, ih]

lemma outputs_mergedWithPrevious : outputs .mergedWithPrevious false inputEnd last none found =
    pieces inputEnd last (found.map Segment.stop) := by
  induction found generalizing last with
  | nil => simp [outputs, trailing, pieces]
  | cons m rest ih => simp [outputs, handleMatch, handleMergedWithPrevious, pieces, ih]

/-- The pending match starts the next segment. -/
lemma outputs_mergedWithNext {pending : Option Segment} :
    outputs .mergedWithNext false inputEnd last pending found =
      pieces inputEnd ((pending.map Segment.start).getD last) (found.map Segment.start) := by
  induction found generalizing last pending with
  | nil => cases pending <;> simp [outputs, trailing, pieces]
  | cons m rest ih => simp [outputs, handleMatch, handleMergedWithNext, pieces, ih]

variable (found) in
lemma pieces_bounds_runsFrom (run : Segment) :
    pieces inputEnd position (bounds (runsFrom run found)) =
      between position run.start ++ pieces inputEnd run.start (bounds (runsFrom run found)) := by
  have hhead : ∃ cuts, bounds (runsFrom run found) = run.start :: cuts := by
    induction found generalizing run with
    | nil => exact ⟨_, rfl⟩
    | cons m rest ih =>
      unfold runsFrom
      split_ifs
      · exact ih ⟨run.start, m.stop⟩
      · exact ⟨_, rfl⟩
  obtain ⟨cuts, hcuts⟩ := hhead
  simp [hcuts, pieces]

/-- The pending run grows as long as matches are adjacent. -/
lemma outputs_contiguous (run : Segment) :
    outputs .contiguous false inputEnd run.stop (some run) found =
      pieces inputEnd run.start (bounds (runsFrom run found)) := by
  induction found generalizing run with
  | nil => simp [outputs, trailing, runsFrom, bounds, pieces]
  | cons m rest ih =>
    by_cases hadjacent : run.stop = m.start
    · have hnext := ih ⟨run.start, m.stop⟩
      simp only [runsFrom, if_pos hadjacent, ← hnext]
      simp [outputs, handleMatch, handleContiguous, hadjacent]
    · have hcuts : pieces inputEnd run.stop _ = _ := pieces_bounds_runsFrom rest m
      rw [← ih, bounds] at hcuts
      simp [outputs, handleMatch, handleContiguous, hadjacent, runsFrom, bounds, pieces, hcuts]

/-- Without a limit each behavior does what it stands for. -/
lemma split_eq_meaning (h : 2 * found.length + 2 ≤ capacity) :
    split behavior false capacity inputEnd found = meaning behavior inputEnd found := by
  rw [split_eq h]
  cases behavior with
  | removed => exact outputs_removed
  | isolated => exact outputs_isolated
  | mergedWithPrevious => exact outputs_mergedWithPrevious
  | mergedWithNext => exact outputs_mergedWithNext
  | contiguous =>
    cases found with
    | nil => rfl
    | cons m rest =>
      have hcuts : pieces inputEnd 0 _ = _ := pieces_bounds_runsFrom rest m
      rw [meaning, runs, hcuts, ← outputs_contiguous]
      simp [outputs, handleMatch, handleContiguous]

/-! ### Cut inputs -/

/-- Cuts in order, from a position to the end. -/
def Cuts (inputEnd : ℕ) : ℕ → List ℕ → Prop
  | position, [] => position ≤ inputEnd
  | position, cut :: rest => position ≤ cut ∧ Cuts inputEnd cut rest

variable {cuts : List ℕ} {s : Segment}

lemma Cuts.le (h : Cuts inputEnd position cuts) : position ≤ inputEnd := by
  induction cuts generalizing position with
  | nil => exact h
  | cons cut rest ih => exact h.1.trans (ih h.2)

lemma mem_between {start stop : ℕ} : s ∈ between start stop ↔ start < stop ∧ s = ⟨start, stop⟩ := by
  unfold between
  split_ifs with h <;> simp [h]

lemma mem_pieces (h : Cuts inputEnd position cuts) (hs : s ∈ pieces inputEnd position cuts) :
    s.Nonempty ∧ position ≤ s.start := by
  induction cuts generalizing position with
  | nil =>
    obtain ⟨hlt, rfl⟩ := mem_between.mp hs
    exact ⟨hlt, le_rfl⟩
  | cons cut rest ih =>
    rcases mem_append.mp hs with hs | hs
    · obtain ⟨hlt, rfl⟩ := mem_between.mp hs
      exact ⟨hlt, le_rfl⟩
    · exact (ih h.2 hs).imp_right h.1.trans

lemma Ordered.sublist {cut segments : List Segment} (h : Ordered cut) (hsub : segments <+ cut) :
    Ordered segments :=
  ⟨fun s hs => h.1 s (hsub.subset hs), h.2.sublist hsub⟩

lemma ordered_pieces (h : Cuts inputEnd position cuts) :
    Ordered (pieces inputEnd position cuts) := by
  refine ⟨fun s hs => (mem_pieces h hs).1, ?_⟩
  induction cuts generalizing position with
  | nil =>
    unfold pieces between
    split_ifs <;> simp
  | cons cut rest ih =>
    refine pairwise_append.mpr ⟨?_, ih h.2, fun a ha b hb => ?_⟩
    · unfold between
      split_ifs <;> simp
    · obtain ⟨-, rfl⟩ := mem_between.mp ha
      exact (mem_pieces h.2 hb).2

/-- The bytes of a segment. -/
def Segment.of (segment : Segment) (input : List UInt8) : List UInt8 :=
  (input.take segment.stop).drop segment.start

lemma flatMap_between {input : List UInt8} {stop : ℕ} (h : position ≤ stop)
    (hstop : stop ≤ input.length) :
    (between position stop).flatMap (·.of input) ++ input.drop stop = input.drop position := by
  have hdrop : input.drop position = (input.take stop).drop position ++ input.drop stop := by
    conv_lhs => rw [← take_append_drop stop input, drop_append_of_le_length (by simp; omega)]
  unfold between
  split_ifs with hlt
  · rw [flatMap_singleton, hdrop]
    rfl
  · rw [show stop = position by omega]
    rfl

lemma flatMap_pieces {input : List UInt8} (h : Cuts input.length position cuts) :
    (pieces input.length position cuts).flatMap (·.of input) = input.drop position := by
  induction cuts generalizing position with
  | nil =>
    have := flatMap_between h le_rfl
    rwa [drop_length, append_nil] at this
  | cons cut rest ih =>
    rw [pieces, flatMap_append, ih h.2, flatMap_between h.1 h.2.le]

/-! ### The matches as cuts -/

lemma Matches.cuts_stop (h : Matches inputEnd position found) :
    Cuts inputEnd position (found.map Segment.stop) := by
  induction found generalizing position with
  | nil => exact h
  | cons m rest ih => exact ⟨h.1.trans h.2.1.le, ih h.2.2⟩

lemma Matches.cuts_start (h : Matches inputEnd last found) (hle : position ≤ last) :
    Cuts inputEnd position (found.map Segment.start) := by
  induction found generalizing position last with
  | nil => exact hle.trans h
  | cons m rest ih => exact ⟨hle.trans h.1, ih h.2.2 h.2.1.le⟩

lemma Matches.cuts_bounds (h : Matches inputEnd position found) :
    Cuts inputEnd position (bounds found) := by
  induction found generalizing position with
  | nil => exact h
  | cons m rest ih => exact ⟨h.1, h.2.1.le, ih h.2.2⟩

lemma Matches.cuts_runsFrom {run : Segment} (h : Matches inputEnd run.stop found)
    (hle : position ≤ run.start) (hrun : run.start ≤ run.stop) :
    Cuts inputEnd position (bounds (runsFrom run found)) := by
  induction found generalizing position run with
  | nil => exact ⟨hle, hrun, h⟩
  | cons m rest ih =>
    unfold runsFrom
    split_ifs
    · exact ih h.2.2 hle (hrun.trans (h.1.trans h.2.1.le))
    · exact ⟨hle, hrun, ih h.2.2 h.1 h.2.1.le⟩

lemma gaps_sublist : gaps inputEnd position found <+ pieces inputEnd position (bounds found) := by
  induction found generalizing position with
  | nil => exact Sublist.refl _
  | cons m rest ih =>
    exact Sublist.append (Sublist.refl _) (ih.trans (sublist_append_right _ _))

/-- The behaviors cut the input as they are meant to, whatever matches there are. -/
theorem split_meaning (behavior : Behavior) {input : List UInt8} {found : List Segment}
    {capacity : ℕ}
    (hfound : Matches input.length 0 found) (hcapacity : 2 * found.length + 2 ≤ capacity) :
    let segments := split behavior false capacity input.length found
    segments = meaning behavior input.length found ∧ Ordered segments ∧
      (behavior ≠ .removed → segments.flatMap (·.of input) = input) := by
  rw [split_eq_meaning hcapacity]
  refine ⟨rfl, ?_⟩
  -- all but the first are cut at positions in order
  have hcut : ∀ {cuts}, meaning behavior input.length found = pieces input.length 0 cuts →
      Cuts input.length 0 cuts → Ordered (meaning behavior input.length found) ∧
        (behavior ≠ .removed → (meaning behavior input.length found).flatMap
          (·.of input) = input) := by
    intro cuts heq hcuts
    rw [heq]
    exact ⟨ordered_pieces hcuts, fun _ => flatMap_pieces hcuts⟩
  cases behavior with
  | removed =>
    exact ⟨(ordered_pieces hfound.cuts_bounds).sublist gaps_sublist, fun h => absurd rfl h⟩
  | isolated => exact hcut rfl hfound.cuts_bounds
  | mergedWithPrevious => exact hcut rfl hfound.cuts_stop
  | mergedWithNext => exact hcut rfl (hfound.cuts_start le_rfl)
  | contiguous =>
    refine hcut rfl ?_
    cases found with
    | nil => exact hfound
    | cons => exact hfound.2.2.cuts_runsFrom hfound.1 hfound.2.1.le

/-- Two adjacent matches between two gaps. -/
theorem split_meaning_adjacent :
    split .contiguous false 6 7 [⟨1, 3⟩, ⟨3, 4⟩] = [⟨0, 1⟩, ⟨1, 4⟩, ⟨4, 7⟩] ∧
      Ordered (split .contiguous false 6 7 [⟨1, 3⟩, ⟨3, 4⟩]) :=
  ⟨by decide, (split_meaning .contiguous (show Matches (replicate 7 0).length 0 _ by decide)
    (by decide)).2.1⟩

end Hrx.Tokenizer.Split
