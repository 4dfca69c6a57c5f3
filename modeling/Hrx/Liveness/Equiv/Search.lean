import Hrx.Liveness.Equiv.Transfers
import Mathlib.Data.Finset.Card
import Mathlib.Data.List.Chain

/-!
# The search finds the live values

A run is followed by the log of the relations that it records.  For the current value the marked
blocks are live-in, hold every use, and are closed under predecessors off the worklist, so when the
worklist is empty they are all the live-in blocks (`Done.succ`).  The length of the worklist and the
number of unmarked blocks have a constant sum: it bounds both the passes of the loop and the
worklist.
-/

namespace Hrx.Liveness

open Buckets Cfg Function List Liveness

namespace Problem

variable (problem : Problem)

/-- A value is live at the entry of a block: a path leads from the block to an upward-exposed use
and no block on the way defines the value, except possibly the last. -/
def LiveIn (value block : ℕ) : Prop :=
  ∃ path : List ℕ, path.IsChain (fun a b => b ∈ problem.successors a) ∧ path.head? = some block ∧
    (∃ last, path.getLast? = some last ∧ problem.Uses value last) ∧
      ∀ b ∈ path.dropLast, ¬ problem.Defines value b

def LiveOut (value block : ℕ) : Prop :=
  ∃ successor ∈ problem.successors block, problem.LiveIn value successor

variable {problem} {value : ℕ} {block : ℕ}

lemma Uses.liveIn (h : problem.Uses value block) : problem.LiveIn value block :=
  ⟨[block], isChain_singleton block, rfl, ⟨block, rfl, h⟩, by simp⟩

lemma LiveOut.liveIn (h : problem.LiveOut value block) (hdef : ¬ problem.Defines value block) :
    problem.LiveIn value block := by
  obtain ⟨successor, hedge, path, hchain, hhead, ⟨last, hlast, huse⟩, hpath⟩ := h
  obtain ⟨rest, rfl⟩ : ∃ rest, path = successor :: rest := List.head?_eq_some_iff.mp hhead
  refine ⟨block :: successor :: rest, hchain.cons_cons hedge, rfl, ⟨last, ?_, huse⟩, ?_⟩
  · rwa [List.getLast?_cons_cons]
  intro b hb
  rw [dropLast_cons_cons] at hb
  rcases mem_cons.mp hb with rfl | hb
  · exact hdef
  · exact hpath b hb

/-- Liveness goes back from the uses along edges. -/
lemma LiveIn.induction {motive : ℕ → Prop} (use : ∀ b, problem.Uses value b → motive b)
    (step : ∀ b c, c ∈ problem.successors b → ¬ problem.Defines value b → motive c → motive b)
    (h : problem.LiveIn value block) : motive block := by
  obtain ⟨path, hchain, hhead, ⟨last, hlast, huse⟩, hpath⟩ := h
  induction path generalizing block with
  | nil => cases hhead
  | cons b rest ih =>
    cases hhead
    cases rest with
    | nil =>
      cases hlast
      exact use b huse
    | cons c =>
      rw [dropLast_cons_cons] at hpath
      apply step b c
      · exact isChain_cons_cons.mp hchain |>.1
      · exact hpath b mem_cons_self
      · apply ih (isChain_cons_cons.mp hchain).2 rfl
        · exact fun d hd => hpath d (mem_cons_of_mem _ hd)
        · rwa [List.getLast?_cons_cons] at hlast

lemma WellFormed.liveOut_lt (hp : problem.WellFormed) (h : problem.LiveOut value block) :
    block < problem.blockCount := by
  obtain ⟨successor, hedge, -⟩ := h
  exact (hp.edge_lt hedge).1

lemma WellFormed.liveIn_lt (hp : problem.WellFormed) (h : problem.LiveIn value block) :
    block < problem.blockCount ∧ value < problem.valueCount := by
  apply LiveIn.induction (motive := fun b => b < problem.blockCount ∧
    value < problem.valueCount) _ _ h
  · exact fun b huse => ⟨huse.block_lt, hp.value_lt huse⟩
  · exact fun b c hedge _ ih => ⟨(hp.edge_lt hedge).1, ih.2⟩

end Problem

/-! ### The log of a run -/

/-- The relations recorded so far, as pairs of a block and a value. -/
structure Log where
  ins : List (ℕ × ℕ)
  outs : List (ℕ × ℕ)

namespace Log

def addIn (log : Log) (block value : ℕ) : Log := { log with ins := log.ins ++ [(block, value)] }

def addOut (log : Log) (block value : ℕ) : Log := { log with outs := log.outs ++ [(block, value)] }

def Ascending (relations : List (ℕ × ℕ)) : Prop :=
  relations.Pairwise fun x y => x.1 = y.1 → x.2 < y.2

structure Valid (log : Log) (problem : Problem) : Prop where
  liveIn : ∀ b v, (b, v) ∈ log.ins → problem.LiveIn v b
  liveOut : ∀ b v, (b, v) ∈ log.outs → problem.LiveOut v b
  ins : Ascending log.ins
  outs : Ascending log.outs

end Log

/-- A recorder that takes every relation of a valid log, with what it keeps. -/
structure Recorder.Accepts {ρ : Type} (recorder : Recorder ρ) (problem : Problem)
    (Kept : Log → ρ → Prop) : Prop where
  liveIn : ∀ log results block value, Kept log results → (log.addIn block value).Valid problem →
    ∃ results', recorder.liveIn results block value = some results' ∧
      Kept (log.addIn block value) results'
  liveOut : ∀ log results block value, Kept log results → (log.addOut block value).Valid problem →
    ∃ results', recorder.liveOut results block value = some results' ∧
      Kept (log.addOut block value) results'

/-! ### One value -/

def unmarked (blockCount : ℕ) (marks : ℕ → ℕ) (value : ℕ) : Finset ℕ :=
  (Finset.range blockCount).filter (marks · ≠ value)

variable {marks : ℕ → ℕ} {value : ℕ}

lemma update_mark_iff {block b : ℕ} :
    update marks block value b = value ↔ b = block ∨ marks b = value := by
  by_cases hb : b = block
  · subst hb
    simp
  · simp [hb]

/-- Recording a relation of the current value at a block without a mark. -/
lemma Log.Ascending.concat {relations : List (ℕ × ℕ)} {Live : ℕ → ℕ → Prop} {block : ℕ}
    (h : Ascending relations) (hlive : ∀ b v, (b, v) ∈ relations → Live v b)
    (hmem : ∀ b v, (b, v) ∈ relations ↔ v < value ∧ Live v b ∨ v = value ∧ marks b = value)
    (hmark : marks block ≠ value) (hnew : Live value block) :
    Ascending (relations ++ [(block, value)]) ∧
      (∀ b v, (b, v) ∈ relations ++ [(block, value)] → Live v b) ∧
      ∀ b v, (b, v) ∈ relations ++ [(block, value)] ↔
        v < value ∧ Live v b ∨ v = value ∧ update marks block value b = value := by
  refine ⟨pairwise_append.mpr ⟨h, pairwise_singleton _ _, ?_⟩, fun b v hv => ?_, fun b v => ?_⟩
  · rintro ⟨b, v⟩ hv y hy
    obtain rfl := mem_singleton.mp hy
    rintro (rfl : b = block)
    rcases (hmem b v).mp hv with hv | hv
    · exact hv.1
    · exact absurd hv.2 hmark
  · rcases mem_append.mp hv with hv | hv
    · exact hlive b v hv
    · obtain ⟨rfl, rfl⟩ := Prod.mk.inj (mem_singleton.mp hv)
      exact hnew
  · rw [mem_append, hmem, mem_singleton, Prod.mk.injEq, update_mark_iff]
    tauto

lemma update_mark_le (h : ∀ b, marks b ≤ value ∨ marks b = uint32Max) (block b : ℕ) :
    update marks block value b ≤ value ∨ update marks block value b = uint32Max := by
  by_cases hb : b = block
  · subst hb
    simp
  · rw [update_of_ne hb]
    exact h b

lemma card_unmarked_update {blockCount block : ℕ} (hlt : block < blockCount)
    (hne : marks block ≠ value) :
    (unmarked blockCount (update marks block value) value).card + 1 =
      (unmarked blockCount marks value).card := by
  have hmem : block ∈ unmarked blockCount marks value :=
    Finset.mem_filter.mpr ⟨Finset.mem_range.mpr hlt, hne⟩
  have herase : unmarked blockCount (update marks block value) value =
      (unmarked blockCount marks value).erase block := by
    ext b
    unfold unmarked
    rw [Finset.mem_erase, Finset.mem_filter, Finset.mem_filter, Ne, update_mark_iff]
    tauto
  rw [herase, Finset.card_erase_add_one hmem]

/-- The state of a run within the search for a value. -/
structure Searching {ρ : Type} (problem : Problem) (Kept : Log → ρ → Prop) (value : ℕ)
    (s : Search × ρ) (log : Log) : Prop where
  kept : Kept log s.2
  valid : log.Valid problem
  mem_ins : ∀ b v, (b, v) ∈ log.ins ↔
    v < value ∧ problem.LiveIn v b ∨ v = value ∧ s.1.liveInMarks b = value
  mem_outs : ∀ b v, (b, v) ∈ log.outs ↔
    v < value ∧ problem.LiveOut v b ∨ v = value ∧ s.1.liveOutMarks b = value
  liveInMarks_le : ∀ b, s.1.liveInMarks b ≤ value ∨ s.1.liveInMarks b = uint32Max
  liveOutMarks_le : ∀ b, s.1.liveOutMarks b ≤ value ∨ s.1.liveOutMarks b = uint32Max
  /-- The measure of the search. -/
  room : s.1.blockWorklist.length + (unmarked problem.blockCount s.1.liveInMarks value).card ≤
    problem.blockCount
  worklist_marked : ∀ b ∈ s.1.blockWorklist, s.1.liveInMarks b = value

/-- What the steps of a search leave: marks stay, blocks marked later are on the worklist, and the
measure is the same. -/
structure Search.Extends (problem : Problem) (value : ℕ) (s s' : Search) : Prop where
  liveIn : ∀ b, s.liveInMarks b = value → s'.liveInMarks b = value
  liveOut : ∀ b, s.liveOutMarks b = value → s'.liveOutMarks b = value
  worklist : ∀ b ∈ s.blockWorklist, b ∈ s'.blockWorklist
  marked : ∀ b, s'.liveInMarks b = value → s.liveInMarks b = value ∨ b ∈ s'.blockWorklist
  measure : s'.blockWorklist.length + (unmarked problem.blockCount s'.liveInMarks value).card =
    s.blockWorklist.length + (unmarked problem.blockCount s.liveInMarks value).card

namespace Search.Extends

variable {problem : Problem} {s s' s'' : Search}

lemma refl (s : Search) : s.Extends problem value s :=
  ⟨fun _ => id, fun _ => id, fun _ => id, fun _ => .inl, rfl⟩

lemma trans (h : s.Extends problem value s') (h' : s'.Extends problem value s'') :
    s.Extends problem value s'' where
  liveIn b hb := h'.liveIn b (h.liveIn b hb)
  liveOut b hb := h'.liveOut b (h.liveOut b hb)
  worklist b hb := h'.worklist b (h.worklist b hb)
  marked b hb := by
    rcases h'.marked b hb with hb | hb
    · exact (h.marked b hb).imp_right (h'.worklist b)
    · exact .inr hb
  measure := h'.measure.trans h.measure

end Search.Extends

def Search.Seen (problem : Problem) (value : ℕ) (s : Search) (predecessor : ℕ) : Prop :=
  s.liveOutMarks predecessor = value ∧
    (problem.Defines value predecessor ∨ s.liveInMarks predecessor = value)

lemma Search.Extends.seen {problem : Problem} {s s' : Search} (h : s.Extends problem value s')
    {predecessor : ℕ} (hs : s.Seen problem value predecessor) :
    s'.Seen problem value predecessor :=
  ⟨h.liveOut _ hs.1, hs.2.imp_right (h.liveIn _)⟩

variable {ρ : Type} {recorder : Recorder ρ} {problem : Problem} {Kept : Log → ρ → Prop}
  {s : Search × ρ} {log : Log}

namespace Searching

lemma liveIn_of_mark (h : Searching problem Kept value s log) {b : ℕ}
    (hb : s.1.liveInMarks b = value) : problem.LiveIn value b :=
  h.valid.liveIn b value ((h.mem_ins b value).mpr (.inr ⟨rfl, hb⟩))

variable {block : ℕ}

section

variable (h : Searching problem Kept value s log)
include h

variable (hp : problem.WellFormed) (hrec : recorder.Accepts problem Kept)
include hp hrec

lemma enterBlock (hlive : problem.LiveIn value block) (hmark : s.1.liveInMarks block ≠ value) :
    ∃ s' log', enterBlock recorder problem.blockCount value s block = some s' ∧
      Searching problem Kept value s' log' ∧ s.1.Extends problem value s'.1 ∧
        s'.1.liveInMarks block = value ∧ s'.1.liveOutMarks = s.1.liveOutMarks := by
  have hcard := card_unmarked_update (hp.liveIn_lt hlive).1 hmark
  have hroom := h.room
  obtain ⟨hins, hlives, hmem⟩ := h.valid.ins.concat h.valid.liveIn h.mem_ins hmark hlive
  have hvalid : (log.addIn block value).Valid problem :=
    ⟨hlives, h.valid.liveOut, hins, h.valid.outs⟩
  obtain ⟨results, hresults, hkept⟩ := hrec.liveIn log s.2 block value h.kept hvalid
  refine ⟨({ s.1 with
      liveInMarks := update s.1.liveInMarks block value
      blockWorklist := block :: s.1.blockWorklist }, results),
    log.addIn block value, ?_, ?_, ?_, update_self .., rfl⟩
  · unfold Liveness.enterBlock
    rw [hresults]
    dsimp only
    rw [if_pos (by omega)]
  · refine ⟨hkept, hvalid, hmem, h.mem_outs, update_mark_le h.liveInMarks_le block,
      h.liveOutMarks_le, ?_, ?_⟩
    · dsimp only
      rw [length_cons]
      omega
    · intro b hb
      apply update_mark_iff.mpr
      exact (mem_cons.mp hb).imp_right (h.worklist_marked b)
  · refine ⟨fun b hb => update_mark_iff.mpr (.inr hb), fun _ => id,
      fun b hb => mem_cons_of_mem _ hb, ?_, ?_⟩
    · intro b hb
      rcases update_mark_iff.mp hb with rfl | hb
      · exact .inr mem_cons_self
      · exact .inl hb
    · dsimp only
      rw [length_cons]
      omega

lemma visitUse (huse : problem.Uses value block) :
    ∃ s' log', visitUse recorder problem.blockCount value s block = some s' ∧
      Searching problem Kept value s' log' ∧ s.1.Extends problem value s'.1 ∧
        s'.1.liveInMarks block = value := by
  unfold Liveness.visitUse
  split_ifs with hmark
  · exact ⟨s, log, rfl, h, .refl _, hmark⟩
  · obtain ⟨s', log', hrun, hs', hext, hblock, -⟩ := h.enterBlock hp hrec huse.liveIn hmark
    exact ⟨s', log', hrun, hs', hext, hblock⟩

omit hp hrec in
lemma markLiveOut (hrec : recorder.Accepts problem Kept) (hlive : problem.LiveOut value block) :
    ∃ s' log', markLiveOut recorder value s block = some s' ∧
      Searching problem Kept value s' log' ∧ s.1.Extends problem value s'.1 ∧
        s'.1.liveOutMarks block = value := by
  unfold Liveness.markLiveOut
  split_ifs with hmark
  · exact ⟨s, log, rfl, h, .refl _, hmark⟩
  obtain ⟨houts, hlives, hmem⟩ := h.valid.outs.concat h.valid.liveOut h.mem_outs hmark hlive
  have hvalid : (log.addOut block value).Valid problem :=
    ⟨h.valid.liveIn, hlives, h.valid.ins, houts⟩
  obtain ⟨results, hresults, hkept⟩ := hrec.liveOut log s.2 block value h.kept hvalid
  refine ⟨({ s.1 with liveOutMarks := update s.1.liveOutMarks block value }, results),
    log.addOut block value, ?_, ?_, ?_, update_self ..⟩
  · rw [hresults]
  · exact ⟨hkept, hvalid, h.mem_ins, hmem, h.liveInMarks_le, update_mark_le h.liveOutMarks_le block,
      h.room, h.worklist_marked⟩
  · exact ⟨fun _ => id, fun b hb => update_mark_iff.mpr (.inr hb), fun _ => id, fun _ => .inl, rfl⟩

lemma visitPredecessor {definitionBlock predecessor : ℕ}
    (hdef : definitionBlock = predecessor ↔ problem.Defines value predecessor)
    (hlive : problem.LiveOut value predecessor) :
    ∃ s' log', visitPredecessor recorder problem.blockCount definitionBlock value s predecessor =
        some s' ∧
      Searching problem Kept value s' log' ∧ s.1.Extends problem value s'.1 ∧
        s'.1.Seen problem value predecessor := by
  obtain ⟨s₁, log₁, hmark, h₁, hext₁, hout⟩ := h.markLiveOut hrec hlive
  unfold Liveness.visitPredecessor
  rw [hmark]
  dsimp only
  split_ifs with hskip
  · exact ⟨s₁, log₁, rfl, h₁, hext₁, hout, hskip.imp_left hdef.mp⟩
  rw [not_or, hdef] at hskip
  obtain ⟨s₂, log₂, hrun, h₂, hext₂, hin, houts⟩ :=
    h₁.enterBlock hp hrec (hlive.liveIn hskip.1) hskip.2
  refine ⟨s₂, log₂, hrun, h₂, hext₁.trans hext₂, ?_, .inr hin⟩
  rw [houts]
  exact hout

end

/-- A step for every element of a list. -/
lemma foldlM {f : Search × ρ → ℕ → Option (Search × ρ)} {P : Search → ℕ → Prop}
    (hmono : ∀ s s' b, s.Extends problem value s' → P s b → P s' b) (blocks : List ℕ)
    (hstep : ∀ s log, Searching problem Kept value s log →
      ∀ b ∈ blocks, ∃ s' log', f s b = some s' ∧
      Searching problem Kept value s' log' ∧ s.1.Extends problem value s'.1 ∧ P s'.1 b)
    (h : Searching problem Kept value s log) :
    ∃ s' log', blocks.foldlM f s = some s' ∧ Searching problem Kept value s' log' ∧
      s.1.Extends problem value s'.1 ∧ ∀ b ∈ blocks, P s'.1 b := by
  induction blocks generalizing s log with
  | nil => exact ⟨s, log, rfl, h, .refl _, fun b hb => by cases hb⟩
  | cons b blocks ih =>
    obtain ⟨s₁, log₁, hrun₁, h₁, hext₁, hb⟩ := hstep s log h b mem_cons_self
    obtain ⟨s₂, log₂, hrun₂, h₂, hext₂, hrest⟩ :=
      ih (fun s log hs c hc => hstep s log hs c (mem_cons_of_mem _ hc)) h₁
    refine ⟨s₂, log₂, ?_, h₂, hext₁.trans hext₂, ?_⟩
    · rw [foldlM_cons, hrun₁]
      exact hrun₂
    intro c hc
    rcases mem_cons.mp hc with rfl | hc
    · exact hmono _ _ c hext₂ hb
    · exact hrest c hc

/-- The search runs until the marked blocks are closed under predecessors. -/
lemma propagate (hp : problem.WellFormed) (hrec : recorder.Accepts problem Kept)
    {definitionBlock : ℕ} (hdef : ∀ b < problem.blockCount,
      definitionBlock = b ↔ problem.Defines value b)
    (fuel : ℕ) (h : Searching problem Kept value s log)
    (hfuel : s.1.blockWorklist.length +
      (unmarked problem.blockCount s.1.liveInMarks value).card ≤ fuel)
    (hclosed : ∀ b, s.1.liveInMarks b = value → b ∈ s.1.blockWorklist ∨
      ∀ p ∈ problem.predecessors b, s.1.Seen problem value p) :
    ∃ s' log', propagate recorder problem.blockCount problem.predecessors definitionBlock
      value fuel s =
        some s' ∧ Searching problem Kept value s' log' ∧ s'.1.blockWorklist = [] ∧
      (∀ b, s.1.liveInMarks b = value → s'.1.liveInMarks b = value) ∧
        ∀ b, s'.1.liveInMarks b = value → ∀ p ∈ problem.predecessors b,
          s'.1.Seen problem value p := by
  induction fuel generalizing s log with
  | zero =>
    have hnil : s.1.blockWorklist = [] := eq_nil_of_length_eq_zero (by omega)
    refine ⟨s, log, ?_, h, hnil, fun _ => id, ?_⟩
    · rw [propagate, hnil]
      rfl
    · intro b hb
      exact (hclosed b hb).resolve_left (by rw [hnil]; exact not_mem_nil)
  | succ fuel ih =>
    cases hlist : s.1.blockWorklist with
    | nil =>
      refine ⟨s, log, ?_, h, hlist, fun _ => id, ?_⟩
      · rw [propagate, hlist]
      · intro b hb
        exact (hclosed b hb).resolve_left (by rw [hlist]; exact not_mem_nil)
    | cons block worklist =>
      have hblock : s.1.liveInMarks block = value := h.worklist_marked block (hlist ▸ mem_cons_self)
      rw [hlist, length_cons] at hfuel
      obtain ⟨s₀, hs₀⟩ : ∃ s₀ : Search × ρ, s₀ = ({ s.1 with blockWorklist := worklist }, s.2) :=
        ⟨_, rfl⟩
      have h₀ : Searching problem Kept value s₀ log := by
        have hroom := h.room
        rw [hlist, length_cons] at hroom
        rw [hs₀]
        refine { h with room := ?_, worklist_marked := fun b hb => ?_ }
        · dsimp only
          omega
        · exact h.worklist_marked b (hlist ▸ mem_cons_of_mem _ hb)
      obtain ⟨s₁, log₁, hrun, h₁, hext, hseen⟩ := h₀.foldlM
        (f := Liveness.visitPredecessor recorder problem.blockCount definitionBlock value)
        (P := Search.Seen problem value) (fun _ _ _ hext hs => hext.seen hs)
        (problem.predecessors block) fun s log hs p hpred => by
          have hout : problem.LiveOut value p :=
            ⟨block, hp.mem_predecessors.mp hpred, h.liveIn_of_mark hblock⟩
          exact hs.visitPredecessor hp hrec (hdef p (hp.liveOut_lt hout)) hout
      have hmeasure := hext.measure
      have hmarks : s₀.1.liveInMarks = s.1.liveInMarks := by rw [hs₀]
      have hlist₀ : s₀.1.blockWorklist = worklist := by rw [hs₀]
      rw [hmarks, hlist₀] at hmeasure
      have hclosed₁ : ∀ b, s₁.1.liveInMarks b = value → b ∈ s₁.1.blockWorklist ∨
          ∀ p ∈ problem.predecessors b, s₁.1.Seen problem value p := by
        intro b hb
        rcases hext.marked b hb with hb | hb
        · rw [hmarks] at hb
          rcases hclosed b hb with hmem | hpred
          · rw [hlist] at hmem
            rcases mem_cons.mp hmem with rfl | hmem
            · exact .inr hseen
            · exact .inl (hext.worklist b (hlist₀ ▸ hmem))
          · refine .inr fun p hp => hext.seen ?_
            rw [hs₀]
            exact hpred p hp
        · exact .inl hb
      obtain ⟨s₂, log₂, hrun₂, h₂, hnil, hkeep, hdone⟩ := ih h₁ (by omega) hclosed₁
      refine ⟨s₂, log₂, ?_, h₂, hnil, fun b hb => hkeep b (hext.liveIn b (hmarks ▸ hb)), hdone⟩
      rw [propagate, hlist]
      dsimp only
      rw [← hs₀, hrun]
      exact hrun₂

end Searching

/-! ### All values -/

/-- The state of a run between two values: the log has the relations of the values before. -/
structure Done {ρ : Type} (problem : Problem) (Kept : Log → ρ → Prop) (value : ℕ) (s : Search × ρ)
    (log : Log) : Prop where
  kept : Kept log s.2
  valid : log.Valid problem
  mem_ins : ∀ b v, (b, v) ∈ log.ins ↔ v < value ∧ problem.LiveIn v b
  mem_outs : ∀ b v, (b, v) ∈ log.outs ↔ v < value ∧ problem.LiveOut v b
  liveInMarks_lt : ∀ b, s.1.liveInMarks b < value ∨ s.1.liveInMarks b = uint32Max
  liveOutMarks_lt : ∀ b, s.1.liveOutMarks b < value ∨ s.1.liveOutMarks b = uint32Max
  worklist_eq : s.1.blockWorklist = []

namespace Done

variable {index : TransferIndex}

lemma searching (h : Done problem Kept value s log) (hlt : value < uint32Max) :
    Searching problem Kept value s log := by
  have hin : ∀ b, s.1.liveInMarks b ≠ value := fun b => by
    have := h.liveInMarks_lt b
    omega
  have hout : ∀ b, s.1.liveOutMarks b ≠ value := fun b => by
    have := h.liveOutMarks_lt b
    omega
  refine ⟨h.kept, h.valid, ?_, ?_, ?_, ?_, ?_, ?_⟩
  · intro b v
    rw [h.mem_ins, or_iff_left (fun hv => hin b hv.2)]
  · intro b v
    rw [h.mem_outs, or_iff_left (fun hv => hout b hv.2)]
  · exact fun b => (h.liveInMarks_lt b).imp_left le_of_lt
  · exact fun b => (h.liveOutMarks_lt b).imp_left le_of_lt
  · rw [h.worklist_eq, length_nil, Nat.zero_add]
    exact (Finset.card_filter_le _ _).trans_eq (Finset.card_range _)
  · rw [h.worklist_eq]
    exact fun b hb => by cases hb

/-- The search for a value records its relations. -/
lemma runValue (h : Done problem Kept value s log) (hp : problem.WellFormed)
    (hrec : recorder.Accepts problem Kept) (hindex : index.Describes problem)
    (hlt : value < problem.valueCount) :
    ∃ s' log', runValue recorder problem.blockCount index problem.predecessors s value = some s' ∧
      Done problem Kept (value + 1) s' log' := by
  have hs := h.searching (hlt.trans_le hp.valueCount_le)
  obtain ⟨s₁, log₁, hrun₁, h₁, hext₁, huses⟩ := hs.foldlM
    (f := visitUse recorder problem.blockCount value)
    (P := fun s b => s.liveInMarks b = value) (fun _ _ b hext hb => hext.liveIn b hb)
    (index.useBlocks value) fun s log hs b hb =>
      hs.visitUse hp hrec ((hindex.mem_useBlocks value hlt b).mp hb)
  have hclosed : ∀ b, s₁.1.liveInMarks b = value → b ∈ s₁.1.blockWorklist ∨
      ∀ p ∈ problem.predecessors b, s₁.1.Seen problem value p := by
    intro b hb
    rcases hext₁.marked b hb with hb | hb
    · have := h.liveInMarks_lt b
      have := hlt.trans_le hp.valueCount_le
      omega
    · exact .inl hb
  obtain ⟨s₂, log₂, hrun₂, h₂, hnil, hkeep, hseen⟩ :=
    Searching.propagate hp hrec (hindex.definition value hlt) problem.blockCount h₁ h₁.room hclosed
  -- the marked blocks are exactly the live ones
  have hin : ∀ b, s₂.1.liveInMarks b = value ↔ problem.LiveIn value b := by
    intro b
    refine ⟨h₂.liveIn_of_mark, fun hlive => ?_⟩
    apply Problem.LiveIn.induction (motive := fun b => s₂.1.liveInMarks b = value) _ _ hlive
    · exact fun b huse => hkeep b (huses b ((hindex.mem_useBlocks value hlt b).mpr huse))
    · intro b c hedge hdef ih
      exact (hseen c ih b (hp.mem_predecessors.mpr hedge)).2.resolve_left hdef
  have hout : ∀ b, s₂.1.liveOutMarks b = value ↔ problem.LiveOut value b := by
    intro b
    refine ⟨fun hb => h₂.valid.liveOut b value ((h₂.mem_outs b value).mpr (.inr ⟨rfl, hb⟩)), ?_⟩
    rintro ⟨c, hedge, hlive⟩
    exact (hseen c ((hin c).mpr hlive) b (hp.mem_predecessors.mpr hedge)).1
  refine ⟨s₂, log₂, ?_, h₂.kept, h₂.valid, ?_, ?_, ?_, ?_, hnil⟩
  · unfold Liveness.runValue
    rw [hrun₁]
    exact hrun₂
  · intro b v
    rw [h₂.mem_ins, hin, Nat.lt_succ_iff_lt_or_eq, or_and_right]
    refine or_congr_right (and_congr_right ?_)
    rintro rfl
    rfl
  · intro b v
    rw [h₂.mem_outs, hout, Nat.lt_succ_iff_lt_or_eq, or_and_right]
    refine or_congr_right (and_congr_right ?_)
    rintro rfl
    rfl
  · exact fun b => (h₂.liveInMarks_le b).imp_left Nat.lt_succ_of_le
  · exact fun b => (h₂.liveOutMarks_le b).imp_left Nat.lt_succ_of_le

/-- A run over all values records all relations. -/
lemma foldlM_runValue (hp : problem.WellFormed) (hrec : recorder.Accepts problem Kept)
    (hindex : index.Describes problem) {results : ρ} (hkept : Kept ⟨[], []⟩ results)
    {count : ℕ} (hle : count ≤ problem.valueCount) :
    ∃ s' log', (List.range count).foldlM
        (Liveness.runValue recorder problem.blockCount index problem.predecessors)
        (⟨fun _ => uint32Max, fun _ => uint32Max, []⟩, results) = some s' ∧
      Done problem Kept count s' log' := by
  induction count with
  | zero =>
    refine ⟨_, ⟨[], []⟩, rfl, hkept, ?_, ?_, ?_, fun _ => .inr rfl, fun _ => .inr rfl, rfl⟩
    · refine ⟨?_, ?_, List.Pairwise.nil, List.Pairwise.nil⟩ <;> simp
    · simp
    · simp
  | succ count ih =>
    obtain ⟨s₁, log₁, hrun₁, h₁⟩ := ih (Nat.le_of_succ_le hle)
    obtain ⟨s₂, log₂, hrun₂, h₂⟩ := h₁.runValue hp hrec hindex hle
    refine ⟨s₂, log₂, ?_, h₂⟩
    rw [range_succ, foldlM_append, hrun₁]
    simp only [Option.bind_eq_bind, Option.bind_some, foldlM_cons, hrun₂]
    rfl

end Done

end Hrx.Liveness
