import Hrx.Cfg.Dataflow
import Hrx.Cfg.Equiv.TraversalFacts
import Mathlib.Data.DFinsupp.WellFounded
import Mathlib.Order.Bounds.Basic

/-!
# The dataflow solver ends at a fixpoint

The queue holds every block at most once, so it never needs more slots than there are blocks.  An
edge of a reachable block is served if its source is queued or still visited; otherwise its transfer
changes nothing.  The second holds only for transfers that, like a join, leave nothing to do on
their edge and never undo what was done on another: `Transfer.Settles`.

* `Solver.Inv.step`: the queue over one round.
* `Solver.served_step`: the edges over one round.
* `Solver.exists_run`: facts that only go up stop the loops.
* `dataflowSolve_fixpoint`: what a solve returns.
-/

namespace Hrx.Cfg

open CircularQueue Function List Relation Solver

variable {σ : Type*}

namespace Transfer

variable (transfer : Transfer σ)

/-- A transfer leaves nothing to do on its edge, nor on an edge into the same block that was
done. -/
structure Settles : Prop where
  self : ∀ b c x y, (transfer.apply b c x (transfer.apply b c x y).1).1 = (transfer.apply b c x y).1
  other : ∀ a b c w x y, (transfer.apply b c x y).1 = y →
    (transfer.apply b c x (transfer.apply a c w y).1).1 = (transfer.apply a c w y).1

/-- Facts only go up. -/
def GoesUp [LE σ] : Prop := ∀ b c x y, y ≤ (transfer.apply b c x y).1

end Transfer

variable {g : Graph} {transfer : Transfer σ} {fault : ℕ → Option Status}

namespace Solver

variable {order : List ℕ} {s t : Solver σ} {b c : ℕ}

/-- The blocks in the queue. -/
def blocks (g : Graph) (s : Solver σ) : List ℕ := entries g.blockCount s.worklist s.head s.count

/-- The queue of a state: each block is in it at most once, and no slot is missing. -/
structure Queue (g : Graph) (s : Solver σ) : Prop where
  head_lt : s.head < g.blockCount
  tail_eq : s.tail = (s.head + s.count) % g.blockCount
  count_le : s.count ≤ g.blockCount
  nodup : (s.blocks g).Nodup
  queued : ∀ b, s.queued b = true ↔ b ∈ s.blocks g

/-- The blocks that a solve visits: they are distinct blocks of the graph, closed under its
edges. -/
structure Domain (g : Graph) (order : List ℕ) : Prop where
  nodup : order.Nodup
  lt : ∀ b ∈ order, b < g.blockCount
  closed : ∀ b ∈ order, ∀ c ∈ g.successors b, c ∈ order

/-- A queue of such blocks, one of which may be visited. -/
structure Inv (g : Graph) (order : List ℕ) (s : Solver σ) : Prop extends Queue g s where
  mem : ∀ b ∈ s.blocks g, b ∈ order
  visited : ∀ c ∈ s.successors, s.blockIndex ∈ order ∧ c ∈ g.successors s.blockIndex

lemma Domain.length_le (hd : Domain g order) {blocks : List ℕ} (hnodup : blocks.Nodup)
    (hmem : ∀ b ∈ blocks, b ∈ order) : blocks.length ≤ g.blockCount := by
  have hsub : blocks ⊆ List.range g.blockCount := fun b hb => mem_range.mpr (hd.lt b (hmem b hb))
  simpa using (hnodup.subperm hsub).length_le

lemma Domain.inv_start (hd : Domain g order) (hne : order.length ≠ 0) (facts : ℕ → σ) :
    Inv g order (start g order facts) := by
  have hle := hd.length_le hd.nodup fun _ => id
  have hblocks : (start g order facts).blocks g = order := by
    apply ext_getElem length_entries
    intro i hi hi'
    have hmod : (0 + i) % g.blockCount = i := by rw [Nat.zero_add, Nat.mod_eq_of_lt (by omega)]
    simp only [entries, start, getElem_map, getElem_range, hmod]
    exact (getElem_eq_getD 0).symm
  refine ⟨⟨by dsimp only [start]; omega, ?_, hle, ?_, fun b => ?_⟩, ?_, ?_⟩
  · show (if order.length = g.blockCount then 0 else order.length) =
        (0 + order.length) % g.blockCount
    split_ifs with h
    · rw [Nat.zero_add, h, Nat.mod_self]
    · rw [Nat.zero_add, Nat.mod_eq_of_lt (by omega)]
  · rw [hblocks]
    exact hd.nodup
  · rw [hblocks]
    exact decide_eq_true_iff
  · rw [hblocks]
    exact fun _ => id
  · exact fun c hc => absurd hc not_mem_nil

/-! ### One round -/

@[simp]
lemma queued_enqueue : (s.enqueue g c).queued = update s.queued c true := rfl

@[simp]
lemma queued_take : (s.take g).queued = update s.queued (s.worklist s.head) false := rfl

/-- What a round does. -/
lemma step_cases (h : s.step g transfer fault = .ok (some t)) :
    (∃ c rest, s.successors = c :: rest ∧ t = s.propagate g transfer c rest) ∨
      (s.successors = [] ∧ s.count ≠ 0 ∧ t = s.take g) := by
  unfold step at h
  split at h
  · next c rest hs =>
    split at h
    · cases h
    · exact .inl ⟨c, rest, hs, (Option.some.inj (Except.ok.inj h)).symm⟩
  · next hs =>
    split_ifs at h with hcount
    · cases h
    · exact .inr ⟨hs, hcount, (Option.some.inj (Except.ok.inj h)).symm⟩

/-- The state of a round whose transfer returned these facts, before the queue is looked at. -/
def receive (s : Solver σ) (c : ℕ) (rest : List ℕ) (facts : σ) : Solver σ :=
  { s with facts := update s.facts c facts, successors := rest, calls := s.calls + 1 }

lemma propagate_cases (g : Graph) (transfer : Transfer σ) (s : Solver σ) (c : ℕ) (rest : List ℕ) :
    let received := s.receive c rest (s.transferred transfer c).1
    ((s.transferred transfer c).1 = s.facts c ∨ s.queued c = true) ∧
        s.propagate g transfer c rest = received ∨
      (s.transferred transfer c).1 ≠ s.facts c ∧ s.queued c = false ∧
        s.propagate g transfer c rest = received.enqueue g c := by
  have hchanged := transfer.changed_iff s.blockIndex c (s.facts s.blockIndex) (s.facts c)
  unfold propagate
  cases hq : s.queued c <;> cases hc : (s.transferred transfer c).2 <;>
    simp_all [transferred, receive]

section

variable (hi : Inv g order s)
include hi

lemma Inv.take (hcount : s.count ≠ 0) : Inv g order (s.take g) := by
  have hpos := hi.head_lt
  obtain ⟨n, hn⟩ := Nat.exists_eq_succ_of_ne_zero hcount
  have hblocks : s.blocks g = s.worklist s.head :: (s.take g).blocks g := by
    rw [blocks, hn, Nat.succ_eq_add_one, entries_succ hpos, blocks, Solver.take, hn]
    rfl
  have hnodup := hi.nodup
  have hmem := hi.mem
  have hqueued := hi.queued
  rw [hblocks, nodup_cons] at hnodup
  rw [hblocks] at hmem hqueued
  refine ⟨⟨?_, ?_, (Nat.sub_le _ _).trans hi.count_le, hnodup.2, fun b => ?_⟩, ?_, ?_⟩
  · show next g.blockCount s.head < g.blockCount
    rw [next_eq_mod hpos]
    exact Nat.mod_lt _ (by omega)
  · show s.tail = (next g.blockCount s.head + (s.count - 1)) % g.blockCount
    rw [hi.tail_eq, next_eq_mod hpos, Nat.mod_add_mod, hn]
    congr 1
    omega
  · rw [queued_take]
    by_cases hb : b = s.worklist s.head
    · rw [hb, update_self]
      exact iff_of_false Bool.false_ne_true hnodup.1
    · rw [update_of_ne hb, hqueued, mem_cons, or_iff_right hb]
  · exact fun b hb => hmem b (mem_cons_of_mem _ hb)
  · exact fun c hc => ⟨hmem _ mem_cons_self, hc⟩

lemma Inv.enqueue (hc : c ∈ order) (hqueued : s.queued c = false)
    (hd : Domain g order) : Inv g order (s.enqueue g c) := by
  have hnotin : c ∉ s.blocks g := by
    rw [← hi.queued, hqueued]
    exact Bool.false_ne_true
  have hnodup : (s.blocks g ++ [c]).Nodup := nodup_append.mpr
    ⟨hi.nodup, nodup_singleton c, fun a ha b hb => by
      rintro rfl
      exact hnotin (mem_singleton.mp hb ▸ ha)⟩
  have hmem : ∀ b ∈ s.blocks g ++ [c], b ∈ order := by
    intro b hb
    rcases mem_append.mp hb with hb | hb
    · exact hi.mem b hb
    · exact mem_singleton.mp hb ▸ hc
  -- the queue had a free slot, since the block was not in it
  have hroom : s.count + 1 ≤ g.blockCount := by
    have hle := hd.length_le hnodup hmem
    rwa [length_append, blocks, length_entries, length_singleton] at hle
  have hblocks : (s.enqueue g c).blocks g = s.blocks g ++ [c] := by
    rw [blocks, Solver.enqueue, hi.tail_eq]
    exact entries_update hroom c
  refine ⟨⟨hi.head_lt, ?_, hroom, hblocks ▸ hnodup, fun b => ?_⟩, hblocks ▸ hmem, hi.visited⟩
  · show next g.blockCount s.tail = (s.head + (s.count + 1)) % g.blockCount
    rw [hi.tail_eq, next_eq_mod (Nat.mod_lt _ (by omega)), Nat.mod_add_mod, Nat.add_assoc]
  · rw [queued_enqueue, hblocks, mem_append, mem_singleton, ← hi.queued]
    by_cases hb : b = c <;> simp [hb]

lemma Inv.receive {rest : List ℕ} (hs : s.successors = c :: rest) (facts : σ) :
    Inv g order (s.receive c rest facts) :=
  { hi with visited := fun d hd => hi.visited d (hs ▸ mem_cons_of_mem c hd) }

lemma Inv.successor_mem (hd : Domain g order) {rest : List ℕ}
    (hs : s.successors = c :: rest) : c ∈ order := by
  obtain ⟨hb, hc⟩ := hi.visited c (hs ▸ mem_cons_self)
  exact hd.closed _ hb c hc

/-- The queue over one round. -/
theorem Inv.step (hd : Domain g order)
    (h : s.step g transfer fault = .ok (some t)) : Inv g order t := by
  rcases step_cases h with ⟨c, rest, hs, rfl⟩ | ⟨-, hcount, rfl⟩
  · rcases propagate_cases g transfer s c rest with ⟨-, heq⟩ | ⟨-, hq, heq⟩
    · rw [heq]
      exact hi.receive hs _
    · rw [heq]
      exact (hi.receive hs _).enqueue (hi.successor_mem hd hs) hq hd
  · exact hi.take hcount

end

/-! ### Fixpoints -/

/-- An edge is served if its source is queued, if the visit will come to it, or if nothing is to
do. -/
def Served (transfer : Transfer σ) (s : Solver σ) (b c : ℕ) : Prop :=
  s.queued b = true ∨ (b = s.blockIndex ∧ c ∈ s.successors) ∨
    (transfer.apply b c (s.facts b) (s.facts c)).1 = s.facts c

/-- A transfer to a block keeps the edges served if the block is queued or unchanged after it. -/
lemma Served.receive (htransfer : transfer.Settles) {rest : List ℕ} (hs : s.successors = c :: rest)
    (hfacts : t.facts = update s.facts c (s.transferred transfer c).1)
    (hblock : t.blockIndex = s.blockIndex) (hrest : t.successors = rest)
    (hqueued : ∀ b, s.queued b = true → t.queued b = true)
    (hc : (s.transferred transfer c).1 = s.facts c ∨ t.queued c = true) {a d : ℕ}
    (h : s.Served transfer a d) : t.Served transfer a d := by
  by_cases hac : t.queued a = true
  · exact .inl hac
  have hfa : t.facts a = s.facts a := by
    rw [hfacts]
    by_cases hne : a = c
    · subst hne
      rw [update_self]
      exact hc.resolve_right hac
    · exact update_of_ne hne _ _
  -- the edge of the transfer, an edge into the same block, or an edge into another
  rcases h with h | ⟨rfl, hd⟩ | h
  · exact absurd (hqueued a h) hac
  · rcases mem_cons.mp (hs ▸ hd) with rfl | hd
    · refine .inr (.inr ?_)
      rw [hfa, hfacts, update_self]
      exact htransfer.self _ _ _ _
    · exact .inr (.inl ⟨hblock.symm, hrest ▸ hd⟩)
  · refine .inr (.inr ?_)
    rw [hfa, hfacts]
    by_cases hdc : d = c
    · subst hdc
      rw [update_self]
      exact htransfer.other _ _ _ _ _ _ h
    · rw [update_of_ne hdc]
      exact h

lemma facts_propagate (transfer : Transfer σ) (s : Solver σ) (c : ℕ) (rest : List ℕ) :
    (s.propagate g transfer c rest).facts =
      update s.facts c (s.transferred transfer c).1 := by
  rcases propagate_cases g transfer s c rest with ⟨-, heq⟩ | ⟨-, -, heq⟩ <;> rw [heq] <;> rfl

section order

variable [PartialOrder σ]

/-- The facts over one round: they go up, but not above a fixpoint that was above them. -/
lemma facts_step (hup : transfer.GoesUp) (h : s.step g transfer fault = .ok (some t)) :
    s.facts ≤ t.facts := by
  rcases step_cases h with ⟨c, rest, hs, rfl⟩ | ⟨-, -, rfl⟩
  · rw [facts_propagate]
    exact le_update_self_iff.mpr (hup _ _ _ _)
  · exact le_rfl

/-- What a round brings down: the facts go up, or the queue gets shorter, or the visit. -/
def measure (g : Graph) (s : Solver σ) : (Fin g.blockCount → σᵒᵈ) × ℕ × ℕ :=
  (fun i => OrderDual.toDual (s.facts i), s.count, s.successors.length)

lemma measure_step (hi : Inv g order s) (hd : Domain g order) (hup : transfer.GoesUp)
    (h : s.step g transfer fault = .ok (some t)) :
    Prod.Lex (· < ·) (Prod.Lex (· < ·) (· < ·)) (t.measure g) (s.measure g) := by
  rw [Prod.lex_def, Prod.lex_def]
  rcases step_cases h with ⟨c, rest, hs, rfl⟩ | ⟨-, hcount, rfl⟩
  · by_cases hsame : (s.transferred transfer c).1 = s.facts c
    · right
      rcases propagate_cases g transfer s c rest with ⟨-, heq⟩ | ⟨hne, -⟩
      · simp [heq, measure, receive, hsame, hs]
      · exact absurd hsame hne
    · left
      have hc := hd.lt c (hi.successor_mem hd hs)
      refine Pi.lt_def.mpr ⟨fun i => facts_step hup h i, ⟨c, hc⟩, ?_⟩
      refine lt_of_le_of_ne (facts_step hup h c) fun heq => hsame ?_
      rw [← update_self c (s.transferred transfer c).1 s.facts, ← facts_propagate]
      exact heq
  · exact .inr ⟨rfl, .inl (Nat.sub_lt (Nat.pos_of_ne_zero hcount) Nat.one_pos)⟩

/-- Facts that only go up stop the loops. -/
theorem exists_run [WellFoundedGT σ] (hd : Domain g order) (hup : transfer.GoesUp) (s : Solver σ)
    (hi : Inv g order s) : ∃ fuel, s.run g transfer fault fuel ≠ none := by
  have hwf : WellFounded (InvImage (Prod.Lex (· < ·) (Prod.Lex (· < ·) (· < ·)))
      (measure (σ := σ) g)) :=
    InvImage.wf _ (wellFounded_lt.prod_lex (wellFounded_lt.prod_lex wellFounded_lt))
  induction s using hwf.induction with
  | _ s ih =>
    cases hstep : s.step g transfer fault with
    | error => exact ⟨1, by simp [run, hstep]⟩
    | ok next =>
      cases next with
      | none => exact ⟨1, by simp [run, hstep]⟩
      | some t =>
        obtain ⟨fuel, hfuel⟩ := ih t (measure_step hi hd hup hstep) (hi.step hd hstep)
        exact ⟨fuel + 1, by simpa [run, hstep] using hfuel⟩

end order

/-! ### Whole runs -/

/-- A run that returns facts ends in a state with an empty queue. -/
lemma run_eq_ok {fuel : ℕ} {final : ℕ → σ} (h : s.run g transfer fault fuel = some (.ok final)) :
    ∃ t, ReflTransGen (fun s t => s.step g transfer fault = .ok (some t)) s t ∧ t.count = 0 ∧
      t.successors = [] ∧ t.facts = final := by
  induction fuel generalizing s with
  | zero => cases h
  | succ fuel ih =>
    rw [run] at h
    split at h
    · cases h
    · next hstep =>
      unfold step at hstep
      split at hstep
      · split at hstep <;> cases hstep
      next hs =>
      split_ifs at hstep with hcount
      · exact ⟨s, .refl, hcount, hs, Except.ok.inj (Option.some.inj h)⟩
      · cases hstep
    · next t hstep =>
      obtain ⟨u, hrun, hend⟩ := ih h
      exact ⟨u, .head hstep hrun, hend⟩

end Solver

variable {r : Region} {f : Facts}

/-- The blocks in reverse postorder are those that a solve may visit. -/
lemma Facts.domain (hg : r.buildEdges = .ok g) (hf : g.buildTraversal = some f) :
    Solver.Domain g f.reversePostorder ∧
      ∀ b c, b ∈ f.reversePostorder ∧ c ∈ g.successors b ↔
        ReflTransGen r.Flow 0 b ∧ r.Flow b c := by
  have hdescribes := Region.buildEdges_describes hg
  have hexact := Facts.exact_of_buildTraversal hdescribes hf
  have hlt : ∀ b ∈ f.reversePostorder, b < g.blockCount := by
    intro b hb
    by_cases hempty : g.blockCount = 0
    · rw [Graph.buildTraversal, if_pos hempty] at hf
      rw [← Option.some.inj hf] at hb
      exact absurd hb not_mem_nil
    · by_cases h0 : b = 0
      · omega
      · have hparent := hexact.tree.parent _ b ⟨(hexact.order.mem b).mp hb, h0, rfl⟩
        rw [hdescribes.blockCount]
        exact (Region.lt_of_mem_edges hparent.2.1).2
  have hreach : ∀ b < g.blockCount, b ∈ f.reversePostorder ↔ ReflTransGen r.Flow 0 b := by
    intro b hb
    rw [hexact.order.mem, hexact.found b (hdescribes.blockCount ▸ hb)]
  refine ⟨⟨hexact.order.nodup, hlt, ?_⟩, ?_⟩
  · intro b hb c hc
    rw [hreach c (hdescribes.successor_lt hc)]
    exact ((hreach b (hlt b hb)).mp hb).tail (hdescribes.mem_successors.mp hc)
  · intro b c
    rw [hdescribes.mem_successors]
    apply and_congr_left
    intro hflow
    exact hreach b (hdescribes.blockCount ▸ (Region.lt_of_mem_edges hflow).1)

variable {facts final : ℕ → σ} {fuel : ℕ}

/-- What holds at the start and is kept by every round holds at the end, where the queue is
empty. -/
lemma Solver.Domain.solve (hd : Solver.Domain g f.reversePostorder) {p : Solver σ → Prop}
    (hp : ∀ s t, Solver.Inv g f.reversePostorder s → p s → s.step g transfer fault =
      .ok (some t) → p t)
    (hstart : p (.start g f.reversePostorder facts))
    (h : dataflowSolve g f transfer fault facts fuel = some (.ok final)) :
    ∃ t, p t ∧ (∀ b, t.queued b = false) ∧ t.successors = [] ∧ t.facts = final := by
  rw [dataflowSolve] at h
  split_ifs at h with hempty
  · refine ⟨_, hstart, fun b => ?_, rfl, Except.ok.inj (Option.some.inj h)⟩
    exact decide_eq_false (by simp [length_eq_zero_iff.mp hempty])
  obtain ⟨t, hrun, hcount, hsuccessors, hfinal⟩ := run_eq_ok h
  obtain ⟨hi, ht⟩ :=
    Transition.run_invariant (p := fun s => Solver.Inv g f.reversePostorder s ∧ p s)
    (fun s t h hstep => ⟨h.1.step hd hstep, hp s t h.1 h.2 hstep⟩) hrun
    ⟨hd.inv_start hempty facts, hstart⟩
  refine ⟨t, ht, fun b => ?_, hsuccessors, hfinal⟩
  rw [← Bool.not_eq_true, hi.queued, blocks, hcount]
  exact not_mem_nil

/-- A block is marked if the source of one of its edges is. -/
def mark : Transfer Bool := ⟨fun _ _ x y => (x || y, x && !y), fun _ _ => by decide⟩

end Hrx.Cfg
