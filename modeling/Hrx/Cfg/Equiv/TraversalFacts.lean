import Hrx.Cfg.Equiv.Rounds
import Hrx.Lib.Dominators

/-!
# The facts of a traversal

What `loom_cfg_graph_build` records of the blocks of a region, in terms of the paths of the region:
the tree of the search, the reverse postorder, the components, and what can be reached.
-/

namespace Hrx.Cfg

open DepthFirst Dominators List Relation

def Region.Flow (r : Region) (a b : ℕ) : Prop := (a, b) ∈ r.edges

namespace Facts

variable (f : Facts) (r : Region)

def Found (v : ℕ) : Prop := (f.blocks v).reachable = true

def IsParent (u v : ℕ) : Prop := f.Found v ∧ v ≠ 0 ∧ (f.blocks v).parent = u

/-- Preorders, parents and preorder ends describe one depth-first search tree. -/
structure Tree : Prop where
  preorder_lt : ∀ v, f.Found v → (f.blocks v).preorder < f.reversePostorder.length
  injective : ∀ u v, f.Found u → f.Found v → (f.blocks u).preorder = (f.blocks v).preorder → u = v
  entry : f.Found 0 → (f.blocks 0).preorder = 0 ∧ (f.blocks 0).parent = uint16Max
  parent : ∀ u v, f.IsParent u v → f.Found u ∧ r.Flow u v ∧
    (f.blocks u).preorder < (f.blocks v).preorder
  /-- The interval of a block holds the preorders of its subtree. -/
  subtree : ∀ u v, f.Found u → f.Found v → (ReflTransGen f.IsParent u v ↔
    (f.blocks u).preorder ≤ (f.blocks v).preorder ∧
      (f.blocks v).preorder < (f.blocks u).preorderEnd)
  nested : ∀ u v, f.Found u → f.Found v → (f.blocks u).preorder ≤ (f.blocks v).preorder →
    (f.blocks v).preorderEnd ≤ (f.blocks u).preorderEnd ∨
      (f.blocks u).preorderEnd ≤ (f.blocks v).preorder
  /-- An edge leads into the subtree of its source or to an earlier block. -/
  edge : ∀ u v, f.Found u → r.Flow u v → (f.blocks v).preorder < (f.blocks u).preorderEnd

/-- The reverse postorder lists the blocks that were found, dominators first. -/
structure Order : Prop where
  nodup : f.reversePostorder.Nodup
  mem : ∀ v, v ∈ f.reversePostorder ↔ f.Found v
  dominators : ∀ a b before after, StrictlyDominates r.Flow 0 a b →
    f.reversePostorder = before ++ b :: after → a ∈ before

/-- Components are the classes of blocks that reach each other, successors first. -/
structure Components : Prop where
  same : ∀ u v, f.Found u → f.Found v → ((f.blocks u).component = (f.blocks v).component ↔
    ReflTransGen r.Flow u v ∧ ReflTransGen r.Flow v u)
  edge : ∀ u v, r.Flow u v → (f.blocks u).component ≠ (f.blocks v).component →
    (f.blocks v).component < (f.blocks u).component
  cyclic : ∀ v, f.Found v → ((f.blocks v).componentIsCyclic = true ↔ TransGen r.Flow v v)
  cycles : f.hasCycles = true ↔ ∃ v, f.Found v ∧ TransGen r.Flow v v

structure Reaches : Prop where
  exit : ∀ v, f.Found v →
    ((f.blocks v).canReachExit = true ↔ ∃ w, ReflTransGen r.Flow v w ∧ ∀ x, ¬r.Flow w x)
  root : ∀ v, f.Found v → ReflTransGen r.Flow v (f.blocks v).reachabilityRoot ∧
    ∀ w, ReflTransGen r.Flow v w → (f.blocks (f.blocks v).reachabilityRoot).preorder ≤
      (f.blocks w).preorder

structure Exact : Prop where
  found : ∀ v < r.blocks.length, f.Found v ↔ ReflTransGen r.Flow 0 v
  tree : f.Tree r
  order : f.Order r
  components : f.Components r
  reaches : f.Reaches r
  /-- A block that was not found has no facts. -/
  initial : ∀ v, ¬f.Found v → f.blocks v = .initial

end Facts

namespace Traversal

def facts (t : Traversal) : Facts := ⟨t.blocks, t.order.reverse, t.hasCycles⟩

variable {succ : ℕ → List ℕ} {size : ℕ} {t : Traversal}

section done

variable (h : Sound succ size t) (hdone : t.view.frames = [])
include h hdone

/-- Every block that was found is in a component. -/
lemma component_ne {v : ℕ} (hv : t.view.reachable v = true) :
    (t.blocks v).component ≠ uint16Max := by
  -- an open block has a lowlink, which belongs to an earlier open block
  induction hn : t.view.preorder v using Nat.strong_induction_on generalizing v with
  | _ n ih =>
    intro hopen
    obtain ⟨-, w, hw, hwopen, hlow, -⟩ := h.links.low v hv hopen
    have hlt := h.links.done v (preorderEnd_ne_zero h.inv hdone hv) hopen
    exact ih _ (by omega) hw rfl hwopen

lemma merged_of_edge {u v : ℕ} (hu : t.view.reachable u = true) (hv : v ∈ succ u) :
    Merged succ t.view u v := .done (preorderEnd_ne_zero h.inv hdone hu) hv

lemma component_le_of_reach {u v : ℕ} (hu : t.view.reachable u = true) (hreach : Reach succ u v) :
    (t.blocks v).component ≤ (t.blocks u).component := by
  induction hreach with
  | refl => exact le_rfl
  | tail hreach hedge ih =>
    have hx := reachable_of_reach h.inv hdone hu hreach
    exact (((h.links.closed _ (component_ne h hdone hx)).2.2 _ hedge).2).trans ih

lemma component_eq_iff {u v : ℕ} (hu : t.view.reachable u = true) (hv : t.view.reachable v = true) :
    (t.blocks u).component = (t.blocks v).component ↔ Reach succ u v ∧ Reach succ v u := by
  constructor
  · intro heq
    exact ⟨h.links.strong u v (component_ne h hdone hu) heq.symm,
      h.links.strong v u (component_ne h hdone hv) heq⟩
  · rintro ⟨huv, hvu⟩
    exact (component_le_of_reach h hdone hv hvu).antisymm (component_le_of_reach h hdone hu huv)

lemma hasCycles_iff :
    t.hasCycles = true ↔ ∃ v, t.view.reachable v = true ∧ TransGen (Edge succ) v v := by
  refine ⟨h.merges.cycles, ?_⟩
  rintro ⟨v, hv, hcycle⟩
  by_contra hno
  have hacyclic := h.merges.acyclic (by simpa using hno)
  -- without the flag, a block is done after its successors
  have hlater : ∀ w, TransGen (Edge succ) v w → t.order.idxOf w < t.order.idxOf v := by
    have hstep : ∀ u w, t.view.reachable u = true → w ∈ succ u →
        t.order.idxOf w < t.order.idxOf u := by
      intro u w hu hw
      obtain ⟨l, r, hsplit⟩ : ∃ l r, t.order = l ++ u :: r :=
        append_of_mem ((mem_order_iff h.inv hdone).mpr hu)
      have hmem := (hacyclic u w (merged_of_edge h hdone hu hw)).2 l r hsplit
      have hnot : u ∉ l := by
        have hnodup := h.inv.order_nodup
        rw [show t.view.order = _ from hsplit] at hnodup
        exact fun hul => disjoint_of_nodup_append hnodup hul (mem_cons_self ..)
      rw [hsplit, idxOf_append_of_mem hmem, idxOf_append_of_notMem hnot, idxOf_cons_self]
      exact (idxOf_lt_length_of_mem hmem).trans_le (Nat.le_add_right ..)
    intro w hw
    induction hw with
    | single hedge => exact hstep v _ hv hedge
    | tail hpath hedge ih =>
      exact (hstep _ _ (reachable_of_reach h.inv hdone hv hpath.to_reflTransGen) hedge).trans ih
  exact lt_irrefl _ (hlater v hcycle)

lemma canReachExit_iff {v : ℕ} (hv : t.view.reachable v = true) :
    (t.blocks v).canReachExit = true ↔ ∃ w, Reach succ v w ∧ succ w = [] := by
  refine ⟨h.merges.exit v, ?_⟩
  rintro ⟨w, hreach, hexit⟩
  induction hreach using ReflTransGen.head_induction_on with
  | refl => exact h.merges.exitDone w (preorderEnd_ne_zero h.inv hdone hv) hexit
  | head hedge _ ih =>
    have hx := (successor h.inv hdone hv hedge).1
    exact h.merges.exitEdge _ _ (merged_of_edge h hdone hv hedge) (component_ne h hdone hx) (ih hx)

lemma rootPreorder_le {v w : ℕ} (hv : t.view.reachable v = true) (hreach : Reach succ v w) :
    t.rootPreorder v ≤ t.view.preorder w := by
  induction hreach using ReflTransGen.head_induction_on with
  | refl => exact (h.merges.root w hv).2.2
  | head hedge _ ih =>
    have hx := (successor h.inv hdone hv hedge).1
    exact (h.merges.rootEdge _ _ (merged_of_edge h hdone hv hedge)
      (component_ne h hdone hx)).trans (ih hx)

omit hdone in
/-- A dominator of a block is an ancestor in the tree. -/
lemma anc_of_dominates {a b : ℕ} (hb : t.view.reachable b = true)
    (hdom : Dominates (Edge succ) 0 a b) : Anc 0 t.view a b := by
  rcases dominates_iff.mp hdom with rfl | hnone
  · exact anc_root h.inv hb
  by_contra hnot
  refine hnone ?_
  -- the path of the tree goes around it
  suffices hpath : ∀ v, Anc 0 t.view 0 v → Anc 0 t.view v b →
      ReflTransGen (Around (Edge succ) a) 0 v from
    hpath b (anc_root h.inv hb) .refl
  intro v hv
  induction hv with
  | refl => exact fun _ => .refl
  | tail _ hp ih =>
    intro hvb
    refine (ih (.head hp hvb)).tail ⟨?_, ?_⟩
    · rw [← hp.parent]
      exact (h.inv.parent _ hp.reachable hp.ne_root).2.1
    · rintro rfl
      exact hnot hvb

/-- There are as many preorders as blocks that are done. -/
lemma preorderCount_le : t.preorderCount ≤ t.order.length := by
  choose! f hf using h.inv.onto
  have hmaps : ∀ k ∈ Finset.range t.preorderCount, f k ∈ t.order.toFinset := by
    intro k hk
    rw [mem_toFinset]
    exact (mem_order_iff h.inv hdone).mpr (hf k (Finset.mem_range.mp hk)).1
  have hinj : Set.InjOn f (Finset.range t.preorderCount) := by
    intro x hx y hy heq
    rw [← (hf x (Finset.mem_range.mp hx)).2, ← (hf y (Finset.mem_range.mp hy)).2, heq]
  calc t.preorderCount = (Finset.range t.preorderCount).card := (Finset.card_range _).symm
    _ ≤ t.order.toFinset.card := Finset.card_le_card_of_injOn f hmaps hinj
    _ = t.order.length := toFinset_card_of_nodup h.inv.order_nodup

end done

variable {r : Region} (h : Sound succ size t) (hdone : t.view.frames = [])
  (hsucc : ∀ u w, w ∈ succ u ↔ r.Flow u w)

omit h hdone in
include hsucc in
lemma edge_eq_flow : Edge succ = r.Flow := by
  funext u w
  exact propext (hsucc u w)

include h hdone hsucc

lemma facts_tree : t.facts.Tree r := by
  have hend : ∀ v, t.facts.Found v → (t.facts.blocks v).preorderEnd = t.view.endOf v :=
    fun v hv => (endOf_eq h.inv hdone hv).symm
  have hanc : ∀ u v, t.facts.Found u → t.facts.Found v → (ReflTransGen t.facts.IsParent u v ↔
      (t.facts.blocks u).preorder ≤ (t.facts.blocks v).preorder ∧
        (t.facts.blocks v).preorder < (t.facts.blocks u).preorderEnd) := by
    intro u v hu hv
    have hparent : t.facts.IsParent = DepthFirst.IsParent 0 t.view := by
      funext x y
      exact propext ⟨fun ⟨h₁, h₂, h₃⟩ => ⟨h₁, h₂, h₃⟩, fun ⟨h₁, h₂, h₃⟩ => ⟨h₁, h₂, h₃⟩⟩
    rw [hparent, hend u hu]
    exact anc_iff h.inv hu hv
  constructor
  case preorder_lt =>
    intro v hv
    show _ < t.order.reverse.length
    rw [length_reverse]
    exact (h.inv.lt_count v hv).trans_le (preorderCount_le h hdone)
  case injective => exact h.inv.injective
  case entry => exact fun _ => ⟨h.inv.root_preorder, h.entry⟩
  case parent =>
    rintro u v ⟨hv, hne, rfl⟩
    obtain ⟨h₁, h₂, h₃, -⟩ := h.inv.parent v hv hne
    exact ⟨h₁, (hsucc _ _).mp h₂, h₃⟩
  case subtree => exact hanc
  case nested =>
    intro u v hu hv hle
    by_cases hlt : (t.facts.blocks v).preorder < (t.facts.blocks u).preorderEnd
    · left
      rw [hend u hu] at hlt
      rw [hend u hu, hend v hv]
      exact (((anc_iff h.inv hu hv).mpr ⟨hle, hlt⟩).interval h.inv).2
    · exact .inr (not_lt.mp hlt)
  case edge =>
    intro u v hu hflow
    rw [hend u hu]
    exact (successor h.inv hdone hu ((hsucc u v).mpr hflow)).2

lemma facts_order : t.facts.Order r := by
  have hnodup : t.facts.reversePostorder.Nodup := nodup_reverse.mpr h.inv.order_nodup
  have hmem : ∀ v, v ∈ t.facts.reversePostorder ↔ t.facts.Found v :=
    fun v => mem_reverse.trans (mem_order_iff h.inv hdone)
  refine ⟨hnodup, hmem, ?_⟩
  rintro a b before after ⟨hdom, hne⟩ hsplit
  have hb : t.view.reachable b = true := by
    rw [← show _ ↔ t.view.reachable b = true from hmem b, hsplit]
    simp
  rw [← edge_eq_flow hsucc] at hdom
  have hanc := anc_of_dominates h hb hdom
  have ha : a ∈ before ++ b :: after := by
    rw [← hsplit, hmem]
    exact hanc.reachable h.inv hb
  rcases mem_append.mp ha with ha | ha
  · exact ha
  rcases mem_cons.mp ha with rfl | ha
  · exact absurd rfl hne
  -- otherwise the dominator would be done before the block
  obtain ⟨x, y, rfl⟩ := append_of_mem ha
  have horder : t.view.order = y.reverse ++ a :: (x.reverse ++ b :: before.reverse) := by
    have := congrArg List.reverse hsplit
    rw [show t.facts.reversePostorder = t.order.reverse from rfl, reverse_reverse] at this
    rw [show t.view.order = t.order from rfl, this]
    simp
  have hlater := later_of_anc h.inv hdone horder hanc hb hne.symm
  have hnodup' := h.inv.order_nodup
  rw [horder] at hnodup'
  exact absurd (by simp) (disjoint_of_nodup_append hnodup' hlater)

lemma facts_components (hsize : size ≤ uint16Max) : t.facts.Components r := by
  have hlt : ∀ v, t.view.reachable v = true → (t.blocks v).component < uint16Max := by
    intro v hv
    have hcomponent := (h.links.closed v (component_ne h hdone hv)).2.1
    have hcount := h.links.count
    have hle := h.count_le
    omega
  have hnone : ∀ v, ¬t.view.reachable v = true → (t.blocks v).component = uint16Max := by
    intro v hv
    rw [h.merges.initial v (by simpa using hv)]
    rfl
  constructor
  case same =>
    intro u v hu hv
    rw [← edge_eq_flow hsucc]
    exact component_eq_iff h hdone hu hv
  case edge =>
    intro u v hflow hne
    by_cases hu : t.view.reachable u = true
    · have hle := ((h.links.closed u (component_ne h hdone hu)).2.2 v ((hsucc u v).mpr hflow)).2
      exact lt_of_le_of_ne hle hne.symm
    replace hne : (t.blocks u).component ≠ (t.blocks v).component := hne
    show (t.blocks v).component < (t.blocks u).component
    rw [hnone u hu] at hne ⊢
    apply hlt v
    by_contra hv
    exact hne (hnone v hv).symm
  case cyclic =>
    intro v hv
    rw [← edge_eq_flow hsucc]
    exact h.merges.cyclicClosed v (component_ne h hdone hv)
  case cycles =>
    rw [← edge_eq_flow hsucc]
    exact hasCycles_iff h hdone

lemma facts_reaches : t.facts.Reaches r := by
  constructor
  case exit =>
    intro v hv
    rw [← edge_eq_flow hsucc]
    refine (canReachExit_iff h hdone hv).trans (exists_congr fun w => and_congr_right fun _ => ?_)
    exact eq_nil_iff_forall_not_mem
  case root =>
    intro v hv
    rw [← edge_eq_flow hsucc]
    exact ⟨(h.merges.root v hv).2.1, fun w hreach => rootPreorder_le h hdone hv hreach⟩

lemma facts_exact (hsize : size ≤ uint16Max) : t.facts.Exact r := by
  refine ⟨fun v _ => ?_, facts_tree h hdone hsucc, facts_order h hdone hsucc,
    facts_components h hdone hsucc hsize, facts_reaches h hdone hsucc, ?_⟩
  · rw [← edge_eq_flow hsucc]
    exact reachable_iff h.inv hdone
  · intro v hv
    exact h.merges.initial v (eq_false_of_ne_true hv)

end Traversal

/-- A region without blocks has no facts. -/
lemma Facts.exact_of_empty {r : Region} (hr : r.blocks.length = 0) :
    Facts.Exact ⟨fun _ => .initial, [], false⟩ r := by
  have hnone : ∀ v, ¬Facts.Found ⟨fun _ => .initial, [], false⟩ v := fun v hv => nomatch hv
  have hflow : ∀ u v, ¬r.Flow u v := by
    intro u v h
    have := (Region.lt_of_mem_edges h).1
    omega
  refine ⟨fun v hv => absurd hv (by omega), ?_, ?_, ?_, ?_, fun _ _ => rfl⟩
  · exact ⟨fun v hv => absurd hv (hnone v), fun u _ hu => absurd hu (hnone u),
      fun hv => absurd hv (hnone 0),
      fun u v h => absurd h.1 (hnone v), fun u _ hu => absurd hu (hnone u),
      fun u _ hu => absurd hu (hnone u), fun u _ hu => absurd hu (hnone u)⟩
  · refine ⟨nodup_nil, fun v => iff_of_false not_mem_nil (hnone v), ?_⟩
    intro a b before after _ hsplit
    cases before <;> cases hsplit
  · exact ⟨fun u _ hu => absurd hu (hnone u), fun u v h => absurd h (hflow u v),
      fun v hv => absurd hv (hnone v),
      iff_of_false Bool.false_ne_true fun ⟨v, hv, _⟩ => hnone v hv⟩
  · exact ⟨fun v hv => absurd hv (hnone v), fun v hv => absurd hv (hnone v)⟩

/-- The main loop ends within its rounds. -/
lemma Graph.Describes.exists_run {r : Region} {g : Graph} (hg : g.Describes r)
    (hpos : 0 < g.blockCount) :
    ∃ t, Traversal.start.run g.successors g.traversalRounds = some t ∧ t.frames = [] ∧
      t.Sound g.successors g.blockCount := by
  have hsize : g.blockCount ≤ uint16Max := hg.blockCount ▸ r.length_le
  refine (Traversal.sound_start hpos).run hsize (fun u w hw => hg.successor_lt hw) ?_
  rw [Traversal.starts_start.potential_eq _ (Finset.mem_range.mpr hpos)]
  exact rfl.le

/-- The facts that a traversal returns are exact. -/
lemma Facts.exact_of_buildTraversal {r : Region} {g : Graph} {f : Facts} (hg : g.Describes r)
    (h : g.buildTraversal = some f) : f.Exact r := by
  unfold Graph.buildTraversal at h
  by_cases hempty : g.blockCount = 0
  · rw [if_pos hempty] at h
    cases h
    exact Facts.exact_of_empty (hg.blockCount ▸ hempty)
  · obtain ⟨t, hrun, hdone, hsound⟩ := hg.exists_run (Nat.pos_of_ne_zero hempty)
    rw [if_neg hempty, hrun] at h
    cases h
    have hflow : ∀ u w, w ∈ g.successors u ↔ r.Flow u w := fun u w => hg.mem_successors
    exact Traversal.facts_exact hsound hdone hflow (hg.blockCount ▸ r.length_le)

/-- The traversal of a region ends, and its facts are exact. -/
theorem buildTraversal_exact {r : Region} {g : Graph} (h : r.buildEdges = .ok g) :
    ∃ f, g.buildTraversal = some f ∧ f.Exact r := by
  have hg := Region.buildEdges_describes h
  obtain ⟨f, hf⟩ : ∃ f, g.buildTraversal = some f := by
    unfold Graph.buildTraversal
    by_cases hempty : g.blockCount = 0
    · exact ⟨_, if_pos hempty⟩
    · obtain ⟨t, hrun, -⟩ := hg.exists_run (Nat.pos_of_ne_zero hempty)
      rw [if_neg hempty, hrun]
      exact ⟨_, rfl⟩
  exact ⟨f, hf, Facts.exact_of_buildTraversal hg hf⟩

theorem buildTraversal_exact_loopRegion : ∃ g f, loopRegion.buildEdges = .ok g ∧
    g.buildTraversal = some f ∧
    f.Exact loopRegion := by
  obtain ⟨g, hg⟩ : ∃ g, loopRegion.buildEdges = .ok g := ⟨_, rfl⟩
  obtain ⟨f, hf, hexact⟩ := buildTraversal_exact hg
  exact ⟨g, f, hg, hf, hexact⟩

/-- An entry without successors and a block that no path reaches, which loops and leads to the
entry. -/
def detachedRegion : Region :=
  ⟨[some ⟨some 0, []⟩, some ⟨some 1, [⟨[some 1, some 0], true⟩]⟩], by decide⟩

/-- The marks of a block that was not found stay clear, although it is on a cycle and reaches an
exit. -/
theorem detachedRegion_marks_clear : ∃ g f, detachedRegion.buildEdges = .ok g ∧
    g.buildTraversal = some f ∧
    TransGen detachedRegion.Flow 1 1 ∧ (f.blocks 1).componentIsCyclic = false ∧
    ReflTransGen detachedRegion.Flow 1 0 ∧ (∀ x, ¬detachedRegion.Flow 0 x) ∧
    (f.blocks 1).canReachExit = false := by
  have hedges : detachedRegion.edges = [(1, 1), (1, 0)] := by decide
  refine ⟨_, _, rfl, rfl, .single ?_, by decide, .single ?_, ?_, by decide⟩
  · rw [Region.Flow, hedges]
    decide
  · rw [Region.Flow, hedges]
    decide
  · intro x
    rw [Region.Flow, hedges]
    simp

end Hrx.Cfg
