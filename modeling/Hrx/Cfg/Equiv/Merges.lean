import Hrx.Cfg.Equiv.Components

/-!
# What blocks take over

`Merges` is what the reachability roots, the exits, the cycle marks and the cycle flag mean while
the traversal runs.  Across an edge to a closed block they are already final: the root is not later
and the exit is taken over.  The other edges lie inside a component, whose members share both when
it is closed.
-/

namespace Hrx.Cfg.Traversal

open Bool DepthFirst List Relation

variable {succ : ℕ → List ℕ} {M : ℕ → ℕ → Prop} {t t' : Traversal}

/-- What roots, exits and cycle marks mean. -/
structure Merges (succ : ℕ → List ℕ) (M : ℕ → ℕ → Prop) (t : Traversal) : Prop where
  root : ∀ v, t.view.reachable v = true → t.view.reachable (t.blocks v).reachabilityRoot = true ∧
    Reach succ v (t.blocks v).reachabilityRoot ∧ t.rootPreorder v ≤ t.view.preorder v
  rootEdge : ∀ u w, M u w → (t.blocks w).component ≠ uint16Max → t.rootPreorder u ≤ t.rootPreorder w
  exit : ∀ v, (t.blocks v).canReachExit = true → ∃ w, Reach succ v w ∧ succ w = []
  exitEdge : ∀ u w, M u w → (t.blocks w).component ≠ uint16Max → (t.blocks w).canReachExit = true →
    (t.blocks u).canReachExit = true
  exitDone : ∀ v, t.view.preorderEnd v ≠ 0 → succ v = [] → (t.blocks v).canReachExit = true
  cyclicOpen : ∀ v, (t.blocks v).component = uint16Max →
    ((t.blocks v).componentIsCyclic = true ↔ M v v)
  cyclicClosed : ∀ v, (t.blocks v).component ≠ uint16Max →
    ((t.blocks v).componentIsCyclic = true ↔ TransGen (Edge succ) v v)
  cycles : t.hasCycles = true → ∃ v, t.view.reachable v = true ∧ TransGen (Edge succ) v v
  acyclic : t.hasCycles = false → ∀ u w, M u w → w ∈ t.order ∧
    ∀ l r, t.order = l ++ u :: r → w ∈ l
  initial : ∀ v, t.view.reachable v = false → t.blocks v = .initial

/-! ### Absorbing -/

lemma Merges.absorb (h : Merges succ M t) (hl : Links succ M t) (hi : Inv succ 0 t.view) {b w k : ℕ}
    (ha : t.Absorbs t' b w k) (hflags : t.Flags t' b w) (hb : b ∈ t.view.stack) (hw : w ∈ succ b)
    (hwr : t.view.reachable w = true) (hopen : t.view.preorderEnd w = 0 → Reach succ w b) :
    Merges succ (fun u v => M u v ∨ (u = b ∧ v = w)) t' := by
  obtain ⟨hbr, hb0⟩ := (hi.mem_stack b).mp hb
  have hbc := hl.component_of_open hb0
  have hne : ∀ v, (t.blocks v).component ≠ uint16Max → v ≠ b := by
    rintro v hc rfl
    exact hc hbc
  constructor
  case root =>
    intro v hv
    rw [ha.view] at hv ⊢
    obtain ⟨h1, h2, h3⟩ := h.root v hv
    obtain ⟨g1, g2, -⟩ := h.root w hwr
    refine ⟨?_, ?_, (ha.rootPreorder_le v).trans h3⟩
    · rw [ha.root]
      split_ifs
      · exact g1
      · exact h1
    · rw [ha.root]
      split_ifs with hlt
      · rw [hlt.1]
        exact .head hw g2
      · exact h2
  case rootEdge =>
    intro u v hm hc
    rw [ha.component] at hc
    rw [ha.rootPreorder_of_ne (hne v hc)]
    rcases hm with hm | ⟨rfl, rfl⟩
    · exact (ha.rootPreorder_le u).trans (h.rootEdge u v hm hc)
    · rw [ha.rootPreorder_self]
      exact min_le_right _ _
  case exit =>
    intro v hv
    by_cases hvb : v = b
    · rw [hvb] at hv ⊢
      rcases ha.exit_self.mp hv with hv | hv
      · exact h.exit b hv
      · obtain ⟨x, hx, hnil⟩ := h.exit w hv
        exact ⟨x, .head hw hx, hnil⟩
    · rw [ha.exit_of_ne hvb] at hv
      exact h.exit v hv
  case exitEdge =>
    intro u v hm hc hv
    rw [ha.component] at hc
    rw [ha.exit_of_ne (hne v hc)] at hv
    rcases hm with hm | ⟨rfl, rfl⟩
    · have := h.exitEdge u v hm hc hv
      rw [ha.exit, this, Bool.true_or]
    · exact ha.exit_self.mpr (.inr hv)
  case exitDone =>
    intro v hv hnil
    rw [ha.view] at hv
    rw [ha.exit, h.exitDone v hv hnil, Bool.true_or]
  case cyclicOpen =>
    intro v hc
    rw [ha.component] at hc
    rw [hflags.cyclic, or_eq_true, and_eq_true, decide_eq_true_eq, decide_eq_true_eq,
      h.cyclicOpen v hc]
    refine or_congr_right ⟨?_, ?_⟩
    · rintro ⟨rfl, rfl⟩
      exact ⟨rfl, rfl⟩
    · rintro ⟨rfl, rfl⟩
      exact ⟨rfl, rfl⟩
  case cyclicClosed =>
    intro v hc
    rw [ha.component] at hc
    rw [hflags.cyclic_of_ne (hne v hc)]
    exact h.cyclicClosed v hc
  case cycles =>
    intro hcycles
    rw [hflags.hasCycles, or_eq_true, decide_eq_true_eq] at hcycles
    rw [ha.view]
    rcases hcycles with hcycles | hw0
    · exact h.cycles hcycles
    · exact ⟨w, hwr, .tail' (hopen hw0) hw⟩
  case acyclic =>
    intro hcycles u v hm
    rw [hflags.hasCycles, or_eq_false_iff, decide_eq_false_iff_not] at hcycles
    rw [show t'.order = t.order from congrArg State.order ha.view]
    rcases hm with hm | ⟨rfl, rfl⟩
    · exact h.acyclic hcycles.1 u v hm
    refine ⟨(hi.mem_order v).mpr hcycles.2, fun l r hsplit => ?_⟩
    have hu : u ∈ t.view.order := by
      show u ∈ t.order
      rw [hsplit]
      exact mem_append_right _ (mem_cons_self ..)
    exact absurd hb0 ((hi.mem_order u).mp hu)
  case initial =>
    intro v hv
    rw [ha.view] at hv
    rw [ha.blocks_of_ne hflags (ne_of_reachable hv hbr).symm (ne_of_reachable hv hwr).symm]
    exact h.initial v hv

/-! ### Discovering -/

lemma Merges.discover (h : Merges succ M t) (hM : Dealt succ t.view M) {b w p : ℕ}
    {below : List (ℕ × ℕ)} (hnew : t.view.reachable w = false) :
    Merges succ M ((t.taken b p below).discover b w) := by
  have hne : ∀ v, t.view.reachable v = true → v ≠ w := fun v => ne_of_reachable hnew
  have hself : ((t.taken b p below).discover b w).blocks w =
      { BlockFacts.initial with
        reachable := true, preorder := t.preorderCount, reachabilityRoot := w, parent := b } := by
    rw [← h.initial w hnew]
    exact discover_self
  have hsame : ∀ v, v ≠ w → ((t.taken b p below).discover b w).blocks v = t.blocks v :=
    fun v => discover_of_ne
  have hroot : ∀ v, t.view.reachable v = true →
      ((t.taken b p below).discover b w).rootPreorder v = t.rootPreorder v := by
    intro v hv
    rw [rootPreorder, hsame v (hne v hv), hsame _ (hne _ (h.root v hv).1)]
    rfl
  have hedge : ∀ u v, M u v → u ≠ w ∧ v ≠ w := fun u v hm =>
    ⟨hne u (hM.reachable u v hm).1, hne v (hM.reachable u v hm).2⟩
  constructor
  case root =>
    intro v hv
    rw [view_discover] at hv ⊢
    rcases reachable_discover.mp hv with rfl | hv'
    · rw [rootPreorder, hself]
      refine ⟨hv, .refl, ?_⟩
      rw [hself]
      exact (preorder_discover_self (s := t.view)).ge
    · obtain ⟨h1, h2, h3⟩ := h.root v hv'
      rw [hroot v hv', hsame v (hne v hv'), preorder_discover hnew hv']
      exact ⟨reachable_discover.mpr (.inr h1), h2, h3⟩
  case rootEdge =>
    intro u v hm hc
    rw [hsame v (hedge u v hm).2] at hc
    obtain ⟨hu, hv⟩ := hM.reachable u v hm
    rw [hroot u hu, hroot v hv]
    exact h.rootEdge u v hm hc
  case exit =>
    intro v hv
    by_cases hvw : v = w
    · rw [hvw, hself] at hv
      cases hv
    · rw [hsame v hvw] at hv
      exact h.exit v hv
  case exitEdge =>
    intro u v hm hc hv
    rw [hsame v (hedge u v hm).2] at hc hv
    rw [hsame u (hedge u v hm).1]
    exact h.exitEdge u v hm hc hv
  case exitDone =>
    intro v hv hnil
    rw [view_discover] at hv
    by_cases hvw : v = w
    · refine absurd ?_ hv
      show (t.blocks v).preorderEnd = 0
      rw [hvw, h.initial w hnew]
      rfl
    · rw [hsame v hvw]
      exact h.exitDone v hv hnil
  case cyclicOpen =>
    intro v hc
    by_cases hvw : v = w
    · rw [hvw, hself]
      exact iff_of_false false_ne_true fun hm => (hedge w w hm).1 rfl
    · rw [hsame v hvw] at hc ⊢
      exact h.cyclicOpen v hc
  case cyclicClosed =>
    intro v hc
    have hvw : v ≠ w := by
      rintro rfl
      rw [hself] at hc
      exact hc rfl
    rw [hsame v hvw] at hc ⊢
    exact h.cyclicClosed v hc
  case cycles =>
    intro hcycles
    obtain ⟨v, hv, hcycle⟩ := h.cycles hcycles
    rw [view_discover]
    exact ⟨v, reachable_discover.mpr (.inr hv), hcycle⟩
  case acyclic => exact h.acyclic
  case initial =>
    intro v hv
    rw [view_discover, ← not_eq_true, reachable_discover] at hv
    rw [hsame v fun hvw => hv (.inl hvw)]
    exact h.initial v (eq_false_of_ne_true fun hvr => hv (.inr hvr))

/-! ### Settling -/

variable {b n p : ℕ} {below : List (ℕ × ℕ)}

lemma Merges.ended (h : Merges succ M t) (hl : Links succ M t) (hi : Inv succ 0 t.view)
    (hb : b ∈ t.view.stack) (hn : n = (succ b).length) : Merges succ M (t.ended b n below) := by
  obtain ⟨hbr, hb0⟩ := (hi.mem_stack b).mp hb
  have hbc := hl.component_of_open hb0
  have hrootField : ∀ v,
      ((t.ended b n below).blocks v).reachabilityRoot = (t.blocks v).reachabilityRoot :=
    ended_field (·.reachabilityRoot) fun _ _ _ => rfl
  have hcyclic : ∀ v,
      ((t.ended b n below).blocks v).componentIsCyclic = (t.blocks v).componentIsCyclic :=
    ended_field (·.componentIsCyclic) fun _ _ _ => rfl
  have hroot : ∀ v, (t.ended b n below).rootPreorder v = t.rootPreorder v := fun v =>
    rootPreorder_congr ended_preorder (hrootField v)
  have hsame : ∀ v, v ≠ b → (t.ended b n below).blocks v = t.blocks v := fun v hv =>
    Function.update_of_ne hv ..
  have hself : ((t.ended b n below).blocks b).canReachExit =
      ((t.blocks b).canReachExit || n = 0) := by
    show ((t.modify b fun x => _).blocks b).canReachExit = _
    rw [modify_self]
  have hexit : ∀ v, (t.blocks v).canReachExit = true →
      ((t.ended b n below).blocks v).canReachExit = true := by
    intro v hv
    by_cases hvb : v = b
    · rw [hvb] at hv ⊢
      rw [hself, hv, Bool.true_or]
    · rwa [hsame v hvb]
  constructor
  case root =>
    intro v hv
    rw [view_ended] at hv ⊢
    rw [hrootField, hroot]
    exact h.root v hv
  case rootEdge =>
    intro u w hm hc
    rw [ended_component] at hc
    rw [hroot, hroot]
    exact h.rootEdge u w hm hc
  case exit =>
    intro v hv
    by_cases hvb : v = b
    · rw [hvb] at hv ⊢
      rw [hself, or_eq_true, decide_eq_true_eq] at hv
      rcases hv with hv | hv
      · exact h.exit b hv
      · exact ⟨b, .refl, length_eq_zero_iff.mp (hn ▸ hv)⟩
    · rw [hsame v hvb] at hv
      exact h.exit v hv
  case exitEdge =>
    intro u w hm hc hw
    rw [ended_component] at hc
    have hwb : w ≠ b := by
      rintro rfl
      exact hc hbc
    rw [hsame w hwb] at hw
    exact hexit u (h.exitEdge u w hm hc hw)
  case exitDone =>
    intro v hv hnil
    by_cases hvb : v = b
    · rw [hvb] at hnil ⊢
      rw [hself, hn, hnil]
      simp
    · rw [view_ended, preorderEnd_finish hvb] at hv
      rw [hsame v hvb]
      exact h.exitDone v hv hnil
  case cyclicOpen =>
    intro v hc
    rw [ended_component] at hc
    rw [hcyclic]
    exact h.cyclicOpen v hc
  case cyclicClosed =>
    intro v hc
    rw [ended_component] at hc
    rw [hcyclic]
    exact h.cyclicClosed v hc
  case cycles =>
    intro hcycles
    obtain ⟨v, hv, hcycle⟩ := h.cycles hcycles
    rw [view_ended]
    exact ⟨v, hv, hcycle⟩
  case acyclic =>
    intro hcycles u w hm
    obtain ⟨hw, hbefore⟩ := h.acyclic hcycles u w hm
    refine ⟨mem_append_left _ hw, fun l r hsplit => ?_⟩
    have hsplit' : t.order ++ [b] = l ++ u :: r := hsplit
    -- the block on top comes last
    rcases eq_nil_or_concat r with rfl | ⟨r', x, rfl⟩
    · obtain ⟨rfl, -⟩ := append_inj' hsplit' rfl
      exact hw
    · rw [concat_eq_append, ← cons_append, ← append_assoc] at hsplit'
      exact hbefore l r' (append_inj' hsplit' rfl).1
  case initial =>
    intro v hv
    rw [view_ended] at hv
    rw [hsame v (ne_of_reachable (s := t.view) hv hbr).symm]
    exact h.initial v hv

/-- A closed block leads only to closed blocks. -/
lemma Links.closed_of_reach (hl : Links succ M t) {u v : ℕ}
    (hu : (t.blocks u).component ≠ uint16Max)
    (h : Reach succ u v) : (t.blocks v).component ≠ uint16Max := by
  induction h with
  | refl => exact hu
  | tail _ hedge ih => exact ((hl.closed _ ih).2.2 _ hedge).1

lemma exists_ne_of_one_lt_length {l : List ℕ} (hnodup : l.Nodup) (h : 1 < l.length) (v : ℕ) :
    ∃ m ∈ l, m ≠ v := by
  match l, h with
  | x :: y :: l, _ =>
    by_cases hx : x = v
    · refine ⟨y, mem_cons_of_mem _ (mem_cons_self ..), fun hy => ?_⟩
      rw [hx, hy] at hnodup
      exact (nodup_cons.mp hnodup).1 (mem_cons_self ..)
    · exact ⟨x, mem_cons_self .., hx⟩

lemma eq_of_length_le_one {l : List ℕ} (h : ¬1 < l.length) {x y : ℕ} (hx : x ∈ l) (hy : y ∈ l) :
    x = y := by
  match l, h with
  | [a], _ => rw [mem_singleton.mp hx, mem_singleton.mp hy]
  | _ :: _ :: _, h => exact absurd (Nat.succ_lt_succ (Nat.succ_pos _)) h

/-- Closing a component of blocks that reach each other and that only they lead to. -/
lemma Merges.closedWith (h : Merges succ M t) {members : List ℕ} {root : ℕ} {exit cyclic : Bool}
    (hbm : b ∈ members) (hcollects : t.Collects members (t.blocks b).reachabilityRoot exit root)
    (hmax : t.componentCount ≠ uint16Max)
    (hmember : ∀ v ∈ members, t.view.reachable v = true ∧ (t.blocks v).component = uint16Max)
    (hconnected : ∀ u ∈ members, ∀ v ∈ members, Reach succ u v)
    (hin : ∀ u w, M u w → w ∈ members → u ∈ members)
    (hcyclic : ∀ v ∈ members, (cyclic = true ↔ TransGen (Edge succ) v v)) :
    Merges succ M (t.closedWith members root exit cyclic) := by
  have hview := view_closedWith (t := t) members root exit cyclic
  have hmem : ∀ v ∈ members, (t.closedWith members root exit cyclic).blocks v =
      { t.blocks v with
        component := t.componentCount
        componentIsCyclic := cyclic
        reachabilityRoot := root
        canReachExit := exit } := fun v hv => if_pos hv
  have hout : ∀ v, v ∉ members → (t.closedWith members root exit cyclic).blocks v = t.blocks v :=
    fun v hv => if_neg hv
  have hpre : ∀ v, ((t.closedWith members root exit cyclic).blocks v).preorder =
      (t.blocks v).preorder :=
    fun v => congrFun (congrArg State.preorder hview) v
  obtain ⟨source, hsource, hroot⟩ : ∃ m ∈ members, root = (t.blocks m).reachabilityRoot := by
    rcases hcollects.source with hroot | hroot
    · exact ⟨b, hbm, hroot⟩
    · exact hroot
  have hrootMem : ∀ v ∈ members, (t.closedWith members root exit cyclic).rootPreorder v =
      (t.blocks root).preorder := by
    intro v hv
    rw [rootPreorder, hmem v hv]
    exact hpre root
  have hrootOut : ∀ v, v ∉ members → (t.closedWith members root exit cyclic).rootPreorder v =
      t.rootPreorder v := by
    intro v hv
    exact rootPreorder_congr hpre (by rw [hout v hv])
  have hclosed : ∀ v, ((t.closedWith members root exit cyclic).blocks v).component ≠ uint16Max →
      v ∈ members ∨ (v ∉ members ∧ (t.blocks v).component ≠ uint16Max) := by
    intro v hc
    by_cases hv : v ∈ members
    · exact .inl hv
    · rw [hout v hv] at hc
      exact .inr ⟨hv, hc⟩
  constructor
  case root =>
    intro v hv
    rw [hview] at hv ⊢
    by_cases hvm : v ∈ members
    · rw [hrootMem v hvm, hmem v hvm]
      obtain ⟨h1, h2, -⟩ := h.root source (hmember source hsource).1
      rw [← hroot] at h1 h2
      exact ⟨h1, (hconnected v hvm source hsource).trans h2,
        (hcollects.least v hvm).trans (h.root v hv).2.2⟩
    · rw [hrootOut v hvm, hout v hvm]
      exact h.root v hv
  case rootEdge =>
    intro u w hM hc
    rcases hclosed w hc with hw | ⟨hw, hc⟩
    · rw [hrootMem w hw, hrootMem u (hin u w hM hw)]
    rw [hrootOut w hw]
    by_cases hu : u ∈ members
    · rw [hrootMem u hu]
      exact (hcollects.least u hu).trans (h.rootEdge u w hM hc)
    · rw [hrootOut u hu]
      exact h.rootEdge u w hM hc
  case exit =>
    intro v hv
    by_cases hvm : v ∈ members
    · rw [hmem v hvm] at hv
      obtain ⟨m, hm, hexit⟩ := hcollects.exit.mp hv
      obtain ⟨x, hx, hnil⟩ := h.exit m hexit
      exact ⟨x, (hconnected v hvm m hm).trans hx, hnil⟩
    · rw [hout v hvm] at hv
      exact h.exit v hv
  case exitEdge =>
    intro u w hM hc hw'
    rcases hclosed w hc with hw | ⟨hw, hc⟩
    · rw [hmem w hw] at hw'
      rw [hmem u (hin u w hM hw)]
      exact hw'
    rw [hout w hw] at hw'
    have hu' := h.exitEdge u w hM hc hw'
    by_cases hu : u ∈ members
    · rw [hmem u hu]
      exact hcollects.exit.mpr ⟨u, hu, hu'⟩
    · rwa [hout u hu]
  case exitDone =>
    intro v hv hnil
    rw [hview] at hv
    have hexit := h.exitDone v hv hnil
    by_cases hvm : v ∈ members
    · rw [hmem v hvm]
      exact hcollects.exit.mpr ⟨v, hvm, hexit⟩
    · rwa [hout v hvm]
  case cyclicOpen =>
    intro v hc
    have hvm : v ∉ members := by
      intro hvm
      rw [hmem v hvm] at hc
      exact hmax hc
    rw [hout v hvm] at hc ⊢
    exact h.cyclicOpen v hc
  case cyclicClosed =>
    intro v hc
    rcases hclosed v hc with hvm | ⟨hvm, hc⟩
    · rw [hmem v hvm]
      exact hcyclic v hvm
    · rw [hout v hvm]
      exact h.cyclicClosed v hc
  case cycles =>
    intro hcycles
    rw [hview]
    exact h.cycles hcycles
  case acyclic => exact h.acyclic
  case initial =>
    intro v hv
    rw [hview] at hv
    have hvm : v ∉ members := by
      intro hvm
      rw [(hmember v hvm).1] at hv
      cases hv
    rw [hout v hvm]
    exact h.initial v hv

section members

variable {members rest : List ℕ} (hl : Links succ (Merged succ t.view) t) (hi : Inv succ 0 t.view)
  (hf : t.view.frames = (b, p) :: below) (hm : t.Members b members rest)
include hl hm

lemma Members.open {v : ℕ} (hv : v ∈ members) :
    t.view.reachable v = true ∧ (t.blocks v).component = uint16Max :=
  (hl.mem_stack v).mp ((hm.mem v).mp hv).1

lemma Members.nodup : members.Nodup := by
  have hsorted := hl.sorted
  rw [hm.split, pairwise_append] at hsorted
  refine hsorted.1.imp ?_
  rintro x y hlt rfl
  exact lt_irrefl _ hlt

include hi hf

/-- An earlier block cannot have dealt with a member while the block on top is open. -/
lemma Members.mem_of_merged {u w : ℕ} (hmerged : Merged succ t.view u w) (hw : w ∈ members) :
    u ∈ members := by
  have hd := dealt_merged hi
  by_contra hu
  have huc : (t.blocks u).component = uint16Max := by
    by_contra hc
    exact ((hl.closed u hc).2.2 w (hd.mem u w hmerged)).1 (hm.open hl hw).2
  have hlt : t.view.preorder u < t.view.preorder b := by
    by_contra hle
    refine hu ((hm.mem u).mpr ⟨(hl.mem_stack u).mpr ⟨?_, huc⟩, not_lt.mp hle⟩)
    exact (hd.reachable u w hmerged).1
  have := hd.before u w hmerged b ((hi.mem_stack b).mpr (hi.mem_top hf)) hlt
  exact absurd ((hm.mem w).mp hw).2 this.not_ge

variable (hnone : (succ b)[p]? = none) (hlow : t.lowlinks b = t.view.preorder b)
include hnone hlow

lemma Members.connected {u v : ℕ} (hu : u ∈ members) (hv : v ∈ members) : Reach succ u v :=
  (hm.reach hl hi hf hnone hlow hu).trans (Anc.reach hi (hm.anc hl hi hf hv))

/-- A component is cyclic if it has a second member or its block an edge to itself. -/
lemma Members.cyclic_iff (hbm : b ∈ members) {v : ℕ} (hv : v ∈ members) :
    1 < members.length ∨ Merged succ t.view b b ↔ TransGen (Edge succ) v v := by
  have hconnected : ∀ u ∈ members, ∀ v ∈ members, Reach succ u v :=
    fun u hu v hv => hm.connected hl hi hf hnone hlow hu hv
  constructor
  · rintro (hlen | hself)
    · -- another member
      obtain ⟨m, hmm, hne⟩ := exists_ne_of_one_lt_length (hm.nodup hl) hlen v
      have hvm := (reflTransGen_iff_eq_or_transGen.mp (hconnected v hv m hmm)).resolve_left hne
      exact hvm.trans_left (hconnected m hmm v hv)
    · have hvb := TransGen.tail' (hconnected v hv b hbm) ((dealt_merged hi).mem b b hself)
      exact hvb.trans_left (hconnected b hbm v hv)
  · intro hcycle
    by_cases hlen : 1 < members.length
    · exact .inl hlen
    right
    have hone : ∀ x ∈ members, x = b := fun x hx => eq_of_length_le_one hlen hx hbm
    rw [hone v hv] at hcycle
    obtain ⟨x, hx, hback⟩ := TransGen.head'_iff.mp hcycle
    rcases hm.successor hl hi hf hnone hlow hbm hx with hxm | hxc
    · rw [hone x hxm] at hx
      exact hm.merged hl hi hf hnone hbm hx
    · exact absurd (hm.open hl hbm).2 (hl.closed_of_reach hxc hback)

end members

lemma Merges.settled (h : Merges succ (Merged succ t.view) t)
    (hl : Links succ (Merged succ t.view) t) (hi : Inv succ 0 t.view)
    (hf : t.view.frames = (b, p) :: below) (hnone : (succ b)[p]? = none)
    (hn : n = (succ b).length) (hcount : t.preorderCount ≤ uint16Max) :
    Merges succ (Merged succ t.view) ((t.ended b n below).settled b) := by
  obtain ⟨hbr, hb0⟩ := hi.mem_top hf
  have hbc := hl.component_of_open hb0
  have hb := (hl.mem_stack b).mpr ⟨hbr, hbc⟩
  have hended : Merges succ (Merged succ t.view) (t.ended b n below) :=
    h.ended hl hi ((hi.mem_stack b).mpr ⟨hbr, hb0⟩) hn
  rcases hl.settled_cases hb with
    ⟨-, heq⟩ | ⟨hlow, members, rest, exit, root, hm, hbm, heq, hcollects⟩
  · rw [heq]
    exact hended
  rw [heq]
  refine hended.closedWith hbm hcollects (hl.componentCount_lt hcount hb).ne ?_ ?_ ?_ ?_
  · intro v hv
    rw [view_ended, ended_component]
    exact hm.open hl hv
  · exact fun u hu v hv => hm.connected hl hi hf hnone hlow hu hv
  · exact fun u w hmerged hw => hm.mem_of_merged hl hi hf hmerged hw
  · intro v hv
    rw [or_eq_true, decide_eq_true_eq, hended.cyclicOpen b (by rw [ended_component, hbc])]
    exact hm.cyclic_iff hl hi hf hnone hlow hbm hv

end Hrx.Cfg.Traversal
