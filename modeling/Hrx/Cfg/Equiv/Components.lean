import Hrx.Cfg.Equiv.View

/-!
# Components

`Links` is what the lowlinks and the component stack mean while the traversal runs, for the
successors that were dealt with so far.  The lowlink of a block is the preorder of a block of the
component stack that it reaches; a block that is done and not closed reaches an earlier one.  When
the lowlink of a block is its own preorder, the blocks above it on the component stack lead only to
each other and to closed blocks, and each of them reaches the block: they are a component
(`Links.settled`).
-/

namespace Hrx.Cfg.Traversal

open DepthFirst Function List

/-- Successors that were dealt with, as far as a search has come. -/
structure Dealt (succ : ℕ → List ℕ) (s : State ℕ) (M : ℕ → ℕ → Prop) : Prop where
  mem : ∀ u w, M u w → w ∈ succ u
  reachable : ∀ u w, M u w → s.reachable u = true ∧ s.reachable w = true
  before : ∀ u w, M u w → ∀ y ∈ s.stack, s.preorder u < s.preorder y → s.preorder w < s.preorder y
  done : ∀ u w, s.preorderEnd u ≠ 0 → w ∈ succ u → M u w

variable {succ : ℕ → List ℕ} {M : ℕ → ℕ → Prop} {t t' : Traversal}

lemma dealt_merged {s : State ℕ} (hi : Inv succ 0 s) : Dealt succ s (Merged succ s) := by
  constructor
  · rintro u w (⟨-⟩ | ⟨-, hw⟩ | ⟨-, -, hw⟩)
    · assumption
    · exact mem_of_mem_take hw
    · exact mem_of_mem_take hw
  · exact fun u w hm => ⟨hm.reachable hi, (hi.merged u w hm).1⟩
  · exact fun u w hm => (hi.merged u w hm).2.2
  · exact fun u w hdone hw => .done hdone hw

/-- What lowlinks, component stack and components mean. -/
structure Links (succ : ℕ → List ℕ) (M : ℕ → ℕ → Prop) (t : Traversal) : Prop where
  mem_stack : ∀ v, v ∈ t.componentStack ↔
    t.view.reachable v = true ∧ (t.blocks v).component = uint16Max
  sorted : t.componentStack.Pairwise fun a b => t.view.preorder b < t.view.preorder a
  closed : ∀ v, (t.blocks v).component ≠ uint16Max → t.view.preorderEnd v ≠ 0 ∧
    (t.blocks v).component < t.componentCount ∧ ∀ w ∈ succ v,
      (t.blocks w).component ≠ uint16Max ∧ (t.blocks w).component ≤ (t.blocks v).component
  count : t.componentCount + t.componentStack.length ≤ t.preorderCount
  low : ∀ v, t.view.reachable v = true → (t.blocks v).component = uint16Max →
    t.lowlinks v ≤ t.view.preorder v ∧ ∃ w, t.view.reachable w = true ∧
      (t.blocks w).component = uint16Max ∧ t.view.preorder w = t.lowlinks v ∧ Reach succ v w
  done : ∀ v, t.view.preorderEnd v ≠ 0 → (t.blocks v).component = uint16Max →
    t.lowlinks v < t.view.preorder v
  edge : ∀ u w, M u w → (t.blocks w).component = uint16Max → t.lowlinks u ≤ t.view.preorder w
  child : ∀ u w, M u w → w ≠ 0 → t.view.parent w = u → (t.blocks w).component = uint16Max →
    t.lowlinks u ≤ t.lowlinks w
  strong : ∀ u v, (t.blocks u).component ≠ uint16Max →
    (t.blocks v).component = (t.blocks u).component →
    Reach succ u v

lemma Links.component_of_open (h : Links succ M t) {v : ℕ} (hv : t.view.preorderEnd v = 0) :
    (t.blocks v).component = uint16Max := by
  by_contra hc
  exact (h.closed v hc).1 hv

/-! ### Absorbing -/

/-- A successor that was absorbed counts as dealt with.  Its lowlink, or its preorder, is that of a
block of the component stack. -/
lemma Links.absorb (h : Links succ M t) (hi : Inv succ 0 t.view) (hM : Dealt succ t.view M)
    {b w k : ℕ} (ha : t.Absorbs t' b w k) (hb : b ∈ t.view.stack)
    (hw : w ∈ succ b) (hk : (t.blocks w).component = uint16Max → k ≤ t.view.preorder w)
    (hsound : t.lowlinks b ≤ k ∨ ∃ x, t.view.reachable x = true ∧
      (t.blocks x).component = uint16Max ∧
      t.view.preorder x = k ∧ Reach succ w x)
    (hchild : w ≠ 0 → t.view.parent w = b → (t.blocks w).component = uint16Max →
      M b w ∨ k ≤ t.lowlinks w) :
    Links succ (fun u v => M u v ∨ (u = b ∧ v = w)) t' := by
  obtain ⟨hbr, hb0⟩ := (hi.mem_stack b).mp hb
  -- an open block was not absorbed into its parent yet
  have hopen : ∀ u, M u b → t.view.parent b = u → b ≠ 0 → False := by
    intro u hm hp hne
    have hlt := (hi.parent b hbr hne).2.2.1
    rw [hp] at hlt
    exact lt_irrefl _ (hM.before u b hm b hb hlt)
  constructor
  · intro v
    rw [ha.componentStack, ha.view, ha.component]
    exact h.mem_stack v
  · rw [ha.componentStack, ha.view]
    exact h.sorted
  · intro v
    simp only [ha.component, ha.view, ha.componentCount]
    exact h.closed v
  · rw [ha.componentStack, ha.componentCount, show t'.preorderCount = t.preorderCount from
      congrArg State.count ha.view]
    exact h.count
  · intro v hv hc
    rw [ha.view] at hv ⊢
    simp only [ha.component] at hc ⊢
    obtain ⟨hlow, x, hx⟩ := h.low v hv hc
    refine ⟨(ha.lowlinks_le v).trans hlow, ?_⟩
    by_cases hvb : v = b
    · subst hvb
      rw [ha.lowlinks_self]
      rcases hsound with hk' | ⟨y, hyr, hyc, hyk, hwy⟩
      · rw [min_eq_left hk']
        exact ⟨x, hx⟩
      rcases le_total (t.lowlinks v) k with hmin | hmin
      · rw [min_eq_left hmin]
        exact ⟨x, hx⟩
      · rw [min_eq_right hmin]
        exact ⟨y, hyr, hyc, hyk, .head hw hwy⟩
    · rw [ha.lowlinks_of_ne hvb]
      exact ⟨x, hx⟩
  · intro v hv hc
    rw [ha.view] at hv ⊢
    rw [ha.component] at hc
    exact (ha.lowlinks_le v).trans_lt (h.done v hv hc)
  · intro u v hm hc
    rw [ha.component] at hc
    rw [ha.view]
    rcases hm with hm | ⟨rfl, rfl⟩
    · exact (ha.lowlinks_le u).trans (h.edge u v hm hc)
    · rw [ha.lowlinks_self]
      exact (min_le_right _ _).trans (hk hc)
  · intro u v hm hne hp hc
    rw [ha.component] at hc
    rw [ha.view] at hp
    rcases hm with hm | ⟨rfl, rfl⟩
    · have hvb : v ≠ b := by
        rintro rfl
        exact hopen u hm hp hne
      rw [ha.lowlinks_of_ne hvb]
      exact (ha.lowlinks_le u).trans (h.child u v hm hne hp hc)
    have hvb : v ≠ u := by
      rintro rfl
      have := (hi.parent v hbr hne).2.2.1
      rw [hp] at this
      exact lt_irrefl _ this
    rw [ha.lowlinks_of_ne hvb]
    rcases hchild hne hp hc with hm | hlow
    · exact (ha.lowlinks_le u).trans (h.child u v hm hne hp hc)
    · rw [ha.lowlinks_self]
      exact (min_le_right _ _).trans hlow
  · intro u v
    simp only [ha.component]
    exact h.strong u v

/-! ### Discovering -/

lemma Links.discover (h : Links succ M t) (hi : Inv succ 0 t.view) (hM : Dealt succ t.view M)
    {b w p : ℕ} {below : List (ℕ × ℕ)} (hnew : t.view.reachable w = false)
    (hfresh : (t.blocks w).component = uint16Max) :
    Links succ M ((t.taken b p below).discover b w) := by
  have hcomponent : ∀ v,
      (((t.taken b p below).discover b w).blocks v).component = (t.blocks v).component := by
    intro v
    by_cases hv : v = w
    · rw [hv, discover_self]
      rfl
    · rw [discover_of_ne hv]
      rfl
  have hlow : ((t.taken b p below).discover b w).lowlinks w = t.preorderCount := update_self ..
  have hlow' : ∀ v, t.view.reachable v = true →
      ((t.taken b p below).discover b w).lowlinks v = t.lowlinks v :=
    fun v hv => update_of_ne (ne_of_reachable hnew hv) ..
  have hpre : ∀ v, t.view.reachable v = true →
      (t.view.discover b p below w).preorder v = t.view.preorder v :=
    fun v hv => preorder_discover hnew hv
  constructor
  · intro v
    show v ∈ w :: t.componentStack ↔ _
    rw [mem_cons, h.mem_stack, view_discover, reachable_discover, hcomponent]
    by_cases hv : v = w
    · rw [hv]
      exact iff_of_true (.inl rfl) ⟨.inl rfl, hfresh⟩
    · rw [or_iff_right hv, or_iff_right hv]
  · rw [view_discover]
    refine pairwise_cons.mpr ⟨fun v hv => ?_, ?_⟩
    · have hvr := ((h.mem_stack v).mp hv).1
      rw [preorder_discover_self, hpre v hvr]
      exact hi.lt_count v hvr
    · refine h.sorted.imp_of_mem fun {x y} hx hy hlt => ?_
      rw [hpre x ((h.mem_stack x).mp hx).1, hpre y ((h.mem_stack y).mp hy).1]
      exact hlt
  · intro v hc
    simp only [hcomponent] at hc ⊢
    rw [view_discover]
    exact h.closed v hc
  · have := h.count
    show t.componentCount + (t.componentStack.length + 1) ≤ t.preorderCount + 1
    omega
  · intro v hv hc
    rw [view_discover] at hv ⊢
    rw [hcomponent] at hc
    simp only [hcomponent]
    rcases reachable_discover.mp hv with rfl | hv'
    · have hself : (t.view.discover b p below v).preorder v = t.preorderCount :=
        preorder_discover_self
      rw [hlow]
      exact ⟨hself.ge, v, hv, hfresh, hself, .refl⟩
    · obtain ⟨hle, x, hxr, hxc, hxp, hvx⟩ := h.low v hv' hc
      rw [hlow' v hv', hpre v hv']
      exact ⟨hle, x, reachable_discover.mpr (.inr hxr), hxc, (hpre x hxr).trans hxp, hvx⟩
  · intro v hv hc
    rw [view_discover] at hv ⊢
    rw [hcomponent] at hc
    have hvr : t.view.reachable v = true := by
      by_contra hvr
      exact hv (hi.unreached v (Bool.not_eq_true _ ▸ hvr))
    rw [hlow' v hvr, hpre v hvr]
    exact h.done v hv hc
  · intro u v hm hc
    rw [hcomponent] at hc
    obtain ⟨hu, hv⟩ := hM.reachable u v hm
    rw [view_discover, hlow' u hu, hpre v hv]
    exact h.edge u v hm hc
  · intro u v hm hv0 hp hc
    rw [hcomponent] at hc
    obtain ⟨hu, hv⟩ := hM.reachable u v hm
    rw [view_discover, parent_discover hnew hv] at hp
    rw [hlow' u hu, hlow' v hv]
    exact h.child u v hm hv0 hp hc
  · intro u v
    simp only [hcomponent]
    exact h.strong u v

/-! ### Settling -/

/-- The members of a component are the part of the component stack down to its block. -/
lemma membersFrom_eq {b : ℕ} {stack : List ℕ} (hb : b ∈ stack) :
    ∃ above rest, stack = above ++ b :: rest ∧ membersFrom b stack = above ++ [b] := by
  induction stack with
  | nil => cases hb
  | cons m stack ih =>
    by_cases hm : m = b
    · refine ⟨[], stack, by rw [hm]; rfl, ?_⟩
      rw [membersFrom, if_pos hm, hm]
      rfl
    · obtain ⟨above, rest, hsplit, hmembers⟩ := ih ((mem_cons.mp hb).resolve_left (Ne.symm hm))
      refine ⟨m :: above, rest, by rw [hsplit]; rfl, ?_⟩
      rw [membersFrom, if_neg hm, hmembers]
      rfl

variable {b n p : ℕ} {below : List (ℕ × ℕ)}

/-- The blocks that a block on top closes: the later ones of the component stack. -/
structure Members (t : Traversal) (b : ℕ) (members rest : List ℕ) : Prop where
  split : t.componentStack = members ++ rest
  eq : membersFrom b t.componentStack = members
  mem : ∀ v, v ∈ members ↔ v ∈ t.componentStack ∧ t.view.preorder b ≤ t.view.preorder v
  mem_rest : ∀ v, v ∈ rest ↔ v ∈ t.componentStack ∧ t.view.preorder v < t.view.preorder b

lemma Links.exists_members (h : Links succ M t) (hb : b ∈ t.componentStack) :
    ∃ members rest, t.Members b members rest ∧ b ∈ members := by
  obtain ⟨above, rest, hsplit, hmembers⟩ := membersFrom_eq hb
  have hsorted := h.sorted
  rw [hsplit, pairwise_append] at hsorted
  obtain ⟨-, hrest, habove⟩ := hsorted
  have hrest' := (pairwise_cons.mp hrest).1
  have habove' : ∀ v ∈ above, t.view.preorder b < t.view.preorder v :=
    fun v hv => habove v hv b (mem_cons_self ..)
  refine ⟨above ++ [b], rest, ⟨?_, hmembers, fun v => ?_, fun v => ?_⟩, ?_⟩
  · rw [hsplit, append_assoc]
    rfl
  · rw [hsplit, mem_append, mem_append, mem_singleton, mem_cons]
    constructor
    · rintro (hv | rfl)
      · exact ⟨.inl hv, (habove' v hv).le⟩
      · exact ⟨.inr (.inl rfl), le_rfl⟩
    · rintro ⟨hv | hv | hv, hle⟩
      · exact .inl hv
      · exact .inr hv
      · exact absurd (hrest' v hv) hle.not_gt
  · rw [hsplit, mem_append, mem_cons]
    constructor
    · exact fun hv => ⟨.inr (.inr hv), hrest' v hv⟩
    rintro ⟨hv | hv | hv, hlt⟩
    · exact absurd (habove' v hv) hlt.le.not_gt
    · exact absurd hlt (hv ▸ lt_irrefl _)
    · exact hv
  · exact mem_append_right _ (mem_singleton.mpr rfl)

section members

variable {members rest : List ℕ} (h : Links succ (Merged succ t.view) t) (hi : Inv succ 0 t.view)
  (hf : t.view.frames = (b, p) :: below) (hnone : (succ b)[p]? = none)
    (hm : t.Members b members rest)
include h hi hf hm

/-- The members are in the subtree of the block on top. -/
lemma Members.anc {v : ℕ} (hv : v ∈ members) : Anc 0 t.view b v := by
  obtain ⟨hmem, hle⟩ := (hm.mem v).mp hv
  have hvr := ((h.mem_stack v).mp hmem).1
  obtain ⟨hbr, hb0⟩ := hi.mem_top hf
  refine (anc_iff hi hbr hvr).mpr ⟨hle, ?_⟩
  rw [State.endOf, if_pos hb0]
  exact hi.lt_count v hvr

/-- All but the block on top are done. -/
lemma Members.done {v : ℕ} (hv : v ∈ members) (hne : v ≠ b) : t.view.preorderEnd v ≠ 0 := by
  intro h0
  obtain ⟨hmem, hle⟩ := (hm.mem v).mp hv
  have hvr := ((h.mem_stack v).mp hmem).1
  have htop := hi.le_top hf ((hi.mem_stack v).mpr ⟨hvr, h0⟩)
  exact hne (hi.injective v b hvr (hi.mem_top hf).1 (htop.antisymm hle))

include hnone

lemma Members.merged {v w : ℕ} (hv : v ∈ members) (hw : w ∈ succ v) : Merged succ t.view v w := by
  by_cases hvb : v = b
  · subst hvb
    refine .top hf ?_
    rwa [take_of_length_le (List.getElem?_eq_none_iff.mp hnone)]
  · exact .done (hm.done h hi hf hv hvb) hw

/-- Going down from the block on top to a member, lowlinks do not fall. -/
lemma Members.lowlinks_le {v : ℕ} (hv : v ∈ members) : t.lowlinks b ≤ t.lowlinks v := by
  have hanc := hm.anc h hi hf hv
  induction hanc with
  | refl => exact le_rfl
  | @tail u v hbu hp ih =>
    obtain ⟨hpr, hpe, -⟩ := hi.parent v hp.reachable hp.ne_root
    rw [hp.parent] at hpr hpe
    obtain ⟨hmem, hle⟩ := (hm.mem v).mp hv
    have hopen := ((h.mem_stack v).mp hmem).2
    -- the parent is a member: a closed block leads only to closed blocks
    have hu : u ∈ members := by
      refine (hm.mem u).mpr ⟨(h.mem_stack u).mpr ⟨hpr, ?_⟩, (Anc.interval hi hbu).1⟩
      by_contra hclosed
      exact ((h.closed u hclosed).2.2 v hpe).1 hopen
    refine (ih hu).trans ?_
    exact h.child u v (hm.merged h hi hf hnone hu hpe) hp.ne_root hp.parent hopen

variable (hlow : t.lowlinks b = t.view.preorder b)
include hlow

/-- The members lead only to each other and to closed blocks. -/
lemma Members.successor {v w : ℕ} (hv : v ∈ members) (hw : w ∈ succ v) :
    w ∈ members ∨ (t.blocks w).component ≠ uint16Max := by
  by_cases hopen : (t.blocks w).component = uint16Max
  · left
    have hmerged := hm.merged h hi hf hnone hv hw
    refine (hm.mem w).mpr ⟨(h.mem_stack w).mpr ⟨(hi.merged v w hmerged).1, hopen⟩, ?_⟩
    rw [← hlow]
    exact (hm.lowlinks_le h hi hf hnone hv).trans (h.edge v w hmerged hopen)
  · exact .inr hopen

/-- Every member reaches the block on top. -/
lemma Members.reach {v : ℕ} (hv : v ∈ members) : Reach succ v b := by
  -- the lowlink of a member is the preorder of an earlier member
  induction hk : t.view.preorder v using Nat.strong_induction_on generalizing v with
  | _ k ih =>
    by_cases hvb : v = b
    · rw [hvb]
    obtain ⟨hvr, hopen⟩ := (h.mem_stack v).mp ((hm.mem v).mp hv).1
    obtain ⟨-, x, hxr, hxc, hxp, hvx⟩ := h.low v hvr hopen
    have hlt := h.done v (hm.done h hi hf hv hvb) hopen
    refine hvx.trans (ih (t.view.preorder x) (by omega) ((hm.mem x).mpr ⟨?_, ?_⟩) rfl)
    · exact (h.mem_stack x).mpr ⟨hxr, hxc⟩
    · rw [hxp, ← hlow]
      exact hm.lowlinks_le h hi hf hnone hv

end members

/-- Marking a block as done keeps its links, if its lowlink is earlier. -/
lemma Links.ended (h : Links succ M t) (hi : Inv succ 0 t.view) (hb : t.view.reachable b = true)
    (hlow : t.lowlinks b ≠ t.view.preorder b) : Links succ M (t.ended b n below) := by
  constructor
  · intro v
    rw [view_ended, ended_component]
    exact h.mem_stack v
  · rw [view_ended]
    exact h.sorted
  · intro v hc
    simp only [ended_component] at hc ⊢
    obtain ⟨hdone, hrest⟩ := h.closed v hc
    refine ⟨?_, hrest⟩
    rw [view_ended]
    by_cases hvb : v = b
    · rw [hvb, preorderEnd_finish_self]
      exact (Nat.zero_lt_of_lt (hi.lt_count b hb)).ne'
    · rw [preorderEnd_finish hvb]
      exact hdone
  · exact h.count
  · intro v hv hc
    rw [view_ended] at hv ⊢
    simp only [ended_component] at hc ⊢
    exact h.low v hv hc
  · intro v hv hc
    rw [view_ended] at hv ⊢
    rw [ended_component] at hc
    by_cases hvb : v = b
    · rw [hvb] at hc ⊢
      exact lt_of_le_of_ne (h.low b hb hc).1 hlow
    · rw [preorderEnd_finish hvb] at hv
      exact h.done v hv hc
  · intro u w hm hc
    rw [ended_component] at hc
    rw [view_ended]
    exact h.edge u w hm hc
  · intro u w hm hne hp hc
    rw [view_ended] at hp
    rw [ended_component] at hc
    exact h.child u w hm hne hp hc
  · simp only [ended_component]
    exact h.strong

/-- What closing the component of a block that is done does to the links. -/
structure Closes (t t' : Traversal) (b : ℕ) (below : List (ℕ × ℕ)) (members rest : List ℕ) :
    Prop where
  view : t'.view = t.view.finish b below
  lowlinks : t'.lowlinks = t.lowlinks
  componentStack : t'.componentStack = rest
  componentCount : t'.componentCount = t.componentCount + 1
  component : ∀ v, (t'.blocks v).component =
    if v ∈ members then t.componentCount else (t.blocks v).component

lemma Members.closes {members rest : List ℕ} (hm : t.Members b members rest) (root : ℕ)
    (exit cyclic : Bool) :
    t.Closes ((t.ended b n below).closedWith members root exit cyclic) b below members rest := by
  constructor
  · rw [view_closedWith, view_ended]
  · rfl
  · show t.componentStack.drop members.length = rest
    rw [hm.split, drop_left]
  · rfl
  · intro v
    unfold closedWith
    dsimp only
    split_ifs
    · rfl
    · exact ended_component v

/-- A component is counted for each that can be named. -/
lemma Links.componentCount_lt (h : Links succ M t) (hcount : t.preorderCount ≤ uint16Max)
    (hb : b ∈ t.componentStack) : t.componentCount < uint16Max := by
  have hsize := h.count
  have hpos : 0 < t.componentStack.length := length_pos_of_mem hb
  omega

section close

variable {members rest : List ℕ} (h : Links succ (Merged succ t.view) t)
  (hm : t.Members b members rest) (hc : t.Closes t' b below members rest)
include h hm hc

/-- What was closed before is no member and stays as it is. -/
lemma Closes.component_of_closed {v : ℕ} (hv : (t.blocks v).component ≠ uint16Max) :
    (t'.blocks v).component = (t.blocks v).component := by
  rw [hc.component, if_neg fun hmem => hv ((h.mem_stack v).mp ((hm.mem v).mp hmem).1).2]

omit h hm in
/-- The blocks that are not closed now were not closed before and are no members. -/
lemma Closes.component_eq_iff (hmax : t.componentCount < uint16Max) (v : ℕ) :
    (t'.blocks v).component = uint16Max ↔ v ∉ members ∧ (t.blocks v).component = uint16Max := by
  rw [hc.component]
  split_ifs with hv
  · exact iff_of_false hmax.ne fun hn => hn.1 hv
  · exact (and_iff_right hv).symm

/-- Closing a component: its members lead only to each other and to closed blocks. -/
lemma Links.close (hi : Inv succ 0 t.view) (hf : t.view.frames = (b, p) :: below)
    (hnone : (succ b)[p]? = none) (hlow : t.lowlinks b = t.view.preorder b) (hbm : b ∈ members)
    (hmax : t.componentCount < uint16Max) : Links succ (Merged succ t.view) t' := by
  have hopen := hc.component_eq_iff hmax
  have hend : ∀ v, v ≠ b → t'.view.preorderEnd v = t.view.preorderEnd v := by
    intro v hv
    rw [hc.view, preorderEnd_finish hv]
  constructor
  · intro v
    rw [hc.componentStack, hc.view, hopen, hm.mem_rest, hm.mem, h.mem_stack]
    constructor
    · rintro ⟨⟨hvr, hvc⟩, hlt⟩
      exact ⟨hvr, fun hle => absurd hle.2 hlt.not_ge, hvc⟩
    · rintro ⟨hvr, hnot, hvc⟩
      exact ⟨⟨hvr, hvc⟩, not_le.mp fun hle => hnot ⟨⟨hvr, hvc⟩, hle⟩⟩
  · rw [hc.componentStack, hc.view]
    have hsorted := h.sorted
    rw [hm.split, pairwise_append] at hsorted
    exact hsorted.2.1
  · intro v hvc
    rw [hc.componentCount]
    by_cases hv : v ∈ members
    · rw [hc.component v, if_pos hv]
      refine ⟨?_, Nat.lt_succ_self _, fun w hw => ?_⟩
      · by_cases hvb : v = b
        · rw [hvb, hc.view, preorderEnd_finish_self]
          exact hi.count_ne_zero hf
        · rw [hend v hvb]
          exact hm.done h hi hf hv hvb
      · rcases hm.successor h hi hf hnone hlow hv hw with hwm | hwc
        · rw [hc.component w, if_pos hwm]
          exact ⟨hmax.ne, le_rfl⟩
        · rw [hc.component_of_closed h hm hwc]
          exact ⟨hwc, (h.closed w hwc).2.1.le⟩
    · rw [hc.component v, if_neg hv] at hvc ⊢
      obtain ⟨hdone, hlt, hsucc⟩ := h.closed v hvc
      refine ⟨?_, by omega, fun w hw => ?_⟩
      · rw [hend v (ne_of_mem_of_not_mem hbm hv).symm]
        exact hdone
      · obtain ⟨hwc, hle⟩ := hsucc w hw
        rw [hc.component_of_closed h hm hwc]
        exact ⟨hwc, hle⟩
  · have hsize := h.count
    have hpos : 0 < members.length := length_pos_of_mem hbm
    rw [hm.split, length_append] at hsize
    rw [hc.componentStack, hc.componentCount,
      show t'.preorderCount = t.preorderCount from congrArg State.count hc.view]
    omega
  · intro v hv hvc
    rw [hc.view] at hv ⊢
    obtain ⟨hnot, hvc⟩ := (hopen v).mp hvc
    obtain ⟨hle, x, hxr, hxc, hxp, hvx⟩ := h.low v hv hvc
    rw [hc.lowlinks]
    refine ⟨hle, x, hxr, (hopen x).mpr ⟨fun hx => hnot ?_, hxc⟩, hxp, hvx⟩
    -- the block is not earlier than the member that its lowlink names
    have hbx := ((hm.mem x).mp hx).2
    exact (hm.mem v).mpr ⟨(h.mem_stack v).mpr ⟨hv, hvc⟩, by omega⟩
  · intro v hv hvc
    obtain ⟨hnot, hvc⟩ := (hopen v).mp hvc
    rw [hend v (ne_of_mem_of_not_mem hbm hnot).symm] at hv
    rw [hc.lowlinks, hc.view]
    exact h.done v hv hvc
  · intro u w hmerged hwc
    rw [hc.lowlinks, hc.view]
    exact h.edge u w hmerged ((hopen w).mp hwc).2
  · intro u w hmerged hne hp hwc
    rw [hc.view] at hp
    rw [hc.lowlinks]
    exact h.child u w hmerged hne hp ((hopen w).mp hwc).2
  · intro u v hu heq
    have hlt : ∀ x, (t.blocks x).component ≠ uint16Max →
        (t.blocks x).component ≠ t.componentCount := fun x hx => (h.closed x hx).2.1.ne
    rw [hc.component v, hc.component u] at heq
    rw [hc.component u] at hu
    split_ifs at hu heq with hum hvm hvm
    · exact (hm.reach h hi hf hnone hlow hum).trans (Anc.reach hi (hm.anc h hi hf hvm))
    · exact absurd heq (hlt v (heq ▸ hmax.ne))
    · exact absurd heq.symm (hlt u hu)
    · exact h.strong u v hu heq

end close

/-- A block that is done is left as it is or closes its component. -/
lemma Links.settled_cases (h : Links succ M t) (hb : b ∈ t.componentStack) :
    (t.lowlinks b ≠ t.view.preorder b ∧ (t.ended b n below).settled b = t.ended b n below) ∨
    (t.lowlinks b = t.view.preorder b ∧ ∃ members rest exit root,
      t.Members b members rest ∧ b ∈ members ∧
      (t.ended b n below).settled b = (t.ended b n below).closedWith members root exit
        (1 < members.length || ((t.ended b n below).blocks b).componentIsCyclic) ∧
      (t.ended b n below).Collects members
        ((t.ended b n below).blocks b).reachabilityRoot exit root) := by
  unfold Traversal.settled
  rw [show (t.ended b n below).lowlinks b = t.lowlinks b from rfl, ended_preorder]
  by_cases hlow : t.lowlinks b = (t.blocks b).preorder
  · obtain ⟨exit, root, hclose, hcollects⟩ := closeComponent_eq (t := t.ended b n below) b
    obtain ⟨members, rest, hm, hbm⟩ := h.exists_members hb
    rw [show (t.ended b n below).componentStack = t.componentStack from rfl, hm.eq]
      at hclose hcollects
    rw [if_pos hlow]
    exact .inr ⟨hlow, members, rest, exit, root, hm, hbm, hclose, hcollects⟩
  · rw [if_neg hlow]
    exact .inl ⟨hlow, rfl⟩

lemma Links.settled (h : Links succ (Merged succ t.view) t) (hi : Inv succ 0 t.view)
    (hf : t.view.frames = (b, p) :: below) (hnone : (succ b)[p]? = none)
    (hcount : t.preorderCount ≤ uint16Max) :
    Links succ (Merged succ t.view) ((t.ended b n below).settled b) := by
  obtain ⟨hbr, hb0⟩ := hi.mem_top hf
  have hb := (h.mem_stack b).mpr ⟨hbr, h.component_of_open hb0⟩
  rcases h.settled_cases hb with ⟨hlow, heq⟩ | ⟨hlow, members, rest, exit, root, hm, hbm, heq, -⟩
  · rw [heq]
    exact h.ended hi hbr hlow
  · rw [heq]
    exact h.close hm (hm.closes root exit _) hi hf hnone hlow hbm (h.componentCount_lt hcount hb)

end Hrx.Cfg.Traversal
