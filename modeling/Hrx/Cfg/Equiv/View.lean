import Hrx.Cfg.Traversal
import Hrx.Lib.SearchTree

/-!
# The traversal is a depth-first search

What the traversal records besides the search does not change the search: `view` forgets it, and a
round of the traversal is a round of the search (`view_step`).  The other parts of a round are
brought into one form each: a successor or a child is absorbed into a block (`absorb`), and a
component is closed (`closedWith`).
-/

namespace Hrx.Cfg.Traversal

open DepthFirst Function

variable {t : Traversal} {succ : ℕ → List ℕ}

/-- The search in a traversal. -/
def view (t : Traversal) : State ℕ :=
  { reachable := fun v => (t.blocks v).reachable
    preorder := fun v => (t.blocks v).preorder
    parent := fun v => (t.blocks v).parent
    preorderEnd := fun v => (t.blocks v).preorderEnd
    frames := t.frames
    order := t.order
    count := t.preorderCount }

structure SameSearch (a b : BlockFacts) : Prop where
  reachable : a.reachable = b.reachable
  preorder : a.preorder = b.preorder
  parent : a.parent = b.parent
  preorderEnd : a.preorderEnd = b.preorderEnd

lemma view_congr {t' : Traversal} (hblocks : ∀ v, SameSearch (t'.blocks v) (t.blocks v))
    (hframes : t'.frames = t.frames) (horder : t'.order = t.order)
    (hcount : t'.preorderCount = t.preorderCount) : t'.view = t.view := by
  unfold view
  congr 1
  · funext v
    exact (hblocks v).reachable
  · funext v
    exact (hblocks v).preorder
  · funext v
    exact (hblocks v).parent
  · funext v
    exact (hblocks v).preorderEnd

lemma modify_self (b : ℕ) (f : BlockFacts → BlockFacts) :
    (t.modify b f).blocks b = f (t.blocks b) :=
  update_self ..

variable {b w : ℕ} {f : BlockFacts → BlockFacts} {below : List (ℕ × ℕ)}

lemma modify_of_ne {v : ℕ} (f : BlockFacts → BlockFacts) (h : v ≠ b) :
    (t.modify b f).blocks v = t.blocks v :=
  update_of_ne h ..

lemma view_modify (h : ∀ x, SameSearch (f x) x) : (t.modify b f).view = t.view := by
  refine view_congr (fun v => ?_) rfl rfl rfl
  by_cases hv : v = b
  · rw [hv, modify_self]
    exact h _
  · rw [modify_of_ne f hv]
    exact ⟨rfl, rfl, rfl, rfl⟩

@[simp] lemma view_mergeRoot (b w : ℕ) : (t.mergeRoot b w).view = t.view := by
  unfold mergeRoot
  split_ifs
  · exact view_modify fun _ => ⟨rfl, rfl, rfl, rfl⟩
  · rfl

@[simp] lemma view_mergeExit (b w : ℕ) : (t.mergeExit b w).view = t.view :=
  view_modify fun _ => ⟨rfl, rfl, rfl, rfl⟩

@[simp] lemma view_lower (b k : ℕ) : (t.lower b k).view = t.view := rfl

/-! ### Closing a component -/

variable (members : List ℕ)

/-- Changes the facts of several blocks in the same way. -/
lemma foldl_modify (hf : ∀ x, f (f x) = f x) :
    members.foldl (fun t m => t.modify m f) t =
      { t with blocks := fun v => if v ∈ members then f (t.blocks v) else t.blocks v } := by
  induction members generalizing t with
  | nil => simp
  | cons m members ih =>
    rw [List.foldl_cons, ih]
    congr 1
    funext v
    by_cases hv : v = m
    · rw [hv, modify_self]
      simp [hf]
    · rw [modify_of_ne f hv]
      simp [hv]

def closedWith (t : Traversal) (members : List ℕ) (root : ℕ) (canReachExit cyclic : Bool) :
    Traversal :=
  { t with
    blocks := fun v =>
      if v ∈ members then
        { t.blocks v with
          component := t.componentCount
          componentIsCyclic := cyclic
          reachabilityRoot := root
          canReachExit := canReachExit }
      else t.blocks v
    componentStack := t.componentStack.drop members.length
    componentCount := t.componentCount + 1 }

/-- What the loop over the members collects. -/
structure Collects (t : Traversal) (members : List ℕ) (root₀ : ℕ) (canReachExit : Bool) (root : ℕ) :
    Prop where
  exit : canReachExit = true ↔ ∃ m ∈ members, (t.blocks m).canReachExit = true
  source : root = root₀ ∨ ∃ m ∈ members, root = (t.blocks m).reachabilityRoot
  le : (t.blocks root).preorder ≤ (t.blocks root₀).preorder
  least : ∀ m ∈ members, (t.blocks root).preorder ≤ t.rootPreorder m

lemma foldl_takeMember (exit₀ : Bool) (root₀ : ℕ) :
    ∃ canReachExit root, members.foldl takeMember (t, exit₀, root₀) =
        (({ t with
          blocks := fun v => if v ∈ members then { t.blocks v with component := t.componentCount }
            else t.blocks v } : Traversal), exit₀ || canReachExit, root) ∧
      t.Collects members root₀ canReachExit root := by
  induction members generalizing t exit₀ root₀ with
  | nil =>
    refine ⟨false, root₀, by simp, by simp, .inl rfl, le_rfl, fun m hm => ?_⟩
    cases hm
  | cons m members ih =>
    rw [List.foldl_cons]
    -- setting the component leaves what the loop reads
    have hsame : ∀ v, ((t.modify m fun b => { b with component := t.componentCount }).blocks v) =
        { t.blocks v with component := if v = m then t.componentCount
          else (t.blocks v).component } := by
      intro v
      by_cases hv : v = m
      · rw [hv, modify_self, if_pos rfl]
      · rw [modify_of_ne _ hv, if_neg hv]
    obtain ⟨root₁, hroot₁⟩ : ∃ r, r = if t.rootPreorder m < (t.blocks root₀).preorder then
      (t.blocks m).reachabilityRoot else root₀ := ⟨_, rfl⟩
    have hstep : takeMember (t, exit₀, root₀) m =
        (t.modify m fun b => { b with component := t.componentCount },
          exit₀ || (t.blocks m).canReachExit, root₁) := by
      unfold takeMember
      simp only [hsame, hroot₁]
      rfl
    have hle : (t.blocks root₁).preorder ≤ (t.blocks root₀).preorder ∧
        (t.blocks root₁).preorder ≤ t.rootPreorder m := by
      rw [hroot₁]
      split_ifs with hlt
      · exact ⟨hlt.le, le_rfl⟩
      · exact ⟨le_rfl, not_lt.mp hlt⟩
    obtain ⟨exit, root, hfold, hc⟩ :=
      ih (t := t.modify m fun b => { b with component := t.componentCount })
      (exit₀ || (t.blocks m).canReachExit) root₁
    refine ⟨(t.blocks m).canReachExit || exit, root, ?_, ?_, ?_, ?_, ?_⟩
    · rw [hstep, hfold, Bool.or_assoc]
      congr 1
      congr 1
      funext v
      rw [hsame]
      by_cases hv : v = m
      · simp only [hv, List.mem_cons, true_or, if_true]
        split_ifs <;> rfl
      · simp only [hv, List.mem_cons, false_or, if_false]
        split_ifs <;> rfl
    · rw [Bool.or_eq_true, hc.exit]
      simp only [hsame]
      simp
    · rcases hc.source with h | ⟨m', hm', h⟩
      · rw [h, hroot₁]
        split_ifs
        · exact .inr ⟨m, List.mem_cons_self .., rfl⟩
        · exact .inl rfl
      · right
        refine ⟨m', List.mem_cons_of_mem _ hm', ?_⟩
        rw [h, hsame]
    · have := hc.le
      simp only [hsame] at this
      exact this.trans hle.1
    · have hle' := hc.le
      simp only [hsame] at hle'
      intro m' hm'
      rcases List.mem_cons.mp hm' with rfl | hm'
      · exact hle'.trans hle.2
      · have := hc.least m' hm'
        simp only [rootPreorder, hsame] at this
        exact this

/-- Closing a component gives its members what they have together. -/
lemma closeComponent_eq (b : ℕ) :
    ∃ canReachExit root, t.closeComponent b = t.closedWith (membersFrom b t.componentStack) root
        canReachExit (1 < (membersFrom b t.componentStack).length ||
          (t.blocks b).componentIsCyclic) ∧
      t.Collects (membersFrom b t.componentStack)
      (t.blocks b).reachabilityRoot canReachExit root := by
  obtain ⟨exit, root, hfold, hc⟩ := foldl_takeMember (t := t) (membersFrom b t.componentStack) false
    (t.blocks b).reachabilityRoot
  refine ⟨exit, root, ?_, hc⟩
  unfold closeComponent
  dsimp only
  rw [hfold, foldl_modify]
  · congr 1
    funext v
    by_cases hv : v ∈ membersFrom b t.componentStack
    · simp only [hv, if_true, Bool.false_or]
      congr 2
      split_ifs <;> rfl
    · simp only [hv, if_false]
  · exact fun _ => rfl

lemma view_closedWith (root : ℕ) (canReachExit cyclic : Bool) :
    (t.closedWith members root canReachExit cyclic).view = t.view := by
  refine view_congr (fun v => ?_) rfl rfl rfl
  unfold closedWith
  dsimp only
  split_ifs
  · exact ⟨rfl, rfl, rfl, rfl⟩
  · exact ⟨rfl, rfl, rfl, rfl⟩

@[simp] lemma view_closeComponent (b : ℕ) : (t.closeComponent b).view = t.view := by
  obtain ⟨exit, root, h, -⟩ := closeComponent_eq (t := t) b
  rw [h]
  exact view_closedWith ..

/-! ### Absorbing a successor or a child -/

/-- A change that leaves a field leaves it for every block. -/
lemma modify_field {β : Type} (φ : BlockFacts → β) (h : ∀ x, φ (f x) = φ x) (b v : ℕ) :
    φ ((t.modify b f).blocks v) = φ (t.blocks v) := by
  by_cases hv : v = b
  · rw [hv, modify_self, h]
  · rw [modify_of_ne f hv]

/-- A block takes over what a successor reaches, and lowers its lowlink. -/
structure Absorbs (t t' : Traversal) (b w k : ℕ) : Prop where
  view : t'.view = t.view
  component : ∀ v, (t'.blocks v).component = (t.blocks v).component
  componentStack : t'.componentStack = t.componentStack
  componentCount : t'.componentCount = t.componentCount
  lowlinks : t'.lowlinks = update t.lowlinks b (min (t.lowlinks b) k)
  exit : ∀ v, (t'.blocks v).canReachExit =
    ((t.blocks v).canReachExit || (decide (v = b) && (t.blocks w).canReachExit))
  root : ∀ v, (t'.blocks v).reachabilityRoot =
    if v = b ∧ t.rootPreorder w < t.rootPreorder b then (t.blocks w).reachabilityRoot
    else (t.blocks v).reachabilityRoot

lemma mergeRoot_root (b w v : ℕ) : ((t.mergeRoot b w).blocks v).reachabilityRoot =
    if v = b ∧ t.rootPreorder w < t.rootPreorder b then (t.blocks w).reachabilityRoot
    else (t.blocks v).reachabilityRoot := by
  unfold mergeRoot
  by_cases hlt : t.rootPreorder w < t.rootPreorder b
  · by_cases hv : v = b
    · rw [if_pos hlt, hv, modify_self, if_pos ⟨rfl, hlt⟩]
    · rw [if_pos hlt, modify_of_ne _ hv, if_neg fun h => hv h.1]
  · rw [if_neg hlt, if_neg fun h => hlt h.2]

lemma mergeRoot_field {β : Type} (φ : BlockFacts → β)
    (h : ∀ x r, φ { x with reachabilityRoot := r } = φ x) (b w v : ℕ) :
    φ ((t.mergeRoot b w).blocks v) = φ (t.blocks v) := by
  unfold mergeRoot
  split_ifs
  · exact modify_field φ (fun x => h x _) b v
  · rfl

lemma mergeExit_exit (b w v : ℕ) : ((t.mergeExit b w).blocks v).canReachExit =
    ((t.blocks v).canReachExit || (decide (v = b) && (t.blocks w).canReachExit)) := by
  unfold mergeExit
  by_cases hv : v = b
  · rw [hv, modify_self]
    simp
  · rw [modify_of_ne _ hv]
    simp [hv]

lemma mergeExit_field {β : Type} (φ : BlockFacts → β)
    (h : ∀ x e, φ { x with canReachExit := e } = φ x) (b w v : ℕ) :
    φ ((t.mergeExit b w).blocks v) = φ (t.blocks v) :=
  modify_field φ (fun x => h x _) b v

/-- The preorder of a root depends only on preorders and roots. -/
lemma rootPreorder_congr {t' : Traversal} (hpre : ∀ v, (t'.blocks v).preorder =
    (t.blocks v).preorder)
    {v : ℕ} (hroot : (t'.blocks v).reachabilityRoot = (t.blocks v).reachabilityRoot) :
    t'.rootPreorder v = t.rootPreorder v := by
  rw [rootPreorder, rootPreorder, hroot, hpre]

namespace Absorbs

variable {t' : Traversal} {k v : ℕ} (h : t.Absorbs t' b w k)
include h

lemma preorder (v : ℕ) : (t'.blocks v).preorder = (t.blocks v).preorder :=
  congrFun (congrArg State.preorder h.view) v

lemma lowlinks_self : t'.lowlinks b = min (t.lowlinks b) k := by
  rw [h.lowlinks, update_self]

lemma lowlinks_of_ne (hv : v ≠ b) : t'.lowlinks v = t.lowlinks v := by
  rw [h.lowlinks, update_of_ne hv]

lemma lowlinks_le (v : ℕ) : t'.lowlinks v ≤ t.lowlinks v := by
  by_cases hv : v = b
  · rw [hv, h.lowlinks_self]
    exact min_le_left _ _
  · exact (h.lowlinks_of_ne hv).le

lemma exit_of_ne (hv : v ≠ b) : (t'.blocks v).canReachExit = (t.blocks v).canReachExit := by
  rw [h.exit, decide_eq_false hv, Bool.false_and, Bool.or_false]

lemma exit_self : (t'.blocks b).canReachExit = true ↔
    (t.blocks b).canReachExit = true ∨ (t.blocks w).canReachExit = true := by
  rw [h.exit, decide_eq_true rfl, Bool.true_and, Bool.or_eq_true]

lemma root_of_ne (hv : v ≠ b) :
    (t'.blocks v).reachabilityRoot = (t.blocks v).reachabilityRoot := by
  rw [h.root, if_neg fun hn => hv hn.1]

lemma rootPreorder_of_ne (hv : v ≠ b) : t'.rootPreorder v = t.rootPreorder v :=
  rootPreorder_congr h.preorder (h.root_of_ne hv)

lemma rootPreorder_self : t'.rootPreorder b = min (t.rootPreorder b) (t.rootPreorder w) := by
  rw [rootPreorder, h.root, h.preorder]
  split_ifs with hlt
  · exact (min_eq_right hlt.2.le).symm
  · exact (min_eq_left (not_lt.mp fun hn => hlt ⟨rfl, hn⟩)).symm

lemma rootPreorder_le (v : ℕ) : t'.rootPreorder v ≤ t.rootPreorder v := by
  by_cases hv : v = b
  · rw [hv, h.rootPreorder_self]
    exact min_le_left _ _
  · exact (h.rootPreorder_of_ne hv).le

end Absorbs

/-- Merging exits, lowering and merging roots absorbs a block. -/
lemma absorbs_merges (b w k : ℕ) :
    t.Absorbs (((t.mergeExit b w).lower b k).mergeRoot b w) b w k := by
  constructor
  case view => simp
  case component =>
    intro v
    rw [mergeRoot_field (·.component) fun _ _ => rfl]
    exact mergeExit_field (·.component) (fun _ _ => rfl) b w v
  case componentStack =>
    unfold mergeRoot
    split_ifs <;> rfl
  case componentCount =>
    unfold mergeRoot
    split_ifs <;> rfl
  case lowlinks =>
    unfold mergeRoot
    split_ifs <;> rfl
  case exit =>
    intro v
    rw [mergeRoot_field (·.canReachExit) fun _ _ => rfl]
    exact mergeExit_exit b w v
  case root =>
    intro v
    rw [mergeRoot_root]
    have hroot : ∀ v, (((t.mergeExit b w).lower b k).blocks v).reachabilityRoot =
        (t.blocks v).reachabilityRoot := mergeExit_field (·.reachabilityRoot) (fun _ _ => rfl) b w
    have hpre : ∀ v, (((t.mergeExit b w).lower b k).blocks v).preorder = (t.blocks v).preorder :=
      mergeExit_field (·.preorder) (fun _ _ => rfl) b w
    rw [hroot, hroot, rootPreorder_congr hpre (hroot w), rootPreorder_congr hpre (hroot b)]

lemma mergeChild_absorbs (b w : ℕ) : t.Absorbs (t.mergeChild b w) b w (t.lowlinks w) :=
  absorbs_merges b w (t.lowlinks w)

/-- The flags that a successor sets. -/
structure Flags (t t' : Traversal) (b w : ℕ) : Prop where
  cyclic : ∀ v, (t'.blocks v).componentIsCyclic =
    ((t.blocks v).componentIsCyclic || (decide (v = b) && decide (w = b)))
  target : ∀ v, (t'.blocks v).isDfsBackedgeTarget =
    ((t.blocks v).isDfsBackedgeTarget || (decide (v = w) && decide ((t.blocks w).preorderEnd = 0)))
  hasCycles : t'.hasCycles = (t.hasCycles || decide ((t.blocks w).preorderEnd = 0))

section flags

variable {t' : Traversal} {k v : ℕ} (h : t.Flags t' b w)
include h

lemma Flags.cyclic_of_ne (hv : v ≠ b) :
    (t'.blocks v).componentIsCyclic = (t.blocks v).componentIsCyclic := by
  rw [h.cyclic, decide_eq_false hv, Bool.false_and, Bool.or_false]

/-- Other blocks than the two are left alone. -/
lemma Absorbs.blocks_of_ne (ha : t.Absorbs t' b w k) (hb : v ≠ b) (hw : v ≠ w) :
    t'.blocks v = t.blocks v := by
  ext
  case reachable => exact congrFun (congrArg State.reachable ha.view) v
  case canReachExit => exact ha.exit_of_ne hb
  case preorder => exact ha.preorder v
  case parent => exact congrFun (congrArg State.parent ha.view) v
  case preorderEnd => exact congrFun (congrArg State.preorderEnd ha.view) v
  case component => exact ha.component v
  case componentIsCyclic => exact h.cyclic_of_ne hb
  case isDfsBackedgeTarget => rw [h.target, decide_eq_false hw, Bool.false_and, Bool.or_false]
  case reachabilityRoot => exact ha.root_of_ne hb

end flags

/-- A self-edge marks the block. -/
def flagCyclic (t : Traversal) (b w : ℕ) : Traversal :=
  if w = b then t.modify b fun x => { x with componentIsCyclic := true } else t

/-- An edge to an open block marks its target. -/
def flagTarget (t : Traversal) (w : ℕ) : Traversal :=
  if (t.blocks w).preorderEnd = 0 then
    { t.modify w fun x => { x with isDfsBackedgeTarget := true } with hasCycles := true }
  else t

lemma flagCyclic_field {β : Type} (φ : BlockFacts → β)
    (h : ∀ x c, φ { x with componentIsCyclic := c } = φ x) (b w v : ℕ) :
    φ ((t.flagCyclic b w).blocks v) = φ (t.blocks v) := by
  unfold flagCyclic
  split_ifs
  · exact modify_field φ (fun x => h x _) b v
  · rfl

lemma flagTarget_field {β : Type} (φ : BlockFacts → β)
    (h : ∀ x c, φ { x with isDfsBackedgeTarget := c } = φ x) (w v : ℕ) :
    φ ((t.flagTarget w).blocks v) = φ (t.blocks v) := by
  unfold flagTarget
  split_ifs
  · exact modify_field φ (fun x => h x _) w v
  · rfl

lemma flagCyclic_cyclic (b w v : ℕ) : ((t.flagCyclic b w).blocks v).componentIsCyclic =
    ((t.blocks v).componentIsCyclic || (decide (v = b) && decide (w = b))) := by
  unfold flagCyclic
  by_cases hw : w = b
  · rw [if_pos hw]
    by_cases hv : v = b
    · rw [hv, modify_self]
      simp [hw]
    · rw [modify_of_ne _ hv]
      simp [hv]
  · rw [if_neg hw]
    simp [hw]

lemma flagTarget_target (w v : ℕ) : ((t.flagTarget w).blocks v).isDfsBackedgeTarget =
    ((t.blocks v).isDfsBackedgeTarget || (decide (v = w) && decide
      ((t.blocks w).preorderEnd = 0))) := by
  unfold flagTarget
  by_cases h0 : (t.blocks w).preorderEnd = 0
  · rw [if_pos h0]
    by_cases hv : v = w
    · rw [hv, modify_self]
      simp [h0]
    · rw [modify_of_ne _ hv]
      simp [hv]
  · rw [if_neg h0]
    simp [h0]

/-- A successor that was discovered before is absorbed. -/
lemma visit_absorbs (hw : (t.blocks w).reachable = true) :
    t.Absorbs (t.visit b w) b w
        (if (t.blocks w).component = uint16Max then (t.blocks w).preorder else t.lowlinks b) ∧
      t.Flags (t.visit b w) b w := by
  obtain ⟨t₁, h₁⟩ : ∃ t₁, t₁ = t.flagCyclic b w := ⟨_, rfl⟩
  obtain ⟨t₂, h₂⟩ : ∃ t₂, t₂ = (t₁.mergeExit b w).flagTarget w := ⟨_, rfl⟩
  have hfield : ∀ {β : Type} (φ : BlockFacts → β),
      (∀ x cyclic exit target, φ { x with
        componentIsCyclic := cyclic, canReachExit := exit, isDfsBackedgeTarget := target } = φ x) →
      ∀ v, φ (t₂.blocks v) = φ (t.blocks v) := by
    intro β φ h v
    rw [h₂, flagTarget_field φ fun x => h x _ _, mergeExit_field φ fun x e => h x _ e _, h₁,
      flagCyclic_field φ fun x c => h x c _ _]
  have hreach : (t₁.blocks w).reachable = true := by
    rw [h₁, flagCyclic_field (·.reachable) fun _ _ => rfl]
    exact hw
  obtain ⟨t₃, h₃⟩ : ∃ t₃, t₃ = if (t₂.blocks w).component = uint16Max then
    t₂.lower b (t₂.blocks w).preorder else t₂ := ⟨_, rfl⟩
  have hvisit : t.visit b w = t₃.mergeRoot b w := by
    have hold : ¬ (t₁.blocks w).reachable = false := by simp [hreach]
    rw [h₃, h₂]
    show (if ((t.flagCyclic b w).blocks w).reachable = false then (t.flagCyclic b w).discover b w
      else (t.flagCyclic b w).revisit b w).mergeRoot b w = _
    rw [← h₁, if_neg hold]
    rfl
  -- lowering changes only lowlinks
  have hblocks : t₃.blocks = t₂.blocks := by
    rw [h₃]
    split_ifs <;> rfl
  have hview₂ : t₂.view = t.view := by
    refine view_congr (fun v => ?_) ?_ ?_ ?_
    · exact ⟨hfield (·.reachable) (fun _ _ _ _ => rfl) v,
        hfield (·.preorder) (fun _ _ _ _ => rfl) v,
        hfield (·.parent) (fun _ _ _ _ => rfl) v,
        hfield (·.preorderEnd) (fun _ _ _ _ => rfl) v⟩
    all_goals
      rw [h₂, h₁]
      unfold flagTarget flagCyclic
      split_ifs <;> rfl
  have hend : ((t₁.mergeExit b w).blocks w).preorderEnd = (t.blocks w).preorderEnd := by
    rw [mergeExit_field (·.preorderEnd) fun _ _ => rfl, h₁,
      flagCyclic_field (·.preorderEnd) fun _ _ => rfl]
  have hsame : t₂.lowlinks = t.lowlinks ∧ t₂.componentStack = t.componentStack ∧
      t₂.componentCount = t.componentCount := by
    rw [h₂, h₁]
    unfold flagTarget flagCyclic
    split_ifs <;> exact ⟨rfl, rfl, rfl⟩
  have hpre := hfield (·.preorder) (fun _ _ _ _ => rfl)
  have hroot := hfield (·.reachabilityRoot) (fun _ _ _ _ => rfl)
  have hcomponent := hfield (·.component) (fun _ _ _ _ => rfl)
  rw [hvisit]
  refine ⟨⟨?_, ?_, ?_, ?_, ?_, ?_, ?_⟩, ?_, ?_, ?_⟩
  · rw [view_mergeRoot, ← hview₂, h₃]
    split_ifs <;> rfl
  · intro v
    rw [mergeRoot_field (·.component) fun _ _ => rfl, hblocks]
    exact hcomponent v
  · unfold mergeRoot
    rw [← hsame.2.1, h₃]
    split_ifs <;> rfl
  · unfold mergeRoot
    rw [← hsame.2.2, h₃]
    split_ifs <;> rfl
  · rw [show (t₃.mergeRoot b w).lowlinks = t₃.lowlinks by unfold mergeRoot; split_ifs <;> rfl, h₃]
    rw [show (t₂.blocks w).component = (t.blocks w).component from hcomponent w, ← hsame.1]
    split_ifs with hc
    · rw [← show (t₂.blocks w).preorder = (t.blocks w).preorder from hpre w]
      rfl
    · rw [min_self, update_eq_self]
  · intro v
    rw [mergeRoot_field (·.canReachExit) fun _ _ => rfl, hblocks, h₂,
      flagTarget_field (·.canReachExit) fun _ _ => rfl, mergeExit_exit, h₁,
      flagCyclic_field (·.canReachExit) fun _ _ => rfl,
      flagCyclic_field (·.canReachExit) fun _ _ => rfl]
  · intro v
    have hpre₃ : ∀ v, (t₃.blocks v).preorder = (t.blocks v).preorder := by
      rw [hblocks]
      exact hpre
    have hroot₃ : ∀ v, (t₃.blocks v).reachabilityRoot = (t.blocks v).reachabilityRoot := by
      rw [hblocks]
      exact hroot
    rw [mergeRoot_root, hroot₃, hroot₃, rootPreorder_congr hpre₃ (hroot₃ w),
      rootPreorder_congr hpre₃ (hroot₃ b)]
  · intro v
    rw [mergeRoot_field (·.componentIsCyclic) fun _ _ => rfl, hblocks, h₂,
      flagTarget_field (·.componentIsCyclic) fun _ _ => rfl,
      mergeExit_field (·.componentIsCyclic) fun _ _ => rfl, h₁, flagCyclic_cyclic]
  · intro v
    rw [mergeRoot_field (·.isDfsBackedgeTarget) fun _ _ => rfl, hblocks, h₂,
      flagTarget_target, hend,
      mergeExit_field (·.isDfsBackedgeTarget) fun _ _ => rfl, h₁,
      flagCyclic_field (·.isDfsBackedgeTarget) fun _ _ => rfl]
  · have hcycles : t₁.hasCycles = t.hasCycles := by
      rw [h₁]
      unfold flagCyclic
      split_ifs <;> rfl
    rw [show (t₃.mergeRoot b w).hasCycles = t₂.hasCycles by
      rw [h₃]; unfold mergeRoot; split_ifs <;> rfl, h₂]
    unfold flagTarget
    rw [hend, ← hcycles]
    split_ifs with h0
    · simp [h0]
    · simp [h0]
      rfl

/-! ### The rounds -/

/-- The traversal after the frame on top took a successor. -/
def taken (t : Traversal) (b p : ℕ) (below : List (ℕ × ℕ)) : Traversal :=
  { t with frames := (b, p + 1) :: below }

lemma discover_self : (t.discover b w).blocks w =
    { t.blocks w with
      reachable := true
      preorder := t.preorderCount
      reachabilityRoot := w
      parent := b } :=
  update_self ..

lemma discover_of_ne {v : ℕ} (hv : v ≠ w) : (t.discover b w).blocks v = t.blocks v :=
  update_of_ne hv ..

/-- A successor that was not discovered is only discovered: its root is itself, the latest block. -/
lemma visit_discover (hw : (t.blocks w).reachable = false) (hb : (t.blocks b).reachable = true)
    (hroot : (t.blocks (t.blocks b).reachabilityRoot).reachable = true)
    (hlt : t.rootPreorder b < t.preorderCount) : t.visit b w = t.discover b w := by
  have hne : ∀ v, t.view.reachable v = true → v ≠ w := fun v => ne_of_reachable (s := t.view) hw
  unfold visit
  rw [if_neg (hne b hb).symm]
  dsimp only
  rw [if_pos hw, mergeRoot, if_neg]
  -- the root of the block is earlier
  rw [rootPreorder, rootPreorder, discover_of_ne (hne b hb), discover_of_ne (hne _ hroot),
    discover_self, discover_self]
  exact hlt.le.not_gt

lemma view_discover {p : ℕ} :
    ((t.taken b p below).discover b w).view = t.view.discover b p below w := by
  unfold view State.discover discover taken
  congr 1
  all_goals
    funext v
    by_cases hv : v = w
    · subst hv
      simp only [update_self]
    · simp only [update_of_ne hv]

/-- The traversal after the block on top is marked as done. -/
def ended (t : Traversal) (b successorCount : ℕ) (below : List (ℕ × ℕ)) : Traversal :=
  { t.modify b fun x =>
      { x with
        canReachExit := x.canReachExit || successorCount = 0
        preorderEnd := t.preorderCount } with
    order := t.order ++ [b]
    frames := below }

/-- Marking a block as done leaves a field other than its exit and its interval. -/
lemma ended_field {n : ℕ} {β : Type} (φ : BlockFacts → β)
    (hφ : ∀ x e k, φ { x with canReachExit := e, preorderEnd := k } = φ x) (v : ℕ) :
    φ ((t.ended b n below).blocks v) = φ (t.blocks v) :=
  modify_field φ (fun x => hφ x _ _) b v

lemma ended_preorder {n : ℕ} (v : ℕ) :
    ((t.ended b n below).blocks v).preorder = (t.blocks v).preorder :=
  ended_field (·.preorder) (fun _ _ _ => rfl) v

lemma ended_component {n : ℕ} (v : ℕ) :
    ((t.ended b n below).blocks v).component = (t.blocks v).component :=
  ended_field (·.component) (fun _ _ _ => rfl) v

lemma view_ended {n : ℕ} : (t.ended b n below).view = t.view.finish b below := by
  unfold view State.finish ended modify
  congr 1
  all_goals
    funext v
    by_cases hv : v = b
    · subst hv
      simp only [update_self]
    · simp only [update_of_ne hv]

def settled (t : Traversal) (b : ℕ) : Traversal :=
  if t.lowlinks b = (t.blocks b).preorder then t.closeComponent b else t

lemma view_settled (b : ℕ) : (t.settled b).view = t.view := by
  unfold settled
  split_ifs
  · exact view_closeComponent b
  · rfl

/-- Closing a component does not look at the order and the frames. -/
lemma closeComponent_frames (b : ℕ) (order : List ℕ) (frames : List (ℕ × ℕ)) :
    ({ t with order := order, frames := frames } : Traversal).closeComponent b =
      { t.closeComponent b with order := order, frames := frames } := by
  have htake : ∀ (members : List ℕ) (t : Traversal) (e : Bool) (r : ℕ),
      members.foldl takeMember (({ t with order := order, frames := frames } : Traversal), e, r) =
        (({ (members.foldl takeMember (t, e, r)).1 with
            order := order, frames := frames } : Traversal),
          (members.foldl takeMember (t, e, r)).2) := by
    intro members
    induction members with
    | nil => exact fun _ _ _ => rfl
    | cons m members ih =>
      intro t e r
      exact ih (takeMember (t, e, r) m).1 (takeMember (t, e, r) m).2.1 (takeMember (t, e, r) m).2.2
  have hset : ∀ (members : List ℕ) (f : BlockFacts → BlockFacts) (t : Traversal),
      members.foldl (fun t m => t.modify m f) { t with order := order, frames := frames } =
        { members.foldl (fun t m => t.modify m f) t with order := order, frames := frames } := by
    intro members f
    induction members with
    | nil => exact fun _ => rfl
    | cons m members ih => exact fun t => ih (t.modify m f)
  unfold closeComponent
  dsimp only
  rw [htake, hset]

/-- The parts of the round that finishes a block. -/
lemma finish_eq {n : ℕ} : t.finish b n below =
    match below with
    | [] => (t.ended b n below).settled b
    | (parent, _) :: _ => ((t.ended b n below).settled b).mergeChild parent b := by
  have hsettled : (t.ended b n below).settled b =
      { (t.modify b fun x =>
          { x with
            canReachExit := x.canReachExit || n = 0
            preorderEnd := t.preorderCount }).settled b with
        order := t.order ++ [b]
        frames := below } := by
    unfold settled
    split_ifs with h₁ h₂ h₂
    · exact closeComponent_frames ..
    · exact absurd h₁ h₂
    · exact absurd h₂ h₁
    · rfl
  have horder : ∀ t : Traversal, (t.closeComponent b).order = t.order :=
    fun t => congrArg State.order (view_closeComponent b)
  rw [hsettled]
  unfold finish settled
  dsimp only
  split_ifs
  · rw [horder]
    rfl
  · rfl

end Hrx.Cfg.Traversal
