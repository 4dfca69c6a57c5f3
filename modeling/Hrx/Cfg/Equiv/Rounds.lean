import Hrx.Cfg.Equiv.Edges
import Hrx.Cfg.Equiv.Merges

/-!
# The rounds of the traversal

`Sound` holds before the main loop and after every round, and the loop ends: each round is a round
of the search, whose potential falls by one.
-/

namespace Hrx.Cfg.Traversal

open DepthFirst Function List Relation

variable {succ : ℕ → List ℕ} {size : ℕ} {t : Traversal}

/-- What holds between two rounds, for a graph of so many blocks. -/
structure Sound (succ : ℕ → List ℕ) (size : ℕ) (t : Traversal) : Prop where
  inv : Inv succ 0 t.view
  links : Links succ (Merged succ t.view) t
  merges : Merges succ (Merged succ t.view) t
  lt : ∀ v, t.view.reachable v = true → v < size
  entry : t.view.parent 0 = uint16Max

/-- There are not more preorders than blocks. -/
lemma Sound.count_le (h : Sound succ size t) : t.preorderCount ≤ size := by
  choose! f hf using h.inv.onto
  have hmaps : ∀ k ∈ Finset.range t.preorderCount, f k ∈ Finset.range size := by
    intro k hk
    exact Finset.mem_range.mpr (h.lt _ (hf k (Finset.mem_range.mp hk)).1)
  have hinj : Set.InjOn f (Finset.range t.preorderCount) := by
    intro x hx y hy heq
    rw [← (hf x (Finset.mem_range.mp hx)).2, ← (hf y (Finset.mem_range.mp hy)).2, heq]
  simpa using Finset.card_le_card_of_injOn f hmaps hinj

/-! ### The start -/

lemma start_blocks {v : ℕ} (hv : v ≠ 0) : start.blocks v = .initial := by
  show update (fun _ => BlockFacts.initial) 0 _ v = _
  rw [update_of_ne hv]

lemma starts_start : Starts 0 start.view := by
  constructor
  · intro v
    by_cases hv : v = 0
    · subst hv
      exact iff_of_true rfl rfl
    refine iff_of_false ?_ hv
    show ¬(start.blocks v).reachable = true
    rw [start_blocks hv]
    exact Bool.false_ne_true
  · rfl
  · intro v
    by_cases hv : v = 0
    · subst hv
      rfl
    · show (start.blocks v).preorderEnd = 0
      rw [start_blocks hv]
      rfl
  · rfl
  · rfl
  · rfl

lemma sound_start (hsize : 0 < size) : Sound succ size start := by
  have hs := starts_start
  have hnone : ∀ u v, ¬Merged succ start.view u v := hs.not_merged
  have hcomponent : ∀ v, (start.blocks v).component = uint16Max := by
    intro v
    by_cases hv : v = 0
    · subst hv
      rfl
    · rw [start_blocks hv]
      rfl
  have hflags : ∀ v, (start.blocks v).canReachExit = false ∧
      (start.blocks v).componentIsCyclic = false := by
    intro v
    by_cases hv : v = 0
    · subst hv
      exact ⟨rfl, rfl⟩
    · rw [start_blocks hv]
      exact ⟨rfl, rfl⟩
  refine ⟨hs.inv, ?_, ?_, fun v hv => (hs.reachable v).mp hv ▸ hsize, rfl⟩
  · constructor
    · intro v
      rw [hs.reachable, and_iff_left (hcomponent v)]
      exact mem_singleton
    · exact pairwise_singleton _ _
    · exact fun v hc => absurd (hcomponent v) hc
    · exact le_rfl
    · intro v hv _
      rw [(hs.reachable v).mp hv]
      exact ⟨le_rfl, 0, rfl, hcomponent 0, rfl, .refl⟩
    · exact fun v hv => absurd (hs.preorderEnd v) hv
    · exact fun u v hm => absurd hm (hnone u v)
    · exact fun u v hm => absurd hm (hnone u v)
    · exact fun u v hc => absurd (hcomponent u) hc
  · constructor
    case root =>
      intro v hv
      rw [(hs.reachable v).mp hv]
      exact ⟨rfl, .refl, le_rfl⟩
    case rootEdge => exact fun u v hm => absurd hm (hnone u v)
    case exit =>
      intro v hv
      rw [(hflags v).1] at hv
      cases hv
    case exitEdge => exact fun u v hm => absurd hm (hnone u v)
    case exitDone => exact fun v hv => absurd (hs.preorderEnd v) hv
    case cyclicOpen =>
      intro v _
      rw [(hflags v).2]
      exact iff_of_false Bool.false_ne_true (hnone v v)
    case cyclicClosed => exact fun v hc => absurd (hcomponent v) hc
    case cycles => exact fun hcycles => nomatch hcycles
    case acyclic => exact fun _ u v hm => absurd hm (hnone u v)
    case initial =>
      intro v hv
      apply start_blocks
      rintro rfl
      cases hv

/-! ### One round -/

lemma mergeChild_flags {b w : ℕ} (hne : w ≠ b) (hend : (t.blocks w).preorderEnd ≠ 0) :
    t.Flags (t.mergeChild b w) b w := by
  constructor
  · intro v
    rw [decide_eq_false hne, Bool.and_false, Bool.or_false, mergeChild,
      mergeRoot_field (·.componentIsCyclic) fun _ _ => rfl]
    exact mergeExit_field (·.componentIsCyclic) (fun _ _ => rfl) b w v
  · intro v
    rw [decide_eq_false hend, Bool.and_false, Bool.or_false, mergeChild,
      mergeRoot_field (·.isDfsBackedgeTarget) fun _ _ => rfl]
    exact mergeExit_field (·.isDfsBackedgeTarget) (fun _ _ => rfl) b w v
  · rw [decide_eq_false hend, Bool.or_false]
    unfold mergeChild mergeRoot
    dsimp only
    split_ifs
    · rfl
    · rfl

section round

variable {b w p : ℕ} {below : List (ℕ × ℕ)}

/-- Taking a successor changes only the frame. -/
lemma Links.taken {M : ℕ → ℕ → Prop} (h : Links succ M t) : Links succ M (t.taken b p below) :=
  { h with }

lemma Merges.taken {M : ℕ → ℕ → Prop} (h : Merges succ M t) : Merges succ M (t.taken b p below) :=
  { h with }

variable (h : Sound succ size t)
include h

/-- A successor that was discovered before. -/
lemma Sound.revisit (hf : t.view.frames = (b, p) :: below)
    (hw : (succ b)[p]? = some w) (hr : t.view.reachable w = true) :
    Sound succ size ((t.taken b p below).visit b w) := by
  obtain ⟨hbr, hb0⟩ := h.inv.mem_top hf
  have hstack : b ∈ t.view.stack := (h.inv.mem_stack b).mpr ⟨hbr, hb0⟩
  have hmem : w ∈ succ b := mem_of_getElem? hw
  obtain ⟨ha, hflags⟩ := visit_absorbs (t := t.taken b p below) (b := b) hr
  have hview : ((t.taken b p below).visit b w).view = t.view.advance b p below := ha.view
  have hi : Inv succ 0 (t.taken b p below).view := h.inv.advance hf hw hr
  have hstack' : (t.taken b p below).view.stack = t.view.stack := by
    rw [State.stack, State.stack, hf]
    rfl
  have hM : Dealt succ (t.taken b p below).view (Merged succ t.view) := by
    have hd := dealt_merged h.inv
    exact ⟨hd.mem, hd.reachable, fun u v hm y hy => hd.before u v hm y (hstack' ▸ hy), hd.done⟩
  have hmerged : Merged succ ((t.taken b p below).visit b w).view =
      fun u v => Merged succ t.view u v ∨ (u = b ∧ v = w) := by
    funext u v
    rw [hview]
    exact propext (merged_advance hf hw)
  constructor
  · rw [hview]
    exact hi
  · rw [hmerged]
    refine h.links.taken.absorb hi hM ha (hstack' ▸ hstack) hmem ?_ ?_ ?_
    · intro hc
      rw [if_pos hc]
      exact le_rfl
    · split_ifs with hc
      · exact .inr ⟨w, hr, hc, rfl, .refl⟩
      · exact .inl le_rfl
    -- a child of the block on top is done
    intro hne hp _
    left
    rcases h.inv.child w hr hne with hopen | hm
    · have hlt := (h.inv.parent w hr hne).2.2.1
      rw [show t.view.parent w = b from hp] at hlt
      exact absurd (h.inv.le_top hf hopen) hlt.not_ge
    · rwa [show t.view.parent w = b from hp] at hm
  · rw [hmerged]
    refine h.merges.taken.absorb h.links.taken hi ha hflags (hstack' ▸ hstack) hmem hr ?_
    intro hw0
    have hle := h.inv.le_top hf ((h.inv.mem_stack w).mpr ⟨hr, hw0⟩)
    refine Anc.reach h.inv ((anc_iff h.inv hr hbr).mpr ⟨hle, ?_⟩)
    rw [State.endOf, if_pos (show t.view.preorderEnd w = 0 from hw0)]
    exact h.inv.lt_count b hbr
  · rw [hview]
    exact h.lt
  · rw [hview]
    exact h.entry

/-- A successor that was not discovered. -/
lemma Sound.discover (hf : t.view.frames = (b, p) :: below)
    (hw : (succ b)[p]? = some w) (hnew : t.view.reachable w = false) (hlt : w < size) :
    (t.taken b p below).visit b w = (t.taken b p below).discover b w ∧
      Sound succ size ((t.taken b p below).discover b w) := by
  obtain ⟨hbr, hb0⟩ := h.inv.mem_top hf
  obtain ⟨hroot, -⟩ := h.merges.root b hbr
  refine ⟨visit_discover hnew hbr hroot (h.inv.lt_count _ hroot), ?_⟩
  have hview : ((t.taken b p below).discover b w).view = t.view.discover b p below w :=
    view_discover
  have hmerged : Merged succ ((t.taken b p below).discover b w).view = Merged succ t.view := by
    funext u v
    rw [hview]
    exact propext (merged_discover hf)
  have hM := dealt_merged h.inv
  have hfresh : (t.blocks w).component = uint16Max := by
    rw [h.merges.initial w hnew]
    rfl
  constructor
  · rw [hview]
    exact h.inv.discover hf hnew hw
  · rw [hmerged]
    exact h.links.discover h.inv hM hnew hfresh
  · rw [hmerged]
    exact h.merges.discover hM hnew
  · intro v hv
    rw [hview] at hv
    rcases reachable_discover.mp hv with rfl | hv'
    · exact hlt
    · exact h.lt v hv'
  · rw [hview, parent_discover hnew h.inv.root_reachable]
    exact h.entry

/-- A block closes its component only if its lowlink is its own preorder. -/
lemma Sound.lowlinks_of_closed (hb0 : t.view.preorderEnd b = 0) {n : ℕ}
    (hc : (((t.ended b n below).settled b).blocks b).component ≠ uint16Max) :
    t.lowlinks b = t.view.preorder b := by
  by_contra hlow
  rw [settled, if_neg (by rwa [ended_preorder]), ended_component] at hc
  exact (h.links.closed b hc).1 hb0

omit h in
lemma settled_lowlinks : (t.settled b).lowlinks = t.lowlinks := by
  unfold settled
  split_ifs
  · obtain ⟨exit, root, hclosed, -⟩ := closeComponent_eq (t := t) b
    rw [hclosed]
    rfl
  · rfl

/-- The successors that were dealt with when a block is done, without the edge that found the
block. -/
lemma Sound.dealt_finish (hf : t.view.frames = (b, p) :: below)
    (hnone : (succ b)[p]? = none) : Dealt succ (t.view.finish b below) (Merged succ t.view) := by
  have hi := h.inv.finish hf hnone
  have hd := dealt_merged hi
  have hmerged := fun u v => merged_finish (u := u) (v := v) h.inv hf hnone
  refine ⟨fun u v hm => hd.mem u v ((hmerged u v).mpr (.inl hm)),
    fun u v hm => hd.reachable u v ((hmerged u v).mpr (.inl hm)),
    fun u v hm => hd.before u v ((hmerged u v).mpr (.inl hm)), ?_⟩
  intro u v hend hv
  refine ((hmerged u v).mp (.done hend hv)).resolve_right ?_
  -- the block below is still open
  rintro ⟨-, q, rest, hbelow⟩
  refine hend ((hi.mem_stack u).mp ?_).2
  rw [show (t.view.finish b below).stack = below.map Prod.fst from rfl, hbelow]
  exact mem_cons_self ..

/-- The block on top is done. -/
lemma Sound.finish (hsize : size ≤ uint16Max)
    (hf : t.view.frames = (b, p) :: below) (hnone : (succ b)[p]? = none) :
    Sound succ size (t.finish b (succ b).length below) := by
  obtain ⟨hbr, hb0⟩ := h.inv.mem_top hf
  have hcount := h.count_le.trans hsize
  have hl := h.links.settled (n := (succ b).length) h.inv hf hnone hcount
  have hm := h.merges.settled h.links h.inv hf hnone rfl hcount
  have hview : ((t.ended b (succ b).length below).settled b).view = t.view.finish b below :=
    (view_settled b).trans view_ended
  have hi := h.inv.finish hf hnone
  have hmerged := fun u v => merged_finish (u := u) (v := v) h.inv hf hnone
  rw [finish_eq]
  cases below with
  | nil =>
    have hM : Merged succ ((t.ended b (succ b).length []).settled b).view = Merged succ t.view := by
      funext u v
      rw [hview]
      refine propext ((hmerged u v).trans (or_iff_left ?_))
      rintro ⟨-, q, rest, heq⟩
      cases heq
    refine ⟨hview ▸ hi, hM ▸ hl, hM ▸ hm, ?_, ?_⟩
    · rw [hview]
      exact h.lt
    · rw [hview]
      exact h.entry
  | cons f rest =>
    obtain ⟨parent, q⟩ := f
    have hchain := h.inv.frames
    rw [show t.view.frames = _ from hf] at hchain
    have hrests := (isChain_cons_cons.mp hchain).1
    have hne : b ≠ parent := by
      rintro rfl
      exact lt_irrefl _ hrests.preorder
    have hmem : b ∈ succ parent := mem_of_getElem? hrests.taken
    have hM : Merged succ (((t.ended b (succ b).length ((parent, q) :: rest)).settled b).mergeChild
        parent b).view = fun u v => Merged succ t.view u v ∨ (u = parent ∧ v = b) := by
      funext u v
      rw [(mergeChild_absorbs parent b).view, hview]
      refine propext ((hmerged u v).trans (or_congr_right ?_))
      constructor
      · rintro ⟨rfl, q', rest', heq⟩
        exact ⟨(congrArg Prod.fst (List.cons.inj heq).1).symm, rfl⟩
      · rintro ⟨rfl, rfl⟩
        exact ⟨rfl, q, rest, rfl⟩
    have hdealt := h.dealt_finish hf hnone
    rw [← hview] at hi hdealt
    have hparent :
        parent ∈ ((t.ended b (succ b).length ((parent, q) :: rest)).settled b).view.stack := by
      rw [hview]
      exact mem_cons_self ..
    have hbr' :
        ((t.ended b (succ b).length ((parent, q) :: rest)).settled b).view.reachable b = true := by
      rw [hview]
      exact hbr
    have hdone :
        ((t.ended b (succ b).length ((parent, q) :: rest)).settled b).view.preorderEnd b ≠ 0 := by
      rw [hview, show (t.view.finish b ((parent, q) :: rest)).preorderEnd b = t.preorderCount from
        update_self ..]
      exact (Nat.zero_lt_of_lt (h.inv.lt_count b hbr)).ne'
    constructor
    · rw [(mergeChild_absorbs parent b).view]
      exact hi
    · rw [hM]
      refine hl.absorb hi hdealt (mergeChild_absorbs parent b) hparent hmem ?_ ?_ ?_
      · exact fun hc => (hl.low b hbr' hc).1
      · by_cases hc :
          (((t.ended b (succ b).length ((parent, q) :: rest)).settled b).blocks b).component =
          uint16Max
        · exact .inr (hl.low b hbr' hc).2
        -- a closed block is its own lowlink, which is later than the block below
        left
        obtain ⟨hpr, hp0⟩ := (hi.mem_stack parent).mp hparent
        have hlow := (h.links.low parent (by rwa [hview] at hpr) ?_).1
        · rw [settled_lowlinks]
          show t.lowlinks parent ≤ t.lowlinks b
          rw [h.lowlinks_of_closed hb0 hc]
          exact hlow.trans hrests.preorder.le
        · by_contra hpc
          refine (h.links.closed parent hpc).1 ?_
          rw [hview] at hp0
          rwa [show (t.view.finish b ((parent, q) :: rest)).preorderEnd parent =
            t.view.preorderEnd parent from update_of_ne hne.symm ..] at hp0
      · exact fun _ _ _ => .inr le_rfl
    · rw [hM]
      exact hm.absorb hl hi (mergeChild_absorbs parent b)
        (mergeChild_flags hne hdone) hparent hmem hbr'
        fun h0 => absurd h0 hdone
    · rw [(mergeChild_absorbs parent b).view, hview]
      exact h.lt
    · rw [(mergeChild_absorbs parent b).view, hview]
      exact h.entry

end round

variable (h : Sound succ size t) (hsize : size ≤ uint16Max) (hlt : ∀ u, ∀ w ∈ succ u, w < size)
include h hsize hlt

/-- One round keeps what holds, and one round less is left. -/
lemma Sound.step (hf : t.frames ≠ []) : Sound succ size (t.step succ) ∧
      potential (Finset.range size) succ (t.step succ).view + 1 =
        potential (Finset.range size) succ t.view := by
  obtain ⟨⟨b, p⟩, below, hframes⟩ := exists_cons_of_ne_nil hf
  have hf : t.view.frames = (b, p) :: below := hframes
  unfold Traversal.step
  rw [hframes]
  dsimp only
  cases hw : (succ b)[p]? with
  | none =>
    have hview : (t.finish b (succ b).length below).view = t.view.finish b below := by
      rw [finish_eq]
      cases below with
      | nil => exact (view_settled b).trans view_ended
      | cons f => exact (mergeChild_absorbs f.1 b).view.trans ((view_settled b).trans view_ended)
    refine ⟨h.finish hsize hf hw, ?_⟩
    rw [hview]
    exact potential_finish _ hf hw
  | some w =>
    have hmem := hlt b w (mem_of_getElem? hw)
    by_cases hr : t.view.reachable w = true
    · have hview : ((t.taken b p below).visit b w).view = t.view.advance b p below :=
        (visit_absorbs (t := t.taken b p below) (b := b) hr).1.view
      refine ⟨h.revisit hf hw hr, ?_⟩
      show potential _ _ ((t.taken b p below).visit b w).view + 1 = _
      rw [hview]
      exact potential_advance _ hf hw
    · have hnew : t.view.reachable w = false := by simpa using hr
      obtain ⟨hvisit, hsound⟩ := h.discover hf hw hnew hmem
      show Sound succ size ((t.taken b p below).visit b w) ∧
        potential _ _ ((t.taken b p below).visit b w).view + 1 = _
      rw [hvisit]
      refine ⟨hsound, ?_⟩
      rw [view_discover]
      exact potential_discover _ hf hw hnew (Finset.mem_range.mpr hmem)

/-- The main loop ends, and what holds between two rounds holds at its end. -/
lemma Sound.run {fuel : ℕ} (hfuel : potential (Finset.range size) succ t.view ≤ fuel) :
    ∃ t', t.run succ fuel = some t' ∧ t'.frames = [] ∧ Sound succ size t' := by
  induction fuel generalizing t with
  | zero =>
    have hf : t.frames = [] := by
      by_contra hf
      have := (h.step hsize hlt hf).2
      omega
    exact ⟨t, if_pos hf, hf, h⟩
  | succ fuel ih =>
    by_cases hf : t.frames = []
    · exact ⟨t, if_pos hf, hf, h⟩
    · obtain ⟨hstep, hpotential⟩ := h.step hsize hlt hf
      obtain ⟨t', hrun, hdone, hsound⟩ := ih hstep (by omega)
      exact ⟨t', (if_neg hf).trans hrun, hdone, hsound⟩

end Hrx.Cfg.Traversal
