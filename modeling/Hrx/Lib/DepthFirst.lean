import Mathlib.Algebra.BigOperators.Group.Finset.Basic
import Mathlib.Algebra.GroupWithZero.Nat

/-!
# Depth-first search by frames

The search keeps a stack of frames, each a vertex with the number of its successors that were taken.
A vertex gets its preorder and its parent when it is discovered and its preorder end when its frame
is done; a frame whose end is still zero is open.

`Inv` holds in every state of a search: the open vertices are a path of the tree, subtrees are
intervals of preorders, and a successor that was dealt with (`Merged`) was discovered before the
vertex is done.
-/

namespace DepthFirst

open Function List

variable {V : Type*}

structure State (V : Type*) where
  reachable : V → Bool
  preorder : V → ℕ
  parent : V → V
  preorderEnd : V → ℕ
  frames : List (V × ℕ)
  order : List V
  count : ℕ

namespace State

variable (s : State V)

/-- The open vertices, the last discovered first. -/
def stack : List V := s.frames.map Prod.fst

/-- The end of the interval of a vertex, which is still growing while the vertex is open. -/
def endOf (v : V) : ℕ := if s.preorderEnd v = 0 then s.count else s.preorderEnd v

def advance (b : V) (p : ℕ) (below : List (V × ℕ)) : State V :=
  { s with frames := (b, p + 1) :: below }

variable [DecidableEq V]

def discover (b : V) (p : ℕ) (below : List (V × ℕ)) (w : V) : State V :=
  { s with
    reachable := Function.update s.reachable w true
    preorder := Function.update s.preorder w s.count
    parent := Function.update s.parent w b
    frames := (w, 0) :: (b, p + 1) :: below
    count := s.count + 1 }

/-- Intervals only grow. -/
lemma endOf_le_discover {b w : V} {p : ℕ} {below : List (V × ℕ)} (v : V) :
    s.endOf v ≤ (s.discover b p below w).endOf v := by
  by_cases hv : s.preorderEnd v = 0
  · rw [endOf, if_pos hv, show (s.discover b p below w).endOf v = s.count + 1 from if_pos hv]
    exact Nat.le_succ _
  · rw [endOf, if_neg hv, show (s.discover b p below w).endOf v = s.preorderEnd v from if_neg hv]

def finish (b : V) (below : List (V × ℕ)) : State V :=
  { s with
    preorderEnd := Function.update s.preorderEnd b s.count
    order := s.order ++ [b]
    frames := below }

def step (succ : V → List V) : State V :=
  match s.frames with
  | [] => s
  | (b, p) :: below =>
    match (succ b)[p]? with
    | some w => if s.reachable w then s.advance b p below else s.discover b p below w
    | none => s.finish b below

end State

structure Starts (root : V) (s : State V) : Prop where
  reachable : ∀ v, s.reachable v = true ↔ v = root
  preorder : s.preorder root = 0
  preorderEnd : ∀ v, s.preorderEnd v = 0
  frames : s.frames = [(root, 0)]
  order : s.order = []
  count : s.count = 1

/-- A successor that a vertex has dealt with: any one once the vertex is done, any one taken by the
frame on top, and any one but the last for a frame below, whose last one is the vertex above it. -/
inductive Merged (succ : V → List V) (s : State V) : V → V → Prop where
  | done {u v : V} : s.preorderEnd u ≠ 0 → v ∈ succ u → Merged succ s u v
  | top {u v : V} {p : ℕ} {below : List (V × ℕ)} : s.frames = (u, p) :: below →
      v ∈ (succ u).take p → Merged succ s u v
  | below {u v : V} {p : ℕ} {top : V × ℕ} {below : List (V × ℕ)} : s.frames = top :: below →
      (u, p) ∈ below → v ∈ (succ u).take (p - 1) → Merged succ s u v

structure Rests (succ : V → List V) (s : State V) (root : V) (above below : V × ℕ) : Prop where
  parent : s.parent above.1 = below.1
  ne_root : above.1 ≠ root
  pos : 0 < below.2
  taken : (succ below.1)[below.2 - 1]? = some above.1
  preorder : s.preorder below.1 < s.preorder above.1

/-- The preorders number the vertices found. -/
structure Numbered (root : V) (s : State V) : Prop where
  root_reachable : s.reachable root = true
  root_preorder : s.preorder root = 0
  lt_count : ∀ v, s.reachable v = true → s.preorder v < s.count
  injective : ∀ u v, s.reachable u = true → s.reachable v = true → s.preorder u = s.preorder v →
    u = v
  onto : ∀ k < s.count, ∃ v, s.reachable v = true ∧ s.preorder v = k

/-- The frames are a path of open vertices from the root. -/
structure Stacked (succ : V → List V) (root : V) (s : State V) : Prop where
  mem_stack : ∀ v, v ∈ s.stack ↔ s.reachable v = true ∧ s.preorderEnd v = 0
  unreached : ∀ v, s.reachable v = false → s.preorderEnd v = 0
  interval : ∀ v, s.preorderEnd v ≠ 0 →
    s.preorder v < s.preorderEnd v ∧ s.preorderEnd v ≤ s.count
  frames : s.frames.IsChain (Rests succ s root)
  bottom : ∀ v, s.stack.getLast? = some v → v = root

/-- Subtrees are intervals of preorders. -/
structure Nested (succ : V → List V) (root : V) (s : State V) : Prop where
  parent : ∀ v, s.reachable v = true → v ≠ root → s.reachable (s.parent v) = true ∧
    v ∈ succ (s.parent v) ∧ s.preorder (s.parent v) < s.preorder v ∧
    s.endOf v ≤ s.endOf (s.parent v)
  innermost : ∀ u v, s.reachable u = true → s.reachable v = true → u ≠ v →
    s.preorder u ≤ s.preorder v → s.preorder v < s.endOf u →
    v ≠ root ∧ s.preorder u ≤ s.preorder (s.parent v)

/-- The successors dealt with were found in time, and every child is one of them or open. -/
structure Accounted (succ : V → List V) (root : V) (s : State V) : Prop where
  merged : ∀ u v, Merged succ s u v → s.reachable v = true ∧ s.preorder v < s.endOf u ∧
    ∀ w ∈ s.stack, s.preorder u < s.preorder w → s.preorder v < s.preorder w
  child : ∀ v, s.reachable v = true → v ≠ root → v ∈ s.stack ∨ Merged succ s (s.parent v) v

/-- The done vertices are listed, each behind its subtree. -/
structure Listed (s : State V) : Prop where
  order_nodup : s.order.Nodup
  mem_order : ∀ v, v ∈ s.order ↔ s.preorderEnd v ≠ 0
  later : ∀ l u r, s.order = l ++ u :: r → ∀ v, s.reachable v = true → v ≠ u →
    s.preorder u ≤ s.preorder v → s.preorder v < s.preorderEnd u → v ∈ l

structure Inv (succ : V → List V) (root : V) (s : State V) : Prop extends Numbered root s,
  Stacked succ root s, Nested succ root s, Accounted succ root s, Listed s

variable {succ : V → List V} {root : V} {s : State V}

/-- Nothing was dealt with before the first round. -/
lemma Starts.not_merged (h : Starts root s) (u v : V) : ¬Merged succ s u v := by
  rintro (hdone | ⟨hframes, hv⟩ | ⟨hframes, hu, -⟩)
  · exact hdone (h.preorderEnd u)
  · rw [h.frames] at hframes
    cases hframes
    rw [take_zero] at hv
    cases hv
  · rw [h.frames] at hframes
    cases hframes
    cases hu

lemma Starts.eq_root (h : Starts root s) {v : V} (hv : s.reachable v = true) : v = root :=
  (h.reachable v).mp hv

/-- The search starts with its invariant. -/
lemma Starts.inv (h : Starts root s) : Inv succ root s where
  root_reachable := (h.reachable root).mpr rfl
  root_preorder := h.preorder
  lt_count v hv := by
    rw [h.eq_root hv, h.preorder, h.count]
    exact Nat.zero_lt_one
  injective u v hu hv _ := (h.eq_root hu).trans (h.eq_root hv).symm
  onto k hk := by
    rw [h.count] at hk
    refine ⟨root, (h.reachable root).mpr rfl, ?_⟩
    rw [h.preorder]
    omega
  mem_stack v := by
    rw [State.stack, h.frames, h.reachable, and_iff_left (h.preorderEnd v)]
    simp
  unreached v _ := h.preorderEnd v
  interval v hv := absurd (h.preorderEnd v) hv
  frames := by
    rw [h.frames]
    exact isChain_singleton _
  bottom v hv := by
    rw [State.stack, h.frames] at hv
    exact (Option.some.inj hv).symm
  parent v hv hne := absurd (h.eq_root hv) hne
  innermost u v hu hv hne _ _ := absurd ((h.eq_root hu).trans (h.eq_root hv).symm) hne
  merged u v hm := absurd hm (h.not_merged u v)
  child v hv hne := absurd (h.eq_root hv) hne
  order_nodup := by
    rw [h.order]
    exact nodup_nil
  mem_order v := by
    rw [h.order]
    exact iff_of_false not_mem_nil fun hv => hv (h.preorderEnd v)
  later l u r hsplit := by
    rw [h.order] at hsplit
    cases l <;> cases hsplit

/-! ### The stack -/

lemma Inv.reachable_of_done (hi : Inv succ root s) {v : V} (h : s.preorderEnd v ≠ 0) :
    s.reachable v = true := by
  by_contra hv
  exact h (hi.unreached v (by simpa using hv))

lemma Merged.reachable (hi : Inv succ root s) {u v : V} (h : Merged succ s u v) :
    s.reachable u = true := by
  have hstack : ∀ p, (u, p) ∈ s.frames → s.reachable u = true := by
    intro p hp
    exact ((hi.mem_stack u).mp (mem_map_of_mem hp)).1
  rcases h with hdone | ⟨hframes, -⟩ | ⟨hframes, hu, -⟩
  · exact hi.reachable_of_done hdone
  · exact hstack _ (hframes ▸ mem_cons_self ..)
  · exact hstack _ (hframes ▸ mem_cons_of_mem _ hu)

/-- The preorders fall from the top of the stack down. -/
lemma Inv.pairwise (hi : Inv succ root s) :
    s.frames.Pairwise fun above below => s.preorder below.1 < s.preorder above.1 := by
  exact isChain_iff_pairwise.mp (hi.frames.imp fun _ _ h => h.preorder)

section top

variable {b : V} {p : ℕ} {below : List (V × ℕ)}

section

variable (hi : Inv succ root s) (hf : s.frames = (b, p) :: below)
include hi hf

lemma Inv.mem_top : s.reachable b = true ∧ s.preorderEnd b = 0 :=
  (hi.mem_stack b).mp (by rw [State.stack, hf]; exact mem_cons_self ..)

/-- The vertex on top is the last of the open ones. -/
lemma Inv.le_top {v : V} (hv : v ∈ s.stack) : s.preorder v ≤ s.preorder b := by
  have hpair := hi.pairwise
  rw [State.stack, hf, map_cons] at hv
  rw [hf] at hpair
  rcases mem_cons.mp hv with rfl | hmem
  · exact le_rfl
  · obtain ⟨f, hfmem, rfl⟩ := mem_map.mp hmem
    exact ((pairwise_cons.mp hpair).1 f hfmem).le

lemma Inv.lt_top {f : V × ℕ} (h : f ∈ below) : s.preorder f.1 < s.preorder b := by
  have hpair := hi.pairwise
  rw [hf] at hpair
  exact (pairwise_cons.mp hpair).1 f h

end

/-- The parent of an open vertex is open. -/
lemma Inv.parent_mem_stack (hi : Inv succ root s) {v : V} (hv : v ∈ s.stack) (hne : v ≠ root) :
    s.parent v ∈ s.stack := by
  obtain ⟨f, hfmem, rfl⟩ := mem_map.mp hv
  obtain ⟨l, r, hsplit⟩ := append_of_mem hfmem
  cases r with
  | nil =>
    refine absurd (hi.bottom f.1 ?_) hne
    rw [State.stack, hsplit, map_append]
    exact List.getLast?_concat
  | cons =>
    have hchain := hi.frames
    rw [hsplit] at hchain
    have hrests := (isChain_cons_cons.mp (isChain_append.mp hchain).2.1).1
    rw [hrests.parent, State.stack, hsplit]
    simp

end top

/-! ### What a round adds to the successors dealt with -/

variable [DecidableEq V] {b w : V} {p : ℕ} {below : List (V × ℕ)}

omit [DecidableEq V] in
lemma merged_advance (hf : s.frames = (b, p) :: below) (hw : (succ b)[p]? = some w) {u v : V} :
    Merged succ (s.advance b p below) u v ↔ Merged succ s u v ∨ (u = b ∧ v = w) := by
  have htake : (succ b).take (p + 1) = (succ b).take p ++ [w] := by
    rw [take_add_one, hw]
    rfl
  constructor
  · rintro (hdone | ⟨hframes, hv⟩ | ⟨hframes, hu, hv⟩)
    · exact .inl (.done hdone ‹_›)
    · cases hframes
      rw [htake] at hv
      rcases mem_append.mp hv with hv | hv
      · exact .inl (.top hf hv)
      · exact .inr ⟨rfl, mem_singleton.mp hv⟩
    · cases hframes
      exact .inl (.below hf hu hv)
  · rintro ((hdone | ⟨hframes, hv⟩ | ⟨hframes, hu, hv⟩) | ⟨rfl, rfl⟩)
    · exact .done hdone ‹_›
    · rw [hf] at hframes
      cases hframes
      refine .top (p := p + 1) rfl ?_
      rw [htake]
      exact mem_append_left _ hv
    · rw [hf] at hframes
      cases hframes
      exact .below rfl hu hv
    · refine .top (p := p + 1) rfl ?_
      rw [htake]
      exact mem_append_right _ (mem_singleton_self _)

lemma merged_discover (hf : s.frames = (b, p) :: below) {u v : V} :
    Merged succ (s.discover b p below w) u v ↔ Merged succ s u v := by
  constructor
  · rintro (hdone | ⟨hframes, hv⟩ | ⟨hframes, hu, hv⟩)
    · exact .done hdone ‹_›
    · cases hframes
      rw [take_zero] at hv
      cases hv
    · cases hframes
      rcases mem_cons.mp hu with heq | hu
      · cases heq
        exact .top hf hv
      · exact .below hf hu hv
  · rintro (hdone | ⟨hframes, hv⟩ | ⟨hframes, hu, hv⟩)
    · exact .done hdone ‹_›
    · rw [hf] at hframes
      cases hframes
      exact .below (p := p + 1) rfl (mem_cons_self ..) hv
    · rw [hf] at hframes
      cases hframes
      exact .below rfl (mem_cons_of_mem _ hu) hv

variable (hi : Inv succ root s) (hf : s.frames = (b, p) :: below)
include hi hf

lemma merged_finish (hnone : (succ b)[p]? = none) {u v : V} : Merged succ (s.finish b below) u v ↔
      Merged succ s u v ∨ (v = b ∧ ∃ q rest, below = (u, q) :: rest) := by
  have hlen : (succ b).length ≤ p := List.getElem?_eq_none_iff.mp hnone
  have hcount : s.count ≠ 0 := (Nat.zero_lt_of_lt (hi.lt_count b (hi.mem_top hf).1)).ne'
  have hend : (s.finish b below).preorderEnd b ≠ 0 := by
    rw [show (s.finish b below).preorderEnd b = s.count from update_self ..]
    exact hcount
  -- the last successor that the frame below took is the vertex that is done
  have htake : ∀ x q rest, below = (x, q) :: rest →
      (succ x).take q = (succ x).take (q - 1) ++ [b] := by
    rintro x q rest rfl
    have hchain := hi.frames
    rw [hf] at hchain
    have hrests := (isChain_cons_cons.mp hchain).1
    have hpos : q - 1 + 1 = q := Nat.sub_add_cancel hrests.pos
    have htaken : (succ x)[q - 1]? = some b := hrests.taken
    rw [← hpos, take_add_one, htaken, hpos]
    rfl
  constructor
  · rintro (hdone | ⟨hframes, hv⟩ | ⟨hframes, hu, hv⟩)
    · by_cases hub : u = b
      · subst hub
        left
        refine .top hf ?_
        rwa [take_of_length_le hlen]
      · exact .inl (.done (by rwa [show (s.finish b below).preorderEnd u = s.preorderEnd u from
          update_of_ne hub ..] at hdone) ‹_›)
    · replace hframes : below = _ := hframes
      rw [htake _ _ _ hframes] at hv
      rcases mem_append.mp hv with hv | hv
      · exact .inl (.below hf (hframes ▸ mem_cons_self ..) hv)
      · exact .inr ⟨mem_singleton.mp hv, _, _, hframes⟩
    · replace hframes : below = _ := hframes
      exact .inl (.below hf (hframes ▸ mem_cons_of_mem _ hu) hv)
  · rintro ((hdone | ⟨hframes, hv⟩ | ⟨hframes, hu, hv⟩) | ⟨rfl, q, rest, hbelow⟩)
    · have hub : u ≠ b := by
        rintro rfl
        exact hdone (hi.mem_top hf).2
      refine .done ?_ ‹_›
      rwa [show (s.finish b below).preorderEnd u = s.preorderEnd u from update_of_ne hub ..]
    · rw [hf] at hframes
      cases hframes
      exact .done hend (mem_of_mem_take hv)
    · rw [hf] at hframes
      cases hframes
      cases below with
      | nil => cases hu
      | cons =>
        rcases mem_cons.mp hu with rfl | hu
        · refine .top rfl ?_
          rw [htake _ _ _ rfl]
          exact mem_append_left _ hv
        · exact .below rfl hu hv
    · refine .top hbelow ?_
      rw [htake _ _ _ hbelow]
      exact mem_append_right _ (mem_singleton_self _)

/-! ### Each round keeps the invariant -/

omit [DecidableEq V] in
lemma Inv.advance (hw : (succ b)[p]? = some w) (hr : s.reachable w = true) :
    Inv succ root (s.advance b p below) := by
  have hstack : (s.advance b p below).stack = s.stack := by
    rw [State.stack, State.stack, hf]
    rfl
  have hchain := hi.frames
  rw [hf] at hchain
  refine { hi with
    mem_stack := fun v => hstack ▸ hi.mem_stack v
    bottom := fun v => hstack ▸ hi.bottom v
    frames := ?frames, merged := ?merged, child := ?child }
  case frames =>
    cases below with
    | nil => exact isChain_singleton _
    | cons =>
      obtain ⟨h, hrest⟩ := isChain_cons_cons.mp hchain
      refine isChain_cons_cons.mpr ⟨{ h with }, hrest.imp fun _ _ h => { h with }⟩
  case merged =>
    intro u v hm
    rw [hstack]
    rcases (merged_advance hf hw).mp hm with hm | ⟨rfl, rfl⟩
    · exact hi.merged u v hm
    refine ⟨hr, ?_, ?_⟩
    · show _ < s.endOf u
      rw [State.endOf, if_pos (hi.mem_top hf).2]
      exact hi.lt_count v hr
    · intro y hy hlt
      exact absurd (hi.le_top hf hy) hlt.not_ge
  case child =>
    intro v hv hne
    rw [hstack]
    exact (hi.child v hv hne).imp_right fun h => (merged_advance hf hw).mpr (.inl h)

/-! ### A vertex is done -/

omit hi hf in
lemma preorderEnd_finish {v : V} (hv : v ≠ b) :
    (s.finish b below).preorderEnd v = s.preorderEnd v := update_of_ne hv ..

omit hi hf in
lemma preorderEnd_finish_self : (s.finish b below).preorderEnd b = s.count := update_self ..

omit [DecidableEq V] in
lemma Inv.count_ne_zero : s.count ≠ 0 :=
  (Nat.zero_lt_of_lt (hi.lt_count b (hi.mem_top hf).1)).ne'

lemma Inv.endOf_finish (v : V) : (s.finish b below).endOf v = s.endOf v := by
  by_cases hv : v = b
  · rw [hv, State.endOf, State.endOf, preorderEnd_finish_self, if_neg (hi.count_ne_zero hf),
      if_pos (hi.mem_top hf).2]
  · rw [State.endOf, State.endOf, preorderEnd_finish hv]
    rfl

lemma Inv.mem_stack_finish (v : V) : v ∈ (s.finish b below).stack ↔ v ∈ s.stack ∧ v ≠ b := by
  rw [show s.stack = b :: below.map Prod.fst by rw [State.stack, hf]; rfl, mem_cons]
  show v ∈ below.map Prod.fst ↔ _
  constructor
  · intro h
    refine ⟨.inr h, ?_⟩
    rintro rfl
    obtain ⟨f, hfmem, hfst⟩ := mem_map.mp h
    exact absurd (hfst ▸ hi.lt_top hf hfmem) (lt_irrefl _)
  · rintro ⟨rfl | h, hne⟩
    · exact absurd rfl hne
    · exact h

lemma Inv.stacked_finish : Stacked succ root (s.finish b below) := by
  obtain ⟨hb, hopen⟩ := hi.mem_top hf
  constructor
  case mem_stack =>
    intro v
    rw [hi.mem_stack_finish hf, hi.mem_stack]
    show (s.reachable v = true ∧ s.preorderEnd v = 0) ∧ v ≠ b ↔
      s.reachable v = true ∧ (s.finish b below).preorderEnd v = 0
    by_cases hv : v = b
    · rw [hv, preorderEnd_finish_self]
      exact iff_of_false (fun h => h.2 rfl) fun h => hi.count_ne_zero hf h.2
    · rw [preorderEnd_finish hv, and_iff_left hv]
  case unreached =>
    intro v hv
    have hne : v ≠ b := by
      rintro rfl
      rw [show s.reachable v = false from hv] at hb
      cases hb
    rw [preorderEnd_finish hne]
    exact hi.unreached v hv
  case interval =>
    intro v hv
    by_cases hvb : v = b
    · subst hvb
      rw [preorderEnd_finish_self]
      exact ⟨hi.lt_count v hb, le_rfl⟩
    · rw [preorderEnd_finish hvb] at hv ⊢
      exact hi.interval v hv
  case frames =>
    have hchain := hi.frames
    rw [hf] at hchain
    cases below with
    | nil => exact .nil
    | cons => exact (isChain_cons_cons.mp hchain).2.imp fun _ _ h => { h with }
  case bottom =>
    intro v hlast
    apply hi.bottom v
    rw [State.stack, hf]
    cases below with
    | nil => cases hlast
    | cons => exact hlast

lemma Inv.accounted_finish (hnone : (succ b)[p]? = none) :
    Accounted succ root (s.finish b below) := by
  obtain ⟨hb, -⟩ := hi.mem_top hf
  constructor
  case merged =>
    intro u v hm
    rw [hi.endOf_finish hf]
    rcases (merged_finish hi hf hnone).mp hm with hm | ⟨rfl, q, rest, hbelow⟩
    · obtain ⟨h₁, h₂, h₃⟩ := hi.merged u v hm
      exact ⟨h₁, h₂, fun y hy => h₃ y ((hi.mem_stack_finish hf y).mp hy).1⟩
    have hu : (u, q) ∈ s.frames := by
      rw [hf, hbelow]
      simp
    refine ⟨hb, ?_, ?_⟩
    · rw [State.endOf, if_pos ((hi.mem_stack u).mp (mem_map_of_mem hu)).2]
      exact hi.lt_count v hb
    -- the vertex below is now on top
    intro y hy hlt
    rw [show (s.finish v below).stack = below.map Prod.fst from rfl, hbelow] at hy
    rcases mem_cons.mp hy with rfl | hy
    · exact absurd hlt (lt_irrefl _)
    have hpair := hi.pairwise
    rw [hf, hbelow] at hpair
    obtain ⟨f, hfmem, rfl⟩ := mem_map.mp hy
    have := (pairwise_cons.mp (pairwise_cons.mp hpair).2).1 f hfmem
    exact absurd hlt this.le.not_gt
  case child =>
    intro v hv hne
    rw [merged_finish hi hf hnone, hi.mem_stack_finish hf]
    by_cases hvb : v = b
    · right; right
      subst hvb
      refine ⟨rfl, ?_⟩
      have hchain := hi.frames
      rw [hf] at hchain
      cases below with
      | nil => exact absurd (hi.bottom v (by rw [State.stack, hf]; rfl)) hne
      | cons f rest =>
        have hpar : s.parent v = f.1 := (isChain_cons_cons.mp hchain).1.parent
        refine ⟨f.2, rest, ?_⟩
        rw [show (s.finish v (f :: rest)).parent v = f.1 from hpar]
    · exact (hi.child v hv hne).imp (fun h => ⟨h, hvb⟩) .inl

lemma Inv.listed_finish : Listed (s.finish b below) := by
  obtain ⟨hb, hopen⟩ := hi.mem_top hf
  constructor
  case order_nodup =>
    show (s.order ++ [b]).Nodup
    rw [nodup_append]
    refine ⟨hi.order_nodup, nodup_singleton b, ?_⟩
    rintro v hv _ hmem rfl
    rw [mem_singleton.mp hmem] at hv
    exact (hi.mem_order b).mp hv hopen
  case mem_order =>
    intro v
    show v ∈ s.order ++ [b] ↔ _
    rw [mem_append, mem_singleton, hi.mem_order]
    by_cases hv : v = b
    · rw [hv, preorderEnd_finish_self]
      exact iff_of_true (.inr rfl) (hi.count_ne_zero hf)
    · rw [preorderEnd_finish hv, or_iff_left hv]
  case later =>
    intro l u r hsplit v hv hne hle hlt
    replace hsplit : s.order ++ [b] = l ++ u :: r := hsplit
    rcases eq_nil_or_concat r with rfl | ⟨r, x, rfl⟩
    · obtain ⟨hl, hub⟩ := append_inj' hsplit rfl
      obtain rfl := (List.cons.inj hub).1
      rw [← hl, hi.mem_order]
      intro hv0
      have hle' := hi.le_top hf ((hi.mem_stack v).mpr ⟨hv, hv0⟩)
      exact hne (hi.injective v b hv hb (hle'.antisymm hle))
    · rw [concat_eq_append, ← cons_append, ← append_assoc] at hsplit
      obtain ⟨hl, -⟩ := append_inj' hsplit rfl
      have hu : s.preorderEnd u ≠ 0 := by
        rw [← hi.mem_order, hl]
        simp
      have hub : u ≠ b := by
        rintro rfl
        exact hu hopen
      rw [preorderEnd_finish hub] at hlt
      exact hi.later l u r hl v hv hne hle hlt

lemma Inv.finish (hnone : (succ b)[p]? = none) : Inv succ root (s.finish b below) where
  toNumbered := { hi.toNumbered with }
  toStacked := hi.stacked_finish hf
  toNested := by
    refine ⟨fun v hv hne => ?_, fun u v hu hv hne hle hlt => ?_⟩
    · rw [hi.endOf_finish hf, hi.endOf_finish hf]
      exact hi.parent v hv hne
    · rw [hi.endOf_finish hf] at hlt
      exact hi.innermost u v hu hv hne hle hlt
  toAccounted := hi.accounted_finish hf hnone
  toListed := hi.listed_finish hf

/-! ### A vertex is discovered -/

omit hi hf

lemma reachable_discover {v : V} :
    (s.discover b p below w).reachable v = true ↔ v = w ∨ s.reachable v = true := by
  by_cases hv : v = w
  · subst hv
    exact iff_of_true (update_self ..) (.inl rfl)
  · rw [show (s.discover b p below w).reachable v = s.reachable v from update_of_ne hv ..,
      or_iff_right hv]

lemma preorder_discover_self : (s.discover b p below w).preorder w = s.count := update_self ..

lemma parent_discover_self : (s.discover b p below w).parent w = b := update_self ..

lemma stack_discover (hf : s.frames = (b, p) :: below) :
    (s.discover b p below w).stack = w :: s.stack := by
  rw [State.stack, State.stack, hf]
  rfl

variable (hnew : s.reachable w = false)
include hnew

omit [DecidableEq V] in
lemma ne_of_reachable {v : V} (hv : s.reachable v = true) : v ≠ w := by
  rintro rfl
  rw [hv] at hnew
  cases hnew

lemma preorder_discover {v : V} (hv : s.reachable v = true) :
    (s.discover b p below w).preorder v = s.preorder v := update_of_ne (ne_of_reachable hnew hv) ..

lemma parent_discover {v : V} (hv : s.reachable v = true) :
    (s.discover b p below w).parent v = s.parent v := update_of_ne (ne_of_reachable hnew hv) ..

include hi hf

omit hf in
lemma Inv.numbered_discover : Numbered root (s.discover b p below w) := by
  constructor
  case root_reachable => exact reachable_discover.mpr (.inr hi.root_reachable)
  case root_preorder =>
    rw [preorder_discover hnew hi.root_reachable]
    exact hi.root_preorder
  case lt_count =>
    intro v hv
    rcases reachable_discover.mp hv with rfl | hv
    · rw [preorder_discover_self]
      exact Nat.lt_succ_self _
    · rw [preorder_discover hnew hv]
      exact (hi.lt_count v hv).trans (Nat.lt_succ_self _)
  case injective =>
    intro u v hu hv heq
    rcases reachable_discover.mp hu with rfl | hu' <;>
      rcases reachable_discover.mp hv with rfl | hv'
    · rfl
    · rw [preorder_discover_self, preorder_discover hnew hv'] at heq
      exact absurd heq (hi.lt_count v hv').ne'
    · rw [preorder_discover_self, preorder_discover hnew hu'] at heq
      exact absurd heq (hi.lt_count u hu').ne
    · rw [preorder_discover hnew hu', preorder_discover hnew hv'] at heq
      exact hi.injective u v hu' hv' heq
  case onto =>
    intro k hk
    rcases Nat.lt_or_eq_of_le (Nat.le_of_lt_succ hk) with hlt | rfl
    · obtain ⟨v, hv, hvk⟩ := hi.onto k hlt
      exact ⟨v, reachable_discover.mpr (.inr hv), (preorder_discover hnew hv).trans hvk⟩
    · exact ⟨w, reachable_discover.mpr (.inl rfl), preorder_discover_self⟩

lemma Inv.stacked_discover (hw : (succ b)[p]? = some w) :
    Stacked succ root (s.discover b p below w) := by
  obtain ⟨hb, -⟩ := hi.mem_top hf
  constructor
  case mem_stack =>
    intro v
    rw [stack_discover hf, mem_cons, hi.mem_stack, reachable_discover]
    show v = w ∨ s.reachable v = true ∧ s.preorderEnd v = 0 ↔ _ ∧ s.preorderEnd v = 0
    by_cases hvw : v = w
    · rw [hvw]
      exact iff_of_true (.inl rfl) ⟨.inl rfl, hi.unreached w hnew⟩
    · rw [or_iff_right hvw, or_iff_right hvw]
  case unreached =>
    intro v hv
    by_contra hdone
    rw [reachable_discover.mpr (.inr (hi.reachable_of_done hdone))] at hv
    cases hv
  case interval =>
    intro v hv
    rw [preorder_discover hnew (hi.reachable_of_done hv)]
    obtain ⟨h₁, h₂⟩ := hi.interval v hv
    exact ⟨h₁, Nat.le_succ_of_le h₂⟩
  case frames =>
    have hopen : ∀ {f}, f ∈ s.frames → s.reachable f.1 = true := fun h =>
      ((hi.mem_stack _).mp (mem_map_of_mem h)).1
    have hold : s.frames.IsChain (Rests succ (s.discover b p below w) root) := by
      refine hi.frames.imp_of_mem_imp fun f g hfm hgm h =>
        ⟨(parent_discover hnew (hopen hfm)).trans h.parent, h.ne_root, h.pos, h.taken, ?_⟩
      rw [preorder_discover hnew (hopen hfm), preorder_discover hnew (hopen hgm)]
      exact h.preorder
    rw [hf] at hold
    -- the new frame rests on the one that took its vertex
    have hrests : Rests succ (s.discover b p below w) root (w, 0) (b, p + 1) := by
      refine ⟨parent_discover_self, (ne_of_reachable hnew hi.root_reachable).symm, Nat.succ_pos p,
        hw, ?_⟩
      rw [preorder_discover_self, preorder_discover hnew hb]
      exact hi.lt_count b hb
    refine isChain_cons_cons.mpr ⟨hrests, ?_⟩
    cases below with
    | nil => exact isChain_singleton _
    | cons =>
      obtain ⟨h, hrest⟩ := isChain_cons_cons.mp hold
      exact isChain_cons_cons.mpr ⟨{ h with }, hrest⟩
  case bottom =>
    intro v hlast
    apply hi.bottom v
    rw [State.stack, hf]
    exact hlast

lemma Inv.nested_discover (hw : (succ b)[p]? = some w) :
    Nested succ root (s.discover b p below w) := by
  obtain ⟨hb, hopen⟩ := hi.mem_top hf
  have hopenEnd : ∀ {v}, s.preorderEnd v = 0 → (s.discover b p below w).endOf v = s.count + 1 :=
    fun hv => if_pos hv
  have hdoneEnd : ∀ {v}, s.preorderEnd v ≠ 0 →
      (s.discover b p below w).endOf v = s.preorderEnd v := fun hv => if_neg hv
  constructor
  case parent =>
    intro v hv hvr
    rcases reachable_discover.mp hv with rfl | hv
    · rw [parent_discover_self, preorder_discover_self, preorder_discover hnew hb]
      refine ⟨reachable_discover.mpr (.inr hb), mem_of_getElem? hw, hi.lt_count b hb, ?_⟩
      rw [hopenEnd (hi.unreached v hnew), hopenEnd hopen]
    obtain ⟨h₁, h₂, h₃, h₄⟩ := hi.parent v hv hvr
    rw [parent_discover hnew hv, preorder_discover hnew hv, preorder_discover hnew h₁]
    refine ⟨reachable_discover.mpr (.inr h₁), h₂, h₃, ?_⟩
    by_cases hv0 : s.preorderEnd v = 0
    · have hp0 := hi.parent_mem_stack ((hi.mem_stack v).mpr ⟨hv, hv0⟩) hvr
      rw [hopenEnd hv0, hopenEnd ((hi.mem_stack _).mp hp0).2]
    · rw [hdoneEnd hv0]
      rw [State.endOf, if_neg hv0] at h₄
      exact h₄.trans (s.endOf_le_discover _)
  case innermost =>
    intro u v hu hv huv hle hlt
    rcases reachable_discover.mp hv with rfl | hv'
    · refine ⟨(ne_of_reachable hnew hi.root_reachable).symm, ?_⟩
      have hu := (reachable_discover.mp hu).resolve_left huv
      rw [parent_discover_self, preorder_discover hnew hu, preorder_discover hnew hb]
      -- the interval of the other vertex is open
      apply hi.le_top hf
      refine (hi.mem_stack u).mpr ⟨hu, ?_⟩
      by_contra h0
      rw [preorder_discover_self, hdoneEnd h0] at hlt
      exact absurd (hi.interval u h0).2 hlt.not_ge
    rw [preorder_discover hnew hv'] at hle hlt
    rcases reachable_discover.mp hu with rfl | hu
    · rw [preorder_discover_self] at hle
      exact absurd (hi.lt_count v hv') hle.not_gt
    rw [preorder_discover hnew hu] at hle ⊢
    have hlt' : s.preorder v < s.endOf u := by
      by_cases h0 : s.preorderEnd u = 0
      · rw [State.endOf, if_pos h0]
        exact hi.lt_count v hv'
      · rwa [State.endOf, if_neg h0, ← hdoneEnd h0]
    obtain ⟨hvr, hpv⟩ := hi.innermost u v hu hv' huv hle hlt'
    refine ⟨hvr, ?_⟩
    rw [parent_discover hnew hv', preorder_discover hnew (hi.parent v hv' hvr).1]
    exact hpv

lemma Inv.accounted_discover : Accounted succ root (s.discover b p below w) := by
  constructor
  case merged =>
    intro u v hm
    rw [merged_discover hf] at hm
    obtain ⟨h₁, h₂, h₃⟩ := hi.merged u v hm
    rw [preorder_discover hnew h₁, preorder_discover hnew (hm.reachable hi), stack_discover hf]
    refine ⟨reachable_discover.mpr (.inr h₁), h₂.trans_le (s.endOf_le_discover u), ?_⟩
    intro y hy hlt
    rcases mem_cons.mp hy with rfl | hy
    · rw [preorder_discover_self]
      exact hi.lt_count v h₁
    · rw [preorder_discover hnew ((hi.mem_stack y).mp hy).1] at hlt ⊢
      exact h₃ y hy hlt
  case child =>
    intro v hv hvr
    rw [stack_discover hf, merged_discover hf]
    rcases reachable_discover.mp hv with rfl | hv
    · exact .inl (mem_cons_self ..)
    · rw [parent_discover hnew hv]
      exact (hi.child v hv hvr).imp_left (mem_cons_of_mem _)

omit hf in
lemma Inv.listed_discover : Listed (s.discover b p below w) := by
  refine ⟨hi.order_nodup, hi.mem_order, fun l u r hsplit v hv hvu hle hlt => ?_⟩
  have hu : s.preorderEnd u ≠ 0 := by
    rw [← hi.mem_order, show s.order = _ from hsplit]
    simp
  replace hlt : _ < s.preorderEnd u := hlt
  rcases reachable_discover.mp hv with rfl | hv
  · rw [preorder_discover_self] at hlt
    exact absurd (hi.interval u hu).2 hlt.not_ge
  rw [preorder_discover hnew hv] at hle hlt
  rw [preorder_discover hnew (hi.reachable_of_done hu)] at hle
  exact hi.later l u r hsplit v hv hvu hle hlt

lemma Inv.discover (hw : (succ b)[p]? = some w) : Inv succ root (s.discover b p below w) where
  toNumbered := hi.numbered_discover hnew
  toStacked := hi.stacked_discover hf hnew hw
  toNested := hi.nested_discover hf hnew hw
  toAccounted := hi.accounted_discover hf hnew
  toListed := hi.listed_discover hnew

end DepthFirst
