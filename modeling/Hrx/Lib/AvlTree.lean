import Mathlib.Data.List.Pairwise
import Mathlib.Tactic.Tauto
import Mathlib.Order.Lattice

/-!
# Height-balanced search trees

An AVL tree with stored heights: rotations, rebalancing along the path of an insertion or a removal,
removal by the successor, search, first node and successor.  Every operation is described by what it
does to the list of nodes in order; the rotations do nothing to it.
-/

namespace AvlTree

open List

/-- A binary tree whose nodes store a key, a value and a height. -/
inductive Tree (κ α : Type*) where
  | leaf : Tree κ α
  | node (height : ℕ) (left : Tree κ α) (key : κ) (value : α) (right : Tree κ α) : Tree κ α
deriving DecidableEq, Repr

namespace Tree

variable {κ α : Type*}

/-! ### Balancing -/

def height : Tree κ α → ℕ
  | leaf => 0
  | node h _ _ _ _ => h

def left : Tree κ α → Tree κ α
  | leaf => leaf
  | node _ l _ _ _ => l

def right : Tree κ α → Tree κ α
  | leaf => leaf
  | node _ _ _ _ r => r

variable (l : Tree κ α)

/-- A node with its height updated from its children. -/
def make (k : κ) (v : α) (r : Tree κ α) : Tree κ α := node (1 + max l.height r.height) l k v r

/-- The right child becomes the root. -/
def rotateLeft : Tree κ α → Tree κ α
  | node _ l k v (node _ l' k' v' r') => make (make l k v l') k' v' r'
  | t => t

/-- The left child becomes the root. -/
def rotateRight : Tree κ α → Tree κ α
  | node _ (node _ l k v r) k' v' r' => make l k v (make r k' v' r')
  | t => t

/-- A node whose children differ by at most one rebalancing step in height. -/
def rebalance (k : κ) (v : α) (r : Tree κ α) : Tree κ α :=
  if r.height + 1 < l.height then
    rotateRight (make (if l.left.height < l.right.height then rotateLeft l else l) k v r)
  else if l.height + 1 < r.height then
    rotateLeft (make l k v (if r.right.height < r.left.height then rotateRight r else r))
  else make l k v r

def toList : Tree κ α → List (κ × α)
  | leaf => []
  | node _ l k v r => l.toList ++ (k, v) :: r.toList

@[simp] lemma toList_leaf : (leaf : Tree κ α).toList = [] := rfl

@[simp] lemma toList_node (h : ℕ) (l : Tree κ α) (k : κ) (v : α) (r : Tree κ α) :
    (node h l k v r).toList = l.toList ++ (k, v) :: r.toList := rfl

@[simp] lemma toList_make (k : κ) (v : α) (r : Tree κ α) :
    (make l k v r).toList = l.toList ++ (k, v) :: r.toList := rfl

@[simp] lemma toList_rotateLeft (t : Tree κ α) : t.rotateLeft.toList = t.toList := by
  unfold rotateLeft
  split <;> simp

@[simp] lemma toList_rotateRight (t : Tree κ α) : t.rotateRight.toList = t.toList := by
  unfold rotateRight
  split <;> simp

/-- Rebalancing keeps the nodes in order. -/
@[simp] lemma toList_rebalance (k : κ) (v : α) (r : Tree κ α) :
    (rebalance l k v r).toList = l.toList ++ (k, v) :: r.toList := by
  unfold rebalance
  split_ifs <;> simp

/-! ### Operations -/

def first? : Tree κ α → Option (κ × α)
  | leaf => none
  | node _ leaf k v _ => some (k, v)
  | node _ l _ _ _ => l.first?

def removeFirst : Tree κ α → Tree κ α
  | leaf => leaf
  | node _ leaf _ _ r => r
  | node _ l k v r => rebalance l.removeFirst k v r

section order

variable [LT κ] [DecidableLT κ]

def find? (t : Tree κ α) (k : κ) : Option α :=
  match t with
  | leaf => none
  | node _ l key v r => if k < key then l.find? k else if key < k then r.find? k else some v

def insertNew (t : Tree κ α) (k : κ) (v : α) : Tree κ α :=
  match t with
  | leaf => make leaf k v leaf
  | node _ l key value r =>
    if k < key then rebalance (l.insertNew k v) key value r
    else rebalance l key value (r.insertNew k v)

def update (t : Tree κ α) (k : κ) (f : α → α) : Tree κ α :=
  match t with
  | leaf => leaf
  | node h l key v r =>
    if k < key then node h (l.update k f) key v r
    else if key < k then node h l key v (r.update k f)
    else node h l key (f v) r

/-- The tree of two children whose node is removed: with both present, the successor takes its
place. -/
def join (l r : Tree κ α) : Tree κ α :=
  match l with
  | leaf => r
  | l =>
    match r.first? with
    | none => l
    | some (k, v) => rebalance l k v r.removeFirst

def erase (t : Tree κ α) (k : κ) : Tree κ α :=
  match t with
  | leaf => leaf
  | node _ l key v r =>
    if k < key then rebalance (l.erase k) key v r
    else if key < k then rebalance l key v (r.erase k)
    else join l r

def successor? (t : Tree κ α) (k : κ) : Option (κ × α) :=
  match t with
  | leaf => none
  | node _ l key v r =>
    if k < key then (l.successor? k).or (some (key, v))
    else if key < k then r.successor? k
    else r.first?

end order

/-! ### The first node -/

lemma first?_eq_head? (t : Tree κ α) : t.first? = t.toList.head? := by
  induction t with
  | leaf => rfl
  | node h l k v r ihl =>
    cases l with
    | leaf => rfl
    | node h' l' k' v' r' =>
      have hne : (node h' l' k' v' r').toList ≠ [] := by simp
      obtain ⟨x, hx⟩ := Option.isSome_iff_exists.mp (isSome_head?.mpr hne)
      rw [toList_node, List.head?_append, hx, Option.some_or, ← hx]
      exact ihl

lemma toList_removeFirst (t : Tree κ α) : t.removeFirst.toList = t.toList.tail := by
  induction t with
  | leaf => rfl
  | node h l k v r ihl =>
    cases l with
    | leaf => rfl
    | node h' l' k' v' r' =>
      have hne : (node h' l' k' v' r').toList ≠ [] := by simp
      rw [toList_node, tail_append_of_ne_nil hne, ← ihl, removeFirst, toList_rebalance]
      exact fun hc => nomatch hc

lemma toList_join (l r : Tree κ α) : (join l r).toList = l.toList ++ r.toList := by
  cases l with
  | leaf => rfl
  | node h l' k v r' =>
    have hfirst := first?_eq_head? r
    show (match r.first? with
      | none => node h l' k v r'
      | some (k'', v'') => rebalance (node h l' k v r') k'' v'' r.removeFirst).toList = _
    cases hr : r.first? with
    | none =>
      rw [hr] at hfirst
      rw [List.head?_eq_none_iff.mp hfirst.symm, append_nil]
    | some =>
      rw [hr] at hfirst
      obtain ⟨rest, hrest⟩ := List.head?_eq_some_iff.mp hfirst.symm
      rw [toList_rebalance, toList_removeFirst, hrest, tail_cons]

/-! ### Ordered trees -/

variable [LinearOrder κ]

def Ordered (t : Tree κ α) : Prop := t.toList.Pairwise fun a b => a.1 < b.1

variable {k : κ} {v : α} {t : Tree κ α}

lemma ordered_node {h : ℕ} {l r : Tree κ α} :
    (node h l k v r).Ordered ↔ l.Ordered ∧ r.Ordered ∧ (∀ x ∈ l.toList, x.1 < k) ∧
      (∀ x ∈ r.toList, k < x.1) := by
  unfold Ordered
  rw [toList_node, pairwise_append, pairwise_cons]
  constructor
  · rintro ⟨hl, ⟨hk, hr⟩, hcross⟩
    exact ⟨hl, hr, fun x hx => hcross x hx (k, v) (mem_cons_self ..), hk⟩
  rintro ⟨hl, hr, hlk, hkr⟩
  refine ⟨hl, ⟨hkr, hr⟩, fun x hx y hy => ?_⟩
  rcases mem_cons.mp hy with rfl | hy
  · exact hlk x hx
  · exact (hlk x hx).trans (hkr y hy)

variable (h : t.Ordered)
include h

/-- The first node of an ordered tree has the least key. -/
lemma Ordered.first?_eq_some_iff {x : κ × α} :
    t.first? = some x ↔ x ∈ t.toList ∧ ∀ y ∈ t.toList, x.1 ≤ y.1 := by
  unfold Ordered at h
  rw [first?_eq_head?]
  cases hl : t.toList with
  | nil => simp
  | cons a =>
    rw [hl, pairwise_cons] at h
    rw [List.head?_cons, Option.some.injEq]
    constructor
    · rintro rfl
      refine ⟨mem_cons_self .., fun y hy => ?_⟩
      rcases mem_cons.mp hy with rfl | hy
      · exact le_rfl
      · exact (h.1 y hy).le
    · rintro ⟨hx, hle⟩
      rcases mem_cons.mp hx with rfl | hx
      · rfl
      · exact absurd (h.1 x hx) (hle a (mem_cons_self ..)).not_gt

lemma Ordered.find?_eq_some_iff : t.find? k = some v ↔ (k, v) ∈ t.toList := by
  induction t with
  | leaf => simp [find?]
  | node height l key value r ihl ihr =>
    obtain ⟨hl, hr, hlk, hkr⟩ := ordered_node.mp h
    rw [find?, toList_node, mem_append, mem_cons]
    split_ifs with hlt hgt
    · rw [ihl hl]
      refine ⟨.inl, fun hmem => ?_⟩
      rcases hmem with hmem | hmem | hmem
      · exact hmem
      · exact absurd hlt (by rw [(Prod.mk.inj hmem).1]; exact lt_irrefl _)
      · exact absurd (hkr _ hmem) hlt.le.not_gt
    · rw [ihr hr]
      refine ⟨fun hmem => .inr (.inr hmem), fun hmem => ?_⟩
      rcases hmem with hmem | hmem | hmem
      · exact absurd (hlk _ hmem) hgt.le.not_gt
      · exact absurd hgt (by rw [(Prod.mk.inj hmem).1]; exact lt_irrefl _)
      · exact hmem
    · obtain rfl : k = key := (not_lt.mp hgt).antisymm (not_lt.mp hlt)
      refine ⟨fun hv => .inr (.inl (by rw [Option.some.inj hv])), fun hmem => ?_⟩
      rcases hmem with hmem | hmem | hmem
      · exact absurd (hlk _ hmem) (lt_irrefl _)
      · rw [(Prod.mk.inj hmem).2]
      · exact absurd (hkr _ hmem) (lt_irrefl _)

lemma Ordered.find?_eq_none_iff : t.find? k = none ↔ ∀ x ∈ t.toList, x.1 ≠ k := by
  constructor
  · rintro hnone ⟨k', v⟩ hx rfl
    have hsome := h.find?_eq_some_iff.mpr hx
    rw [hnone] at hsome
    exact absurd hsome (by simp)
  · intro hnone
    cases hfind : t.find? k with
    | none => rfl
    | some => exact absurd rfl (hnone _ (h.find?_eq_some_iff.mp hfind))

/-- The first node in terms of the search. -/
lemma Ordered.first?_iff_find? : t.first? = some (k, v) ↔
      t.find? k = some v ∧ ∀ k' v', t.find? k' = some v' → k ≤ k' := by
  rw [h.first?_eq_some_iff, h.find?_eq_some_iff]
  constructor
  · rintro ⟨hmem, hle⟩
    exact ⟨hmem, fun k' v' hfind => hle _ (h.find?_eq_some_iff.mp hfind)⟩
  · rintro ⟨hmem, hle⟩
    exact ⟨hmem, fun y hy => hle y.1 y.2 (h.find?_eq_some_iff.mpr hy)⟩

lemma Ordered.first?_eq_none_iff : t.first? = none ↔ ∀ k, t.find? k = none := by
  rw [first?_eq_head?, List.head?_eq_none_iff]
  constructor
  · intro hnil k
    rw [h.find?_eq_none_iff, hnil]
    simp
  · intro hnone
    refine eq_nil_iff_forall_not_mem.mpr fun x hx => ?_
    exact h.find?_eq_none_iff.mp (hnone x.1) x hx rfl

/-! ### Inserting -/

omit h in
lemma mem_toList_insertNew {x : κ × α} :
    x ∈ (t.insertNew k v).toList ↔ x = (k, v) ∨ x ∈ t.toList := by
  induction t with
  | leaf => simp [insertNew]
  | node height l key value r ihl ihr =>
    rw [insertNew]
    split_ifs
    · rw [toList_rebalance, toList_node, mem_append, mem_append, ihl, or_assoc]
    · rw [toList_rebalance, toList_node, mem_append, mem_append, mem_cons, mem_cons, ihr]
      tauto

lemma Ordered.insertNew (v : α) (hk : ∀ x ∈ t.toList, x.1 ≠ k) : (t.insertNew k v).Ordered := by
  induction t with
  | leaf => exact pairwise_singleton _ _
  | node height l key value r ihl ihr =>
    obtain ⟨hl, hr, hlk, hkr⟩ := ordered_node.mp h
    rw [toList_node] at hk
    unfold Ordered
    rw [Tree.insertNew]
    split_ifs with hlt
    · rw [toList_rebalance]
      refine (ordered_node (h := height)).mpr ⟨ihl hl fun x hx => hk x (by simp [hx]), hr, ?_, hkr⟩
      intro x hx
      rcases mem_toList_insertNew.mp hx with rfl | hx
      · exact hlt
      · exact hlk x hx
    · rw [toList_rebalance]
      refine (ordered_node (h := height)).mpr ⟨hl, ihr hr fun x hx => hk x (by simp [hx]), hlk, ?_⟩
      intro x hx
      rcases mem_toList_insertNew.mp hx with rfl | hx
      · exact lt_of_le_of_ne (not_lt.mp hlt) (hk (key, value) (by simp))
      · exact hkr x hx

lemma Ordered.find?_insertNew (v : α) (hk : ∀ x ∈ t.toList, x.1 ≠ k) (e : κ) :
    (t.insertNew k v).find? e = if e = k then some v else t.find? e := by
  apply Option.ext
  intro x
  rw [(h.insertNew v hk).find?_eq_some_iff, mem_toList_insertNew]
  split_ifs with he
  · subst he
    constructor
    · rintro (heq | hmem)
      · rw [(Prod.mk.inj heq).2]
      · exact absurd rfl (hk _ hmem)
    · intro heq
      exact .inl (by rw [Option.some.inj heq])
  · rw [h.find?_eq_some_iff]
    exact ⟨fun hmem => hmem.resolve_left fun heq => he (Prod.mk.inj heq).1, .inr⟩

/-! ### Updating -/

lemma Ordered.toList_update (k : κ) (f : α → α) :
    (t.update k f).toList = t.toList.map fun x => if x.1 = k then (x.1, f x.2) else x := by
  induction t with
  | leaf => rfl
  | node height l key value r ihl ihr =>
    obtain ⟨hl, hr, hlk, hkr⟩ := ordered_node.mp h
    have hsame : ∀ l' : List (κ × α), (∀ x ∈ l', x.1 ≠ k) →
        l'.map (fun x => if x.1 = k then (x.1, f x.2) else x) = l' := by
      intro l' hne
      rw [map_congr_left (g := id) fun x hx => by simp [hne x hx], map_id]
    rw [toList_node, map_append, map_cons]
    rcases lt_trichotomy k key with hlt | rfl | hgt
    · have hr_ne : ∀ x ∈ r.toList, x.1 ≠ k := fun x hx => (hlt.trans (hkr x hx)).ne'
      rw [update, if_pos hlt, toList_node, ihl hl, hsame _ hr_ne, if_neg hlt.ne']
    · rw [update, if_neg (lt_irrefl k), if_neg (lt_irrefl k), toList_node,
        hsame _ fun x hx => (hlk x hx).ne, hsame _ fun x hx => (hkr x hx).ne', if_pos rfl]
    · have hl_ne : ∀ x ∈ l.toList, x.1 ≠ k := fun x hx => ((hlk x hx).trans hgt).ne
      rw [update, if_neg hgt.le.not_gt, if_pos hgt, toList_node, ihr hr, hsame _ hl_ne,
        if_neg hgt.ne]

lemma Ordered.update (k : κ) (f : α → α) : (t.update k f).Ordered := by
  have hkeys : ∀ x : κ × α, (if x.1 = k then (x.1, f x.2) else x).1 = x.1 := by
    intro x
    split <;> rfl
  unfold Ordered
  rw [h.toList_update, pairwise_map]
  exact h.imp fun hlt => by rwa [hkeys, hkeys]

lemma Ordered.find?_update (k : κ) (f : α → α) (e : κ) :
    (t.update k f).find? e = if e = k then (t.find? e).map f else t.find? e := by
  apply Option.ext
  intro x
  rw [(h.update k f).find?_eq_some_iff, h.toList_update, mem_map]
  split_ifs with he
  · subst he
    rw [Option.map_eq_some_iff]
    constructor
    · rintro ⟨⟨k', v⟩, hmem, heq⟩
      split_ifs at heq with hkey
      · obtain rfl : k' = e := hkey
        exact ⟨v, h.find?_eq_some_iff.mpr hmem, (Prod.mk.inj heq).2⟩
      · exact absurd (Prod.mk.inj heq).1 hkey
    · rintro ⟨v, hfind, rfl⟩
      exact ⟨(e, v), h.find?_eq_some_iff.mp hfind, if_pos rfl⟩
  · rw [h.find?_eq_some_iff]
    constructor
    · rintro ⟨⟨k', v⟩, hmem, heq⟩
      split_ifs at heq with hkey
      · exact absurd ((Prod.mk.inj heq).1.symm.trans hkey) he
      · rwa [← heq]
    · exact fun hmem => ⟨(e, x), hmem, if_neg he⟩

/-! ### Removing -/

lemma Ordered.toList_erase (k : κ) : (t.erase k).toList = t.toList.filter fun x => x.1 ≠ k := by
  induction t with
  | leaf => rfl
  | node height l key value r ihl ihr =>
    obtain ⟨hl, hr, hlk, hkr⟩ := ordered_node.mp h
    have hsame : ∀ l' : List (κ × α), (∀ x ∈ l', x.1 ≠ k) → l'.filter (fun x => x.1 ≠ k) = l' :=
      fun l' hne => filter_eq_self.mpr fun x hx => by simpa using hne x hx
    rw [erase, toList_node, filter_append]
    split_ifs with hlt hgt
    · have hr_ne : ∀ x ∈ r.toList, x.1 ≠ k := fun x hx => (hlt.trans (hkr x hx)).ne'
      rw [toList_rebalance, ihl hl, filter_cons_of_pos (by simpa using hlt.ne'), hsame _ hr_ne]
    · have hl_ne : ∀ x ∈ l.toList, x.1 ≠ k := fun x hx => ((hlk x hx).trans hgt).ne
      rw [toList_rebalance, ihr hr, filter_cons_of_pos (by simpa using hgt.ne), hsame _ hl_ne]
    · obtain rfl : k = key := (not_lt.mp hgt).antisymm (not_lt.mp hlt)
      rw [hsame _ fun x hx => (hlk x hx).ne, filter_cons_of_neg (by simp),
        hsame _ fun x hx => (hkr x hx).ne']
      exact toList_join l r

lemma Ordered.erase (k : κ) : (t.erase k).Ordered := by
  unfold Ordered
  rw [h.toList_erase]
  exact h.filter _

lemma Ordered.find?_erase (k e : κ) : (t.erase k).find? e = if e = k then none else t.find? e := by
  apply Option.ext
  intro x
  rw [(h.erase k).find?_eq_some_iff, h.toList_erase, mem_filter]
  split_ifs with he
  · simp [he]
  · rw [h.find?_eq_some_iff]
    simp [he]

/-- The successor is the first node of those behind the key. -/
lemma Ordered.successor?_eq (k : κ) :
    t.successor? k = (t.toList.filter fun x => k < x.1).head? := by
  induction t with
  | leaf => rfl
  | node height l key value r ihl ihr =>
    obtain ⟨hl, hr, hlk, hkr⟩ := ordered_node.mp h
    rw [successor?, toList_node, filter_append]
    split_ifs with hlt hgt
    · rw [ihl hl, filter_cons_of_pos (by simpa using hlt), List.head?_append, List.head?_cons]
    · have hnone : l.toList.filter (fun x => k < x.1) = [] :=
        filter_eq_nil_iff.mpr fun x hx => by simpa using ((hlk x hx).trans hgt).le
      rw [hnone, ihr hr, filter_cons_of_neg (by simpa using hgt.le), nil_append]
    obtain rfl : k = key := (not_lt.mp hgt).antisymm (not_lt.mp hlt)
    have hnone : l.toList.filter (fun x => k < x.1) = [] :=
      filter_eq_nil_iff.mpr fun x hx => by simpa using (hlk x hx).le
    have hall : r.toList.filter (fun x => k < x.1) = r.toList :=
      filter_eq_self.mpr fun x hx => by simpa using hkr x hx
    rw [hnone, filter_cons_of_neg (by simp), hall, first?_eq_head?, nil_append]

/-- Behind the first node, the successor is what is first without it. -/
lemma Ordered.successor?_of_first? (hfirst : t.first? = some (k, v)) :
    t.successor? k = (t.erase k).first? := by
  have hle := (h.first?_eq_some_iff.mp hfirst).2
  rw [h.successor?_eq, first?_eq_head?, h.toList_erase]
  congr 1
  refine filter_congr fun x hx => ?_
  rw [decide_eq_decide]
  exact ⟨ne_of_gt, lt_of_le_of_ne (hle x hx) ∘ Ne.symm⟩

end Tree

end AvlTree
