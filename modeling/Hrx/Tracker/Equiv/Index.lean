import Hrx.Tracker.Index

/-!
# Correctness of the pending-epoch index

The index is a set of pairs of an epoch and a waiter; insertion adds a pair, removal takes it away,
the minimum is a pair of least epoch, and the published epoch bounds every epoch from below.
-/

namespace Hrx.Tracker

open AvlTree List Option

namespace AxisIndex

variable {α : Type}

def Holds (ix : AxisIndex α) (epoch : ℕ) (waiter : α) : Prop :=
  ∃ node, ix.root.find? epoch = some node ∧ waiter ∈ node.1 :: node.2

/-- The tree is ordered, every waiter is indexed once, and both caches are right. -/
structure WellFormed (ix : AxisIndex α) : Prop where
  ordered : ix.root.Ordered
  nodup : ∀ epoch node, ix.root.find? epoch = some node → (node.1 :: node.2).Nodup
  unique : ∀ epoch epoch' waiter, ix.Holds epoch waiter → ix.Holds epoch' waiter → epoch = epoch'
  minimum_eq : ix.minimum = ix.root.first?.map fun x => (x.1, x.2.1)
  next_eq : ix.nextWaitEpoch = publishedEpoch ix.minimum

lemma not_holds_empty {epoch : ℕ} {waiter : α} : ¬ (empty : AxisIndex α).Holds epoch waiter :=
  fun ⟨_, hfind, _⟩ => nomatch hfind

lemma WellFormed.empty : (empty : AxisIndex α).WellFormed where
  ordered := List.Pairwise.nil
  nodup := fun _ _ hfind => nomatch hfind
  unique := fun _ _ _ h => absurd h not_holds_empty
  minimum_eq := rfl
  next_eq := rfl

/-! ### Queries -/

variable {ix : AxisIndex α} {epoch : ℕ} {waiter : α}

/-- A node that is found holds exactly its waiters. -/
lemma holds_iff_of_find? {node : α × List α} (hfind : ix.root.find? epoch = some node) :
    ix.Holds epoch waiter ↔ waiter ∈ node.1 :: node.2 := by
  constructor
  · rintro ⟨node', hfind', hx⟩
    rw [hfind] at hfind'
    rwa [Option.some.inj hfind']
  · exact fun hx => ⟨node, hfind, hx⟩

/-- The cached minimum is the first node. -/
lemma WellFormed.minimum_eq_some_iff (h : ix.WellFormed) :
    ix.minimum = some (epoch, waiter) ↔ ∃ peers, ix.root.first? = some (epoch, waiter, peers) := by
  rw [h.minimum_eq, map_eq_some_iff]
  constructor
  · rintro ⟨⟨e, w, peers⟩, hfirst, hpair⟩
    cases hpair
    exact ⟨peers, hfirst⟩
  · exact fun ⟨peers, hfirst⟩ => ⟨_, hfirst, rfl⟩

/-- The node of the minimum, the one of least epoch. -/
lemma WellFormed.minimum_node (h : ix.WellFormed) (hmin : ix.minimum = some (epoch, waiter)) :
    ∃ peers, ix.root.find? epoch = some (waiter, peers) ∧
      ∀ e node, ix.root.find? e = some node → epoch ≤ e := by
  obtain ⟨peers, hfirst⟩ := h.minimum_eq_some_iff.mp hmin
  exact ⟨peers, h.ordered.first?_iff_find?.mp hfirst⟩

/-- The minimum is an indexed waiter of least epoch. -/
lemma WellFormed.minimum_spec (h : ix.WellFormed) (hmin : ix.minimum = some (epoch, waiter)) :
    ix.Holds epoch waiter ∧ ∀ e x, ix.Holds e x → epoch ≤ e := by
  obtain ⟨peers, hfind, hle⟩ := h.minimum_node hmin
  exact ⟨⟨_, hfind, mem_cons_self ..⟩, fun e x ⟨node, hnode, _⟩ => hle e node hnode⟩

/-- Without a minimum nothing is indexed. -/
lemma WellFormed.minimum_none (h : ix.WellFormed) (hmin : ix.minimum = none) :
    ¬ ix.Holds epoch waiter := by
  rw [h.minimum_eq, map_eq_none_iff, h.ordered.first?_eq_none_iff] at hmin
  rintro ⟨node, hfind, -⟩
  cases (hmin epoch).symm.trans hfind

/-- The published epoch is a lower bound. -/
lemma WellFormed.nextWaitEpoch_le (h : ix.WellFormed) (hholds : ix.Holds epoch waiter) :
    ix.nextWaitEpoch ≤ epoch := by
  rw [h.next_eq]
  cases hmin : ix.minimum with
  | none => exact absurd hholds (h.minimum_none hmin)
  | some => exact (h.minimum_spec hmin).2 epoch waiter hholds

/-! ### Inserting -/

/-- The nodes after an insertion. -/
lemma WellFormed.insert_root (h : ix.WellFormed) (epoch : ℕ) (waiter : α) :
    (ix.insert epoch waiter).root.Ordered ∧
    ∀ e, (ix.insert epoch waiter).root.find? e =
      if e = epoch then
        some (match ix.root.find? epoch with
          | some node => (node.1, waiter :: node.2)
          | none => (waiter, []))
      else ix.root.find? e := by
  unfold insert
  cases hfind : ix.root.find? epoch with
  | none =>
    have habsent := h.ordered.find?_eq_none_iff.mp hfind
    exact ⟨h.ordered.insertNew _ habsent, h.ordered.find?_insertNew _ habsent⟩
  | some =>
    refine ⟨h.ordered.update _ _, fun e => ?_⟩
    rw [h.ordered.find?_update]
    split_ifs with he
    · rw [he, hfind, map_some]
    · rfl

lemma WellFormed.holds_insert (h : ix.WellFormed) {e : ℕ} {x : α} :
    (ix.insert epoch waiter).Holds e x ↔ (e = epoch ∧ x = waiter) ∨ ix.Holds e x := by
  unfold Holds
  rw [(h.insert_root epoch waiter).2 e]
  split_ifs with he
  · subst he
    cases hfind : ix.root.find? e with
    | none => simp
    | some =>
      simp only [Option.some.injEq, exists_eq_left', mem_cons]
      tauto
  · simp [he]

/-- The earliest waiter after an insertion. -/
lemma WellFormed.insert_minimum (h : ix.WellFormed) :
    (ix.insert epoch waiter).minimum =
      (ix.insert epoch waiter).root.first?.map fun x => (x.1, x.2.1) := by
  obtain ⟨hordered, hfind⟩ := h.insert_root epoch waiter
  have hnew := hfind epoch
  rw [if_pos rfl] at hnew
  -- a node of the new tree is the one of `epoch` or an old one
  have hleast : ∀ {k : ℕ}, k ≤ epoch → (∀ k' v, ix.root.find? k' = some v → k ≤ k') →
      ∀ k' v, (ix.insert epoch waiter).root.find? k' = some v → k ≤ k' := by
    intro k hk hle k' v hv
    rw [hfind k'] at hv
    split_ifs at hv with hk'
    · exact hk'.symm ▸ hk
    · exact hle k' v hv
  cases hmin : ix.minimum with
  | none =>
    have hnone : ∀ k, ix.root.find? k = none := by
      rw [h.minimum_eq, map_eq_none_iff, h.ordered.first?_eq_none_iff] at hmin
      exact hmin
    rw [hnone epoch] at hnew
    have hfirst := hordered.first?_iff_find?.mpr
      ⟨hnew, hleast le_rfl fun k' v hv => absurd ((hnone k').symm.trans hv) (by simp)⟩
    rw [hfirst, insert, hmin]
    rfl
  | some m =>
    obtain ⟨minimumEpoch, minimum⟩ := m
    obtain ⟨peers, hmem, hle⟩ := h.minimum_node hmin
    have hnew_min : (ix.insert epoch waiter).minimum =
        if epoch < minimumEpoch then some (epoch, waiter) else some (minimumEpoch, minimum) := by
      rw [insert, hmin]
    rw [hnew_min]
    split_ifs with hlt
    · have hnone : ix.root.find? epoch = none := by
        cases hv : ix.root.find? epoch with
        | none => rfl
        | some v => exact absurd (hle epoch v hv) hlt.not_ge
      rw [hnone] at hnew
      rw [hordered.first?_iff_find?.mpr
        ⟨hnew, hleast le_rfl fun k' v hv => hlt.le.trans (hle k' v hv)⟩]
      rfl
    · -- the old minimum stays the representative of its node
      obtain ⟨peers', hkept⟩ : ∃ peers', (ix.insert epoch waiter).root.find? minimumEpoch =
          some (minimum, peers') := by
        rw [hfind minimumEpoch]
        split_ifs with heq
        · rw [← heq, hmem]
          exact ⟨_, rfl⟩
        · exact ⟨peers, hmem⟩
      rw [hordered.first?_iff_find?.mpr ⟨hkept, hleast (not_lt.mp hlt) hle⟩]
      rfl

/-- Inserting a waiter that is not indexed keeps the index well-formed. -/
lemma WellFormed.insert (h : ix.WellFormed) (hnew : ∀ e, ¬ ix.Holds e waiter) :
    (ix.insert epoch waiter).WellFormed where
  ordered := (h.insert_root epoch waiter).1
  nodup := by
    intro e node hnode
    rw [(h.insert_root epoch waiter).2 e] at hnode
    split_ifs at hnode with he
    · cases hfind : ix.root.find? epoch with
      | none =>
        rw [hfind] at hnode
        rw [← Option.some.inj hnode]
        exact pairwise_singleton _ _
      | some old =>
        rw [hfind] at hnode
        rw [← Option.some.inj hnode]
        have hw : waiter ∉ old.1 :: old.2 := fun hc =>
          hnew epoch ((holds_iff_of_find? hfind).mpr hc)
        have hold := h.nodup epoch old hfind
        simp only [mem_cons, not_or, nodup_cons] at hw hold ⊢
        exact ⟨⟨Ne.symm hw.1, hold.1⟩, hw.2, hold.2⟩
    · exact h.nodup e node hnode
  unique := by
    intro e e' x hx hx'
    rw [h.holds_insert] at hx hx'
    rcases hx with ⟨rfl, rfl⟩ | hx
    · rcases hx' with ⟨rfl, -⟩ | hx'
      · rfl
      · exact absurd hx' (hnew e')
    · rcases hx' with ⟨rfl, rfl⟩ | hx'
      · exact absurd hx (hnew e)
      · exact h.unique e e' x hx hx'
  minimum_eq := h.insert_minimum
  next_eq := rfl

/-! ### Removing -/

variable {node node' : α × List α}

/-- The minimum is the representative of its node. -/
lemma WellFormed.minimum_fst_iff (h : ix.WellFormed) (hfind : ix.root.find? epoch = some node) :
    ix.minimum.map Prod.fst = some epoch ↔ ix.minimum.map Prod.snd = some node.1 := by
  cases hmin : ix.minimum with
  | none => simp
  | some m =>
    obtain ⟨minimumEpoch, minimum⟩ := m
    simp only [map_some, Option.some.injEq]
    constructor
    · rintro rfl
      obtain ⟨peers, hsame, -⟩ := h.minimum_node hmin
      rw [hfind] at hsame
      rw [Option.some.inj hsame]
    · rintro rfl
      exact h.unique _ _ _ (h.minimum_spec hmin).1
        ((holds_iff_of_find? hfind).mpr (mem_cons_self ..))

def replaceNode (ix : AxisIndex α) (epoch : ℕ) (node : α × List α) : AxisIndex α :=
  { ix with
    root := ix.root.update epoch fun _ => node
    minimum := if ix.minimum.map Prod.fst = some epoch then some (epoch, node.1)
      else ix.minimum }

lemma WellFormed.find?_replaceNode (h : ix.WellFormed) (hfind : ix.root.find? epoch = some node)
    (node' : α × List α) (e : ℕ) :
    (ix.replaceNode epoch node').root.find? e =
      if e = epoch then some node' else ix.root.find? e := by
  rw [replaceNode, h.ordered.find?_update]
  split_ifs with he
  · rw [he, hfind, map_some]
  · rfl

lemma WellFormed.holds_replaceNode (h : ix.WellFormed) (hfind : ix.root.find? epoch = some node)
    {e : ℕ} {x : α} :
    (ix.replaceNode epoch node').Holds e x ↔
      if e = epoch then x ∈ node'.1 :: node'.2 else ix.Holds e x := by
  unfold Holds
  rw [h.find?_replaceNode hfind]
  split_ifs with he
  · simp
  · rfl

/-- A node may be replaced by one of fewer waiters. -/
lemma WellFormed.replaceNode (h : ix.WellFormed) (hfind : ix.root.find? epoch = some node)
    (hnodup : (node'.1 :: node'.2).Nodup) (hsub : ∀ x ∈ node'.1 :: node'.2, x ∈ node.1 :: node.2) :
    (ix.replaceNode epoch node').WellFormed := by
  have hordered : (ix.replaceNode epoch node').root.Ordered := h.ordered.update _ _
  have hold : ∀ e x, (ix.replaceNode epoch node').Holds e x → ix.Holds e x := by
    intro e x hx
    rw [h.holds_replaceNode hfind] at hx
    split_ifs at hx with he
    · exact he ▸ (holds_iff_of_find? hfind).mpr (hsub x hx)
    · exact hx
  obtain ⟨⟨minimumEpoch, minimum⟩, hmin⟩ : ∃ m, ix.minimum = some m := by
    refine ne_none_iff_exists'.mp fun hnone => ?_
    exact h.minimum_none hnone ((holds_iff_of_find? hfind).mpr (mem_cons_self ..))
  obtain ⟨peers, hmem, hle⟩ := h.minimum_node hmin
  -- the keys are those of the old tree, so the least one is the same
  have hleast : ∀ k v, (ix.replaceNode epoch node').root.find? k = some v → minimumEpoch ≤ k := by
    intro k v hv
    rw [h.find?_replaceNode hfind] at hv
    split_ifs at hv with hk
    · exact hk ▸ hle epoch node hfind
    · exact hle k v hv
  have hminimum : (ix.replaceNode epoch node').minimum =
      if minimumEpoch = epoch then some (epoch, node'.1) else some (minimumEpoch, minimum) := by
    rw [AxisIndex.replaceNode, hmin]
    simp
  have hkept := h.find?_replaceNode hfind node' minimumEpoch
  refine ⟨hordered, fun e v hv => ?_, fun e e' x hx hx' => ?_, ?_, ?_⟩
  · rw [h.find?_replaceNode hfind] at hv
    split_ifs at hv with he
    · rwa [← Option.some.inj hv]
    · exact h.nodup e v hv
  · exact h.unique e e' x (hold e x hx) (hold e' x hx')
  · rw [hminimum]
    split_ifs at hkept ⊢ with he
    · subst he
      rw [hordered.first?_iff_find?.mpr ⟨hkept, hleast⟩]
      rfl
    · rw [hmem] at hkept
      rw [hordered.first?_iff_find?.mpr ⟨hkept, hleast⟩]
      rfl
  · have hnext : (ix.replaceNode epoch node').nextWaitEpoch = minimumEpoch := by
      show ix.nextWaitEpoch = minimumEpoch
      rw [h.next_eq, hmin]
      rfl
    rw [hnext, hminimum]
    split_ifs with he
    · exact he
    · rfl

variable [DecidableEq α]

lemma WellFormed.holds_eraseNode (h : ix.WellFormed) {e : ℕ} {x : α} :
    (ix.eraseNode epoch waiter).Holds e x ↔ ix.Holds e x ∧ e ≠ epoch := by
  have hroot : (ix.eraseNode epoch waiter).root = ix.root.erase epoch := rfl
  unfold Holds
  rw [hroot, h.ordered.find?_erase]
  split_ifs with he
  · simp [he]
  · simp [he]

variable {node : α × List α}

/-- Removing a node keeps the index well-formed. -/
lemma WellFormed.eraseNode (h : ix.WellFormed) (hfind : ix.root.find? epoch = some node) :
    (ix.eraseNode epoch node.1).WellFormed := by
  have hordered : (ix.eraseNode epoch node.1).root.Ordered := h.ordered.erase epoch
  refine ⟨hordered, fun e v hv => ?_, fun e e' x hx hx' => ?_, ?_, rfl⟩
  · have hroot : (ix.eraseNode epoch node.1).root = ix.root.erase epoch := rfl
    rw [hroot, h.ordered.find?_erase] at hv
    split_ifs at hv
    exact h.nodup e v hv
  · exact h.unique e e' x (h.holds_eraseNode.mp hx).1 (h.holds_eraseNode.mp hx').1
  show (if ix.minimum.map Prod.snd = some node.1 then _ else ix.minimum) =
    (ix.root.erase epoch).first?.map _
  split_ifs with hmin
  all_goals rw [← h.minimum_fst_iff hfind] at hmin
  · obtain ⟨⟨e, w⟩, hm, rfl⟩ := map_eq_some_iff.mp hmin
    obtain ⟨peers, hfirst⟩ := h.minimum_eq_some_iff.mp hm
    rw [h.ordered.successor?_of_first? hfirst]
  cases hm : ix.minimum with
  | none =>
    exact absurd ((holds_iff_of_find? hfind).mpr (mem_cons_self ..)) (h.minimum_none hm)
  | some m =>
    obtain ⟨peers, hmem, hle⟩ := h.minimum_node hm
    have hne : m.1 ≠ epoch := fun hc => hmin (by rw [hm, ← hc]; rfl)
    have hkept : (ix.root.erase epoch).find? m.1 = some (m.2, peers) := by
      rw [h.ordered.find?_erase, if_neg hne, hmem]
    have hleast : ∀ k v, (ix.root.erase epoch).find? k = some v → m.1 ≤ k := by
      intro k v hv
      rw [h.ordered.find?_erase] at hv
      split_ifs at hv
      exact hle k v hv
    rw [(h.ordered.erase epoch).first?_iff_find?.mpr ⟨hkept, hleast⟩]
    rfl

/-- Removing a waiter that shares its node replaces the node. -/
lemma WellFormed.erase_eq_replaceNode (h : ix.WellFormed) (waiter : α)
    (hfind : ix.root.find? epoch = some node) :
    (node.1 ≠ waiter →
      ix.erase epoch waiter = ix.replaceNode epoch (node.1, node.2.erase waiter)) ∧
    ∀ peer peers, node = (waiter, peer :: peers) →
      ix.erase epoch waiter = ix.replaceNode epoch (peer, peers) := by
  have hiff := h.minimum_fst_iff hfind
  constructor
  · intro hne
    rw [erase, hfind]
    dsimp only
    rw [if_pos hne, AxisIndex.replaceNode]
    split_ifs with hmin
    · -- the minimum is the representative, which stays
      obtain ⟨⟨e, w⟩, hm, rfl⟩ := map_eq_some_iff.mp hmin
      rw [hm] at hiff
      have hw : w = node.1 := Option.some.inj (hiff.mp rfl)
      rw [← hw, ← hm]
    · rfl
  · rintro peer peers rfl
    rw [erase, hfind]
    dsimp only at hiff ⊢
    rw [if_neg (not_not.mpr rfl), AxisIndex.replaceNode]
    simp only [hiff]

/-- Removing an indexed waiter keeps the index well-formed and removes just that waiter. -/
lemma WellFormed.erase (h : ix.WellFormed) (hholds : ix.Holds epoch waiter) :
    (ix.erase epoch waiter).WellFormed ∧
    ∀ e x, (ix.erase epoch waiter).Holds e x ↔ ix.Holds e x ∧ ¬ (e = epoch ∧ x = waiter) := by
  obtain ⟨⟨representative, peers⟩, hfind, hw⟩ := hholds
  have hnodup := h.nodup epoch _ hfind
  obtain ⟨hshared, hpromoted⟩ := h.erase_eq_replaceNode waiter hfind
  -- each way of removing leaves a node that holds the others
  have hreplace : ∀ node' : α × List α, ix.erase epoch waiter = ix.replaceNode epoch node' →
      (node'.1 :: node'.2).Nodup →
      (∀ x, x ∈ node'.1 :: node'.2 ↔ x ∈ representative :: peers ∧ x ≠ waiter) →
      (ix.erase epoch waiter).WellFormed ∧
      ∀ e x, (ix.erase epoch waiter).Holds e x ↔ ix.Holds e x ∧ ¬ (e = epoch ∧ x = waiter) := by
    intro node' heq hnodup' hmem
    rw [heq]
    refine ⟨h.replaceNode hfind hnodup' fun x hx => ((hmem x).mp hx).1, fun e x => ?_⟩
    rw [h.holds_replaceNode hfind]
    split_ifs with he
    · rw [hmem, he, holds_iff_of_find? hfind]
      simp
    · simp [he]
  rw [nodup_cons] at hnodup
  rcases mem_cons.mp hw with rfl | hpeer
  · cases peers with
    | nil =>
      have heq : ix.erase epoch waiter = ix.eraseNode epoch waiter := by
        rw [AxisIndex.erase, hfind]
        exact if_neg (not_not.mpr rfl)
      rw [heq]
      refine ⟨h.eraseNode hfind, fun e x => ?_⟩
      rw [h.holds_eraseNode]
      refine and_congr_right fun hx => not_congr ⟨fun he => ⟨he, ?_⟩, And.left⟩
      rw [he, holds_iff_of_find? hfind] at hx
      exact mem_singleton.mp hx
    | cons peer peers =>
      refine hreplace (peer, peers) (hpromoted peer peers rfl) hnodup.2 fun x => ?_
      constructor
      · exact fun hx => ⟨mem_cons_of_mem _ hx, fun hc => hnodup.1 (hc ▸ hx)⟩
      · exact fun ⟨hx, hne⟩ => (mem_cons.mp hx).resolve_left hne
  · have hne : representative ≠ waiter := fun hc => hnodup.1 (hc ▸ hpeer)
    refine hreplace (representative, peers.erase waiter) (hshared hne) ?_ fun x => ?_
    · exact nodup_cons.mpr ⟨fun hc => hnodup.1 (mem_of_mem_erase hc), hnodup.2.erase _⟩
    rw [mem_cons, mem_cons, hnodup.2.mem_erase_iff]
    constructor
    · rintro (rfl | ⟨hx, hmem⟩)
      · exact ⟨.inl rfl, hne⟩
      · exact ⟨.inr hmem, hx⟩
    · rintro ⟨rfl | hmem, hx⟩
      · exact .inl rfl
      · exact .inr ⟨hx, hmem⟩

/-- Taking the minimum's node takes exactly the waiters of its epoch. -/
lemma WellFormed.takeNode (h : ix.WellFormed) (hmin : ix.minimum = some (epoch, waiter)) :
    (ix.takeNode epoch waiter).1.Nodup ∧
    (∀ x, x ∈ (ix.takeNode epoch waiter).1 ↔ ix.Holds epoch x) ∧
    (ix.takeNode epoch waiter).2.WellFormed ∧
    ∀ e x, (ix.takeNode epoch waiter).2.Holds e x ↔ ix.Holds e x ∧ e ≠ epoch := by
  obtain ⟨peers, hfind, -⟩ := h.minimum_node hmin
  have hlist : (ix.takeNode epoch waiter).1 = waiter :: peers := by
    rw [AxisIndex.takeNode, hfind]
  rw [hlist]
  exact ⟨h.nodup epoch _ hfind, fun x => (holds_iff_of_find? hfind).symm, h.eraseNode hfind,
    fun e x => h.holds_eraseNode⟩

end AxisIndex

end Hrx.Tracker
