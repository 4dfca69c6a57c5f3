import Hrx.Cfg.Graph

/-!
# The edge tables hold the edges

The runs of the two arrays list the targets and the sources of the edges of the region
(`successors_eq`, `predecessors_eq`), so both describe the same relation.
-/

namespace Hrx.Cfg

open Buckets List

namespace Region

variable {r : Region}

/-- The counts are those of the edges. -/
lemma foldlM_countSite {sites : List Site} {counts counts' : Counts} (edges : List (ℕ × ℕ))
    (hs : counts.successorCount = fun k => (values edges k).length)
    (hp : counts.predecessorCount = fun k => (values (edges.map Prod.swap) k).length)
    (h : sites.foldlM r.countSite counts = .ok counts') :
    (counts'.successorCount = fun k => (values (edges ++ sites.filterMap r.edge) k).length) ∧
      counts'.predecessorCount =
        fun k => (values ((edges ++ sites.filterMap r.edge).map Prod.swap) k).length := by
  induction sites generalizing counts edges with
  | nil =>
    cases h
    rw [filterMap_nil, append_nil]
    exact ⟨hs, hp⟩
  | cons site sites ih =>
    simp only [foldlM_cons, countSite] at h
    cases htarget : r.tryBlockIndex site.target with
    | none =>
      have hedge : r.edge site = none := by rw [edge, htarget]; rfl
      rw [htarget] at h
      rw [filterMap_cons_none hedge]
      replace h : sites.foldlM r.countSite { counts with malformed := true } = .ok counts' := h
      apply ih edges _ _ h
      · exact hs
      · exact hp
    | some target =>
      have hedge : r.edge site = some (site.block, target) := by rw [edge, htarget]; rfl
      rw [htarget] at h
      split_ifs at h
      · cases h
      rw [filterMap_cons_some hedge, ← singleton_append, ← append_assoc]
      apply ih _ _ _ h
      · rw [length_values_concat, hs]
      · rw [map_append, map_singleton, length_values_concat, hp]
        rfl

/-- The arrays are filled edge by edge. -/
lemma foldl_writeSite (sites : List Site) (tables : Tables) :
    (sites.foldl r.writeSite tables).successors =
        (sites.filterMap r.edge).foldl place tables.successors ∧
      (sites.foldl r.writeSite tables).predecessors =
        ((sites.filterMap r.edge).map Prod.swap).foldl place tables.predecessors := by
  induction sites generalizing tables with
  | nil => exact ⟨rfl, rfl⟩
  | cons site sites ih =>
    rw [foldl_cons]
    cases htarget : r.tryBlockIndex site.target with
    | none =>
      have hedge : r.edge site = none := by rw [edge, htarget]; rfl
      rw [filterMap_cons_none hedge, show r.writeSite tables site =
        tables by rw [writeSite, htarget]]
      exact ih tables
    | some target =>
      have hedge : r.edge site = some (site.block, target) := by rw [edge, htarget]; rfl
      rw [filterMap_cons_some hedge, map_cons, foldl_cons, foldl_cons]
      obtain ⟨h₁, h₂⟩ := ih (r.writeSite tables site)
      rw [h₁, h₂, writeSite, htarget]
      exact ⟨rfl, rfl⟩

lemma block_lt_of_mem_sites {site : Site} (h : site ∈ r.sites) : site.block < r.blocks.length := by
  obtain ⟨⟨block, index⟩, hmem, hsite⟩ := mem_flatMap.mp h
  obtain ⟨-, hlt, -⟩ := mem_zipIdx hmem
  cases block with
  | none => cases hsite
  | some =>
    obtain ⟨⟨op, k⟩, -, hop⟩ := mem_flatMap.mp hsite
    obtain ⟨target, -, rfl⟩ := mem_map.mp hop
    simpa using hlt

/-- Both ends of an edge are blocks. -/
lemma lt_of_mem_edges {e : ℕ × ℕ} (h : e ∈ r.edges) :
    e.1 < r.blocks.length ∧ e.2 < r.blocks.length := by
  obtain ⟨site, hsite, hedge⟩ := mem_filterMap.mp h
  obtain ⟨target, htarget, rfl⟩ := Option.map_eq_some_iff.mp hedge
  refine ⟨block_lt_of_mem_sites hsite, ?_⟩
  obtain ⟨-, hlt⟩ := Option.filter_eq_some_iff.mp htarget
  exact of_decide_eq_true hlt

end Region

/-- A graph with the edge tables of a region. -/
structure Graph.Describes (g : Graph) (r : Region) : Prop where
  blockCount : g.blockCount = r.blocks.length
  successors : ∀ b, g.successors b = values r.edges b
  predecessors : ∀ b, g.predecessors b = values (r.edges.map Prod.swap) b

/-- The runs of the arrays list the edges. -/
lemma Region.buildEdges_describes {r : Region} {g : Graph} (h : r.buildEdges = .ok g) :
    g.Describes r := by
  unfold buildEdges at h
  cases hcounts : r.countEdges with
  | error =>
    rw [hcounts] at h
    cases h
  | ok =>
    rw [hcounts] at h
    cases h
    obtain ⟨hs, hp⟩ := foldlM_countSite [] rfl rfl hcounts
    rw [nil_append] at hs hp
    have hnone : ∀ items : List (ℕ × ℕ), (∀ e ∈ items, e.1 < r.blocks.length) →
        ∀ b, r.blocks.length ≤ b → values items b = [] := by
      intro items hitems b hb
      apply eq_nil_iff_forall_not_mem.mpr
      intro a ha
      have := hitems _ (mem_values.mp ha)
      omega
    refine ⟨rfl, fun b => ?_, fun b => ?_⟩
    · unfold Graph.successors
      split_ifs with hb
      · exact (hnone _ (fun e he => (lt_of_mem_edges he).1) b hb).symm
      · rw [(foldl_writeSite r.sites _).1]
        exact run_foldl_place (fun _ => rfl) (fun k => by rw [hs]) b
    · unfold Graph.predecessors
      split_ifs with hb
      · refine (hnone _ (fun e he => ?_) b hb).symm
        obtain ⟨e', he', rfl⟩ := mem_map.mp he
        exact (lt_of_mem_edges he').2
      · rw [(foldl_writeSite r.sites _).2]
        exact run_foldl_place (fun _ => rfl) (fun k => by rw [hp]) b

namespace Graph.Describes

variable {g : Graph} {r : Region}

lemma mem_successors (h : g.Describes r) {a b : ℕ} : b ∈ g.successors a ↔ (a, b) ∈ r.edges := by
  rw [h.successors, mem_values]

/-- The predecessors of a block are the blocks that it succeeds. -/
lemma mem_predecessors (h : g.Describes r) {a b : ℕ} :
    a ∈ g.predecessors b ↔ b ∈ g.successors a := by
  rw [h.predecessors, mem_values, h.mem_successors, mem_map]
  constructor
  · rintro ⟨⟨x, y⟩, he, heq⟩
    cases heq
    exact he
  · exact fun he => ⟨(a, b), he, rfl⟩

lemma successor_lt (h : g.Describes r) {a b : ℕ} (hb : b ∈ g.successors a) : b < g.blockCount := by
  rw [h.blockCount]
  exact (Region.lt_of_mem_edges (h.mem_successors.mp hb)).2

end Graph.Describes

/-- An entry that leads to a loop with an exit. -/
def loopRegion : Region :=
  ⟨[some ⟨some 0, [⟨[some 1], true⟩]⟩, some ⟨some 1, [⟨[some 1, some 2], true⟩]⟩,
    some ⟨some 2, []⟩], by decide⟩

end Hrx.Cfg
