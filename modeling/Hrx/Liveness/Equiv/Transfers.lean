import Hrx.Liveness.Dataflow
import Hrx.Cfg.Equiv.Edges
import Mathlib.Data.List.Perm.Subperm

/-!
# The index of the transfers

For well-formed transfers the index is built without an error, the run of a value lists the blocks
that use it, and the table of definitions names the block that defines it (`indexTransfers_spec`).
-/

namespace Hrx.Liveness

open Buckets Cfg Function List

namespace Problem

def Uses (problem : Problem) (value block : ℕ) : Prop :=
  ∃ transfer, problem.blockTransfers[block]? = some transfer ∧ value ∈ transfer.useOrdinals

def Defines (problem : Problem) (value block : ℕ) : Prop :=
  ∃ transfer, problem.blockTransfers[block]? = some transfer ∧ value ∈ transfer.definitionOrdinals

/-- What the header asks of the arguments: the graph describes the blocks, the uses of a block are
unique and the ordinals are those of values.  The two counts are a `uint16_t` and a `uint32_t`. -/
structure WellFormed (problem : Problem) : Prop where
  blockCount_le : problem.blockCount ≤ uint16Max
  valueCount_le : problem.valueCount ≤ uint32Max
  graph : ∀ graph, problem.cfgGraph = some graph →
    ∃ r : Region, r.buildEdges = .ok graph ∧ r.blocks.length = problem.blockCount
  nodup_useOrdinals : ∀ transfer ∈ problem.blockTransfers, transfer.useOrdinals.Nodup
  use_lt : ∀ transfer ∈ problem.blockTransfers, ∀ value ∈ transfer.useOrdinals,
    value < problem.valueCount
  definition_lt : ∀ transfer ∈ problem.blockTransfers, ∀ value ∈ transfer.definitionOrdinals,
    value < problem.valueCount

/-- Each value is defined in at most one block. -/
def SingleDefinition (problem : Problem) : Prop :=
  ∀ value a b, problem.Defines value a → problem.Defines value b → a = b

variable {problem : Problem} {value block : ℕ}

lemma mem_sites (f : BlockTransfer → List ℕ) :
    ((value, block) ∈ problem.blockTransfers.zipIdx.flatMap fun (transfer, block) =>
      (f transfer).map (·, block)) ↔
      ∃ transfer, problem.blockTransfers[block]? = some transfer ∧ value ∈ f transfer := by
  rw [mem_flatMap]
  constructor
  · rintro ⟨⟨transfer, b⟩, hmem, hsite⟩
    obtain ⟨v, hv, heq⟩ := mem_map.mp hsite
    cases heq
    exact ⟨transfer, mem_zipIdx_iff_getElem?.mp hmem, hv⟩
  · rintro ⟨transfer, hget, hv⟩
    exact ⟨(transfer, block), mem_zipIdx_iff_getElem?.mpr hget, mem_map.mpr ⟨value, hv, rfl⟩⟩

@[simp] lemma mem_useSites : (value, block) ∈ problem.useSites ↔ problem.Uses value block :=
  mem_sites BlockTransfer.useOrdinals

@[simp] lemma mem_definitionSites :
    (value, block) ∈ problem.definitionSites ↔ problem.Defines value block :=
  mem_sites BlockTransfer.definitionOrdinals

lemma Uses.block_lt (h : problem.Uses value block) : block < problem.blockCount := by
  obtain ⟨transfer, hget, -⟩ := h
  exact (List.getElem?_eq_some_iff.mp hget).1

namespace WellFormed

variable (hp : problem.WellFormed)
include hp

lemma value_lt {value block : ℕ} (h : problem.Uses value block) : value < problem.valueCount := by
  obtain ⟨transfer, hget, hv⟩ := h
  exact hp.use_lt transfer (mem_of_getElem? hget) value hv

variable {a b : ℕ}

lemma mem_predecessors : a ∈ problem.predecessors b ↔ b ∈ problem.successors a := by
  unfold predecessors successors
  cases hg : problem.cfgGraph with
  | none => simp
  | some graph =>
    obtain ⟨r, hr, -⟩ := hp.graph graph hg
    exact (Region.buildEdges_describes hr).mem_predecessors

lemma edge_lt (h : b ∈ problem.successors a) : a < problem.blockCount ∧ b < problem.blockCount := by
  unfold successors at h
  cases hg : problem.cfgGraph with
  | none => rw [hg] at h; cases h
  | some graph =>
    rw [hg] at h
    obtain ⟨r, hr, hlen⟩ := hp.graph graph hg
    rw [← hlen]
    exact Region.lt_of_mem_edges ((Region.buildEdges_describes hr).mem_successors.mp h)

lemma nodup_useSites : problem.useSites.Nodup := by
  apply nodup_flatMap.mpr
  constructor
  · rintro ⟨transfer, block⟩ hmem
    apply (hp.nodup_useOrdinals transfer _).map
    · exact fun v w h => (Prod.mk.inj h).1
    · exact mem_of_getElem? (mem_zipIdx_iff_getElem?.mp hmem)
  -- sites of different transfers differ in their block
  have hidx : (problem.blockTransfers.zipIdx.map Prod.snd).Nodup := by
    rw [zipIdx_map_snd]
    exact nodup_range'
  apply (pairwise_map.mp hidx).imp
  rintro ⟨t, a⟩ ⟨u, b⟩ hne ⟨v, c⟩ hx hy
  obtain ⟨_, -, hxa⟩ := mem_map.mp hx
  obtain ⟨_, -, hyb⟩ := mem_map.mp hy
  exact hne ((Prod.mk.inj hxa).2.trans (Prod.mk.inj hyb).2.symm)

lemma length_values_useSites (value : ℕ) :
    (values problem.useSites value).length ≤ problem.blockCount := by
  have hsub : values problem.useSites value ⊆ List.range problem.blockCount := by
    intro b hb
    exact mem_range.mpr (mem_useSites.mp (mem_values.mp hb)).block_lt
  have hle := ((nodup_values hp.nodup_useSites value).subperm hsub).length_le
  rwa [length_range] at hle

end WellFormed

end Problem

open Problem

/-! ### The counts -/

lemma foldl_count (ordinals : List ℕ) (block : ℕ) (sites : List (ℕ × ℕ)) :
    (ordinals.foldl (fun count value => update count value (count value + 1))
      fun k => (values sites k).length) =
        fun k => (values (sites ++ ordinals.map (·, block)) k).length := by
  induction ordinals generalizing sites with
  | nil => rw [map_nil, append_nil]; rfl
  | cons v ordinals ih =>
    rw [foldl_cons, ← length_values_concat sites (v, block), ih, map_cons,
      append_assoc, singleton_append]

/-- The sites of the blocks from one on. -/
lemma foldlM_countUses {n : ℕ} (transfers : List BlockTransfer) (first : ℕ) (sites : List (ℕ × ℕ))
    (hlen : ∀ transfer ∈ transfers, transfer.useOrdinals.length ≤ n)
    (hfits : sites.length + n * transfers.length ≤ hostSizeMax) :
    ∃ rest, rest = ((transfers.zipIdx first).flatMap fun (transfer, block) =>
        transfer.useOrdinals.map (·, block)) ∧
      transfers.foldlM countUses ⟨sites.length, fun k => (values sites k).length⟩ =
        .ok ⟨(sites ++ rest).length, fun k => (values (sites ++ rest) k).length⟩ := by
  refine ⟨_, rfl, ?_⟩
  induction transfers generalizing first sites with
  | nil =>
    rw [zipIdx_nil, flatMap_nil, append_nil]
    rfl
  | cons transfer transfers ih =>
    have hhead := hlen transfer mem_cons_self
    rw [length_cons, Nat.mul_succ] at hfits
    have hroom : ¬ hostSizeMax - sites.length < transfer.useOrdinals.length := by omega
    rw [foldlM_cons, countUses, if_neg hroom]
    have hstep := ih (first + 1) (sites ++ transfer.useOrdinals.map (·, first))
      (fun t ht => hlen t (mem_cons_of_mem _ ht))
      (by rw [length_append, length_map]; omega)
    rw [zipIdx_cons, flatMap_cons, ← append_assoc, ← hstep, foldl_count _ first,
      length_append, length_map]
    rfl

variable {problem : Problem}

lemma Problem.WellFormed.countUses (hp : problem.WellFormed) :
    problem.blockTransfers.foldlM countUses ⟨0, fun _ => 0⟩ =
      .ok ⟨problem.useSites.length, fun k => (values problem.useSites k).length⟩ := by
  have hlen : ∀ transfer ∈ problem.blockTransfers,
      transfer.useOrdinals.length ≤ problem.valueCount := by
    intro transfer ht
    have hle := ((hp.nodup_useOrdinals transfer ht).subperm fun v hv =>
      mem_range.mpr (hp.use_lt transfer ht v hv)).length_le
    rwa [length_range] at hle
  have hfits : ([] : List (ℕ × ℕ)).length + problem.valueCount * problem.blockTransfers.length ≤
      hostSizeMax := by
    have hmul := Nat.mul_le_mul hp.valueCount_le hp.blockCount_le
    have hbound : uint32Max * uint16Max ≤ hostSizeMax := by decide
    exact (Nat.zero_add _).trans_le (hmul.trans hbound)
  obtain ⟨rest, hrest, hfold⟩ := foldlM_countUses problem.blockTransfers 0 [] hlen hfits
  rw [nil_append, hrest] at hfold
  exact hfold

/-! ### The two tables -/

/-- The fill counts follow the cursors, which never reach the end of a `uint32_t`. -/
lemma foldl_fillUse {sites : List (ℕ × ℕ)} {count : ℕ → ℕ}
    (hcount : ∀ k, (values sites k).length ≤ count k) (hlt : ∀ k, count k < 2 ^ 32) :
    (sites.foldl (fillUse (starts count)) ⟨fun _ => 0, fun _ => 0⟩).useBlockIndices =
        (sites.foldl place ⟨fun _ => 0, starts count⟩).array ∧
      ∀ k, (sites.foldl (fillUse (starts count)) ⟨fun _ => 0, fun _ => 0⟩).fillCounts k =
        (values sites k).length := by
  induction sites using List.reverseRecOn with
  | nil => exact ⟨rfl, fun _ => rfl⟩
  | append_singleton sites site ih =>
    have hbefore := fun k => (length_values_append_le sites [site] k).trans (hcount k)
    obtain ⟨harr, hfill⟩ := ih hbefore
    obtain ⟨hcur, -⟩ := foldl_place (s := ⟨fun _ => 0, starts count⟩) (fun _ => rfl) hbefore
    rw [foldl_append, foldl_append, foldl_cons, foldl_nil, foldl_cons, foldl_nil]
    constructor
    · show update _ _ _ = update _ _ _
      rw [harr, hfill, hcur]
    intro k
    have hk := congrFun (length_values_concat sites site) k
    rw [hk]
    show update _ _ _ k = _
    have hend := hcount site.1
    rw [congrFun (length_values_concat sites site) site.1, update_self] at hend
    rw [hfill, Nat.mod_eq_of_lt (hend.trans_lt (hlt site.1))]
    by_cases hsite : k = site.1
    · rw [hsite, update_self, update_self]
    · rw [update_of_ne hsite, update_of_ne hsite, hfill]

def IsDefinitionTable (sites : List (ℕ × ℕ)) (blocks : ℕ → ℕ) : Prop :=
  ∀ value, (value, blocks value) ∈ sites ∨ blocks value = uint32Max ∧ ∀ b, (value, b) ∉ sites

lemma foldlM_fillDefinition (sites : List (ℕ × ℕ))
    (hsingle : ∀ value a b, (value, a) ∈ sites → (value, b) ∈ sites → a = b) :
    ∃ blocks, sites.foldlM fillDefinition (fun _ => uint32Max) = .ok blocks ∧
      IsDefinitionTable sites blocks := by
  induction sites using List.reverseRecOn with
  | nil => exact ⟨_, rfl, fun value => .inr ⟨rfl, fun b hb => by cases hb⟩⟩
  | append_singleton sites site ih =>
    obtain ⟨blocks, hfold, htable⟩ := ih fun value a b ha hb =>
      hsingle value a b (mem_append_left _ ha) (mem_append_left _ hb)
    have hsite : site ∈ sites ++ [site] := mem_append_right _ mem_cons_self
    have hfree : blocks site.1 = uint32Max ∨ blocks site.1 = site.2 := by
      rcases htable site.1 with hin | ⟨hmax, -⟩
      · exact .inr (hsingle site.1 _ _ (mem_append_left _ hin) hsite)
      · exact .inl hmax
    refine ⟨update blocks site.1 site.2, ?_, ?_⟩
    · rw [foldlM_append, hfold]
      show fillDefinition blocks site >>= pure = _
      rw [fillDefinition, if_pos hfree]
      rfl
    intro value
    by_cases hv : value = site.1
    · left
      rw [hv, update_self]
      exact hsite
    · rw [update_of_ne hv]
      refine (htable value).imp (mem_append_left _) fun ⟨hmax, hnone⟩ => ⟨hmax, fun b hb => ?_⟩
      rcases mem_append.mp hb with hb | hb
      · exact hnone b hb
      · exact hv (congrArg Prod.fst (mem_singleton.mp hb))

structure TransferIndex.Describes (index : TransferIndex) (problem : Problem) : Prop where
  mem_useBlocks : ∀ value < problem.valueCount, ∀ block,
    block ∈ index.useBlocks value ↔ problem.Uses value block
  definition : ∀ value < problem.valueCount, ∀ block < problem.blockCount,
    index.definitionBlockIndices value = block ↔ problem.Defines value block

theorem indexTransfers_spec (hp : problem.WellFormed) (hsingle : problem.SingleDefinition) :
    ∃ index, indexTransfers problem = .ok index ∧ index.Describes problem := by
  unfold indexTransfers
  split_ifs with hzero
  · refine ⟨_, rfl, fun value hv => ?_, fun value hv => ?_⟩ <;> omega
  obtain ⟨blocks, hblocks, htable⟩ := foldlM_fillDefinition
    problem.definitionSites fun value a b ha hb =>
      hsingle value a b (mem_definitionSites.mp ha) (mem_definitionSites.mp hb)
  have hsites : ∀ e ∈ problem.useSites, e.1 < problem.valueCount := by
    rintro ⟨v, b⟩ he
    exact hp.value_lt (mem_useSites.mp he)
  have hlt : ∀ k, (values problem.useSites k).length < 2 ^ 32 := by
    intro k
    have hle := (hp.length_values_useSites k).trans hp.blockCount_le
    have hmax : uint16Max < 2 ^ 32 := by decide
    omega
  obtain ⟨count, hcount⟩ : ∃ count, count = fun k => (values problem.useSites k).length := ⟨_, rfl⟩
  rw [hp.countUses, ← hcount]
  refine ⟨⟨starts count, (problem.useSites.foldl (fillUse (starts count))
    ⟨fun _ => 0, fun _ => 0⟩).useBlockIndices, blocks⟩, ?_, ?_, ?_⟩
  · have htotal : starts count problem.valueCount = problem.useSites.length := by
      rw [hcount]
      exact starts_length_values hsites
    show (if starts count _ ≠ _ then _ else _) = _
    rw [if_neg (not_not.mpr htotal), hblocks]
    rfl
  · intro value _ block
    rw [hcount, ← mem_useSites, ← mem_values,
      ← run_foldl_place (s := ⟨fun _ => 0, starts fun k => (values problem.useSites k).length⟩)
        (fun _ => rfl) (fun _ => rfl) value,
      ← (foldl_fillUse (fun _ => le_rfl) hlt).1]
    unfold TransferIndex.useBlocks
    dsimp only
    rw [starts, Nat.add_sub_cancel_left]
  · intro value _ block hblock
    rw [← mem_definitionSites]
    dsimp only
    have hmax : problem.blockCount < uint32Max := hp.blockCount_le.trans_lt (by decide)
    rcases htable value with hin | ⟨heq, hnone⟩
    · constructor
      · rintro rfl
        exact hin
      · intro hdef
        exact hsingle value _ _ (mem_definitionSites.mp hin) (mem_definitionSites.mp hdef)
    · refine iff_of_false ?_ (hnone block)
      omega

end Hrx.Liveness
