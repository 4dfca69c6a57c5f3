import Hrx.Liveness.Equiv.Search
import Mathlib.Data.List.Sort

/-!
# Block liveness is exact

The log of a whole run is complete, so both passes record the same values for each block
(`Log.Complete.values_ins_eq`).  The first leaves their numbers (`accepts_count`), the second finds
a free slot for each of them (`accepts_publish`).  A successor with as many live-in values as a
block has live-out values has all of them, since its values are among them (`Log.Complete.borrow`).
-/

namespace Hrx.Liveness

open Buckets Cfg Function List Log

namespace Log

structure Complete (log : Log) (problem : Problem) : Prop where
  valid : log.Valid problem
  ins : ∀ b v, problem.LiveIn v b → (b, v) ∈ log.ins
  outs : ∀ b v, problem.LiveOut v b → (b, v) ∈ log.outs

variable {problem : Problem} {log log' : Log} {relations : List (ℕ × ℕ)}

lemma Ascending.pairwise_values (h : Ascending relations) (b : ℕ) :
    (values relations b).Pairwise (· < ·) := by
  unfold values
  rw [pairwise_map]
  apply List.Pairwise.imp_of_mem _ (h.filter _)
  intro x y hx hy hlt
  have hx' : x.1 = b := of_decide_eq_true (mem_filter.mp hx).2
  have hy' : y.1 = b := of_decide_eq_true (mem_filter.mp hy).2
  exact hlt (hx'.trans hy'.symm)

lemma Ascending.length_le (h : Ascending relations) (b : ℕ) (list : List ℕ)
    (hsub : ∀ v, (b, v) ∈ relations → v ∈ list) : (values relations b).length ≤ list.length :=
  ((h.pairwise_values b).nodup.subperm fun v hv => hsub v (mem_values.mp hv)).length_le

namespace Complete

variable {b v : ℕ} (h : log.Complete problem)
include h

lemma mem_ins : v ∈ values log.ins b ↔ problem.LiveIn v b := by
  rw [mem_values]
  exact ⟨h.valid.liveIn b v, h.ins b v⟩

lemma mem_outs : v ∈ values log.outs b ↔ problem.LiveOut v b := by
  rw [mem_values]
  exact ⟨h.valid.liveOut b v, h.outs b v⟩

theorem values_ins_eq (h' : log'.Complete problem) (b : ℕ) : values log'.ins b = values log.ins b :=
  (h'.valid.ins.pairwise_values b).eq_of_mem_iff (h.valid.ins.pairwise_values b) fun _ =>
    h'.mem_ins.trans h.mem_ins.symm

lemma values_outs_eq (h' : log'.Complete problem) (b : ℕ) :
    values log'.outs b = values log.outs b :=
  (h'.valid.outs.pairwise_values b).eq_of_mem_iff (h.valid.outs.pairwise_values b) fun _ =>
    h'.mem_outs.trans h.mem_outs.symm

/-- A successor with as many values has the same ones. -/
theorem borrow {c : ℕ} (hedge : c ∈ problem.successors b)
    (hlen : (values log.ins c).length = (values log.outs b).length) :
    values log.ins c = values log.outs b := by
  have hins := h.valid.ins.pairwise_values c
  have hsub : values log.ins c ⊆ values log.outs b := by
    intro v hv
    exact h.mem_outs.mpr ⟨c, hedge, h.mem_ins.mp hv⟩
  exact ((hins.nodup.subperm hsub).perm_of_length_le hlen.ge).eq_of_pairwise' hins
    (h.valid.outs.pairwise_values b)

lemma length_ins_le_valueCount (hp : problem.WellFormed) (b : ℕ) :
    (values log.ins b).length ≤ problem.valueCount := by
  have hle := h.valid.ins.length_le b (List.range problem.valueCount) fun v hv =>
    mem_range.mpr (hp.liveIn_lt (h.valid.liveIn b v hv)).2
  rwa [length_range] at hle

lemma length_outs_le_valueCount (hp : problem.WellFormed) (b : ℕ) :
    (values log.outs b).length ≤ problem.valueCount := by
  have hle := h.valid.outs.length_le b (List.range problem.valueCount) fun v hv => by
    obtain ⟨c, -, hlive⟩ := h.valid.liveOut b v hv
    exact mem_range.mpr (hp.liveIn_lt hlive).2
  rwa [length_range] at hle

end Complete

end Log

lemma Done.complete {ρ : Type} {problem : Problem} {Kept : Log → ρ → Prop} {s : Search × ρ}
    {log : Log} (h : Done problem Kept problem.valueCount s log) (hp : problem.WellFormed) :
    log.Complete problem where
  valid := h.valid
  ins b v hlive := (h.mem_ins b v).mpr ⟨(hp.liveIn_lt hlive).2, hlive⟩
  outs b v hlive := by
    obtain ⟨c, -, hlive'⟩ := id hlive
    exact (h.mem_outs b v).mpr ⟨(hp.liveIn_lt hlive').2, hlive⟩

variable {results : Results} {n block start : ℕ} {count valueIds : ℕ → ℕ} {total : Log}

/-- A run with a recorder that takes valid logs ends with what it keeps of a complete log. -/
lemma solverRun_spec {problem : Problem} {index : TransferIndex} {pass : Pass}
    {Kept : Log → Results → Prop} (hp : problem.WellFormed) (hindex : index.Describes problem)
    (hrec : (passRecorder problem.valueIds pass).Accepts problem Kept)
    (hkept : Kept ⟨[], []⟩ results) :
    ∃ results' log, solverRun problem index pass results = some results' ∧ Kept log results' ∧
      log.Complete problem := by
  obtain ⟨s, log, hrun, hdone⟩ := Done.foldlM_runValue hp hrec hindex hkept le_rfl
  refine ⟨s.2, log, ?_, hdone.kept, hdone.complete hp⟩
  unfold solverRun
  rw [hrun]
  rfl

/-- A new relation of a block changes the number of its values only. -/
lemma update_length_concat {α : Type} {f : ℕ → α} {x : α} {relations : List (ℕ × ℕ)} {b value : ℕ}
    (g : ℕ → ℕ → α) (hb : f b = g b (values relations b).length)
    (hx : x = g block ((values relations block).length + 1)) :
    update f block x b = g b (values (relations ++ [(block, value)]) b).length := by
  rw [congrFun (length_values_concat relations (block, value)) b]
  by_cases heq : b = block
  · rw [heq, update_self, update_self, hx]
  · rw [update_of_ne heq, update_of_ne heq, hb]

/-! ### The first pass -/

def Log.counted (log : Log) : Results where
  blockStates b := ⟨.null, (values log.ins b).length, 0, .null, (values log.outs b).length, 0, 0⟩
  liveInArray _ := 0
  liveOutArray _ := 0

theorem accepts_count (problem : Problem) :
    (passRecorder problem.valueIds .count).Accepts problem fun log results => results =
      log.counted where
  liveIn := by
    rintro log _ block value rfl -
    refine ⟨_, rfl, ?_⟩
    unfold Results.modify counted
    congr 1
    funext b
    exact update_length_concat
      (fun b n => BlockState.mk .null n 0 .null (values log.outs b).length 0 0) rfl rfl
  liveOut := by
    rintro log _ block value rfl -
    refine ⟨_, rfl, ?_⟩
    unfold Results.modify counted
    congr 1
    funext b
    exact update_length_concat
      (fun b n => BlockState.mk .null (values log.ins b).length 0 .null n 0 0) rfl rfl

/-! ### The storage -/

/-- The states of the first blocks are changed. -/
def staged (before after : ℕ → BlockState) (n : ℕ) : Results where
  blockStates b := if b < n then after b else before b
  liveInArray _ := 0
  liveOutArray _ := 0

lemma staged_modify (before after : ℕ → BlockState) {f : BlockState → BlockState}
    (h : f (before n) = after n) :
    (staged before after n).modify n f = staged before after (n + 1) := by
  unfold Results.modify staged
  congr 1
  funext b
  dsimp only
  by_cases hb : b = n
  · subst hb
    rw [update_self, if_neg (lt_irrefl b), if_pos (Nat.lt_succ_self b), h]
  rw [update_of_ne hb]
  by_cases hlt : b < n
  · rw [if_pos hlt, if_pos (Nat.lt_succ_of_lt hlt)]
  · rw [if_neg hlt, if_neg (by omega)]

lemma borrowedSuccessor_congr {problem : Problem} {results' : Results}
    (h : ∀ b, (results.blockStates b).liveInCount = (results'.blockStates b).liveInCount ∧
      (results.blockStates b).liveOutCount = (results'.blockStates b).liveOutCount)
    (b : ℕ) : borrowedSuccessor problem results b = borrowedSuccessor problem results' b := by
  unfold borrowedSuccessor
  simp only [fun b => (h b).1, (h b).2]

namespace Log

variable (problem : Problem) (log : Log)

def successor (b : ℕ) : ℕ := borrowedSuccessor problem log.counted b

/-- The number of live-out values with storage of their own. -/
def owned (b : ℕ) : ℕ :=
  if log.successor problem b = uint16Max then (values log.outs b).length else 0

def chosen (b : ℕ) : BlockState :=
  { log.counted.blockStates b with liveOutSuccessor := log.successor problem b }

/-- Borrowing is settled for the first blocks. -/
abbrev choosing : ℕ → Results := staged log.counted.blockStates (log.chosen problem)

/-- The block states once the storage is assigned. -/
def assigned (b : ℕ) : BlockState :=
  { log.chosen problem b with
    liveInValues := if 0 < (values log.ins b).length then
      .liveIn (starts (fun b => (values log.ins b).length) b) else .null
    liveOutValues :=
      if log.successor problem b = uint16Max ∧ 0 < (values log.outs b).length then
        .liveOut (starts (log.owned problem) b) else .null }

end Log

variable {problem : Problem} {log : Log}

section

variable (h : log.Complete problem) (hp : problem.WellFormed)
include h hp

lemma owned_le (b : ℕ) : log.owned problem b ≤ problem.valueCount := by
  unfold owned
  split_ifs
  · exact h.length_outs_le_valueCount hp b
  · exact Nat.zero_le _

omit h hp in
/-- The blocks of one region never have more relations than a host size can count. -/
lemma storage_fits (hp : problem.WellFormed) (h : ∀ b, count b ≤ problem.valueCount)
    (hn : n < problem.blockCount) : starts count n + count n ≤ hostSizeMax := by
  have hmul := Nat.mul_le_mul (Nat.succ_le_of_lt hn |>.trans hp.blockCount_le) hp.valueCount_le
  have hbound : uint16Max * uint32Max ≤ hostSizeMax := by decide
  exact (starts_le_mul h (n + 1)).trans (hmul.trans hbound)

lemma foldlM_chooseStorage (hn : n ≤ problem.blockCount) :
    (List.range n).foldlM (chooseStorage problem) (⟨0, 0⟩, log.counted) =
      .ok (⟨starts (fun b => (values log.ins b).length) n, starts (log.owned problem) n⟩,
        log.choosing problem n) := by
  induction n with
  | zero => rfl
  | succ n ih =>
    have hchosen : borrowedSuccessor problem (log.choosing problem n) n =
        log.successor problem n := by
      refine borrowedSuccessor_congr (fun b => ?_) n
      unfold choosing staged
      dsimp only
      split_ifs
      · exact ⟨rfl, rfl⟩
      · exact ⟨rfl, rfl⟩
    have hfits := storage_fits hp (h.length_ins_le_valueCount hp) hn
    have hfits' := storage_fits hp (owned_le h hp) hn
    rw [range_succ, foldlM_append, ih (Nat.le_of_succ_le hn)]
    show chooseStorage problem _ n >>= pure = _
    unfold chooseStorage
    dsimp only
    rw [hchosen, staged_modify _ (log.chosen problem) rfl]
    have hstate : (log.choosing problem (n + 1)).blockStates n = log.chosen problem n :=
      if_pos (Nat.lt_succ_self n)
    rw [hstate]
    rw [show (if (log.chosen problem n).liveOutSuccessor = uint16Max then
      (log.chosen problem n).liveOutCount else 0) = log.owned problem n from rfl,
      show (log.chosen problem n).liveInCount = (values log.ins n).length from rfl,
      if_neg (by omega)]
    rfl

omit h hp in
lemma foldl_assignStorage (n : ℕ) (hn : n ≤ problem.blockCount) :
    (List.range n).foldl assignStorage
        (⟨0, 0⟩, log.choosing problem problem.blockCount) =
      (⟨starts (fun b => (values log.ins b).length) n, starts (log.owned problem) n⟩,
        staged (log.choosing problem problem.blockCount).blockStates (log.assigned problem) n) := by
  induction n with
  | zero => rfl
  | succ n ih =>
    have hstate : (log.choosing problem problem.blockCount).blockStates n = log.chosen problem n :=
      if_pos hn
    have hbefore : (staged (log.choosing problem problem.blockCount).blockStates
        (log.assigned problem) n).blockStates n = log.chosen problem n :=
      (if_neg (lt_irrefl n)).trans hstate
    rw [range_succ, foldl_append, ih (Nat.le_of_succ_le hn), foldl_cons, foldl_nil]
    unfold assignStorage
    dsimp only
    rw [hbefore, staged_modify _ (log.assigned problem)]
    · congr 1
      rw [starts, starts]
      unfold owned
      show Totals.mk _ (if decide (log.successor problem n = uint16Max) = true then
        _ + (values log.outs n).length else _) = _
      by_cases hs : log.successor problem n = uint16Max
      · rw [if_pos (decide_eq_true hs), if_pos hs]
        rfl
      · rw [if_neg (by simpa using hs), if_neg hs]
        rfl
    · rw [hstate]
      congr 1
      by_cases hs : log.successor problem n = uint16Max
      · simp [hs, chosen, counted]
      · simp [hs, chosen]

/-- The storage is assigned without an error. -/
lemma allocateResults_spec : ∃ results, allocateResults problem log.counted = .ok results ∧
      (∀ b < problem.blockCount, results.blockStates b = log.assigned problem b) ∧
        results.liveInArray = (fun _ => 0) ∧ results.liveOutArray = fun _ => 0 := by
  refine ⟨staged (log.choosing problem problem.blockCount).blockStates (log.assigned problem)
    problem.blockCount, ?_, fun b hb => if_pos hb, rfl, rfl⟩
  unfold allocateResults
  rw [foldlM_chooseStorage h hp le_rfl]
  dsimp only [bind, Except.bind]
  rw [foldl_assignStorage _ le_rfl]
  simp

end

/-! ### The second pass -/

def entries (problem : Problem) (relations : List (ℕ × ℕ)) : List (ℕ × ℕ) :=
  relations.map fun e => (e.1, problem.valueIds e.2)

/-- The live-out relations of blocks with storage of their own. -/
def Log.ownedOuts (problem : Problem) (total log : Log) : List (ℕ × ℕ) :=
  log.outs.filter fun e => total.successor problem e.1 = uint16Max

def BlockState.filled (state : BlockState) (liveIn liveOut : ℕ) : BlockState :=
  { state with liveInFillCount := liveIn, liveOutFillCount := liveOut }

/-- What the second pass keeps: the arrays are filled in the order of the log. -/
structure Published (problem : Problem) (total log : Log) (results : Results) : Prop where
  blockStates : ∀ b < problem.blockCount, results.blockStates b =
    (total.assigned problem b).filled (values log.ins b).length
      (values (total.ownedOuts problem log) b).length
  liveInArray : results.liveInArray = ((entries problem log.ins).foldl place
    ⟨fun _ => 0, starts fun b => (values total.ins b).length⟩).array
  liveOutArray : results.liveOutArray = ((entries problem (total.ownedOuts problem log)).foldl place
    ⟨fun _ => 0, starts (total.owned problem)⟩).array

lemma values_ownedOuts (total log : Log) (b : ℕ) :
    values (total.ownedOuts problem log) b =
      if total.successor problem b = uint16Max then values log.outs b else [] := by
  unfold ownedOuts values
  rw [filter_filter]
  split_ifs with h
  · congr 1
    apply filter_congr
    rintro ⟨c, v⟩ -
    by_cases hc : c = b
    · subst hc
      simp [h]
    · simp [hc]
  · rw [map_eq_nil_iff, filter_eq_nil_iff]
    rintro ⟨c, v⟩ - hcond
    simp only [Bool.and_eq_true, decide_eq_true_eq] at hcond
    exact h (hcond.1 ▸ hcond.2)

lemma values_entries (relations : List (ℕ × ℕ)) (b : ℕ) :
    values (entries problem relations) b = (values relations b).map problem.valueIds :=
  values_map problem.valueIds relations b

lemma ownedOuts_length_le (h : total.Complete problem) (hlog : log.Valid problem) (b : ℕ) :
    (values (total.ownedOuts problem log) b).length ≤ total.owned problem b := by
  rw [values_ownedOuts]
  unfold owned
  split_ifs
  · exact hlog.outs.length_le b _ fun v hv => mem_values.mpr (h.outs b v (hlog.liveOut b v hv))
  · exact le_rfl

/-- An entry goes behind the earlier ones of its block. -/
lemma foldl_place_entries {relations : List (ℕ × ℕ)} {value : ℕ}
    (hfits : ∀ b, (values (relations ++ [(block, value)]) b).length ≤ count b) :
    ((entries problem (relations ++ [(block, value)])).foldl place
        ⟨fun _ => 0, starts count⟩).array =
      update ((entries problem relations).foldl place ⟨fun _ => 0, starts count⟩).array
        (starts count block + (values relations block).length) (problem.valueIds value) := by
  have hbefore : ∀ b, (values (entries problem relations) b).length ≤ count b := by
    intro b
    rw [values_entries, length_map]
    exact (length_values_append_le relations [(block, value)] b).trans (hfits b)
  obtain ⟨hcur, -⟩ := foldl_place (s := ⟨fun _ => 0, starts count⟩) (fun _ => rfl) hbefore
  have hblock := hcur block
  rw [values_entries, length_map] at hblock
  rw [← hblock]
  unfold entries
  rw [map_append, foldl_append]
  rfl

lemma recordLiveIn_publish (value : ℕ)
    (hptr : (results.blockStates block).liveInValues = .liveIn start)
    (hroom : (results.blockStates block).liveInFillCount <
      (results.blockStates block).liveInCount) :
    recordLiveIn valueIds .publish results block value =
      some
        { blockStates := update results.blockStates block
            { results.blockStates block with
              liveInFillCount := (results.blockStates block).liveInFillCount + 1 }
          liveInArray := update results.liveInArray
            (start + (results.blockStates block).liveInFillCount) (valueIds value)
          liveOutArray := results.liveOutArray } := by
  unfold recordLiveIn
  dsimp only
  rw [if_pos hroom]
  conv_lhs => rw [hptr]
  rfl

lemma recordLiveOut_publish (value : ℕ)
    (hptr : (results.blockStates block).liveOutValues = .liveOut start)
    (hroom : (results.blockStates block).liveOutFillCount <
      (results.blockStates block).liveOutCount) :
    recordLiveOut valueIds .publish results block value =
      some
        { blockStates := update results.blockStates block
            { results.blockStates block with
              liveOutFillCount := (results.blockStates block).liveOutFillCount + 1 }
          liveInArray := results.liveInArray
          liveOutArray := update results.liveOutArray
            (start + (results.blockStates block).liveOutFillCount) (valueIds value) } := by
  unfold recordLiveOut
  dsimp only
  rw [if_neg (by rw [hptr]; simp), if_pos hroom]
  conv_lhs => rw [hptr]
  rfl

namespace Published

variable {value : ℕ} (hpub : Published problem total log results) (h : total.Complete problem)
  (hp : problem.WellFormed)
include hpub h hp

lemma recordLiveIn (hvalid : (log.addIn block value).Valid problem) :
    ∃ results', recordLiveIn problem.valueIds .publish results block value = some results' ∧
      Published problem total (log.addIn block value) results' := by
  have hlive : problem.LiveIn value block :=
    hvalid.liveIn block value (mem_append_right _ mem_cons_self)
  have hlen : ∀ b, (values (log.ins ++ [(block, value)]) b).length ≤ (values total.ins b).length :=
    fun b => hvalid.ins.length_le b _ fun v hv => mem_values.mpr (h.ins b v (hvalid.liveIn b v hv))
  have hroom := hlen block
  rw [congrFun (length_values_concat log.ins (block, value)) block, update_self] at hroom
  have hstate := hpub.blockStates block (hp.liveIn_lt hlive).1
  have hptr : (results.blockStates block).liveInValues =
      .liveIn (starts (fun b => (values total.ins b).length) block) := by
    rw [hstate]
    exact if_pos (Nat.zero_lt_of_lt hroom)
  refine ⟨_, recordLiveIn_publish value hptr (by rw [hstate]; exact hroom), ?_, ?_,
    hpub.liveOutArray⟩
  · intro b hb
    refine update_length_concat (fun b n => (total.assigned problem b).filled n
      (values (total.ownedOuts problem log) b).length) (hpub.blockStates b hb) ?_
    rw [hstate]
    rfl
  · rw [hstate, hpub.liveInArray]
    exact (foldl_place_entries hlen).symm

lemma recordLiveOut (hvalid : (log.addOut block value).Valid problem) :
    ∃ results', recordLiveOut problem.valueIds .publish results block value = some results' ∧
      Published problem total (log.addOut block value) results' := by
  have hlive : problem.LiveOut value block :=
    hvalid.liveOut block value (mem_append_right _ mem_cons_self)
  have hpos : 0 < (values total.outs block).length := length_pos_of_mem (h.mem_outs.mpr hlive)
  have hstate := hpub.blockStates block (hp.liveOut_lt hlive)
  have hptr : (results.blockStates block).liveOutValues =
      if total.successor problem block = uint16Max then
        .liveOut (starts (total.owned problem) block) else .null := by
    rw [hstate]
    show (if _ ∧ _ then _ else _) = _
    simp only [hpos, and_true]
  by_cases hs : total.successor problem block = uint16Max
  · rw [if_pos hs] at hptr
    have houts : total.ownedOuts problem (log.addOut block value) =
        total.ownedOuts problem log ++ [(block, value)] := by
      unfold ownedOuts addOut
      rw [filter_append, filter_cons_of_pos (by simpa using hs), filter_nil]
    have hlen := ownedOuts_length_le h hvalid
    rw [houts] at hlen
    have hroom := hlen block
    rw [congrFun (length_values_concat _ (block, value)) block, update_self,
      show total.owned problem block = (values total.outs block).length from if_pos hs] at hroom
    refine ⟨_, recordLiveOut_publish value hptr (by rw [hstate]; exact hroom), ?_,
      hpub.liveInArray, ?_⟩
    · intro b hb
      rw [houts]
      refine update_length_concat
        (fun b n => (total.assigned problem b).filled (values log.ins b).length n)
          (hpub.blockStates b hb) ?_
      rw [hstate]
      rfl
    · rw [hstate, hpub.liveOutArray, houts]
      exact (foldl_place_entries hlen).symm
  · -- a borrowed list is not written
    rw [if_neg hs] at hptr
    have houts : total.ownedOuts problem (log.addOut block value) =
        total.ownedOuts problem log := by
      unfold ownedOuts addOut
      rw [filter_append, filter_cons_of_neg (by simpa using hs), filter_nil, append_nil]
    refine ⟨results, ?_, ?_, hpub.liveInArray, ?_⟩
    · exact if_pos hptr
    · rw [houts]
      exact hpub.blockStates
    · rw [houts]
      exact hpub.liveOutArray

end Published

theorem accepts_publish (h : total.Complete problem) (hp : problem.WellFormed) :
    (passRecorder problem.valueIds .publish).Accepts problem (Published problem total) where
  liveIn _ _ _ _ hpub hvalid := hpub.recordLiveIn h hp hvalid
  liveOut _ _ _ _ hpub hvalid := hpub.recordLiveOut h hp hvalid

/-! ### The relations -/

lemma successor_spec {b : ℕ} (hs : log.successor problem b ≠ uint16Max) :
    log.successor problem b ∈ problem.successors b ∧
      (values log.ins (log.successor problem b)).length = (values log.outs b).length := by
  unfold successor borrowedSuccessor at hs ⊢
  cases hfind : (problem.successors b).find? fun successor =>
      (log.counted.blockStates successor).liveInCount =
        (log.counted.blockStates b).liveOutCount with
  | none =>
    rw [hfind] at hs
    exact absurd rfl hs
  | some c =>
    have hlen := List.find?_some hfind
    exact ⟨mem_of_find?_eq_some hfind, of_decide_eq_true hlen⟩

namespace Published

variable {b : ℕ} (hpub : Published problem total log results) (h : total.Complete problem)
  (hlog : log.Complete problem) (hb : b < problem.blockCount)
include hpub h hlog hb

lemma read_liveIn : results.read (results.blockStates b).liveInValues (values total.ins b).length =
      (values total.ins b).map problem.valueIds := by
  rw [hpub.blockStates b hb]
  show results.read (if 0 < _ then _ else _) _ = _
  split_ifs with hpos
  · have hcount : ∀ k, (fun b => (values total.ins b).length) k =
        (values (entries problem log.ins) k).length := by
      intro k
      rw [values_entries, length_map, h.values_ins_eq hlog]
    unfold Results.read
    dsimp only
    rw [hpub.liveInArray, run_foldl_place (fun _ => rfl) hcount, values_entries,
      h.values_ins_eq hlog]
  · rw [eq_nil_of_length_eq_zero (Nat.eq_zero_of_not_pos hpos)]
    rfl

lemma read_liveOut (hs : total.successor problem b = uint16Max) :
    results.read (results.blockStates b).liveOutValues (values total.outs b).length =
      (values total.outs b).map problem.valueIds := by
  have howned : ∀ k, total.owned problem k =
      (values (entries problem (total.ownedOuts problem log)) k).length := by
    intro k
    rw [values_entries, length_map, values_ownedOuts]
    unfold owned
    split_ifs
    · rw [h.values_outs_eq hlog]
    · rfl
  rw [hpub.blockStates b hb]
  show results.read (if _ ∧ 0 < _ then _ else _) _ = _
  split_ifs with hpos
  · have hcount : (values total.outs b).length = total.owned problem b := (if_pos hs).symm
    unfold Results.read
    dsimp only
    rw [hcount, hpub.liveOutArray, run_foldl_place (fun _ => rfl) howned, values_entries,
      values_ownedOuts, if_pos hs, h.values_outs_eq hlog]
  · have hnil : values total.outs b = [] :=
      eq_nil_of_length_eq_zero (Nat.eq_zero_of_not_pos fun hlen => hpos ⟨hs, hlen⟩)
    rw [hnil]
    rfl

end Published

/-- A list holds the identities of the live values, each once and in the order of the ordinals. -/
structure Problem.Publishes (problem : Problem) (Live : ℕ → Prop) (list : List ℕ) (count : ℕ) :
    Prop where
  ordinals : ∃ ordinals : List ℕ, ordinals.Pairwise (· < ·) ∧ (∀ v, v ∈ ordinals ↔ Live v) ∧
    list = ordinals.map problem.valueIds
  length : list.length = count
  nodup : Set.InjOn problem.valueIds (Set.Iio problem.valueCount) → list.Nodup

lemma publishes_map {Live : ℕ → Prop} {ordinals : List ℕ} (hasc : ordinals.Pairwise (· < ·))
    (hmem : ∀ v, v ∈ ordinals ↔ Live v) (hlt : ∀ v, Live v → v < problem.valueCount) :
    problem.Publishes Live (ordinals.map problem.valueIds) ordinals.length where
  ordinals := ⟨ordinals, hasc, hmem, rfl⟩
  length := length_map _
  nodup hinj := by
    apply hasc.nodup.map_on
    intro v hv w hw heq
    exact hinj (hlt v ((hmem v).mp hv)) (hlt w ((hmem w).mp hw)) heq

/-- The state of a block when both passes are done. -/
structure Results.Filled (results : Results) (problem : Problem) (b : ℕ) : Prop where
  liveIn : (results.blockStates b).liveInFillCount = (results.blockStates b).liveInCount
  owned : (results.blockStates b).liveOutSuccessor = uint16Max →
    (results.blockStates b).liveOutFillCount = (results.blockStates b).liveOutCount
  borrowed : (results.blockStates b).liveOutSuccessor ≠ uint16Max →
    (results.blockStates b).liveOutFillCount = 0 ∧
      (results.blockStates b).liveOutSuccessor ∈ problem.successors b ∧
        (blockRelation results b).liveOutValues =
          (blockRelation results (results.blockStates b).liveOutSuccessor).liveInValues

namespace Published

variable {b : ℕ} (hpub : Published problem total log results) (h : total.Complete problem)
  (hlog : log.Complete problem)
include hpub h hlog

lemma filled (hb : b < problem.blockCount) : results.Filled problem b := by
  have hstate := hpub.blockStates b hb
  have hsucc : (results.blockStates b).liveOutSuccessor = total.successor problem b :=
    congrArg _ hstate
  refine ⟨?_, fun hs => ?_, fun hs => ⟨?_, ?_, if_neg hs⟩⟩
  · rw [hstate]
    exact congrArg List.length (h.values_ins_eq hlog b)
  · rw [hsucc] at hs
    rw [hstate]
    show (values (total.ownedOuts problem log) b).length = (values total.outs b).length
    rw [values_ownedOuts, if_pos hs, h.values_outs_eq hlog]
  · rw [hsucc] at hs
    rw [hstate]
    show (values (total.ownedOuts problem log) b).length = 0
    rw [values_ownedOuts, if_neg hs, length_nil]
  · rw [hsucc] at hs ⊢
    exact (successor_spec hs).1

lemma publishes_liveIn (hp : problem.WellFormed) (hb : b < problem.blockCount) :
    problem.Publishes (problem.LiveIn · b)
      (results.read (blockRelation results b).liveInValues (blockRelation results b).liveInCount)
      (blockRelation results b).liveInCount := by
  have hcount : (blockRelation results b).liveInCount = (values total.ins b).length :=
    congrArg BlockState.liveInCount (hpub.blockStates b hb)
  rw [hcount]
  show problem.Publishes _ (results.read (results.blockStates b).liveInValues _) _
  rw [hpub.read_liveIn h hlog hb]
  exact publishes_map (h.valid.ins.pairwise_values b) (fun _ => h.mem_ins) fun _ hlive =>
    (hp.liveIn_lt hlive).2

lemma publishes_liveOut (hp : problem.WellFormed) (hb : b < problem.blockCount) :
    problem.Publishes (problem.LiveOut · b)
      (results.read (blockRelation results b).liveOutValues (blockRelation results b).liveOutCount)
      (blockRelation results b).liveOutCount := by
  have hcount : (blockRelation results b).liveOutCount = (values total.outs b).length :=
    congrArg BlockState.liveOutCount (hpub.blockStates b hb)
  have hsucc : (results.blockStates b).liveOutSuccessor = total.successor problem b :=
    congrArg _ (hpub.blockStates b hb)
  have hread : results.read (blockRelation results b).liveOutValues (values total.outs b).length =
      (values total.outs b).map problem.valueIds := by
    show results.read (if (results.blockStates b).liveOutSuccessor = uint16Max then _ else _) _ = _
    rw [hsucc]
    split_ifs with hs
    · exact hpub.read_liveOut h hlog hb hs
    -- the successor has the same values
    obtain ⟨hedge, hlen⟩ := successor_spec hs
    rw [← h.borrow hedge hlen]
    exact hpub.read_liveIn h hlog (hp.edge_lt hedge).2
  rw [hcount, hread]
  refine publishes_map (h.valid.outs.pairwise_values b) (fun _ => h.mem_outs) ?_
  rintro v ⟨c, -, hlive⟩
  exact (hp.liveIn_lt hlive).2

end Published

/-- Both passes run to the end, and the relations are the live values of each block. -/
theorem solve_exact (problem : Problem) (hp : problem.WellFormed)
    (hsingle : problem.SingleDefinition) :
    ∃ relations results, solve problem = .ok (relations, results) ∧
      relations.length = problem.blockCount ∧
        ∀ b relation, relations[b]? = some relation →
          problem.Publishes (problem.LiveIn · b)
              (results.read relation.liveInValues relation.liveInCount) relation.liveInCount ∧
            problem.Publishes (problem.LiveOut · b)
              (results.read relation.liveOutValues relation.liveOutCount) relation.liveOutCount ∧
              results.Filled problem b := by
  obtain ⟨index, hindex, hdescribes⟩ := indexTransfers_spec hp hsingle
  have hempty : Results.empty = (⟨[], []⟩ : Log).counted := rfl
  obtain ⟨counted, total, hcount, rfl, htotal⟩ :=
    solverRun_spec hp hdescribes (accepts_count problem) hempty
  obtain ⟨allocated, halloc, hstates, hin, hout⟩ := allocateResults_spec htotal hp
  have hstart : Published problem total ⟨[], []⟩ allocated := ⟨hstates, hin, hout⟩
  obtain ⟨results, log, hrun, hpub, hlog⟩ :=
    solverRun_spec hp hdescribes (accepts_publish htotal hp) hstart
  have hfilled : ∀ b < problem.blockCount, results.Filled problem b := fun b hb =>
    hpub.filled htotal hlog hb
  refine ⟨(List.range problem.blockCount).map (blockRelation results), results, ?_, ?_, ?_⟩
  · have hall : (List.range problem.blockCount).all (isFilled results) = true := by
      rw [all_eq_true]
      intro b hb
      have hb := hfilled b (mem_range.mp hb)
      unfold isFilled
      by_cases hs : (results.blockStates b).liveOutSuccessor = uint16Max
      · simp [hb.liveIn, hb.owned hs]
      · simp [hb.liveIn, hs]
    unfold solve
    rw [hindex]
    dsimp only [bind, Except.bind]
    rw [hcount]
    dsimp only [orAssertion]
    rw [halloc]
    dsimp only
    rw [hrun]
    dsimp only
    rw [if_pos hall]
  · rw [length_map, length_range]
  · intro b relation hrel
    rw [List.getElem?_map, Option.map_eq_some_iff] at hrel
    obtain ⟨c, hc, rfl⟩ := hrel
    obtain ⟨hlt, rfl⟩ := List.getElem?_eq_some_iff.mp hc
    rw [length_range] at hlt
    rw [getElem_range]
    exact ⟨hpub.publishes_liveIn htotal hlog hp hlt, hpub.publishes_liveOut htotal hlog hp hlt,
      hfilled b hlt⟩

/-- Value 0 is defined before the loop and used in and after it; value 1 is an argument of the
region that is used after the loop. -/
def loopProblem : Problem where
  cfgGraph := loopRegion.buildEdges.toOption
  valueIds value := value + 10
  valueCount := 2
  blockTransfers := [⟨[], [0]⟩, ⟨[0], []⟩, ⟨[0, 1], []⟩]

theorem solve_exact_loop :
    loopProblem.WellFormed ∧ loopProblem.SingleDefinition ∧
      ∃ relations results, solve loopProblem = .ok (relations, results) ∧ relations.length = 3 ∧
        ∀ b relation, relations[b]? = some relation →
          loopProblem.Publishes (loopProblem.LiveIn · b)
            (results.read relation.liveInValues relation.liveInCount) relation.liveInCount := by
  have hp : loopProblem.WellFormed := by
    refine ⟨by decide, by decide, ?_, by decide, by decide, by decide⟩
    intro graph hgraph
    refine ⟨loopRegion, ?_, rfl⟩
    unfold loopProblem at hgraph
    cases hbuild : loopRegion.buildEdges with
    | error => rw [hbuild] at hgraph; cases hgraph
    | ok =>
      rw [hbuild] at hgraph
      exact congrArg Except.ok (Option.some.inj hgraph)
  have hsingle : loopProblem.SingleDefinition := by
    have honly : ∀ v b, loopProblem.Defines v b → b = 0 := by
      rintro v b ⟨transfer, hget, hv⟩
      match b, hget with
      | 0, _ => rfl
      | 1, hget =>
        cases hget
        cases hv
      | 2, hget =>
        cases hget
        cases hv
    intro v a b ha hb
    rw [honly v a ha, honly v b hb]
  obtain ⟨relations, results, hsolve, hlen, hrel⟩ := solve_exact loopProblem hp hsingle
  exact ⟨hp, hsingle, relations, results, hsolve, hlen, fun b relation h => (hrel b relation h).1⟩

end Hrx.Liveness
