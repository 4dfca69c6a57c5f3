import Hrx.Cfg.Graph

/-!
# Block liveness

`loom_liveness_dataflow_solve` walks the predecessors from every upward-exposed use, value by value,
on marks that hold the last value found live at a block.  It runs twice: the first pass counts the
relations of each block, the second writes them into two arrays in which every block owns one run,
or for its live-out values borrows the run of a successor.

Reading or writing outside an array and a failed assertion give `Failure.assertion`.
-/

namespace Hrx.Liveness

open Buckets Cfg

/-- `UINT32_MAX`: no defining block, and `LOOM_VALUE_ORDINAL_INVALID`. -/
def uint32Max : ℕ := 2 ^ 32 - 1

inductive Failure where
  | status (status : Status)
  | assertion
deriving DecidableEq, Repr

/-- The transfer facts of a block (`loom_liveness_block_transfer_t`). -/
structure BlockTransfer where
  useOrdinals : List ℕ
  definitionOrdinals : List ℕ

/-- The arguments of `loom_liveness_dataflow_solve`. -/
structure Problem where
  cfgGraph : Option Graph
  valueIds : ℕ → ℕ
  valueCount : ℕ
  blockTransfers : List BlockTransfer

namespace Problem

variable (problem : Problem)

def blockCount : ℕ := problem.blockTransfers.length

/-- The successors of a block; none without a graph. -/
def successors (block : ℕ) : List ℕ :=
  match problem.cfgGraph with
  | none => []
  | some graph => graph.successors block

/-- The predecessors of a block; none without a graph. -/
def predecessors (block : ℕ) : List ℕ :=
  match problem.cfgGraph with
  | none => []
  | some graph => graph.predecessors block

/-- The uses, each with its block, in the order of the loops over the blocks. -/
def useSites : List (ℕ × ℕ) :=
  problem.blockTransfers.zipIdx.flatMap fun (transfer, block) =>
    transfer.useOrdinals.map (·, block)

/-- The definitions, each with its block. -/
def definitionSites : List (ℕ × ℕ) :=
  problem.blockTransfers.zipIdx.flatMap fun (transfer, block) =>
    transfer.definitionOrdinals.map (·, block)

end Problem

/-! ### The index of the transfers -/

/-- The number of uses in total and of each value. -/
structure UseCounts where
  total : ℕ
  count : ℕ → ℕ

def countUses (counts : UseCounts) (transfer : BlockTransfer) : Except Failure UseCounts :=
  if hostSizeMax - counts.total < transfer.useOrdinals.length then
    .error (.status ⟨.outOfRange, "liveness block uses exceed host size"⟩)
  else
    .ok
      { total := counts.total + transfer.useOrdinals.length
        count := transfer.useOrdinals.foldl
          (fun count value => Function.update count value (count value + 1)) counts.count }

structure UseFill where
  useBlockIndices : ℕ → ℕ
  fillCounts : ℕ → ℕ

/-- One use is entered behind the earlier ones of its value; the counts are `uint32_t`. -/
def fillUse (offsets : ℕ → ℕ) (fill : UseFill) (site : ℕ × ℕ) : UseFill where
  useBlockIndices :=
    Function.update fill.useBlockIndices (offsets site.1 + fill.fillCounts site.1) site.2
  fillCounts := Function.update fill.fillCounts site.1 ((fill.fillCounts site.1 + 1) % 2 ^ 32)

def fillDefinition (blocks : ℕ → ℕ) (site : ℕ × ℕ) : Except Failure (ℕ → ℕ) :=
  if blocks site.1 = uint32Max ∨ blocks site.1 = site.2 then
    .ok (Function.update blocks site.1 site.2)
  else .error .assertion

structure TransferIndex where
  valueUseOffsets : ℕ → ℕ
  useBlockIndices : ℕ → ℕ
  definitionBlockIndices : ℕ → ℕ

/-- The blocks with an upward-exposed use of a value. -/
def TransferIndex.useBlocks (index : TransferIndex) (value : ℕ) : List ℕ :=
  (List.range (index.valueUseOffsets (value + 1) - index.valueUseOffsets value)).map fun i =>
    index.useBlockIndices (index.valueUseOffsets value + i)

/-- `loom_liveness_dataflow_index_transfers`.  Without values nothing is indexed, and nothing is
read later. -/
def indexTransfers (problem : Problem) : Except Failure TransferIndex :=
  if problem.valueCount = 0 then .ok ⟨fun _ => 0, fun _ => 0, fun _ => uint32Max⟩
  else do
    let counts ← problem.blockTransfers.foldlM countUses ⟨0, fun _ => 0⟩
    let offsets := starts counts.count
    if offsets problem.valueCount ≠ counts.total then .error .assertion
    else do
      let fill := problem.useSites.foldl (fillUse offsets) ⟨fun _ => 0, fun _ => 0⟩
      let definitions ← problem.definitionSites.foldlM fillDefinition fun _ => uint32Max
      .ok ⟨offsets, fill.useBlockIndices, definitions⟩

/-! ### The search -/

/-- The marks and the stack of blocks whose predecessors are still to be visited. -/
structure Search where
  liveInMarks : ℕ → ℕ
  liveOutMarks : ℕ → ℕ
  blockWorklist : List ℕ

/-- What a pass does with a relation found: it gets the block and the value. -/
structure Recorder (ρ : Type) where
  liveIn : ρ → ℕ → ℕ → Option ρ
  liveOut : ρ → ℕ → ℕ → Option ρ

section search

variable {ρ : Type} (recorder : Recorder ρ) (blockCount : ℕ)

/-- A block is found live-in: it is marked, recorded and put on the worklist, which has room for
`blockCount` blocks. -/
def enterBlock (value : ℕ) (s : Search × ρ) (block : ℕ) : Option (Search × ρ) :=
  match recorder.liveIn s.2 block value with
  | none => none
  | some results =>
    if s.1.blockWorklist.length < blockCount then
      some ({ s.1 with
        liveInMarks := Function.update s.1.liveInMarks block value
        blockWorklist := block :: s.1.blockWorklist }, results)
    else none

def visitUse (value : ℕ) (s : Search × ρ) (block : ℕ) : Option (Search × ρ) :=
  if s.1.liveInMarks block = value then some s else enterBlock recorder blockCount value s block

def markLiveOut (value : ℕ) (s : Search × ρ) (predecessor : ℕ) : Option (Search × ρ) :=
  if s.1.liveOutMarks predecessor = value then some s
  else
    match recorder.liveOut s.2 predecessor value with
    | none => none
    | some results =>
      some ({ s.1 with
        liveOutMarks := Function.update s.1.liveOutMarks predecessor value }, results)

def visitPredecessor (definitionBlock value : ℕ) (s : Search × ρ) (predecessor : ℕ) :
    Option (Search × ρ) :=
  match markLiveOut recorder value s predecessor with
  | none => none
  | some s =>
    if definitionBlock = predecessor ∨ s.1.liveInMarks predecessor = value then some s
    else enterBlock recorder blockCount value s predecessor

def propagate (predecessors : ℕ → List ℕ) (definitionBlock value : ℕ) :
    ℕ → Search × ρ → Option (Search × ρ)
  | 0, s => if s.1.blockWorklist.isEmpty then some s else none
  | fuel + 1, s =>
    match s.1.blockWorklist with
    | [] => some s
    | block :: worklist =>
      match (predecessors block).foldlM
          (visitPredecessor recorder blockCount definitionBlock value)
          ({ s.1 with blockWorklist := worklist }, s.2) with
      | none => none
      | some s => propagate predecessors definitionBlock value fuel s

/-- One round of `loom_liveness_dataflow_solver_run`.  Every block enters the worklist at most once,
so `blockCount` passes of its loop are enough. -/
def runValue (index : TransferIndex) (predecessors : ℕ → List ℕ) (s : Search × ρ) (value : ℕ) :
    Option (Search × ρ) :=
  match (index.useBlocks value).foldlM (visitUse recorder blockCount value) s with
  | none => none
  | some s =>
    propagate recorder blockCount predecessors
      (index.definitionBlockIndices value) value blockCount s

end search

/-! ### The two passes -/

/-- `loom_liveness_dataflow_pass_t`. -/
inductive Pass where
  | count
  | publish
deriving DecidableEq, Repr

/-- A list of values: a pointer into the live-in or the live-out array. -/
inductive ValueList where
  | null
  | liveIn (start : ℕ)
  | liveOut (start : ℕ)
deriving DecidableEq, Repr

/-- `loom_liveness_dataflow_block_state_t`. -/
structure BlockState where
  liveInValues : ValueList
  liveInCount : ℕ
  liveInFillCount : ℕ
  liveOutValues : ValueList
  liveOutCount : ℕ
  liveOutFillCount : ℕ
  liveOutSuccessor : ℕ

structure Results where
  blockStates : ℕ → BlockState
  liveInArray : ℕ → ℕ
  liveOutArray : ℕ → ℕ

namespace Results

variable (results : Results)

def modify (block : ℕ) (f : BlockState → BlockState) : Results :=
  { results with
    blockStates := Function.update results.blockStates block (f (results.blockStates block)) }

def write (list : ValueList) (i value : ℕ) : Option Results :=
  match list with
  | .null => none
  | .liveIn start =>
    some { results with liveInArray := Function.update results.liveInArray (start + i) value }
  | .liveOut start =>
    some { results with liveOutArray := Function.update results.liveOutArray (start + i) value }

def read (list : ValueList) (count : ℕ) : List ℕ :=
  match list with
  | .null => []
  | .liveIn start => (List.range count).map fun i => results.liveInArray (start + i)
  | .liveOut start => (List.range count).map fun i => results.liveOutArray (start + i)

end Results

variable (valueIds : ℕ → ℕ)

/-- `loom_liveness_dataflow_record_live_in`. -/
def recordLiveIn (pass : Pass) (results : Results) (block value : ℕ) : Option Results :=
  let state := results.blockStates block
  match pass with
  | .count =>
    some (results.modify block fun state => { state with liveInCount := state.liveInCount + 1 })
  | .publish =>
    if state.liveInFillCount < state.liveInCount then
      (results.write state.liveInValues state.liveInFillCount (valueIds value)).map fun results =>
        results.modify block fun state =>
          { state with liveInFillCount := state.liveInFillCount + 1 }
    else none

/-- `loom_liveness_dataflow_record_live_out`. -/
def recordLiveOut (pass : Pass) (results : Results) (block value : ℕ) : Option Results :=
  let state := results.blockStates block
  match pass with
  | .count =>
    some (results.modify block fun state => { state with liveOutCount := state.liveOutCount + 1 })
  | .publish =>
    if state.liveOutValues = .null then some results
    else if state.liveOutFillCount < state.liveOutCount then
      (results.write state.liveOutValues state.liveOutFillCount (valueIds value)).map fun results =>
        results.modify block fun state =>
          { state with liveOutFillCount := state.liveOutFillCount + 1 }
    else none

def passRecorder (pass : Pass) : Recorder Results :=
  ⟨recordLiveIn valueIds pass, recordLiveOut valueIds pass⟩

/-- `loom_liveness_dataflow_solver_run`, with the marks reset. -/
def solverRun (problem : Problem) (index : TransferIndex) (pass : Pass) (results : Results) :
    Option Results :=
  ((List.range problem.valueCount).foldlM
    (runValue (passRecorder problem.valueIds pass) problem.blockCount index problem.predecessors)
    (⟨fun _ => uint32Max, fun _ => uint32Max, []⟩, results)).map Prod.snd

/-! ### The results -/

structure Totals where
  liveIn : ℕ
  liveOut : ℕ

/-- The successor whose live-in list serves as the live-out list of a block: the first with as many
values. -/
def borrowedSuccessor (problem : Problem) (results : Results) (block : ℕ) : ℕ :=
  ((problem.successors block).find? fun successor =>
    (results.blockStates successor).liveInCount = (results.blockStates block).liveOutCount).getD
      uint16Max

/-- The first loop of `loom_liveness_dataflow_allocate_results`. -/
def chooseStorage (problem : Problem) (s : Totals × Results) (block : ℕ) :
    Except Failure (Totals × Results) :=
  let successor := borrowedSuccessor problem s.2 block
  let results := s.2.modify block fun state => { state with liveOutSuccessor := successor }
  let state := results.blockStates block
  let ownedLiveOutCount := if state.liveOutSuccessor = uint16Max then state.liveOutCount else 0
  if hostSizeMax - s.1.liveIn < state.liveInCount ∨
    hostSizeMax - s.1.liveOut < ownedLiveOutCount then
    .error (.status ⟨.outOfRange, "liveness block relations exceed host size"⟩)
  else .ok (⟨s.1.liveIn + state.liveInCount, s.1.liveOut + ownedLiveOutCount⟩, results)

/-- The second loop of `loom_liveness_dataflow_allocate_results`; the relations start with the
pointers and counts of the block states. -/
def assignStorage (s : Totals × Results) (block : ℕ) : Totals × Results :=
  let state := s.2.blockStates block
  let ownsLiveOut : Bool := state.liveOutSuccessor = uint16Max
  (⟨s.1.liveIn + state.liveInCount,
      if ownsLiveOut then s.1.liveOut + state.liveOutCount else s.1.liveOut⟩,
    s.2.modify block fun state =>
      { state with
        liveInValues := if 0 < state.liveInCount then .liveIn s.1.liveIn else .null
        liveOutValues :=
          if ownsLiveOut && 0 < state.liveOutCount then .liveOut s.1.liveOut else .null })

/-- `loom_liveness_dataflow_allocate_results`. -/
def allocateResults (problem : Problem) (results : Results) : Except Failure Results := do
  let (totals, results) ←
    (List.range problem.blockCount).foldlM (chooseStorage problem) (⟨0, 0⟩, results)
  let (offsets, results) := (List.range problem.blockCount).foldl assignStorage (⟨0, 0⟩, results)
  if offsets.liveIn ≠ totals.liveIn ∨ offsets.liveOut ≠ totals.liveOut then .error .assertion
  else .ok results

/-- `loom_liveness_block_relation_t`. -/
structure BlockRelation where
  liveInValues : ValueList
  liveInCount : ℕ
  liveOutValues : ValueList
  liveOutCount : ℕ

/-- The relation of a block once both passes are done. -/
def blockRelation (results : Results) (block : ℕ) : BlockRelation :=
  let state := results.blockStates block
  { liveInValues := state.liveInValues
    liveInCount := state.liveInCount
    liveOutValues :=
      if state.liveOutSuccessor = uint16Max then state.liveOutValues
      else (results.blockStates state.liveOutSuccessor).liveInValues
    liveOutCount := state.liveOutCount }

/-- The assertions at the end of `loom_liveness_dataflow_solve`. -/
def isFilled (results : Results) (block : ℕ) : Bool :=
  let state := results.blockStates block
  state.liveInFillCount = state.liveInCount &&
    (state.liveOutSuccessor ≠ uint16Max || state.liveOutFillCount = state.liveOutCount)

/-- The results before the first pass; `block_states` is cleared. -/
def Results.empty : Results := ⟨fun _ => ⟨.null, 0, 0, .null, 0, 0, 0⟩, fun _ => 0, fun _ => 0⟩

/-- A failed assertion of a run. -/
def orAssertion {α : Type} (x : Option α) : Except Failure α :=
  match x with
  | none => .error .assertion
  | some a => .ok a

/-- `loom_liveness_dataflow_solve`: the relations of the blocks, and the memory their lists are
in. -/
def solve (problem : Problem) : Except Failure (List BlockRelation × Results) := do
  let index ← indexTransfers problem
  let results ← orAssertion (solverRun problem index .count .empty)
  let results ← allocateResults problem results
  let results ← orAssertion (solverRun problem index .publish results)
  if (List.range problem.blockCount).all (isFilled results) then
    .ok ((List.range problem.blockCount).map (blockRelation results), results)
  else .error .assertion

end Hrx.Liveness
