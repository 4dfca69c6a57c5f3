import Hrx.Base.Status
import Hrx.Lib.Buckets

/-!
# The edge tables of a region

`loom_cfg_graph_build` walks the successors of every operation of a region twice: once to count the
edges of each block, once to write their targets and sources into two arrays in which every block
owns one run.  Targets outside the region are left out and mark the graph malformed.

Edge records, which name the terminator and selector of an edge, are not modelled: no traversal or
dominance fact reads them.
-/

namespace Hrx.Cfg

open Buckets

/-- `UINT16_MAX`, the ordinal that no block has. -/
def uint16Max : ℕ := 65535

/-- `IREE_HOST_SIZE_MAX`. -/
def hostSizeMax : ℕ := 2 ^ 64 - 1

/-- The part of an operation that the graph reads. -/
structure Op where
  /-- The block table index of each successor, as `loom_region_try_block_index` finds it; `none` for
  a null block or a block of another region. -/
  successors : List (Option ℕ)
  /-- Whether the successor selector, if the operation declares one, is one of its operands. -/
  selectorValid : Bool

/-- A block, with the index under which `loom_region_try_block_index` finds it. -/
structure Block where
  ownIndex : Option ℕ
  ops : List Op

/-- A region: its ordered block table, where an entry may be null.  Its length is a `uint16_t`. -/
structure Region where
  blocks : List (Option Block)
  length_le : blocks.length ≤ uint16Max

/-- One successor of an operation, as the loops over a region see it. -/
structure Site where
  block : ℕ
  /-- Whether the operation is the last of its block. -/
  lastOp : Bool
  selectorValid : Bool
  target : Option ℕ

/-- The successors of a block, operation by operation. -/
def Block.sites (block : Block) (index : ℕ) : List Site :=
  block.ops.zipIdx.flatMap fun (op, k) =>
    op.successors.map fun target => ⟨index, k + 1 = block.ops.length, op.selectorValid, target⟩

namespace Region

variable (r : Region)

/-- The successors of all blocks in table order. -/
def sites : List Site :=
  r.blocks.zipIdx.flatMap fun (block, index) => (block.map (·.sites index)).getD []

/-- `loom_region_try_block_index`. -/
def tryBlockIndex (target : Option ℕ) : Option ℕ := target.filter (· < r.blocks.length)

/-- A null block, or one that is not found at its place, is malformed. -/
def hasMalformedBlock : Bool :=
  r.blocks.zipIdx.any fun (block, index) => (block.bind (·.ownIndex)) ≠ some index

/-- The edge of a successor inside the region. -/
def edge (site : Site) : Option (ℕ × ℕ) := (r.tryBlockIndex site.target).map (site.block, ·)

/-- The edges of the region, in the order of its successors. -/
def edges : List (ℕ × ℕ) := r.sites.filterMap r.edge

end Region

/-- What `loom_cfg_graph_count_edges` counts. -/
structure Counts where
  edgeCount : ℕ
  successorCount : ℕ → ℕ
  predecessorCount : ℕ → ℕ
  malformed : Bool

/-- One round of `loom_cfg_graph_count_edges`. -/
def Region.countSite (r : Region) (counts : Counts) (site : Site) : Except Status Counts :=
  let counts := { counts with malformed := counts.malformed || !site.lastOp }
  match r.tryBlockIndex site.target with
  | none => .ok { counts with malformed := true }
  | some target =>
    if counts.edgeCount = hostSizeMax then .error ⟨.resourceExhausted, "CFG edge count overflow"⟩
    else .ok
      { counts with
        edgeCount := counts.edgeCount + 1
        successorCount :=
          Function.update counts.successorCount site.block (counts.successorCount site.block + 1)
        predecessorCount :=
          Function.update counts.predecessorCount target (counts.predecessorCount target + 1) }

/-- `loom_cfg_graph_count_edges`, over a table that was cleared. -/
def Region.countEdges (r : Region) : Except Status Counts :=
  r.sites.foldlM r.countSite ⟨0, fun _ => 0, fun _ => 0, r.hasMalformedBlock⟩

/-- The arrays that `loom_cfg_graph_write_edges` fills. -/
structure Tables where
  successors : Slots ℕ
  predecessors : Slots ℕ
  backwardEdgeCount : ℕ
  malformed : Bool

/-- One round of `loom_cfg_graph_write_edges`. -/
def Region.writeSite (r : Region) (tables : Tables) (site : Site) : Tables :=
  match r.tryBlockIndex site.target with
  | none => tables
  | some target =>
    { successors := place tables.successors (site.block, target)
      predecessors := place tables.predecessors (target, site.block)
      backwardEdgeCount :=
        if target ≤ site.block then tables.backwardEdgeCount + 1 else tables.backwardEdgeCount
      malformed := tables.malformed || !site.selectorValid }

/-- The adjacency of `loom_cfg_graph_t`. -/
structure Graph where
  blockCount : ℕ
  edgeCount : ℕ
  successorStart : ℕ → ℕ
  successorCount : ℕ → ℕ
  successorIndices : ℕ → ℕ
  predecessorStart : ℕ → ℕ
  predecessorCount : ℕ → ℕ
  predecessorIndices : ℕ → ℕ
  backwardEdgeCount : ℕ
  malformed : Bool

/-- `loom_cfg_graph_build` up to the traversal.  `loom_cfg_graph_assign_edge_storage` gives each
block the run after the runs of the blocks before it; fresh arrays hold zeros. -/
def Region.buildEdges (r : Region) : Except Status Graph := do
  let counts ← r.countEdges
  let tables := r.sites.foldl r.writeSite
    { successors := ⟨fun _ => 0, starts counts.successorCount⟩
      predecessors := ⟨fun _ => 0, starts counts.predecessorCount⟩
      backwardEdgeCount := 0
      malformed := counts.malformed }
  .ok
    { blockCount := r.blocks.length
      edgeCount := counts.edgeCount
      successorStart := starts counts.successorCount
      successorCount := counts.successorCount
      successorIndices := tables.successors.array
      predecessorStart := starts counts.predecessorCount
      predecessorCount := counts.predecessorCount
      predecessorIndices := tables.predecessors.array
      backwardEdgeCount := tables.backwardEdgeCount
      malformed := tables.malformed }

namespace Graph

variable (g : Graph)

/-- `loom_cfg_graph_successors`. -/
def successors (block : ℕ) : List ℕ :=
  if g.blockCount ≤ block then []
  else (List.range (g.successorCount block)).map fun i =>
    g.successorIndices (g.successorStart block + i)

/-- `loom_cfg_graph_predecessors`. -/
def predecessors (block : ℕ) : List ℕ :=
  if g.blockCount ≤ block then []
  else (List.range (g.predecessorCount block)).map fun i =>
    g.predecessorIndices (g.predecessorStart block + i)

end Graph

end Hrx.Cfg
