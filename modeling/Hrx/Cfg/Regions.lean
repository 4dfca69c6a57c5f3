import Hrx.Cfg.Traversal

/-!
# Dominance regions

`loom_cfg_regions_build` gives each block the exits of its dominance subtree.  Exit counts are sums
of tree differences, which an edge charges at the lowest common ancestor of its ends; whether all
exits lead to one block is read off the two lowest and the two highest positions of targets.

The regions read the sources and targets of the edge records, the reachable marks and the dominance
of a graph.  Positions are those of the dominator tree's preorder.
-/

namespace Hrx.Cfg

open Buckets

/-- `UINT32_MAX`. -/
def uint32Max : ℕ := 2 ^ 32 - 1

/-- The part of `loom_cfg_dominance_t` that regions read. -/
structure Dominance where
  immediateDominators : ℕ → ℕ
  /-- The first position of a subtree in the low 16 bits, the last in the high 16 bits. -/
  intervals : ℕ → ℕ
  preorder : List ℕ

namespace Dominance

variable (d : Dominance)

/-- The first position of a block's subtree, its own. -/
def first (block : ℕ) : ℕ := d.intervals block % 2 ^ 16

/-- The last position of a block's subtree. -/
def last (block : ℕ) : ℕ := d.intervals block / 2 ^ 16

/-- `loom_cfg_dominance_block_dominates`. -/
def blockDominates (dominator dominated : ℕ) : Bool :=
  dominator == dominated || (d.intervals dominator != uint32Max &&
    d.intervals dominated != uint32Max &&
    decide (d.first dominator ≤ d.first dominated) && decide (d.first dominated ≤ d.last dominator))

end Dominance

/-- `loom_cfg_region_targets_t`. -/
structure RegionTargets where
  /-- Two distinct lowest target positions; `UINT32_MAX` fills absent entries. -/
  lowest : ℕ × ℕ
  /-- Two distinct highest target positions plus one; zero fills absent entries. -/
  highest : ℕ × ℕ
  exitBalance : ℤ

namespace RegionTargets

def empty : RegionTargets := ⟨(uint32Max, uint32Max), (0, 0), 0⟩

/-- The two lowest positions with another. -/
def insertLowest (lowest : ℕ × ℕ) (position : ℕ) : ℕ × ℕ :=
  if position < lowest.1 then (position, lowest.1)
  else if position ≠ lowest.1 ∧ position < lowest.2 then (lowest.1, position)
  else lowest

/-- The two highest positions with another. -/
def insertHighest (highest : ℕ × ℕ) (position : ℕ) : ℕ × ℕ :=
  if position > highest.1 then (position, highest.1)
  else if position ≠ highest.1 ∧ position > highest.2 then (highest.1, position)
  else highest

variable (targets : RegionTargets)

/-- `loom_cfg_region_targets_insert`. -/
def insert (position : ℕ) : RegionTargets :=
  { targets with
    lowest := insertLowest targets.lowest position
    highest := insertHighest targets.highest (position + 1) }

def charge (amount : ℤ) : RegionTargets :=
  { targets with exitBalance := targets.exitBalance + amount }

/-- Inserts a position unless the entry is absent. -/
def insertIf (present : Bool) (position : ℕ) : RegionTargets :=
  if present then targets.insert position else targets

/-- The step from a block to its parent. -/
def absorb (parent child : RegionTargets) : RegionTargets :=
  ((((parent.charge child.exitBalance).insertIf
    (child.lowest.1 ≠ uint32Max) child.lowest.1).insertIf
    (child.highest.1 ≠ 0) (child.highest.1 - 1)).insertIf
    (child.lowest.2 ≠ uint32Max) child.lowest.2).insertIf (child.highest.2 ≠ 0)
      (child.highest.2 - 1)

end RegionTargets

/-- `loom_cfg_region_t`. -/
structure RegionInfo where
  continuationIndex : ℕ
  exitCount : ℕ
  exitEdges : List ℕ

/-- `LOOM_CFG_REGION_CONTINUATION_NONE`. -/
def continuationNone : ℕ := uint16Max

/-- What the regions read of a graph and its dominance. -/
structure RegionInput where
  blockCount : ℕ
  /-- The sources and targets of the edge records. -/
  edges : List (ℕ × ℕ)
  reachable : ℕ → Bool
  dominance : Dominance

/-- The tables that are filled: targets for each block, and the incoming edges of each block with
the cursor of its bucket. -/
structure RegionTables where
  targets : ℕ → RegionTargets
  incoming : Slots ℕ

def RegionTables.modify (tables : RegionTables) (block : ℕ) (f : RegionTargets → RegionTargets) :
    RegionTables :=
  { tables with targets := Function.update tables.targets block (f (tables.targets block)) }

namespace RegionInput

variable (g : RegionInput)

def source (edge : ℕ) : ℕ := (g.edges.getD edge (0, 0)).1

def target (edge : ℕ) : ℕ := (g.edges.getD edge (0, 0)).2

variable (block : ℕ)

/-- `loom_cfg_graph_successor_edges`. -/
def successorEdges : List ℕ := (List.range g.edges.length).filter fun edge => g.source edge = block

/-- The lowest common ancestor of the ends of an edge. -/
def ancestor (edge : ℕ) : ℕ :=
  if g.dominance.blockDominates (g.target edge) (g.source edge) then g.target edge
  else g.dominance.immediateDominators (g.target edge)

/-- The first loop: charges an edge to its source and against the ancestor of its ends. -/
def chargeEdge (targets : ℕ → RegionTargets) (edge : ℕ) : ℕ → RegionTargets :=
  if g.reachable (g.source edge) then
    let targets := Function.update targets (g.source edge) ((targets (g.source edge)).charge 1)
    Function.update targets (g.ancestor edge) ((targets (g.ancestor edge)).charge (-1))
  else targets

/-- The number of reachable edges to a block, as the first loop counts them in `offsets`. -/
def incomingCount : ℕ :=
  ((List.range g.edges.length).filter fun edge =>
    g.reachable (g.source edge) && g.target edge == block).length

/-- One round over the outgoing edges of a block. -/
def visitEdge (block edge : ℕ) (tables : RegionTables) : RegionTables :=
  { targets := Function.update tables.targets block
      ((tables.targets block).insert (g.dominance.first (g.target edge)))
    incoming := placeBefore tables.incoming (g.target edge, edge) }

/-- One round of the loop over the preorder from its end. -/
def visitBlock (tables : RegionTables) : RegionTables :=
  let outgoing := g.successorEdges block
  let tables :=
    if outgoing = [] then
      tables.modify block fun targets => (targets.insert g.blockCount).charge 1
    else tables
  let tables := outgoing.foldr (g.visitEdge block) tables
  if block ≠ 0 then
    tables.modify (g.dominance.immediateDominators block)
      fun parent => parent.absorb (tables.targets block)
  else tables

/-- The tables before the loop over the preorder: cursors stand at the ends of the buckets, the last
of which is repeated behind the last block. -/
def initialTables : RegionTables where
  targets := (List.range g.edges.length).foldl g.chargeEdge fun _ => .empty
  incoming := ⟨fun _ => 0, fun block => starts g.incomingCount (min (block + 1) g.blockCount)⟩

/-- The tables behind the loop over the preorder. -/
def tables : RegionTables := g.dominance.preorder.foldr g.visitBlock g.initialTables

/-- The search of `loom_cfg_region_edge_lower_bound`, with `fuel` rounds. -/
def edgeLowerBound (key : ℕ → ℕ) (position : ℕ) : ℕ → ℕ → ℕ → ℕ
  | 0, first, _ => first
  | fuel + 1, first, count =>
    if count = 0 then first
    else
      let step := count / 2
      if key (first + step) < position then
        edgeLowerBound key position fuel (first + step + 1) (count - (step + 1))
      else edgeLowerBound key position fuel first step

/-- `loom_cfg_regions_edges_to`. -/
def edgesTo (entry destination : ℕ) : List ℕ :=
  let incoming := g.tables.incoming
  let start := incoming.cursor destination
  let count := incoming.cursor (destination + 1) - start
  if count = 0 ∨ g.dominance.intervals entry = uint32Max then []
  else
    let key i := g.dominance.first (g.source (incoming.array (start + i)))
    let begin := edgeLowerBound key (g.dominance.first entry) count 0 count
    let limit := edgeLowerBound key (g.dominance.last entry + 1) count 0 count
    (List.range (limit - begin)).map fun i => incoming.array (start + (begin + i))

/-- The region of a reachable block. -/
def summarize : RegionInfo :=
  let first := g.dominance.first block
  let stop := g.dominance.last block + 1
  let summary := g.tables.targets block
  let exitCount := summary.exitBalance.toNat
  let exitsBefore := decide (summary.lowest.1 < first)
  let exitsAfter := decide (summary.highest.1 > stop)
  if exitsBefore = exitsAfter ∨ summary.lowest.2 < first ∨ summary.highest.2 > stop then
    ⟨continuationNone, exitCount, []⟩
  else
    let position := if exitsBefore then summary.lowest.1 else summary.highest.1 - 1
    if position = g.blockCount then ⟨continuationNone, exitCount, []⟩
    else
      let continuation := g.dominance.preorder.getD position 0
      ⟨continuation, exitCount, g.edgesTo block continuation⟩

/-- The regions of `loom_cfg_regions_build`; a block outside the preorder keeps its initial row. -/
def regions : RegionInfo :=
  if block ∈ g.dominance.preorder then g.summarize block else ⟨continuationNone, 0, []⟩

end RegionInput

/-- The input that a region, its traversal facts and its dominance give. -/
def Region.regionInput (r : Region) (f : Facts) (d : Dominance) : RegionInput :=
  ⟨r.blocks.length, r.edges, fun block => (f.blocks block).reachable, d⟩

end Hrx.Cfg
