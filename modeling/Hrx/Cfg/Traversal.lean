import Hrx.Cfg.Graph

/-!
# The traversal of a control-flow graph

`loom_cfg_graph_build_traversal`: one iterative depth-first search from block 0 that numbers the
blocks in preorder, closes strongly connected components by lowlinks, and merges what can be reached
from a block into it as its successors are done.

A frame is a block with the number of its successors that were taken; the frame on top and the last
block entered into the component stack come first.
-/

namespace Hrx.Cfg

/-- The traversal facts of `loom_cfg_block_info_t`. -/
@[ext]
structure BlockFacts where
  reachable : Bool
  canReachExit : Bool
  preorder : ℕ
  parent : ℕ
  preorderEnd : ℕ
  component : ℕ
  componentIsCyclic : Bool
  isDfsBackedgeTarget : Bool
  reachabilityRoot : ℕ
deriving DecidableEq

def BlockFacts.initial : BlockFacts :=
  { reachable := false
    canReachExit := false
    preorder := uint16Max
    parent := uint16Max
    preorderEnd := 0
    component := uint16Max
    componentIsCyclic := false
    isDfsBackedgeTarget := false
    reachabilityRoot := uint16Max }

structure Traversal where
  blocks : ℕ → BlockFacts
  lowlinks : ℕ → ℕ
  componentStack : List ℕ
  frames : List (ℕ × ℕ)
  order : List ℕ
  preorderCount : ℕ
  componentCount : ℕ
  hasCycles : Bool

namespace Traversal

variable (t : Traversal)

def modify (block : ℕ) (f : BlockFacts → BlockFacts) : Traversal :=
  { t with blocks := Function.update t.blocks block (f (t.blocks block)) }

def rootPreorder (block : ℕ) : ℕ := (t.blocks (t.blocks block).reachabilityRoot).preorder

/-- Takes over the reachability root of a block that can be reached, if it is earlier. -/
def mergeRoot (block other : ℕ) : Traversal :=
  if t.rootPreorder other < t.rootPreorder block then
    t.modify block fun b => { b with reachabilityRoot := (t.blocks other).reachabilityRoot }
  else t

/-- Takes over that a block that can be reached reaches an exit. -/
def mergeExit (block other : ℕ) : Traversal :=
  t.modify block fun b => { b with canReachExit := b.canReachExit || (t.blocks other).canReachExit }

def lower (block lowlink : ℕ) : Traversal :=
  { t with lowlinks := Function.update t.lowlinks block (min (t.lowlinks block) lowlink) }

variable (block successor : ℕ)

/-- A successor that was not discovered yet gets the next preorder and a frame. -/
def discover : Traversal :=
  { t with
    blocks := Function.update t.blocks successor
      { t.blocks successor with
        reachable := true
        preorder := t.preorderCount
        reachabilityRoot := successor
        parent := block }
    preorderCount := t.preorderCount + 1
    lowlinks := Function.update t.lowlinks successor t.preorderCount
    componentStack := successor :: t.componentStack
    frames := (successor, 0) :: t.frames }

/-- A successor that was discovered before.  Its preorder end is zero while its frame is open. -/
def revisit : Traversal :=
  let t := t.mergeExit block successor
  let t :=
    if (t.blocks successor).preorderEnd = 0 then
      { t.modify successor fun b => { b with isDfsBackedgeTarget := true } with hasCycles := true }
    else t
  if (t.blocks successor).component = uint16Max then t.lower block
    (t.blocks successor).preorder else t

/-- One successor of the block on top. -/
def visit : Traversal :=
  let t :=
    if successor = block then t.modify block fun b => { b with componentIsCyclic := true } else t
  let t :=
    if (t.blocks successor).reachable = false then t.discover block successor
    else t.revisit block successor
  t.mergeRoot block successor

/-- The members of the component that a block closes: the component stack down to the block. -/
def membersFrom (block : ℕ) : List ℕ → List ℕ
  | [] => []
  | member :: rest => if member = block then [member] else member :: membersFrom block rest

/-- One round of the loop that takes a member off the component stack. -/
def takeMember (acc : Traversal × Bool × ℕ) (member : ℕ) : Traversal × Bool × ℕ :=
  let (t, canReachExit, root) := acc
  let t := t.modify member fun b => { b with component := t.componentCount }
  let memberRoot := (t.blocks member).reachabilityRoot
  (t, canReachExit || (t.blocks member).canReachExit,
    if (t.blocks memberRoot).preorder < (t.blocks root).preorder then memberRoot else root)

/-- Closes the component of a block whose lowlink is its own preorder. -/
def closeComponent (block : ℕ) : Traversal :=
  let members := membersFrom block t.componentStack
  let (t, canReachExit, root) :=
    members.foldl takeMember (t, false, (t.blocks block).reachabilityRoot)
  let cyclic := 1 < members.length || (t.blocks block).componentIsCyclic
  let t := members.foldl (fun t member => t.modify member fun b =>
    { b with
      componentIsCyclic := cyclic
      reachabilityRoot := root
      canReachExit := canReachExit }) t
  { t with
    componentStack := t.componentStack.drop members.length
    componentCount := t.componentCount + 1 }

/-- What the frame below a finished block takes over from it. -/
def mergeChild (parent child : ℕ) : Traversal :=
  let t := t.mergeExit parent child
  let t := t.lower parent (t.lowlinks child)
  t.mergeRoot parent child

/-- Finishes the block on top, which has `successorCount` successors. -/
def finish (block successorCount : ℕ) (below : List (ℕ × ℕ)) : Traversal :=
  let t := t.modify block fun b =>
    { b with
      canReachExit := b.canReachExit || successorCount = 0
      preorderEnd := t.preorderCount }
  let t := if t.lowlinks block = (t.blocks block).preorder then t.closeComponent block else t
  let t := { t with order := t.order ++ [block], frames := below }
  match below with
  | [] => t
  | (parent, _) :: _ => t.mergeChild parent block

def step (successors : ℕ → List ℕ) : Traversal :=
  match t.frames with
  | [] => t
  | (block, position) :: below =>
    match (successors block)[position]? with
    | some successor =>
      { t with frames := (block, position + 1) :: below }.visit block successor
    | none => t.finish block (successors block).length below

/-- The main loop, for at most so many rounds. -/
def run (successors : ℕ → List ℕ) : ℕ → Traversal → Option Traversal
  | 0, t => if t.frames = [] then some t else none
  | fuel + 1, t => if t.frames = [] then some t else run successors fuel (t.step successors)

/-- The state before the main loop: block 0 is discovered. -/
def start : Traversal :=
  { blocks := Function.update (fun _ => .initial) 0
      { BlockFacts.initial with reachable := true, preorder := 0, reachabilityRoot := 0 }
    lowlinks := fun _ => 0
    componentStack := [0]
    frames := [(0, 0)]
    order := []
    preorderCount := 1
    componentCount := 0
    hasCycles := false }

end Traversal

/-- The traversal facts of `loom_cfg_graph_t`. -/
structure Facts where
  blocks : ℕ → BlockFacts
  reversePostorder : List ℕ
  hasCycles : Bool

namespace Graph

/-- Each round takes one successor of a block or finishes a block. -/
def traversalRounds (g : Graph) : ℕ :=
  ((List.range g.blockCount).map fun block => (g.successors block).length + 1).sum

/-- `loom_cfg_graph_build_traversal`. -/
def buildTraversal (g : Graph) : Option Facts :=
  if g.blockCount = 0 then some ⟨fun _ => .initial, [], false⟩
  else (Traversal.start.run g.successors g.traversalRounds).map fun t =>
    ⟨t.blocks, t.order.reverse, t.hasCycles⟩

end Graph

end Hrx.Cfg
