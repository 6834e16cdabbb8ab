/-
The two kinds of node that are grouped into intervals.

* `Level` — blocks, or the intervals of the level below,
* `Node` — what grouping sees of a block or of an interval,
* `FlowGraph.node?` — a node of a level,
* `FlowGraph.assign` — the graph with a node made a member of an interval.

Design notes: both passes group nodes by their edges and registers, so the rules
that they share are stated once, for a level. The owner of a block is its
interval, the owner of an interval is its coarser interval. A block that changes
owner has no live registers until they are found for its new place.
-/
import KernelIntervals.Flow.Graph

namespace KernelIntervals

/-- The kind of node that is grouped. -/
inductive Level
  | block
  | interval
deriving DecidableEq

/-- What grouping sees of a node. -/
structure Node where
  insts : List Inst
  regs : RegSet
  preds : List Nat
  succs : List Nat
  /-- The interval that the node is a member of. -/
  owner : Option IntervalId

def Block.toNode (b : Block) : Node :=
  ⟨b.insts, b.outputs, b.preds, b.succs, b.interval⟩

def Interval.toNode (i : Interval) : Node :=
  ⟨i.insts, i.regs, i.preds, i.succs, i.nextLevel⟩

namespace FlowGraph

/-- The node of an id. -/
def node? (g : FlowGraph) : Level → Nat → Option Node
  | .block, id => (g.block? id).map Block.toNode
  | .interval, id => (g.interval? id).map Interval.toNode

/-- The predecessors of every node of a level. -/
def predTable (g : FlowGraph) : Level → Array (List Nat)
  | .block => g.blocks.entries.map (·.preds)
  | .interval => g.intervals.entries.map (·.preds)

theorem getElem?_predTable (g : FlowGraph) (l : Level) (n : Nat) :
    (g.predTable l)[n]? = (g.node? l n).map (·.preds) := by
  cases l <;>
    simp [predTable, node?, block?, interval?, Arena.get?, Function.comp_def, Block.toNode,
      Interval.toNode]

/-- The graph with a node made a member of an interval, or of none. -/
def assign (g : FlowGraph) (l : Level) (n : Nat) (owner : Option IntervalId) : FlowGraph :=
  match l with
  | .block => g.modifyBlock n fun b => { b with interval := owner, inputs := ∅ }
  | .interval => g.modifyInterval n fun i => { i with nextLevel := owner }

/-- Whether a node is a member of an interval. -/
def ownedBy? (g : FlowGraph) (l : Level) (i : IntervalId) (n : Nat) : Option Bool :=
  (g.node? l n).map (·.owner == some i)

/-- Whether a node is a member of no interval. -/
def unowned? (g : FlowGraph) (l : Level) (n : Nat) : Option Bool :=
  (g.node? l n).map (·.owner.isNone)

/-- The registers of the members of an interval among some nodes, as far as they
pass a test. -/
def memberRegs? (g : FlowGraph) (l : Level) (i : IntervalId) (test : Nat → Bool)
    (nodes : List Nat) : Option RegSet :=
  nodes.foldlM (fun regs n => do
    let node ← g.node? l n
    return if node.owner = some i ∧ test n then regs ∪ node.regs else regs) ∅

/-- The nodes without an owner behind the members of an interval among some
nodes, each once, as they are met. -/
def frontier? (g : FlowGraph) (l : Level) (i : IntervalId) (nodes : List Nat) :
    Option (List Nat) :=
  nodes.foldlM (fun found n => do
    let node ← g.node? l n
    if node.owner = some i then
      node.succs.foldlM (fun found s => do
        return if ← g.unowned? l s then addNew found s else found) found
    else return found) []

end FlowGraph

end KernelIntervals
