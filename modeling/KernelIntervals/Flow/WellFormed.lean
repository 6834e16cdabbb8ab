/-
The check that a list of blocks is a well-formed graph.

* `FlowGraph.verify` — the check, which names the first defect it meets.

In a well-formed graph every listed block exists, its successors and its
predecessors are listed, every edge is recorded on both ends, and the controlling
block of a block, if it has one, exists and is marked as such.
-/
import KernelIntervals.Flow.Graph

namespace KernelIntervals

/-- A graph is refused for some reason. -/
def reject {α : Type} (reason : Malformed) : Except Fault α :=
  .error (.interval (.malformed reason))

/-- A graph is refused unless a condition holds. -/
def require (condition : Bool) (reason : Malformed) : Except Fault Unit :=
  if condition then .ok () else reject reason

namespace FlowGraph

/-- The block of an id that has to have one. -/
def readBlock (g : FlowGraph) (id : BlockId) : Except Fault Block :=
  match g.block? id with
  | some b => .ok b
  | none => .error .dangling

/-- The edge from a block to one of its successors is well formed. -/
def verifySucc (g : FlowGraph) (listed : List BlockId) (id : BlockId) (b : Block)
    (succ : BlockId) : Except Fault Unit := do
  require (listed.contains succ) (.successorOutside succ b.name)
  let target ← g.readBlock succ
  require (target.preds.contains id) (.missingPredecessor b.name target.name)

/-- The edge to a block from one of its predecessors is well formed. -/
def verifyPred (g : FlowGraph) (listed : List BlockId) (id : BlockId) (b : Block)
    (pred : BlockId) : Except Fault Unit := do
  require (listed.contains pred) (.predecessorOutside pred b.name)
  let source ← g.readBlock pred
  require (source.succs.contains id) (.missingSuccessor source.name b.name)

/-- The controlling block of a block is one. -/
def verifyControl (g : FlowGraph) (b : Block) : Except Fault Unit :=
  match b.control with
  | none => .ok ()
  | some id =>
    match g.block? id with
    | some control => require control.controlling (.notControlling b.name control.name)
    | none => reject (.missingControl id b.name)

/-- The links of a listed block are well formed. -/
def verifyBlock (g : FlowGraph) (listed : List BlockId) (id : BlockId) : Except Fault Unit := do
  let b ← g.readBlock id
  b.succs.forM (g.verifySucc listed id b)
  b.preds.forM (g.verifyPred listed id b)
  g.verifyControl b

/-- The listed blocks are a well-formed graph. -/
def verify (g : FlowGraph) (listed : List BlockId) : Except Fault Unit := do
  -- All listed blocks exist before any link is looked at.
  listed.forM fun id => require (g.block? id).isSome (.missingBlock id)
  listed.forM (g.verifyBlock listed)

end FlowGraph

end KernelIntervals
