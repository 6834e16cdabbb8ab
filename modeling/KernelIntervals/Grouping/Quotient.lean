/-
The graph of intervals that a grouping of nodes gives.

* `Summary` — the instructions, registers and edges of an interval, gathered
  from its members,
* `FlowGraph.summary?` — the summary of an interval,
* `Pass.complete` — every new interval filled in and checked.

An edge between two members of different intervals is an edge between the
intervals. Edges inside an interval, and edges to nodes that are members of no
interval, give none.
-/
import KernelIntervals.Grouping.Workspace

namespace KernelIntervals

/-- What the members of an interval amount to. -/
structure Summary where
  insts : List Inst := []
  regs : RegSet := ∅
  preds : List IntervalId := []
  succs : List IntervalId := []

namespace FlowGraph

/-- The intervals that some nodes are members of, other than `i` itself, each
once, behind those found before. -/
def owners? (g : FlowGraph) (l : Level) (i : IntervalId) (found : List IntervalId)
    (nodes : List Nat) : Option (List IntervalId) :=
  nodes.foldlM (fun found n => do
    let node ← g.node? l n
    match node.owner with
    | some owner => return if owner = i then found else addNew found owner
    | none => return found) found

/-- The summary with one more member. -/
def summarize? (g : FlowGraph) (l : Level) (i : IntervalId) (s : Summary) (n : Nat) :
    Option Summary := do
  let node ← g.node? l n
  if node.owner = some i then
    return {
      insts := s.insts ++ node.insts
      regs := s.regs ∪ node.regs
      preds := ← g.owners? l i s.preds node.preds
      succs := ← g.owners? l i s.succs node.succs }
  else return s

/-- What the members of an interval among some nodes amount to. -/
def summary? (g : FlowGraph) (l : Level) (i : IntervalId) (nodes : List Nat) :
    Option Summary :=
  nodes.foldlM (g.summarize? l i) {}

end FlowGraph

/-- The interval with the contents of a summary. -/
def Interval.fill (s : Summary) (vector : RegVector) (i : Interval) : Interval :=
  { i with
    insts := s.insts
    regs := s.regs
    vector
    preds := s.preds.foldl addNew i.preds
    succs := s.succs.foldl addNew i.succs }

namespace Pass

/-- Fills an interval in from its members, unless its registers have no vector
or reach the budget. -/
def completeOne (l : Level) (budget : Nat) (i : IntervalId) : Pass Unit := do
  let s ← survey fun w => w.graph.summary? l i w.members
  match RegVector.ofSet s.regs with
  | .error source => fail (.registerOutOfRange i source)
  | .ok vector =>
    if budget ≤ s.regs.size then fail (.budgetViolation i s.regs.size budget)
    else edit (Edit.updateInterval i (Interval.fill s vector))

/-- Fills the new intervals in, in the order they were made. -/
def complete (l : Level) (budget : Nat) : Pass Unit := do
  (← get).opened.forM (completeOne l budget)

end Pass

end KernelIntervals
