/-
Runs of the passes on a graph.

* `Outcome` — what a run came to, and the graph and the notes it left,
* `BlockGrouper.run`, `IntervalGrouper.run` — one run of a pass, which can be
  run again,
* `converge` — coarsening until it no longer helps.

Design notes: a run that breaks off leaves the graph with the changes made so
far. A grouper keeps the notes of its last run, and clears them when it starts.
-/
import KernelIntervals.Flow.Logged
import KernelIntervals.Grouping.Blocks
import KernelIntervals.Grouping.Fixpoint

namespace KernelIntervals

/-- What a run came to, and what it left. -/
structure Outcome (α : Type) where
  result : Except Fault α
  scratch : Scratch
  state : LoggedGraph

/-- The outcome of a finished pass. -/
def Outcome.ofResult {α : Type} : EStateM.Result Fault Workspace α → Outcome α
  | .ok a w => ⟨.ok a, w.toScratch, ⟨w.graph, w.log⟩⟩
  | .error fault w => ⟨.error fault, w.toScratch, ⟨w.graph, w.log⟩⟩

/-- The workspace for a pass on a graph, with the notes of an earlier run. -/
def LoggedGraph.workspace (state : LoggedGraph) (scratch : Scratch) : Workspace :=
  { scratch with graph := state.graph, log := state.log }

/-- A first pass that can be run several times. -/
structure BlockGrouper where
  budget : Nat
  scratch : Scratch := {}

/-- Groups some blocks. -/
def BlockGrouper.run (p : BlockGrouper) (blocks : List BlockId) (state : LoggedGraph) :
    Outcome IntervalGraph :=
  .ofResult (Pass.groupBlocks p.budget blocks (state.workspace p.scratch))

/-- A second pass that can be run several times. -/
structure IntervalGrouper where
  budget : Nat
  scope : UnionScope := default
  scratch : Scratch := {}

/-- Groups some intervals. -/
def IntervalGrouper.run (p : IntervalGrouper) (intervals : List IntervalId)
    (state : LoggedGraph) : Outcome (List IntervalId) :=
  .ofResult (Pass.coarsen p.budget p.scope intervals (state.workspace p.scratch))

/-- Coarsens intervals until it no longer helps, or until `watch` objects. -/
def converge (budget : Nat) (scope : UnionScope) (watch : Round → Option IntervalError)
    (intervals : List IntervalId) (state : LoggedGraph) :
    List Round × Outcome Fixpoint :=
  let (rounds, result) :=
    coarsenToFixpoint budget scope watch 0 intervals (state.workspace {})
  (rounds, .ofResult result)

end KernelIntervals
