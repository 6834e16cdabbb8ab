/-
The analysis of a control flow graph.

* `Stage` — what the analysis has come to, stage by stage,
* `AnalysisError` — why it broke off,
* `analyse` — the stages of the analysis of a text, and the error that ended it,
  if any.

The text is read into a graph and its blocks are carved; the blocks are grouped
into intervals; the intervals are coarsened until that no longer helps.
-/
import KernelIntervals.Dot.Read
import KernelIntervals.Flow.Carve
import KernelIntervals.Grouping.Runs

namespace KernelIntervals

/-- What an analysis has come to. -/
inductive Stage
  | blocks (graph : FlowGraph) (blocks : List BlockId)
  | grouped (graph : FlowGraph) (result : IntervalGraph)
  | round (round : Round)
  | finished (result : Fixpoint)

/-- Why an analysis broke off. -/
inductive AnalysisError
  | read (error : Dot.ReadError)
  | carve (error : CarveError)
  | grouping (fault : Fault)
deriving DecidableEq

def AnalysisError.message : AnalysisError → String
  | read error => "error parsing the control flow graph: " ++ error.message
  | carve error => "error parsing the control flow graph: " ++ error.message
  | grouping fault => "error building register intervals: " ++ fault.message

/-- The stages of an analysis, the error that ended it, and its log. -/
structure Analysis where
  stages : List Stage
  error : Option AnalysisError := none
  log : Log := #[]

/-- The coarsening of the intervals of a graph. -/
def analyseIntervals (budget : Nat) (scope : UnionScope) (intervals : List IntervalId)
    (state : LoggedGraph) : Analysis :=
  let (rounds, outcome) := converge budget scope (fun _ => none) intervals state
  let stages := rounds.map Stage.round
  match outcome.result with
  | .error fault => ⟨stages, some (.grouping fault), outcome.state.log⟩
  | .ok result => ⟨stages ++ [.finished result], none, outcome.state.log⟩

/-- The grouping of the blocks of a graph, and what follows. -/
def analyseBlocks (budget : Nat) (scope : UnionScope) (blocks : List BlockId)
    (state : LoggedGraph) : Analysis :=
  let outcome := BlockGrouper.run ⟨budget, {}⟩ blocks state
  match outcome.result with
  | .error fault => ⟨[], some (.grouping fault), outcome.state.log⟩
  | .ok result =>
    let rest := analyseIntervals budget scope result.intervals outcome.state
    { rest with stages := .grouped outcome.state.graph result :: rest.stages }

/-- The analysis of a graph that was read. -/
def analyseGraph (budget : Nat) (scope : UnionScope) (g : Dot.Graph) : Analysis :=
  match carve g {} with
  | (.error error, state) => ⟨[], some (.carve error), state.log⟩
  | (.ok blocks, state) =>
    let rest := analyseBlocks budget scope blocks state
    { rest with stages := .blocks state.graph blocks :: rest.stages }

/-- The analysis of a text. -/
def analyse (budget : Nat) (scope : UnionScope) (text : String) : Analysis :=
  match Dot.Graph.parse text with
  | .error error => ⟨[], some (.read error), #[]⟩
  | .ok g => analyseGraph budget scope g

end KernelIntervals
