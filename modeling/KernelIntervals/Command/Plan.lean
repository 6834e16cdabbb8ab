/-
What the command does with files.

* `Action` — a directory that is needed, or a snapshot to be saved,
* `Command.plan` — the actions for an input text, and the error after them,
* `Failure` — why the command failed,
* `Command.runOn` — the command on a tree of files.

Design notes: a plan is made without touching a file. It is carried out in order
up to the first action that fails. The snapshot of the intervals is saved after
every pass, each time over the one before.
-/
import KernelIntervals.Analysis
import KernelIntervals.Snapshot.Render
import KernelIntervals.FileTree
import KernelIntervals.Command.Args

namespace KernelIntervals

/-- One step of a plan. -/
inductive Action
  | makeDirs (path : String)
  | save (path text : String)
deriving DecidableEq

/-- Why the command failed. -/
inductive Failure
  | analysis (error : AnalysisError)
  | files (error : FileError)
deriving DecidableEq

/-- What is done with files, and the error that comes after it. -/
structure Plan where
  actions : List Action
  error : Option AnalysisError
deriving DecidableEq

namespace Command

/-- What is done with files when the analysis has come to a stage. -/
def actions (c : Command) : Stage → List Action
  | .blocks g ids =>
    [.makeDirs c.outputDir,
      .save (snapshotPath c.outputDir c.input .blocks) ((g.renderBlocks? ids).getD "")]
  | .grouped g r =>
    [.makeDirs c.outputDir,
      .save (snapshotPath c.outputDir c.input .intervals)
        ((g.renderIntervals? r.intervals).getD "")]
  | .round r =>
    [.save (snapshotPath c.outputDir c.input .intervals)
      ((r.graph.renderIntervals? r.intervals).getD "")]
  | .finished _ => []

/-- The plan for an input text. -/
def plan (c : Command) (text : String) : Plan :=
  let analysis := analyse c.budget c.scope text
  ⟨analysis.stages.flatMap c.actions, analysis.error⟩

end Command

namespace FileTree

/-- A tree after one action. -/
def act (t : FileTree) : Action → Option FileError × FileTree
  | .makeDirs path => t.makeDirs path
  | .save path text =>
    match t.write path text with
    | .ok written => (none, written)
    | .error e => (some e, t)

/-- A tree after some actions, up to the first that fails. -/
def actAll (t : FileTree) : List Action → Option FileError × FileTree
  | [] => (none, t)
  | a :: rest =>
    match t.act a with
    | (some e, t) => (some e, t)
    | (none, t) => t.actAll rest

end FileTree

/-- The command on a tree of files. -/
def Command.runOn (c : Command) (t : FileTree) : Option Failure × FileTree :=
  match t.read c.input with
  | .error e => (some (.files e), t)
  | .ok text =>
    let plan := c.plan text
    match t.actAll plan.actions with
    | (some e, t) => (some (.files e), t)
    | (none, t) => (plan.error.map .analysis, t)

end KernelIntervals
