/-
The workspace of a grouping pass.

* `Workspace` — the graph, the log, and what a pass notes while it runs,
* `Pass` — a step of a pass, which may break off,
* `Workspace.openGroup` — a new interval for a node, which waits to be visited,
* `markAncestors`, `openFree`, `openFrontier` — the steps both passes share,
* `drain` — visits the waiting nodes, first come first served.

Design notes: a pass that breaks off leaves its workspace as it is, so what it
did to the graph stays. The scratch part outlives the pass too; every pass
clears it before it starts. `drain` ends because a `Visit` brings a measure of
the work left along, which every visit lowers.
-/
import KernelIntervals.Log
import KernelIntervals.Flow.Ancestors
import KernelIntervals.Flow.Level

namespace KernelIntervals

/-- What a grouping pass notes while it runs. -/
structure Scratch where
  /-- The nodes that are grouped. -/
  members : List Nat := []
  /-- The intervals made so far. -/
  opened : List IntervalId := []
  /-- The nodes that wait to be visited. -/
  worklist : List Nat := []
  marker : Marker := ∅

/-- The state of a grouping pass. -/
structure Workspace extends Scratch where
  graph : FlowGraph
  log : Log := #[]

/-- A step of a grouping pass. -/
abbrev Pass := EStateM Fault Workspace

namespace Workspace

/-- The log entry for an opened interval; only blocks have one. -/
def openEvents (g : FlowGraph) (l : Level) (n : Nat) (i : IntervalId) : Log :=
  match l with
  | .block => (g.block? n).toArray.map fun b => .opened b.name i
  | .interval => #[]

/-- Makes a new interval for a node, and lets the node wait to be visited. -/
def openGroup (l : Level) (n : Nat) (w : Workspace) : Workspace :=
  let i := w.graph.intervals.size
  { w with
    graph := (w.graph.addInterval {}).assign l n (some i)
    opened := w.opened ++ [i]
    worklist := w.worklist ++ [n]
    log := w.log ++ openEvents w.graph l n i }

end Workspace

namespace Pass

/-- A value that is missing if an id has no entry. -/
def demand {α : Type} (value : Option α) : Pass α :=
  match value with
  | some a => pure a
  | none => throw .dangling

/-- Something that is seen in the graph. -/
def query {α : Type} (look : FlowGraph → Option α) : Pass α := do
  demand (look (← get).graph)

/-- Something that is seen in the workspace. -/
def survey {α : Type} (look : Workspace → Option α) : Pass α := do
  demand (look (← get))

/-- A change of the graph. -/
def edit {α : Type} (change : Edit α) : Pass α := fun w =>
  match change w.graph with
  | .ok a g => .ok a { w with graph := g }
  | .error e g => .error e { w with graph := g }

/-- The pass breaks off. -/
def fail {α : Type} (error : IntervalError) : Pass α := throw (.interval error)

/-- An entry for the log. -/
def report (event : Event) : Pass Unit :=
  modify fun w => { w with log := w.log.push event }

/-- Marks the ancestors of a node, and the node. -/
def markAncestors (l : Level) (n : Nat) : Pass Unit := fun w =>
  match Marker.mark (w.graph.predTable l) n w.marker with
  | .ok _ m => .ok () { w with marker := m }
  | .error e m => .error e { w with marker := m }

/-- Opens an interval for a node, unless it is a member of one. -/
def openFree (l : Level) (n : Nat) : Pass Unit := do
  if ← query (·.unowned? l n) then modify (Workspace.openGroup l n)

/-- Opens intervals for the nodes behind an interval that are members of none. -/
def openFrontier (l : Level) (i : IntervalId) : Pass Unit := do
  let found ← survey fun w => w.graph.frontier? l i w.members
  found.forM (openFree l)

/-- Makes a node a member of no interval. -/
def release (l : Level) (n : Nat) : Pass Unit := do
  let _ ← query (·.node? l n)
  modify fun w => { w with graph := w.graph.assign l n none }

/-- Opens an interval for a node without predecessors. -/
def openEntry (l : Level) (n : Nat) : Pass Unit := do
  let node ← query (·.node? l n)
  if node.preds.isEmpty then modify (Workspace.openGroup l n)

/-- Starts a pass: the nodes to be grouped lose their owners, and those without
predecessors open the first intervals. -/
def start (l : Level) (nodes : List Nat) : Pass Unit := do
  modify fun w => { w with members := nodes, opened := [], worklist := [] }
  nodes.forM (release l)
  nodes.forM (openEntry l)

/-- Ends a pass: the nodes that were grouped and the intervals made for them. -/
def finish : Pass (List Nat × List IntervalId) :=
  modifyGet fun w => ((w.members, w.opened), { w with members := [], opened := [] })

end Pass

/-! ### The worklist -/

/-- What is done with a waiting node, and a measure of the work left. -/
structure Visit where
  visit : Nat → Pass Unit
  work : Workspace → Nat
  work_lt : ∀ {n : Nat} {rest : List Nat} {w w' : Workspace}, w.worklist = n :: rest →
    visit n { w with worklist := rest } = .ok () w' → work w' < work w

/-- Visits the waiting nodes in turn, until none waits. -/
def drain (v : Visit) (w : Workspace) : EStateM.Result Fault Workspace Unit :=
  match hwork : w.worklist with
  | [] => .ok () w
  | n :: rest =>
    match hvisit : v.visit n { w with worklist := rest } with
    | .error e w' => .error e w'
    | .ok () w' =>
      have := v.work_lt hwork hvisit
      drain v w'
termination_by v.work w

/-- What every visit keeps is kept until no node waits. -/
theorem drain_induction {v : Visit} {P : Workspace → Prop} {w w' : Workspace}
    (hstep : ∀ n rest w w', w.worklist = n :: rest → P w →
      v.visit n { w with worklist := rest } = .ok () w' → P w')
    (hw : P w) (h : drain v w = .ok () w') : P w' ∧ w'.worklist = [] := by
  fun_induction drain v w with
  | case1 w hwork =>
    simp only [EStateM.Result.ok.injEq, true_and] at h
    exact h ▸ ⟨hw, hwork⟩
  | case2 => simp at h
  | case3 w n rest hwork w₁ hvisit _ ih => exact ih (hstep n rest w w₁ hwork hw hvisit) h

end KernelIntervals
