/-
Visits of the second pass, which groups intervals into coarser ones.

* `UnionScope` — which registers have to leave room for a candidate,
* `Pass.footprint` — the registers of a coarse interval with a candidate in it,
  if the candidate may be folded into it,
* `Pass.visitInterval` — a waiting interval: its coarse interval grown as far as
  the budget allows, and coarse intervals opened for the intervals behind it.

An interval may be folded into the coarse interval that all its predecessors
other than itself are members of. Intervals are never split.
-/
import KernelIntervals.Grouping.Quotient

namespace KernelIntervals

/-- The registers that are held against the budget before an interval is
folded. -/
inductive UnionScope
  /-- The registers of all intervals of the pass. -/
  | global
  /-- The registers of the candidate and of its ancestors in the coarse interval. -/
  | ancestors
deriving DecidableEq

namespace UnionScope

instance : Inhabited UnionScope := ⟨global⟩

def name : UnionScope → String
  | global => "global"
  | ancestors => "ancestors"

def ofName? (text : String) : Option UnionScope :=
  [global, ancestors].find? (·.name == text)

/-- What is said of a text that names no scope. -/
def refusal (text : String) : String := "unknown union scope `" ++ text ++ "`"

@[simp] theorem ofName?_name (s : UnionScope) : ofName? s.name = some s := by
  cases s <;> decide

end UnionScope

/-- The limits of a coarsening pass. -/
structure CoarsenLimits where
  budget : Nat
  scope : UnionScope
  /-- The registers of all intervals of the pass, if the scope asks for them. -/
  everything : RegSet

namespace Workspace

/-- The workspace with an interval as a new member of a coarse one, whose
registers are then `regs`. -/
def fold (coarse : IntervalId) (n : IntervalId) (regs : RegSet) (w : Workspace) : Workspace :=
  { w with
    graph := (w.graph.assign .interval n (some coarse)).modifyInterval coarse ({ · with regs })
    log := w.log.push (.folded n coarse regs.size) }

end Workspace

namespace Pass

/-- The registers that the scope holds against the budget. -/
def scopeRegs (limits : CoarsenLimits) (coarse : IntervalId) (n : IntervalId) (node : Node) :
    Pass RegSet :=
  match limits.scope with
  | .global => return limits.everything
  | .ancestors => do
    markAncestors .interval n
    let above ← survey fun w =>
      w.graph.memberRegs? .interval coarse w.marker.isMarked w.members
    return node.regs ∪ above

/-- The registers of a coarse interval with a candidate in it, if the candidate
may be folded into it. -/
def footprint (limits : CoarsenLimits) (coarse : IntervalId) (n : IntervalId) :
    Pass (Option RegSet) := do
  let node ← query (·.node? .interval n)
  if node.owner.isSome then return none
  let inside ← query fun g =>
    node.preds.allM fun p => if p = n then some true else g.ownedBy? .interval coarse p
  if !inside then return none
  let held ← scopeRegs limits coarse n node
  if limits.budget ≤ held.size then return none
  let interval ← query (·.interval? coarse)
  let regs := interval.regs ∪ node.regs
  if limits.budget ≤ regs.size then return none
  return some regs

/-- Folds an interval into a coarse one, if it may. -/
def foldIfAdmitted (limits : CoarsenLimits) (coarse : IntervalId) (n : IntervalId) :
    Pass Unit := do
  match ← footprint limits coarse n with
  | none => return
  | some regs => modify (Workspace.fold coarse n regs)

/-- Folds the intervals that may be folded into a coarse interval, which starts
with the registers of its first member. -/
def growCoarse (limits : CoarsenLimits) (coarse : IntervalId) (regs : RegSet) : Pass Unit := do
  edit (Edit.updateInterval coarse ({ · with regs }))
  (← get).members.forM (foldIfAdmitted limits coarse)

/-- Visits a waiting interval. -/
def visitInterval (limits : CoarsenLimits) (n : IntervalId) : Pass Unit := do
  let interval ← query (·.interval? n)
  match interval.nextLevel with
  | none => fail (.malformed (.unownedInterval n))
  | some coarse =>
    -- An interval that fills the budget stays alone in its coarse interval.
    if interval.regs.size < limits.budget then growCoarse limits coarse interval.regs
    openFrontier .interval coarse

end Pass

end KernelIntervals
