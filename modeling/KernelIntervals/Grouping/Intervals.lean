/-
Grouping intervals into coarser intervals.

* `Pass.coarsen` — the second pass.

Every interval without predecessors opens a coarse interval. Intervals that no
path from such an interval reaches stay members of none.
-/
import KernelIntervals.Grouping.IntervalWork

namespace KernelIntervals

/-- A visit of an interval takes it from the worklist and adds no other work. -/
theorem visitInterval_work_lt (limits : CoarsenLimits) {n : IntervalId}
    {rest : List IntervalId} {w w' : Workspace} (hwork : w.worklist = n :: rest)
    (hvisit : Pass.visitInterval limits n { w with worklist := rest } = .ok () w') :
    intervalWork w' < intervalWork w := by
  have := (Pass.visitInterval_work_le limits _ hvisit).2.2.2
  simp only [intervalWork, Workspace.targets] at this ⊢
  rw [hwork]
  simp only [List.length_cons]
  omega

/-- The visits of the second pass. -/
def intervalVisit (limits : CoarsenLimits) : Visit where
  visit := Pass.visitInterval limits
  work := intervalWork
  work_lt := @visitInterval_work_lt limits

/-- The registers of some intervals. -/
def FlowGraph.regsOf? (g : FlowGraph) (intervals : List IntervalId) : Option RegSet :=
  intervals.foldlM (fun regs i => do return regs ∪ (← g.interval? i).regs) ∅

namespace Pass

/-- The limits of a coarsening pass over some intervals. -/
def coarsenLimits (budget : Nat) (scope : UnionScope) (intervals : List IntervalId) :
    Pass CoarsenLimits := do
  match scope with
  | .global => return ⟨budget, scope, ← query (·.regsOf? intervals)⟩
  | .ancestors => return ⟨budget, scope, ∅⟩

/-- Groups intervals into coarser ones. The budget is a number that the
registers of every coarse interval stay below. -/
def coarsen (budget : Nat) (scope : UnionScope) (intervals : List IntervalId) :
    Pass (List IntervalId) := do
  if budget = 0 then fail .zeroBudget
  start .interval intervals
  let limits ← coarsenLimits budget scope intervals
  drain (intervalVisit limits)
  complete .interval budget
  let (_, coarser) ← finish
  report (.intervalsGrouped intervals.length coarser.length scope.name)
  return coarser

end Pass

end KernelIntervals
