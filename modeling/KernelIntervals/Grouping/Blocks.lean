/-
Grouping the blocks of a program into intervals.

* `IntervalGraph` — the blocks with the intervals they are grouped into,
* `Pass.groupBlocks` — the first pass.

Every block without predecessors opens an interval. Blocks that no path from
such a block reaches stay members of none.
-/
import KernelIntervals.Flow.WellFormed
import KernelIntervals.Grouping.BlockWork

namespace KernelIntervals

/-- The blocks of a program with the intervals they are grouped into. -/
structure IntervalGraph where
  /-- The blocks that were given, and then the tails that were split off. -/
  blocks : List BlockId
  intervals : List IntervalId
deriving DecidableEq

/-- A visit of a block takes it from the worklist and adds no other work. -/
theorem visitBlock_work_lt (budget : Nat) {n : BlockId} {rest : List BlockId}
    {w w' : Workspace} (hwork : w.worklist = n :: rest)
    (hvisit : Pass.visitBlock budget n { w with worklist := rest } = .ok () w') :
    blockWork w' < blockWork w := by
  have := Pass.visitBlock_work_le budget _ hvisit
  simp only [noMoreBlockWork, blockWork] at this ⊢
  rw [hwork]
  simp only [List.length_cons]
  omega

/-- The visits of the first pass. -/
def blockVisit (budget : Nat) : Visit where
  visit := Pass.visitBlock budget
  work := blockWork
  work_lt := @visitBlock_work_lt budget

namespace Pass

/-- The list of blocks is checked to be a well-formed graph. -/
def verifyBlocks (blocks : List BlockId) : Pass Unit := do
  match (← get).graph.verify blocks with
  | .ok _ => return
  | .error fault => throw fault

/-- Groups blocks into intervals. The budget is a number that the registers of
every interval stay below. -/
def groupBlocks (budget : Nat) (blocks : List BlockId) : Pass IntervalGraph := do
  if budget = 0 then fail .zeroBudget
  verifyBlocks blocks
  start .block blocks
  -- From here on the list of members grows with every split.
  drain (blockVisit budget)
  complete .block budget
  let (grouped, intervals) ← finish
  report (.blocksGrouped grouped.length (grouped.length - blocks.length) intervals.length)
  return ⟨grouped, intervals⟩

end Pass

end KernelIntervals
