/-
Visits of the first pass, which groups blocks into intervals.

* `Pass.settle` — a block is split if its registers reach the budget,
* `Pass.admission` — whether a block may join an interval, and the registers
  live on its entry,
* `Pass.visitBlock` — a waiting block: settled, its interval grown as far as the
  budget allows, and intervals opened for the blocks behind it.

A block may join the interval that all its predecessors are members of, if the
registers of the block with those of its ancestors in the interval, and with
those of the whole interval, stay below the budget.
-/
import KernelIntervals.Flow.Split
import KernelIntervals.Grouping.Quotient

namespace KernelIntervals

namespace Fragments

/-- The log entries for a split. -/
def events (f : Fragments) : List Event :=
  (if f.renamed then [.renamed f.headName f.tailName] else [])
    ++ [.split f.headName f.place f.headRegs f.tailName f.tailRegs]

end Fragments

namespace Workspace

/-- The workspace with a block as a new member of an interval. -/
def claim (i : IntervalId) (n : BlockId) (live : RegSet) (w : Workspace) : Workspace :=
  { w with
    graph := (w.graph.assign .block n (some i)).modifyBlock n ({ · with inputs := live })
    log := w.log ++ (w.graph.block? n).toArray.map fun b => .joined b.name i live.size }

end Workspace

namespace Pass

/-- Splits a block if its registers reach the budget; the tail opens an interval
of its own. -/
def settle (budget : Nat) (n : BlockId) : Pass Unit := do
  match ← edit (Edit.split budget n) with
  | none => return
  | some fragments =>
    fragments.events.forM report
    modify fun w => { w with members := w.members ++ [fragments.tail] }
    openFree .block fragments.tail

/-- Gives an interval the registers of its members. -/
def syncRegs (i : IntervalId) : Pass Unit := do
  let regs ← survey fun w => w.graph.memberRegs? .block i (fun _ => true) w.members
  edit (Edit.updateInterval i ({ · with regs }))

/-- The registers live on entry to a block in an interval, if it may join. -/
def admission (budget : Nat) (i : IntervalId) (n : BlockId) : Pass (Option RegSet) := do
  let node ← query (·.node? .block n)
  if node.owner.isSome then return none
  if !(← query fun g => node.preds.allM (g.ownedBy? .block i)) then return none
  markAncestors .block n
  let above ← survey fun w => w.graph.memberRegs? .block i w.marker.isMarked w.members
  let live := node.regs ∪ above
  if budget ≤ live.size then return none
  let interval ← query (·.interval? i)
  if budget ≤ (interval.regs ∪ node.regs).size then return none
  return some live

/-- Lets a block join an interval, if it may. -/
def joinIfAdmitted (budget : Nat) (i : IntervalId) (n : BlockId) : Pass Unit := do
  match ← admission budget i n with
  | none => return
  | some live =>
    modify (Workspace.claim i n live)
    settle budget n
    syncRegs i

/-- Lets the blocks that may join an interval join it. The tails that are split
off meanwhile are left to their own visits. -/
def grow (budget : Nat) (i : IntervalId) : Pass Unit := do
  (← get).members.forM (joinIfAdmitted budget i)

/-- Visits a waiting block. -/
def visitBlock (budget : Nat) (n : BlockId) : Pass Unit := do
  let b ← query (·.block? n)
  match b.interval with
  | none => fail (.malformed (.unownedBlock b.name))
  | some i =>
    settle budget n
    syncRegs i
    -- The block may be shorter than before.
    let settled ← query (·.block? n)
    if settled.outputs.size < budget then grow budget i
    openFrontier .block i

end Pass

end KernelIntervals
