/-
Register intervals.

* `Interval` — the instructions and registers of the members of a group of
  blocks or of finer intervals, with the edges between groups,
* `Interval.nextLevel` — the coarser interval that an interval is a member of.
-/
import KernelIntervals.Reg.Vector
import KernelIntervals.Flow.Block

namespace KernelIntervals

/-- A group of blocks or of finer intervals. -/
structure Interval where
  /-- The instructions of the members, in member order. -/
  insts : List Inst := []
  regs : RegSet := ∅
  /-- The registers as a vector, once the interval is complete. -/
  vector : RegVector := .empty
  preds : List IntervalId := []
  succs : List IntervalId := []
  nextLevel : Option IntervalId := none
deriving DecidableEq

namespace Interval

instance : Inhabited Interval := ⟨{}⟩

def addSucc (succ : IntervalId) (i : Interval) : Interval :=
  { i with succs := addNew i.succs succ }

def addPred (pred : IntervalId) (i : Interval) : Interval :=
  { i with preds := addNew i.preds pred }

/-- The instructions as terminated statements. -/
def text (i : Interval) : String := renderInsts i.insts

end Interval

end KernelIntervals
