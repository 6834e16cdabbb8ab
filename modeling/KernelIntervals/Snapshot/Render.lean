/-
Snapshots of a flow graph as text.

* `renderBlocks` — the snapshot of some blocks,
* `renderIntervals` — the snapshot of some intervals,
* `renderBlocks?`, `renderIntervals?` — the same, with the entries looked up.

A snapshot says how many entries there are, and then for every entry its number,
its registers and its edges. A number in a list of edges is followed by a blank.
-/
import KernelIntervals.Flow.Graph

namespace KernelIntervals

/-- A list of numbers, each followed by a blank. -/
def renderIds (ids : List Nat) : String :=
  String.join (ids.map fun id => id.repr ++ " ")

/-- The registers of an entry and their number. -/
def renderRegs (regs : RegSet) : String :=
  "#Register_list = " ++ regs.render ++ "; #Number of Registers = " ++ regs.size.repr ++ ";\n"

/-- The entry of a block. -/
def renderBlock (id : BlockId) (b : Block) : String :=
  " #The basic_block ID : " ++ id.repr ++ "\n"
    ++ "\t\t#Number of Instructions = " ++ b.insts.length.repr ++ "\n"
    ++ "\t\t" ++ renderRegs b.outputs
    ++ "\t\t#predecessors = \x7b" ++ renderIds b.preds ++ "\x7d;"
    ++ "\t\t#successors = \x7b" ++ renderIds b.succs ++ "\x7d;\n"

/-- The snapshot of some blocks. -/
def renderBlocks (blocks : List (BlockId × Block)) : String :=
  "The number of basic_blocks = " ++ blocks.length.repr ++ "\n"
    ++ String.join (blocks.map fun (id, b) => renderBlock id b)

/-- The entry of an interval. -/
def renderInterval (id : IntervalId) (i : Interval) : String :=
  " #Interval ID = " ++ id.repr ++ " #Number of Instructions = " ++ i.insts.length.repr ++ "\n"
    ++ "\t\t " ++ renderRegs i.regs
    ++ "\t\tPredecessors = \x7b " ++ renderIds i.preds ++ "\x7d"
    ++ "\t\tSuccessors = \x7b " ++ renderIds i.succs ++ "\x7d;\n"

/-- The snapshot of some intervals. -/
def renderIntervals (intervals : List (IntervalId × Interval)) : String :=
  "The number of Intervals = " ++ intervals.length.repr ++ "\n"
    ++ String.join (intervals.map fun (id, i) => renderInterval id i)

namespace FlowGraph

/-- The snapshot of the blocks of some ids, if all exist. -/
def renderBlocks? (g : FlowGraph) (ids : List BlockId) : Option String :=
  (ids.mapM fun id => (g.block? id).map (id, ·)).map renderBlocks

/-- The snapshot of the intervals of some ids, if all exist. -/
def renderIntervals? (g : FlowGraph) (ids : List IntervalId) : Option String :=
  (ids.mapM fun id => (g.interval? id).map (id, ·)).map renderIntervals

end FlowGraph

end KernelIntervals
