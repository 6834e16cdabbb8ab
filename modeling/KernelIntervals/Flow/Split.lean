/-
Splitting a block whose registers reach a budget.

* `splitPoint` — the first instruction that the registers before it leave no
  room for, and those registers,
* `FlowGraph.fragmentName` — a name for the tail that no block has,
* `Edit.split` — the split of a block, if it needs one.

The head keeps the instructions before the split point. The tail takes the rest,
the successors, the controlling block and the exit mark, and follows the head.
Branches of the tail to the block go to the tail itself, because it is the tail
that goes on to the successors.
-/
import KernelIntervals.Flow.Graph

namespace KernelIntervals

/-! ### The split point -/

/-- The place of the first instruction, counted from `index`, that brings the
registers up to the budget, and the registers before it. The instruction at
place 0 is never a split point. -/
def splitPointFrom (budget : Nat) (index : Nat) (running : RegSet) :
    List Inst → Option Nat × RegSet
  | [] => (none, running)
  | i :: rest =>
    let next := running.insertAll i.regs
    if 0 < index ∧ budget ≤ next.size then (some index, running)
    else splitPointFrom budget (index + 1) next rest

/-- The split point of some instructions, if there is one, and the registers of
the instructions before it. -/
def splitPoint (budget : Nat) (insts : List Inst) : Option Nat × RegSet :=
  splitPointFrom budget 0 ∅ insts

theorem splitPointFrom_bounds {budget index k : Nat} {running regs : RegSet} {insts : List Inst}
    (h : splitPointFrom budget index running insts = (some k, regs)) :
    0 < k ∧ index ≤ k ∧ k < index + insts.length := by
  induction insts generalizing index running with
  | nil => simp [splitPointFrom] at h
  | cons i rest ih =>
    simp only [splitPointFrom] at h
    split at h
    next hstop =>
      simp only [Prod.mk.injEq, Option.some.injEq] at h
      simp only [List.length_cons]
      omega
    next =>
      have := ih h
      simp only [List.length_cons]
      omega

/-- A split point leaves instructions on both sides. -/
theorem splitPoint_bounds {budget k : Nat} {regs : RegSet} {insts : List Inst}
    (h : splitPoint budget insts = (some k, regs)) : 0 < k ∧ k < insts.length := by
  have := splitPointFrom_bounds h
  omega

/-! ### The tail -/

namespace FlowGraph

/-- The name of a fragment: the name of its head and a number. -/
def numberedName (name : String) (n : Nat) : String := name ++ "_" ++ n.repr

/-- The first numbered name that no block has, counting from the number of
blocks. As there are more numbers to try than blocks, there is one. -/
def fragmentName (g : FlowGraph) (name : String) : String :=
  let numbers := (List.range (g.blocks.size + 1)).map (g.blocks.size + ·)
  let free := numbers.find? fun n => (g.findBlock? (numberedName name n)).isNone
  numberedName name (free.getD g.blocks.size)

end FlowGraph

/-- What happened to a block that was split. -/
structure Fragments where
  /-- The number of instructions that stay in the head. -/
  place : Nat
  tail : BlockId
  headName : String
  tailName : String
  headRegs : Nat
  tailRegs : Nat
  /-- Whether the tail had branches to the block. -/
  renamed : Bool

namespace Edit

/-- Cuts a block at a place that leaves instructions on both sides. Here `b` is
the block and `running` are the registers of the instructions it keeps. -/
def cut (head : BlockId) (b : Block) (place : Nat) (running : RegSet) : Edit Fragments := do
  let moved := b.insts.drop place
  let tailName := (← get).fragmentName b.name
  updateBlock head fun b => { b with insts := b.insts.take place }
  let tail ← newBlock
    { Block.ofInsts tailName (moved.map (Inst.renameLabel b.name tailName)) with
      group := b.group }
  -- A block that follows itself comes behind its tail from now on.
  b.succs.forM fun s => updateBlock s (·.replacePred head tail)
  updateBlock tail fun t =>
    { t with succs := b.succs, preds := [head], control := b.control, exit := b.exit }
  updateBlock head fun b => { b with succs := [tail], control := none, exit := false }
  return {
    place, tail, headName := b.name, tailName
    headRegs := running.size
    tailRegs := (instRegs moved).size
    renamed := moved.any (·.branchesTo b.name) }

/-- Splits a block once, if its registers reach the budget. The outputs of the
block become the registers of the instructions it keeps. -/
def split (budget : Nat) (head : BlockId) : Edit (Option Fragments) := do
  let b ← query (·.block? head)
  let (place?, running) := splitPoint budget b.insts
  updateBlock head fun b => { b with outputs := running }
  match place? with
  | none => return none
  | some place => return some (← cut head b place running)

end Edit

end KernelIntervals
