/-
Basic blocks.

* `Block` — instructions with their registers, edges and owner,
* `Block.ofInsts` — a block without edges,
* `addNew` — a list with an element at its end, unless it is there already,
* `replaceAll` — a list with an element in the places of another.

Design notes: blocks and intervals know each other by id. Edges are kept on
both ends, and each end keeps the order in which its edges were made.
-/
import KernelIntervals.Inst.Basic

namespace KernelIntervals

/-- The place of a block in its arena. -/
abbrev BlockId := Nat

/-- The place of an interval in its arena. -/
abbrev IntervalId := Nat

/-! ### Adjacency lists -/

/-- A list with an id at its end, unless it holds the id already. -/
def addNew (ids : List Nat) (id : Nat) : List Nat :=
  if id ∈ ids then ids else ids ++ [id]

@[simp] theorem mem_addNew {ids : List Nat} {id x : Nat} :
    x ∈ addNew ids id ↔ x ∈ ids ∨ x = id := by
  unfold addNew
  split <;> grind

theorem nodup_addNew {ids : List Nat} {id : Nat} (h : ids.Nodup) : (addNew ids id).Nodup := by
  unfold addNew
  split <;> grind

/-- A list with `new` in the places of `old`. If the list holds `new` already,
the places of `old` are dropped. -/
def replaceAll (old new : Nat) (ids : List Nat) : List Nat :=
  if new ∈ ids then ids.filter (· != old) else ids.map fun id => if id = old then new else id

/-! ### Blocks -/

/-- A basic block. -/
structure Block where
  name : String
  /-- The number of the abstract block that the block was carved from. -/
  group : Option Nat := none
  insts : List Inst
  /-- The registers that the instructions mention. -/
  outputs : RegSet
  /-- The registers live on entry, known for a block that joined an interval. -/
  inputs : RegSet := ∅
  preds : List BlockId := []
  succs : List BlockId := []
  /-- The interval that the block is a member of. -/
  interval : Option IntervalId := none
  /-- Whether the block only decides whether a branch is taken. -/
  controlling : Bool := false
  /-- The controlling block of the branch at the end of the block. -/
  control : Option BlockId := none
  /-- Whether the block leaves the kernel. -/
  exit : Bool := false
deriving DecidableEq

namespace Block

/-- A block of some instructions, with their registers as its outputs. -/
def ofInsts (name : String) (insts : List Inst) : Block :=
  { name, insts, outputs := instRegs insts }

def addSucc (succ : BlockId) (b : Block) : Block := { b with succs := addNew b.succs succ }

def addPred (pred : BlockId) (b : Block) : Block := { b with preds := addNew b.preds pred }

/-- The block with one predecessor replaced by another. -/
def replacePred (old new : BlockId) (b : Block) : Block :=
  { b with preds := replaceAll old new b.preds }

/-- The instructions as terminated statements. -/
def text (b : Block) : String := renderInsts b.insts

end Block

end KernelIntervals
