/-
Machine instructions.

* `Operand` — registers, a branch target, or anything else,
* `Inst` — address, guard, opcode and operands of an instruction,
* `Inst.regs` — the registers an instruction mentions, in operand order,
* `Inst.renameLabel` — an instruction with its branch targets renamed,
* `Inst.render` — an instruction as one line of text.

Design notes: an operand keeps its text as it was read; the registers in it are
found once, when it is read.
-/
import KernelIntervals.Reg.Set

namespace KernelIntervals

/-- An operand of an instruction. -/
inductive Operand
  /-- A text that mentions one or more registers, such as `[R4+0x10]`. -/
  | regs (text : String) (mentioned : List Reg)
  /-- A branch target, written bare or between a backquote with parenthesis and
  a closing parenthesis. -/
  | label (name : String) (bare : Bool)
  /-- Immediates, memory banks, predicates and the like. -/
  | other (text : String)
deriving DecidableEq

namespace Operand

/-- The operand that is one register. -/
def reg (r : Reg) : Operand := .regs r.name [r]

/-- The operand that is a quoted branch target. -/
def target (name : String) : Operand := .label name false

/-- The registers an operand mentions, in order. -/
def mentions : Operand → List Reg
  | .regs _ mentioned => mentioned
  | .label .. | .other _ => []

/-- Whether an operand is a branch to a block of the given name. -/
def isLabel (name : String) : Operand → Bool
  | .label target _ => target == name
  | .regs .. | .other _ => false

/-- The operand with a branch to `old` turned into a branch to `new`. -/
def renameLabel (old new : String) : Operand → Operand
  | .label name bare => .label (if name = old then new else name) bare
  | operand => operand

def render : Operand → String
  | .regs text _ | .other text => text
  | .label name true => name
  | .label name false => "\x60(" ++ name ++ ")"

@[simp] theorem mentions_renameLabel (old new : String) (o : Operand) :
    (o.renameLabel old new).mentions = o.mentions := by
  cases o <;> rfl

end Operand

/-- A machine instruction. -/
structure Inst where
  /-- The text of the address comment. -/
  addr : Option String := none
  /-- The guarding predicate, without the at sign. -/
  guard : Option String := none
  opcode : String
  operands : List Operand := []
deriving DecidableEq

namespace Inst

/-- The registers an instruction mentions, in operand order. -/
def regs (i : Inst) : List Reg := i.operands.flatMap Operand.mentions

/-- Whether a guard is a predicate register, negated or not. The register `PT`
is always true and guards nothing. -/
def isPredicate (guard : String) : Bool :=
  let name := guard.toList.dropWhile (· == '!')
  name.head? == some 'P' && name != ['P', 'T']

/-- Whether an instruction only runs under a predicate register. -/
def isPredicated (i : Inst) : Bool := i.guard.any isPredicate

/-- Whether an instruction leaves the kernel. -/
def isExit (i : Inst) : Bool := i.opcode == "EXIT"

/-- Whether an instruction branches to a block of the given name. -/
def branchesTo (i : Inst) (name : String) : Bool := i.operands.any (Operand.isLabel name)

/-- The instruction with its branches to `old` turned into branches to `new`. -/
def renameLabel (old new : String) (i : Inst) : Inst :=
  { i with operands := i.operands.map (Operand.renameLabel old new) }

@[simp] theorem regs_renameLabel (old new : String) (i : Inst) :
    (i.renameLabel old new).regs = i.regs := by
  simp [regs, renameLabel, List.flatMap_map]

/-- The instruction as text: address comment, guard, opcode and operands. -/
def render (i : Inst) : String :=
  let addr := match i.addr with
    | some addr => "/*" ++ addr ++ "*/ "
    | none => ""
  let guard := match i.guard with
    | some guard => "@" ++ guard ++ " "
    | none => ""
  let operands := match i.operands with
    | [] => ""
    | operands => " " ++ ", ".intercalate (operands.map Operand.render)
  addr ++ guard ++ i.opcode ++ operands

end Inst

/-! ### Instruction lists -/

/-- The set of the registers that some instructions mention. -/
def instRegs (insts : List Inst) : RegSet := RegSet.ofList (insts.flatMap Inst.regs)

theorem mem_instRegs {r : Reg} {insts : List Inst} :
    r ∈ instRegs insts ↔ ∃ i ∈ insts, r ∈ i.regs := by
  simp [instRegs]

/-- The instructions as terminated statements, one a line. -/
def renderInsts (insts : List Inst) : String :=
  "\n".intercalate (insts.map fun i => i.render ++ " ;")

end KernelIntervals
