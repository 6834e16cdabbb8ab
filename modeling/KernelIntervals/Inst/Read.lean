/-
Reading instructions.

* `Operand.read` — an operand from its text,
* `Inst.parse` — an instruction from one statement,
* `parseStatements` — the instructions of a listing.

A statement is an optional address comment, an optional guard behind an at
sign, an opcode, and operands between commas. A listing ends every statement
with a semicolon; what follows the last one is ignored, and so are the lines
that are labels or directives.
-/
import KernelIntervals.Inst.Basic
import KernelIntervals.Reg.Scan
import KernelIntervals.Text.Blank
import KernelIntervals.Text.Pair

namespace KernelIntervals

open Text

/-- Why a statement is no instruction. -/
inductive InstError
  | missingOpcode (statement : String)
  | unterminatedComment (statement : String)
  | invalidReg (error : RegError)
deriving DecidableEq

namespace InstError

def message : InstError → String
  | missingOpcode statement => "statement `" ++ statement ++ "` has no opcode"
  | unterminatedComment statement => "unterminated address comment in `" ++ statement ++ "`"
  | invalidReg error => error.message

end InstError

/-! ### Operands -/

/-- The name in a quoted branch target. -/
def quotedLabel? : List Char → Option (List Char)
  | '\x60' :: '(' :: rest => if rest.getLast? = some ')' then some rest.dropLast else none
  | _ => none

/-- Whether a text can be a branch target without quotes. -/
def isBareLabel : List Char → Bool
  | c :: rest =>
    (c.isAlpha || c == '_' || c == '.')
      && rest.all fun d => d.isAlphanum || d == '_' || d == '.' || d == '$'
  | [] => false

/-- The opcodes whose plain operands name blocks. -/
def branchOpcodes : List String :=
  ["BRA", "BRX", "JMP", "JMX", "CAL", "CALL", "JCAL", "SSY", "PBK", "PCNT", "BSSY"]

/-- Whether an opcode, up to its first dot, is that of a branch. -/
def isBranchOpcode (opcode : List Char) : Bool :=
  branchOpcodes.contains (String.ofList (opcode.takeWhile (· != '.')))

/-- An operand from its text. -/
def Operand.read (isBranch : Bool) (text : List Char) : Except RegError Operand :=
  match quotedLabel? text with
  | some name => .ok (.label (String.ofList name) false)
  | none => do
    match ← Reg.scan? text with
    | [] =>
      if isBranch && isBareLabel text then return .label (String.ofList text) true
      else return .other (String.ofList text)
    | mentioned => return .regs (String.ofList text) mentioned

/-- The operands between the commas of a text; blank ones are left out. -/
def Operand.readAll (isBranch : Bool) (text : List Char) : Except RegError (List Operand) :=
  ((text.splitOn ',').map trim).filter (!·.isEmpty) |>.mapM (Operand.read isBranch)

/-! ### Statements -/

/-- The address comment at the start of a text, and the text behind it. The
result is `none` if the comment does not end. -/
def readAddr : List Char → Option (Option (List Char) × List Char)
  | '/' :: '*' :: rest =>
    (breakAtPair '*' '/' rest).map fun (addr, after) => (some (trim addr), trimStart after)
  | text => some (none, text)

/-- The guard at the start of a text, and the text behind it. -/
def readGuard : List Char → Option (List Char) × List Char
  | '@' :: rest => let (guard, after) := splitWord rest; (some guard, after)
  | text => (none, text)

/-- The instruction that a statement states. -/
def Inst.parse (statement : String) : Except InstError Inst :=
  match readAddr (trim statement.toList) with
  | none => .error (.unterminatedComment statement)
  | some (addr, rest) =>
    let (guard, rest) := readGuard rest
    let (opcode, rest) := splitWord rest
    if opcode.isEmpty then .error (.missingOpcode statement)
    else match Operand.readAll (isBranchOpcode opcode) rest with
      | .error error => .error (.invalidReg error)
      | .ok operands =>
        .ok { addr := addr.map String.ofList, guard := guard.map String.ofList,
              opcode := String.ofList opcode, operands }

/-! ### Listings -/

/-- Whether a line of a listing is part of a statement: it is not blank, no
label and no directive. -/
def isStatementLine (line : List Char) : Bool :=
  !line.isEmpty && line.getLast? != some ':' && line.head? != some '.'

/-- The lines of a text, which end with a line feed or with the escape for a
left-justified line. -/
def listingLines (text : List Char) : List (List Char) :=
  (splitAtPair '\\' 'l' text).flatMap (·.splitOn '\n')

/-- The statement in one piece of a listing: its lines joined by single blanks. -/
def statementText (piece : List Char) : List Char :=
  [' '].intercalate (((listingLines piece).map trim).filter isStatementLine)

/-- The statements of a listing. -/
def statementTexts (text : String) : List String :=
  ((text.toList.splitOn ';').dropLast.map statementText).filter (!·.isEmpty)
    |>.map String.ofList

/-- The instructions of a listing, or the first statement that is none. -/
def parseStatements (text : String) : Except InstError (List Inst) :=
  (statementTexts text).mapM Inst.parse

end KernelIntervals
