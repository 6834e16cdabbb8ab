/-
The report of a failure, with all that is known of it.

* `named`, `fields` — a value as the name of its kind with its parts,
* `Failure.report` — the line that the command writes.

Texts and characters in a report are quoted.
-/
import KernelIntervals.Command.Plan
import KernelIntervals.Text.Literal

namespace KernelIntervals

open Text

/-- A value with one part. -/
def named (kind part : String) : String := kind ++ "(" ++ part ++ ")"

/-- A value with parts that have names. -/
def fields (kind : String) (parts : List (String × String)) : String :=
  kind ++ " \x7b " ++ ", ".intercalate (parts.map fun (name, part) => name ++ ": " ++ part)
    ++ " \x7d"

def RegError.details (e : RegError) : String := named "ParseRegError" (quoted e.text)

def InstError.details : InstError → String
  | missingOpcode statement => named "MissingOpcode" (quoted statement)
  | unterminatedComment statement => named "UnterminatedComment" (quoted statement)
  | invalidReg error => named "InvalidReg" error.details

def Dot.ReadError.details : Dot.ReadError → String
  | unexpectedChar line char =>
    fields "UnexpectedChar" [("line", line.repr), ("ch", quotedChar char)]
  | unterminatedString line => fields "UnterminatedString" [("line", line.repr)]
  | unexpectedToken line expected found =>
    fields "UnexpectedToken" [("line", line.repr), ("expected", quoted expected.describe),
      ("found", quoted found)]
  | unexpectedEnd expected => named "UnexpectedEof" (quoted expected.describe)
  | duplicateNode name => named "DuplicateNode" (quoted name)

def CarveError.details : CarveError → String
  | badInst node source => fields "Inst" [("node", quoted node), ("source", source.details)]
  | unknownNode source target =>
    fields "UnknownNode" [("from", quoted source), ("to", quoted target)]
  | unknownPort node port => fields "UnknownPort" [("node", quoted node), ("port", quoted port)]

def RegOutOfRange.details (e : RegOutOfRange) : String :=
  fields "RegIndexOutOfRange" [("reg", named "Reg" e.reg.num.repr), ("width", e.width.repr)]

def IntervalError.details : IntervalError → String
  | malformed reason => named "MalformedGraph" (quoted reason.message)
  | registerOutOfRange interval source =>
    fields "RegisterIndexOutOfRange" [("interval", interval.repr), ("source", source.details)]
  | budgetViolation interval regs budget =>
    fields "BudgetViolation" [("interval", interval.repr), ("regs", regs.repr),
      ("budget", budget.repr)]
  | zeroBudget => "ZeroBudget"

def Fault.details : Fault → String
  | dangling => quoted dangling.message
  | interval error => error.details

def AnalysisError.details : AnalysisError → String
  | read error => named "Parse" error.details
  | carve error => named "Parse" error.details
  | grouping fault => named "Interval" fault.details

def FileError.details (e : FileError) : String :=
  match e.code? with
  | some code =>
    fields "Os" [("code", code.repr), ("kind", e.kind), ("message", quoted e.text)]
  | none => fields "Error" [("kind", e.kind), ("message", quoted e.text)]

def Failure.details : Failure → String
  | analysis error => error.details
  | files error => named "Io" error.details

/-- The line that the command writes when it fails. -/
def Failure.report (f : Failure) : String := "Error: " ++ f.details ++ "\n"

end KernelIntervals
