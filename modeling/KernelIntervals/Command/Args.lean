/-
The arguments of the command.

* `Command` — what the command is asked to do,
* `Invocation` — a command, a call for help, or a mistake,
* `Command.ofArgs` — the invocation that some arguments mean,
* `Command.usage` — how the command is called.

The command takes a budget and an input, and the options `--output-dir` and
`--union-scope`, each at most once and in any place. The value of an option
follows it as the next argument or behind an equals sign. Behind `--` every
argument is a budget or an input. Arguments are read in order, so a mistake
before a call for help counts.
-/
import KernelIntervals.Grouping.IntervalVisit

namespace KernelIntervals

/-- What the command is asked to do. -/
structure Command where
  budget : Nat
  input : String
  outputDir : String
  scope : UnionScope
deriving DecidableEq

/-- What some arguments mean. -/
inductive Invocation
  | run (command : Command)
  | help
  | mistake
deriving DecidableEq

/-- The arguments read so far. -/
structure ArgsRead where
  budget : Option Nat := none
  input : Option String := none
  outputDir : Option String := none
  scope : Option UnionScope := none

/-- A budget: a decimal number from 1 to the largest of 64 bits, with an
optional plus sign. -/
def budget? (text : String) : Option Nat :=
  let digits := match text.toList with
    | '+' :: digits => digits
    | digits => digits
  if digits.isEmpty || !digits.all Char.isDigit then none
  else
    let n := Nat.ofDigitChars 10 digits 0
    if 0 < n ∧ n < UInt64.size then some n else none

/-- A path, which is not empty. -/
def path? (text : String) : Option String :=
  if text.isEmpty then none else some text

namespace ArgsRead

/-- The arguments with one more budget or input. -/
def addPlain (r : ArgsRead) (text : String) : Option ArgsRead :=
  match r.budget, r.input with
  | none, _ => (budget? text).map fun n => { r with budget := some n }
  | some _, none => (path? text).map fun path => { r with input := some path }
  | some _, some _ => none

/-- The arguments with the value of an option. -/
def addOption (r : ArgsRead) (name value : String) : Option ArgsRead :=
  if name = "output-dir" ∧ r.outputDir.isNone then
    (path? value).map fun path => { r with outputDir := some path }
  else if name = "union-scope" ∧ r.scope.isNone then
    (UnionScope.ofName? value).map fun scope => { r with scope := some scope }
  else none

/-- The command that complete arguments mean. -/
def finish (r : ArgsRead) : Invocation :=
  match r.budget, r.input with
  | some budget, some input =>
    .run ⟨budget, input, r.outputDir.getD "output", r.scope.getD default⟩
  | _, _ => .mistake

end ArgsRead

/-- Whether an argument is an option rather than a value. -/
def isOption (arg : String) : Bool :=
  match arg.toList with
  | '-' :: _ :: _ => true
  | _ => false

/-- The name of a long option, and the value behind its equals sign. -/
def longOption? (arg : String) : Option (String × Option String) :=
  match arg.toList with
  | '-' :: '-' :: rest =>
    let name := String.ofList (rest.takeWhile (· != '='))
    match rest.dropWhile (· != '=') with
    | _ :: value => some (name, some (String.ofList value))
    | [] => some (name, none)
  | _ => none

/-- Whether an argument is a call for help in short. -/
def isShortHelp (arg : String) : Bool :=
  match arg.toList with
  | '-' :: 'h' :: _ => true
  | _ => false

/-- The invocation of arguments that are all budgets or inputs. -/
def readPlain (r : ArgsRead) : List String → Invocation
  | [] => r.finish
  | arg :: rest =>
    match r.addPlain arg with
    | some r => readPlain r rest
    | none => .mistake

/-- The invocation that the arguments to come mean. -/
def readArgs (r : ArgsRead) : List String → Invocation
  | [] => r.finish
  | arg :: rest =>
    -- Whatever comes next is no option.
    if arg = "--" then readPlain r rest
    else match longOption? arg with
      | some ("help", none) => .help
      | some (name, some value) =>
        match r.addOption name value with
        | some r => readArgs r rest
        | none => .mistake
      | some (name, none) =>
        match rest with
        | value :: rest =>
          if isOption value then .mistake
          else match r.addOption name value with
            | some r => readArgs r rest
            | none => .mistake
        | [] => .mistake
      | none =>
        if isShortHelp arg then .help
        else if isOption arg then .mistake
        else match r.addPlain arg with
          | some r => readArgs r rest
          | none => .mistake

namespace Command

/-- The invocation that some arguments mean. -/
def ofArgs (args : List String) : Invocation := readArgs {} args

/-- How the command is called. -/
def usage : String :=
  "usage: BUDGET INPUT [--output-dir DIR] [--union-scope global|ancestors]"

end Command

end KernelIntervals
