/-
The command.

* `main` — does what its arguments ask for.

The command ends with 0 if all went well, with 1 and a report if it failed, and
with 2 if the arguments were a mistake.
-/
import KernelIntervals.Command.Report

namespace KernelIntervals

/-- The error on files that the system reported, if it is a common one. -/
def fileError? : IO.Error → Option FileError
  | .noFileOrDirectory .. => some .notFound
  | .alreadyExists .. => some .alreadyExists
  | .invalidArgument _ 36 _ => some .nameTooLong
  | .inappropriateType _ code _ => if code = 20 then some .notDirectory else some .isDirectory
  | _ => none

/-- Makes a directory. It may be there already. -/
def ensureDirectory (path : String) : IO Unit := do
  match ← (IO.FS.createDir path).toBaseIO with
  | .ok _ => return
  | .error e =>
    match ← (IO.FS.realPath path).toBaseIO with
    | .ok place => unless ← place.isDir do throw e
    | .error _ => throw e

/-- Makes all directories on the way to one, and then that one. -/
def ensureDirectories (parts : List String) : IO Unit :=
  if h : parts = [] then pure ()
  else do
    have := FileTree.length_parentParts_lt h
    let path := "/".intercalate parts
    match ← (ensureDirectory path).toBaseIO with
    | .ok _ => return
    | .error (.noFileOrDirectory ..) =>
      ensureDirectories (FileTree.parentParts parts)
      ensureDirectory path
    | .error e => throw e
termination_by parts.length

/-- Carries out one step of a plan. -/
def Action.perform : Action → IO Unit
  | makeDirs path => unless path.isEmpty do ensureDirectories (pathParts path)
  | save path text => IO.FS.writeFile path text

/-- Reads the input and carries out the plan for it. -/
def Command.perform (c : Command) : IO (Option Failure) := do
  let done ← (do
    let plan := c.plan (← IO.FS.readFile c.input)
    plan.actions.forM Action.perform
    return plan.error.map .analysis : IO (Option Failure)).toBaseIO
  match done with
  | .ok failure => return failure
  | .error e =>
    match fileError? e with
    | some known => return some (.files known)
    | none => throw e

end KernelIntervals

open KernelIntervals

/-- Does what the arguments ask for. -/
def main (args : List String) : IO UInt32 := do
  match Command.ofArgs args with
  | .help =>
    IO.println Command.usage
    return 0
  | .mistake =>
    IO.eprintln Command.usage
    return 2
  | .run c =>
    match ← c.perform with
    | none => return 0
    | some failure =>
      IO.eprint failure.report
      return 1
