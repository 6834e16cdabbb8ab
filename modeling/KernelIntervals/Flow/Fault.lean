/-
What can go wrong with a flow graph.

* `Malformed` — the ways in which a list of blocks is no well-formed graph,
* `IntervalError` — why blocks or intervals could not be grouped,
* `Fault` — such an error, or the use of an id that has no entry.
-/
import KernelIntervals.Reg.Vector

namespace KernelIntervals

/-- A way in which a graph is not well formed. -/
inductive Malformed
  | missingBlock (id : Nat)
  | successorOutside (id : Nat) (block : String)
  | missingPredecessor (source target : String)
  | predecessorOutside (id : Nat) (block : String)
  | missingSuccessor (source target : String)
  | notControlling (block control : String)
  | missingControl (id : Nat) (block : String)
  | unownedBlock (block : String)
  | unownedInterval (id : Nat)
  /-- An objection of whoever watches the intervals getting coarser. -/
  | objection (text : String)
deriving DecidableEq

def Malformed.message : Malformed → String
  | missingBlock id => "block #" ++ id.repr ++ " does not exist"
  | successorOutside id block =>
    "successor #" ++ id.repr ++ " of " ++ block ++ " is not part of the graph"
  | missingPredecessor source target =>
    "edge " ++ source ++ " -> " ++ target ++ " is missing its predecessor entry"
  | predecessorOutside id block =>
    "predecessor #" ++ id.repr ++ " of " ++ block ++ " is not part of the graph"
  | missingSuccessor source target =>
    "edge " ++ source ++ " -> " ++ target ++ " is missing its successor entry"
  | notControlling block control =>
    block ++ " is guarded by " ++ control ++ ", which is not a controlling block"
  | missingControl id block =>
    "controlling block #" ++ id.repr ++ " of " ++ block ++ " does not exist"
  | unownedBlock block => block ++ " is on the worklist without an interval"
  | unownedInterval id =>
    "interval #" ++ id.repr ++ " is on the worklist without a next-level interval"
  | objection text => text

/-- Why blocks or intervals could not be grouped. -/
inductive IntervalError
  | malformed (reason : Malformed)
  | registerOutOfRange (interval : Nat) (source : RegOutOfRange)
  | budgetViolation (interval regs budget : Nat)
  | zeroBudget
deriving DecidableEq

def IntervalError.message : IntervalError → String
  | malformed reason => "malformed graph: " ++ reason.message
  | registerOutOfRange interval source =>
    "interval #" ++ interval.repr ++ ": " ++ source.message
  | budgetViolation interval regs budget =>
    "interval #" ++ interval.repr ++ " holds " ++ regs.repr
      ++ " registers, which is not under the budget of " ++ budget.repr
  | zeroBudget => "the register budget must be at least 1"

/-- Why an operation on a flow graph broke off. -/
inductive Fault
  /-- An id was used that has no entry in its arena. -/
  | dangling
  | interval (error : IntervalError)
deriving DecidableEq

def Fault.message : Fault → String
  | dangling => "the arena pointer is invalid"
  | interval error => error.message

end KernelIntervals
