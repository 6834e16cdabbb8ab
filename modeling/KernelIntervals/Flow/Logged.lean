/-
Flow graphs with a log.

* `LoggedGraph` — a flow graph with the log of what happened to it.
-/
import KernelIntervals.Log
import KernelIntervals.Flow.Graph

namespace KernelIntervals

/-- A flow graph with the log of what happened to it. -/
structure LoggedGraph where
  graph : FlowGraph := {}
  log : Log := #[]

instance : Inhabited LoggedGraph := ⟨{}⟩

end KernelIntervals
