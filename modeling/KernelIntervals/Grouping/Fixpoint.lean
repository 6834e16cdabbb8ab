/-
Coarsening until it no longer helps.

* `Round` — what one coarsening pass came to,
* `Fixpoint` — the intervals of the last pass and the number of passes,
* `coarsenToFixpoint` — passes until one does not lower the number of intervals.

Design notes: at least one pass runs. Whoever watches may object to a round and
so stop the passes; the rounds so far are returned in either case.
-/
import KernelIntervals.Grouping.Intervals

namespace KernelIntervals

/-- What a coarsening pass came to. Iterations are counted from 1. -/
structure Round where
  iteration : Nat
  intervals : List IntervalId
  graph : FlowGraph

/-- The outcome of the passes. -/
structure Fixpoint where
  intervals : List IntervalId
  iterations : Nat
deriving DecidableEq

/-- Coarsens intervals, after `done` passes before, until a pass does not lower
their number or `watch` objects to a round. -/
def coarsenToFixpoint (budget : Nat) (scope : UnionScope) (watch : Round → Option IntervalError)
    (done : Nat) (intervals : List IntervalId) (w : Workspace) :
    List Round × EStateM.Result Fault Workspace Fixpoint :=
  match Pass.coarsen budget scope intervals w with
  | .error fault w' => ([], .error fault w')
  | .ok coarser w' =>
    let round := ⟨done + 1, coarser, w'.graph⟩
    let w' := { w' with
      log := w'.log.push (.iterated round.iteration intervals.length coarser.length) }
    -- The watcher has a say before it is known whether this is the last round.
    match watch round with
    | some objection => ([round], .error (.interval objection) w')
    | none =>
      if coarser.length < intervals.length then
        let (rounds, result) := coarsenToFixpoint budget scope watch (done + 1) coarser w'
        (round :: rounds, result)
      else ([round], .ok ⟨coarser, done + 1⟩ w')
termination_by intervals.length

section Rounds

variable {budget done : Nat} {scope : UnionScope} {watch : Round → Option IntervalError}
  {intervals coarser : List IntervalId} {w w' : Workspace}

/-- A pass that breaks off is the last one, and gives no round. -/
theorem coarsenToFixpoint_eq_error {fault : Fault}
    (h : Pass.coarsen budget scope intervals w = .error fault w') :
    coarsenToFixpoint budget scope watch done intervals w = ([], .error fault w') := by
  rw [coarsenToFixpoint, h]

/-- Nobody objects to a pass that makes fewer intervals, and there is another one. -/
theorem coarsenToFixpoint_eq_cons (h : Pass.coarsen budget scope intervals w = .ok coarser w')
    (hwatch : watch ⟨done + 1, coarser, w'.graph⟩ = none)
    (hlt : coarser.length < intervals.length) :
    coarsenToFixpoint budget scope watch done intervals w =
      let rest := coarsenToFixpoint budget scope watch (done + 1) coarser
        { w' with log := w'.log.push (.iterated (done + 1) intervals.length coarser.length) }
      (⟨done + 1, coarser, w'.graph⟩ :: rest.1, rest.2) := by
  rw [coarsenToFixpoint, h]
  simp only [hwatch, if_pos hlt]

/-- Nobody objects to a pass that makes as many intervals, and it is the last one. -/
theorem coarsenToFixpoint_eq_last (h : Pass.coarsen budget scope intervals w = .ok coarser w')
    (hwatch : watch ⟨done + 1, coarser, w'.graph⟩ = none)
    (hlt : ¬ coarser.length < intervals.length) :
    coarsenToFixpoint budget scope watch done intervals w =
      ([⟨done + 1, coarser, w'.graph⟩], .ok ⟨coarser, done + 1⟩
        { w' with log := w'.log.push (.iterated (done + 1) intervals.length coarser.length) }) := by
  rw [coarsenToFixpoint, h]
  simp only [hwatch, if_neg hlt]

end Rounds

end KernelIntervals
