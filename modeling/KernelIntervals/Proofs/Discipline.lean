/-
How a first pass ends, whatever it is given.

* `BlockGrouper.run_zero`, `BlockGrouper.run_rejected` — a pass without a budget, or over a list
  that does not pass the check, does nothing,
* `BlockGrouper.run_verified` — over a list that passes the check, the loop does not break off,
* `EndsInOrder`, `BlockGrouper.run_endsInOrder` — so a pass breaks off for a reason that it gives up
  front, or because an interval is not filled in.

Design notes: blocks may be listed more than once. A block that is listed twice and has no
predecessors opens two intervals and waits twice, but it always has an owner when it is visited.
-/
import KernelIntervals.Proofs.Departure
import KernelIntervals.Proofs.FirstPass

namespace KernelIntervals

variable {p : BlockGrouper} {blocks : List BlockId} {state : LoggedGraph} {fault : Fault}

theorem BlockGrouper.run_zero (h : p.budget = 0) :
    p.run blocks state = ⟨.error (.interval .zeroBudget), p.scratch, state⟩ := by
  rw [run, Pass.groupBlocks, if_pos h]
  rfl

theorem BlockGrouper.run_rejected (h : p.budget ≠ 0)
    (hv : state.graph.verify blocks = .error fault) :
    p.run blocks state = ⟨.error fault, p.scratch, state⟩ := by
  have hcheck : Pass.verifyBlocks blocks (state.workspace p.scratch) =
      .error fault (state.workspace p.scratch) := by
    have hv : (state.workspace p.scratch).graph.verify blocks = .error fault := hv
    rw [Pass.verifyBlocks_eq, hv]
  rw [run, Pass.groupBlocks, if_neg h]
  show Outcome.ofResult (EStateM.bind _ _ _) = _
  rw [EStateM.bind, hcheck]
  rfl

/-- The loop does not break off, and what comes after it does so only if an interval is not filled
in. -/
theorem BlockGrouper.run_verified (h : p.budget ≠ 0) (hv : state.graph.verify blocks = .ok ()) :
    ∃ w₁ w₂, Pass.start .block blocks (state.workspace p.scratch) = .ok () w₁ ∧
      drain (blockVisit p.budget) w₁ = .ok () w₂ ∧
      ∀ e, (p.run blocks state).result = .error e →
        e.IsRefusal p.budget ∧ ∃ u, Pass.complete .block p.budget w₂ = .error e u := by
  have hwell : WellFormed (state.workspace p.scratch).graph blocks :=
    FlowGraph.verify_eq_ok_iff.mp hv
  obtain ⟨w₁, w₂, hstart, hloop, habreast⟩ := hwell.loops p.budget
  refine ⟨w₁, w₂, hstart, hloop, fun e he => ?_⟩
  rw [run, groupBlocks_eq_andThen hv h hstart hloop] at he
  cases hcomplete : Pass.complete .block p.budget w₂ with
  | ok _ w₃ =>
    rw [hcomplete] at he
    injection he
  | error e' u =>
    rw [hcomplete] at he
    injection he with he
    subst he
    exact ⟨habreast.refusal hcomplete, u, rfl⟩

/-- A pass breaks off for want of a budget, because its list does not pass the check, or because an
interval is not filled in. -/
structure EndsInOrder (p : BlockGrouper) (blocks : List BlockId) (state : LoggedGraph) : Prop where
  /-- No id without an entry is used. -/
  exist : (p.run blocks state).result ≠ .error .dangling
  zeroBudget_iff : (p.run blocks state).result = .error (.interval .zeroBudget) ↔ p.budget = 0
  malformed_iff :
    (∃ reason, (p.run blocks state).result = .error (.interval (.malformed reason))) ↔
      0 < p.budget ∧ state.graph.verify blocks ≠ .ok ()
  /-- What the check finds is what is reported. -/
  reported : ∀ reason, (p.run blocks state).result = .error (.interval (.malformed reason)) →
    state.graph.verify blocks = .error (.interval (.malformed reason))
  /-- No block waits without an owner. -/
  owned : ∀ name, (p.run blocks state).result ≠ .error (.interval (.malformed (.unownedBlock name)))
  unchanged : p.budget = 0 ∨ state.graph.verify blocks ≠ .ok () →
    (p.run blocks state).state = state
  /-- If there is a budget and the list passes the check, only the last part of the pass can
  break off. -/
  refusal : 0 < p.budget → state.graph.verify blocks = .ok () →
    ∃ w₁ w₂, Pass.start .block blocks (state.workspace p.scratch) = .ok () w₁ ∧
      drain (blockVisit p.budget) w₁ = .ok () w₂ ∧
      ∀ e, (p.run blocks state).result = .error e →
        e.IsRefusal p.budget ∧ ∃ u, Pass.complete .block p.budget w₂ = .error e u

/-- Every first pass ends in order, over blocks that exist or do not, listed once or more often. -/
theorem BlockGrouper.run_endsInOrder (p : BlockGrouper) (blocks : List BlockId)
    (state : LoggedGraph) : EndsInOrder p blocks state := by
  by_cases hzero : p.budget = 0
  · have hrun : p.run blocks state = _ := BlockGrouper.run_zero hzero
    constructor <;> simp [hrun, hzero]
  have hpos : 0 < p.budget := Nat.pos_of_ne_zero hzero
  by_cases hv : state.graph.verify blocks = .ok ()
  · obtain ⟨w₁, w₂, hstart, hloop, hends⟩ := BlockGrouper.run_verified hzero hv
    have hnot : ∀ e, ¬ e.IsRefusal p.budget → (p.run blocks state).result ≠ .error e :=
      fun e he h => he (hends e h).1
    have hmalformed : ∀ reason,
        (p.run blocks state).result ≠ .error (.interval (.malformed reason)) :=
      fun reason => hnot _ (by rintro ⟨⟩)
    refine ⟨hnot _ (by rintro ⟨⟩), iff_of_false (hnot _ (by rintro ⟨⟩)) hzero,
      iff_of_false (fun ⟨reason, h⟩ => hmalformed reason h) (fun h => h.2 hv),
      fun reason h => absurd h (hmalformed reason), fun name => hmalformed _,
      fun h => absurd h (by simp [hzero, hv]), fun _ _ => ⟨w₁, w₂, hstart, hloop, hends⟩⟩
  · obtain ⟨reason, hdefect, hfault⟩ :=
      (state.graph.verify_decides blocks).exists_defect (mt FlowGraph.verify_eq_ok_iff.mpr hv)
    have hrun : p.run blocks state = _ := BlockGrouper.run_rejected hzero hfault
    refine ⟨?_, ?_, ?_, ?_, fun name h => ?_, ?_, fun _ h => absurd h hv⟩
    · simp [hrun]
    · simp [hrun, hzero]
    · simp [hrun, hv, hpos]
    · simp [hrun, hfault]
    · -- What the check names is a defect of the list.
      rw [hrun] at h
      injection h with h
      injection h with h
      injection h with h
      subst h
      exact hdefect
    · simp [hrun]

end KernelIntervals
