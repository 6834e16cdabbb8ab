/-
Passes that are used again.

* `BlockGrouper.after`, `IntervalGrouper.after` — a pass after some runs,
* `IntervalGrouper.run_kept` — a run changes no interval that was there, apart from the owners of
  those it groups, even if it breaks off,
* `Repeated` — a second run over the same intervals has come to the same as the first, but for
  the ids of the intervals that it made,
* `run_reused` — a pass that was used before does what a new one does, and over the same intervals
  what it did before.

Design notes: the second run starts in a graph where the intervals have the owners that the first
run gave them, and where those are there as well. It takes the owners away when it starts, and
comes to none of the others.
-/
import KernelIntervals.Proofs.Departure
import KernelIntervals.Proofs.FirstPass
import KernelIntervals.Proofs.Quotients
import KernelIntervals.Proofs.Reuse

namespace KernelIntervals

open Function List

/-! ### Used passes -/

/-- The pass after some runs, each on a graph of its own. -/
def BlockGrouper.after (p : BlockGrouper) (runs : List (List BlockId × LoggedGraph)) :
    BlockGrouper :=
  runs.foldl (fun p run => { p with scratch := (p.run run.1 run.2).scratch }) p

/-- The pass after some runs, each on a graph of its own. -/
def IntervalGrouper.after (p : IntervalGrouper) (runs : List (List IntervalId × LoggedGraph)) :
    IntervalGrouper :=
  runs.foldl (fun p run => { p with scratch := (p.run run.1 run.2).scratch }) p

theorem BlockGrouper.budget_after (p : BlockGrouper) (runs : List (List BlockId × LoggedGraph)) :
    (p.after runs).budget = p.budget := by
  induction runs generalizing p with
  | nil => rfl
  | cons run runs ih => exact ih _

theorem IntervalGrouper.limits_after (p : IntervalGrouper)
    (runs : List (List IntervalId × LoggedGraph)) :
    (p.after runs).budget = p.budget ∧ (p.after runs).scope = p.scope := by
  induction runs generalizing p with
  | nil => exact ⟨rfl, rfl⟩
  | cons run runs ih => exact ih _

/-! ### The same intervals again -/

/-- The intervals that are grouped correspond to themselves, and those that are made to others
that are made `shift` later. -/
def Kinship.again (g : FlowGraph) (shift : Nat) (intervals : List IntervalId) : Kinship :=
  { Likeness.sameRegs Eq with base := g.intervals.size, shift, old := intervals }

variable {intervals : List IntervalId} {shift : Nat} {w w' : Workspace}

theorem Kinship.map_num_again {g : FlowGraph} {nodes : List IntervalId}
    (h : ∀ i ∈ nodes, i < g.intervals.size) :
    nodes.map ((Kinship.again g shift intervals).num .interval) = nodes :=
  (List.map_congr_left fun i hi => if_pos (h i hi)).trans (List.map_id _)

/-- Two passes over the same intervals start abreast, if one of them starts in a graph where
those were grouped already. -/
theorem releasing_again (shift : Nat) (hexist : ∀ i ∈ intervals, i < w.graph.intervals.size)
    (hclosed : (w.graph.net .interval intervals).Closed)
    (hkept : Kept w.graph.intervals.size intervals w.graph w'.graph)
    (hsize : w'.graph.intervals.size = w.graph.intervals.size + shift) :
    Releasing (Kinship.again w.graph shift intervals) ⟨w.graph, []⟩ .interval intervals intervals
      { w with members := intervals, opened := [], worklist := [] }
      { w' with
        members := intervals.map ((Kinship.again w.graph shift intervals).num .interval)
        opened := [], worklist := [] } := by
  refine ⟨Kin.cleared (congrArg Arena.size hkept.blocks) hsize (Nat.le_refl _) (fun l n hn => ?_)
    (fun n hn => ?_), ⟨rfl, rfl⟩, ⟨rfl, rfl⟩, ⟨rfl, rfl⟩, fun n hn => ⟨hexist n hn, .inr hn⟩,
    fun _ => id, .refl ..⟩
  · cases l with
    | block => exact absurd hn List.not_mem_nil
    | interval => exact ⟨rfl, hn.2.resolve_left (Nat.not_le.mpr hn.1)⟩
  · have hlt := hexist n hn
    have hnum : (Kinship.again w.graph shift intervals).num .interval n = n := if_pos hlt
    have hnode := FlowGraph.node?_eq_some (l := .interval) hlt
    have hnode' := FlowGraph.node?_eq_some (l := .interval) (Nat.lt_of_lt_of_le hlt hkept.size_le)
    rw [hkept.insts n hlt, hkept.regs n hlt, hkept.preds n hlt, hkept.succs n hlt] at hnode'
    have hpred : ∀ p ∈ w.graph.preds .interval n, p ∈ intervals :=
      fun p hp => hclosed.pred_mem hn hp
    have hsucc : ∀ s ∈ w.graph.succs .interval n, s ∈ intervals :=
      fun s hs => hclosed.succ_mem hn hs
    refine ⟨_, _, hnode, (congrArg (w'.graph.node? .interval) hnum).trans hnode',
      forall₂_same.mpr fun _ _ => rfl, rfl,
      (Kinship.map_num_again fun p hp => hexist p (hpred p hp)).symm,
      (Kinship.map_num_again fun s hs => hexist s (hsucc s hs)).symm, rfl,
      fun p hp => ?_, fun s hs => ?_, fun _ hi => by injection hi⟩
    · exact ⟨hexist p (hpred p hp), .inr (hpred p hp)⟩
    · exact ⟨hexist s (hsucc s hs), .inr (hsucc s hs)⟩

/-- Two passes over the same intervals end alike, if one of them starts in a graph where those were
grouped already. -/
theorem coarsen_again {budget : Nat} (hbudget : budget ≠ 0) (scope : UnionScope) (shift : Nat)
    (hexist : ∀ i ∈ intervals, i < w.graph.intervals.size)
    (hclosed : (w.graph.net .interval intervals).Closed)
    (hkept : Kept w.graph.intervals.size intervals w.graph w'.graph)
    (hsize : w'.graph.intervals.size = w.graph.intervals.size + shift) :
    Agree (CoarsenedAbreast (Kinship.again w.graph shift intervals) ⟨w.graph, []⟩)
      (RefusedAbreast (Kinship.again w.graph shift intervals) ⟨w.graph, []⟩ .interval budget)
      (Pass.coarsen budget scope intervals w) (Pass.coarsen budget scope intervals w') := by
  have hagree := coarsenAbreast hbudget scope (releasing_again shift hexist hclosed hkept hsize)
  rwa [Kinship.map_num_again hexist] at hagree

/-- A pass over closed intervals keeps the intervals that were there, even if it breaks off. -/
theorem IntervalGrouper.run_kept (p : IntervalGrouper) {state : LoggedGraph}
    (hexist : ∀ i ∈ intervals, i < state.graph.intervals.size)
    (hclosed : (state.graph.net .interval intervals).Closed) :
    Kept state.graph.intervals.size intervals state.graph (p.run intervals state).state.graph := by
  by_cases hbudget : p.budget = 0
  · rw [run, Pass.coarsen, if_pos hbudget]
    exact .refl ..
  have hagree := coarsen_again (w := state.workspace p.scratch) hbudget p.scope 0 hexist hclosed
    (.refl ..) rfl
  rw [run]
  generalize Pass.coarsen p.budget p.scope intervals (state.workspace p.scratch) = r at hagree ⊢
  cases hagree with
  | ends h => exact h.kept
  | breaks h => exact h.abreast.past

/-- The id of an interval in a second run: what was made, from `base` on, is made again, `shift`
later. -/
def renumbered (base shift : Nat) (i : IntervalId) : IntervalId :=
  if i < base then i else i + shift

/-- A second run over some intervals has come to what the first one came to. The first one made
the intervals from `base` on, the second one makes the same `shift` later. -/
structure Repeated (base shift : Nat) (intervals : List IntervalId)
    (first second : Outcome (List IntervalId)) : Prop where
  result : second.result = (first.result.map (List.map (renumbered base shift))).mapError
    (Fault.renumber (renumbered base shift))
  size : second.state.graph.intervals.size = first.state.graph.intervals.size + shift
  /-- The groups are the same. -/
  owner : ∀ i ∈ intervals, second.state.graph.owner .interval i =
    (first.state.graph.owner .interval i).map (renumbered base shift)
  insts : ∀ i, base ≤ i → i < first.state.graph.intervals.size →
    second.state.graph.insts .interval (i + shift) = first.state.graph.insts .interval i
  regs : ∀ i, base ≤ i → i < first.state.graph.intervals.size →
    second.state.graph.regs .interval (i + shift) = first.state.graph.regs .interval i
  preds : ∀ i, base ≤ i → i < first.state.graph.intervals.size →
    second.state.graph.preds .interval (i + shift) =
      (first.state.graph.preds .interval i).map (renumbered base shift)
  succs : ∀ i, base ≤ i → i < first.state.graph.intervals.size →
    second.state.graph.succs .interval (i + shift) =
      (first.state.graph.succs .interval i).map (renumbered base shift)

/-- Runs that leave graphs which correspond have come to the same. -/
theorem Repeated.of_kin {g : FlowGraph} {first second : Outcome (List IntervalId)}
    (hexist : ∀ i ∈ intervals, i < g.intervals.size)
    (hresult : second.result =
      (first.result.map (List.map (renumbered g.intervals.size shift))).mapError
        (Fault.renumber (renumbered g.intervals.size shift)))
    (hk : Kin (Kinship.again g shift intervals) [] first.state.graph second.state.graph) :
    Repeated g.intervals.size shift intervals first second := by
  have hold : ∀ i ∈ intervals, (Kinship.again g shift intervals).num .interval i = i :=
    fun i hi => if_pos (hexist i hi)
  have hnew : ∀ i, g.intervals.size ≤ i → (Kinship.again g shift intervals).num .interval i =
      i + shift := fun i hle => if_neg (Nat.not_lt.mpr hle)
  have hakin : ∀ i, g.intervals.size ≤ i → i < first.state.graph.intervals.size →
      Node.Akin _ _ _ .interval _ _ := fun i hle hlt => hk.akin ⟨hlt, .inl hle⟩
  refine ⟨hresult, hk.intervals_size, fun i hi => ?_, fun i hle hlt => ?_, fun i hle hlt => ?_,
    fun i hle hlt => ?_, fun i hle hlt => ?_⟩
  · have hknown : (Kinship.again g shift intervals).Knows [] first.state.graph .interval i :=
      ⟨Nat.lt_of_lt_of_le (hexist i hi) hk.base_le, .inr hi⟩
    have howner := (hk.akin hknown).owner
    rwa [hold i hi] at howner
  · have hinsts : Forall₂ Eq _ _ := (hakin i hle hlt).insts
    rw [forall₂_eq_eq_eq, hnew i hle] at hinsts
    exact hinsts.symm
  · have hregs : _ = _ := (hakin i hle hlt).regs
    rw [hnew i hle] at hregs
    exact hregs.symm
  · have hpreds := (hakin i hle hlt).preds
    rwa [hnew i hle] at hpreds
  · have hsuccs := (hakin i hle hlt).succs
    rwa [hnew i hle] at hsuccs

theorem renumbered_zero (base : Nat) : renumbered base 0 = id := by
  funext i
  exact ite_self i

variable {p : IntervalGrouper} {state : LoggedGraph}

theorem IntervalGrouper.run_zero (h : p.budget = 0) :
    p.run intervals state = ⟨.error (.interval .zeroBudget), p.scratch, state⟩ := by
  rw [run, Pass.coarsen, if_pos h]
  rfl

/-- A second run over the same intervals comes to what the first one came to. -/
theorem IntervalGrouper.run_repeated (p : IntervalGrouper) {state : LoggedGraph}
    (hexist : ∀ i ∈ intervals, i < state.graph.intervals.size)
    (hclosed : (state.graph.net .interval intervals).Closed) {first : Outcome (List IntervalId)}
    (hfirst : p.run intervals state = first) (scratch : Scratch) :
    Repeated state.graph.intervals.size
      (first.state.graph.intervals.size - state.graph.intervals.size) intervals first
      (IntervalGrouper.run ⟨p.budget, p.scope, scratch⟩ intervals first.state) := by
  by_cases hbudget : p.budget = 0
  · rw [IntervalGrouper.run_zero hbudget] at hfirst
    subst hfirst
    rw [IntervalGrouper.run_zero (p := ⟨p.budget, p.scope, scratch⟩) hbudget, Nat.sub_self]
    have hnone : ∀ i, state.graph.intervals.size ≤ i → ¬ i < state.graph.intervals.size :=
      fun _ => Nat.not_lt.mpr
    refine ⟨rfl, rfl, fun i _ => ?_, fun i hle hlt => absurd hlt (hnone i hle),
      fun i hle hlt => absurd hlt (hnone i hle), fun i hle hlt => absurd hlt (hnone i hle),
      fun i hle hlt => absurd hlt (hnone i hle)⟩
    rw [renumbered_zero, Option.map_id_fun]
    rfl
  have hkept : Kept state.graph.intervals.size intervals state.graph first.state.graph :=
    hfirst ▸ p.run_kept hexist hclosed
  have hkept : Kept state.graph.intervals.size intervals (state.workspace p.scratch).graph
      (first.state.workspace scratch).graph := hkept
  have hagree := coarsen_again hbudget p.scope _ hexist hclosed hkept
    (Nat.add_sub_of_le hkept.size_le).symm
  rw [run] at hfirst ⊢
  generalize Pass.coarsen p.budget p.scope intervals (state.workspace p.scratch) = r
    at hagree hfirst
  generalize Pass.coarsen p.budget p.scope intervals (first.state.workspace scratch) = r'
    at hagree ⊢
  subst hfirst
  cases hagree with
  | ends h =>
    obtain rfl := h.intervals
    exact .of_kin hexist rfl h.kin
  | breaks h =>
    obtain rfl := h.renumbered
    exact .of_kin hexist rfl h.abreast.kin

/-! ### Both passes -/

/-- Whatever a pass was used for before, it comes to what a new pass with its budget and scope comes
to, and leaves the same. So over the same intervals, if they are closed, it comes to the same
twice. -/
theorem run_reused (p : BlockGrouper) (q : IntervalGrouper)
    (blockRuns : List (List BlockId × LoggedGraph))
    (intervalRuns : List (List IntervalId × LoggedGraph)) (blocks : List BlockId)
    (intervals : List IntervalId) (state : LoggedGraph) :
    let used := p.after blockRuns
    let usedAgain := q.after intervalRuns
    let first := usedAgain.run intervals state
    ((used.run blocks state).result = (BlockGrouper.run ⟨p.budget, {}⟩ blocks state).result ∧
      (used.run blocks state).state = (BlockGrouper.run ⟨p.budget, {}⟩ blocks state).state) ∧
    (first.result = (IntervalGrouper.run ⟨q.budget, q.scope, {}⟩ intervals state).result ∧
      first.state = (IntervalGrouper.run ⟨q.budget, q.scope, {}⟩ intervals state).state) ∧
    ((∀ i ∈ intervals, i < state.graph.intervals.size) →
      (state.graph.net .interval intervals).Closed →
      Repeated state.graph.intervals.size
        (first.state.graph.intervals.size - state.graph.intervals.size) intervals first
        (IntervalGrouper.run { usedAgain with scratch := first.scratch } intervals
          first.state)) := by
  intro used usedAgain first
  have hblock := used.run_fresh blocks state
  have hinterval := usedAgain.run_fresh intervals state
  rw [show used.budget = p.budget from p.budget_after blockRuns] at hblock
  obtain ⟨hbudget, hscope⟩ := q.limits_after intervalRuns
  rw [show usedAgain.budget = q.budget from hbudget,
    show usedAgain.scope = q.scope from hscope] at hinterval
  exact ⟨hblock, hinterval, fun hexist hclosed => usedAgain.run_repeated hexist hclosed rfl _⟩

/-- The intervals of a first pass are grouped twice. The groups have the numbers 3 and 4, and then
5 and 6. -/
theorem run_reused_carvedLoops :
    let state := (BlockGrouper.run ⟨4, {}⟩ [0, 1, 2] carvedLoops).state
    let first := IntervalGrouper.run ⟨4, .ancestors, {}⟩ [0, 1, 2] state
    let second := IntervalGrouper.run ⟨4, .ancestors, first.scratch⟩ [0, 1, 2] first.state
    (∀ i ∈ [0, 1, 2], i < state.graph.intervals.size) ∧
      (state.graph.net .interval [0, 1, 2]).Closed ∧
      first.result = .ok [3, 4] ∧ second.result = .ok [5, 6] ∧
      Repeated state.graph.intervals.size
        (first.state.graph.intervals.size - state.graph.intervals.size) [0, 1, 2] first second := by
  intro state first second
  obtain ⟨_, _, _, _, _, _, _, hend⟩ := run_eq_ok (by decide) run_carvedLoops
  have hvalid : Valid state.graph [0, 1, 2] := hend.valid
  exact ⟨hvalid.exist, hvalid.closed, by decide +kernel, by decide +kernel,
    (run_reused ⟨4, {}⟩ ⟨4, .ancestors, {}⟩ [] [] [0, 1, 2] [0, 1, 2] state).2.2 hvalid.exist
      hvalid.closed⟩

end KernelIntervals
