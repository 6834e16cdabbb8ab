/-
The first pass from its start to its end.

* `FirstPass` — the states in which a first pass starts its loop and ends it,
* `firstPass_exists` — every list of blocks that passes the check has such states,
* `FirstPass.groupBlocks_eq` — the pass is then up to the intervals being filled in,
* `FirstPass.regrouped` — if they are, the blocks are grouped into intervals,
* `run_eq_ok` — so they are when a run returns intervals,
* `loops`, `carvedLoops` — a small graph, and its blocks.
-/
import KernelIntervals.Flow.Carve
import KernelIntervals.Grouping.Runs
import KernelIntervals.Proofs.BlockMoves
import KernelIntervals.Proofs.Regrouped
import KernelIntervals.Proofs.Verified

namespace KernelIntervals

open Relation

variable {budget : Nat} {blocks : List BlockId} {w w₁ w₂ w₃ : Workspace} {ig : IntervalGraph}

/-- If the loop does not break off, the pass is what filling in the intervals comes to. -/
theorem groupBlocks_eq_andThen (hv : w.graph.verify blocks = .ok ()) (hbudget : budget ≠ 0)
    (hstart : Pass.start .block blocks w = .ok () w₁)
    (hloop : drain (blockVisit budget) w₁ = .ok () w₂) :
    Pass.groupBlocks budget blocks w = andThen (Pass.complete .block budget w₂) fun w₃ =>
      .ok ⟨w₃.members, w₃.opened⟩ { w₃ with
        members := []
        opened := []
        log := w₃.log.push (.blocksGrouped w₃.members.length
          (w₃.members.length - blocks.length) w₃.opened.length) } := by
  have hverify : Pass.verifyBlocks blocks w = .ok () w := by
    rw [Pass.verifyBlocks_eq, hv]
  rw [Pass.groupBlocks, if_neg hbudget]
  refine (bind_of_eq_ok hverify).trans ((bind_of_eq_ok hstart).trans ?_)
  exact (bind_of_eq_ok hloop).trans (bind_eq_andThen _ _ w₂)

/-- A pass that returns intervals was given a budget and a list that passes the check. -/
theorem groupBlocks_eq_ok (h : Pass.groupBlocks budget blocks w = .ok ig w₃) :
    budget ≠ 0 ∧ w.graph.verify blocks = .ok () := by
  rw [Pass.groupBlocks] at h
  by_cases hbudget : budget = 0
  · rw [if_pos hbudget] at h
    injection h
  · rw [if_neg hbudget] at h
    refine ⟨hbudget, ?_⟩
    obtain ⟨_, w', hverify, _⟩ := bind_eq_ok h
    rw [Pass.verifyBlocks_eq] at hverify
    cases hv : w.graph.verify blocks with
    | error e =>
      rw [hv] at hverify
      injection hverify
    | ok _ => rfl

/-- A first pass on a workspace `w` starts its loop in `w₁` and ends it in `w₂`. -/
structure FirstPass (budget : Nat) (blocks : List BlockId) (w w₁ w₂ : Workspace) : Prop where
  started : Pass.start .block blocks w = .ok () w₁
  cleared : ∃ w₀, Cleared .block blocks w.graph w₀ ∧ Opens .block w₀ w₁
  sound : Sound .block w.graph.intervals.size none w₁
  looped : drain (blockVisit budget) w₁ = .ok () w₂
  moves : ReflTransGen (BlockMove budget) (none, w₁) (none, w₂)
  idle : w₂.worklist = []

/-- Every list of blocks that passes the check can be looped over. -/
theorem firstPass_exists (budget : Nat) (hv : w.graph.verify blocks = .ok ())
    (hnodup : blocks.Nodup) : ∃ w₁ w₂, FirstPass budget blocks w w₁ w₂ := by
  obtain ⟨hexist, hclosed⟩ := FlowGraph.verify_eq_ok hv
  obtain ⟨_, w₁, hstart, hsound, hcleared, _⟩ := start_ends hexist hnodup hclosed
  obtain ⟨_, w₂, hloop, hmoves, hidle⟩ := blockLoop_ends budget hsound
  exact ⟨w₁, w₂, hstart, hcleared, hsound, hloop, hmoves, hidle⟩

namespace FirstPass

variable (h : FirstPass budget blocks w w₁ w₂)

include h

theorem sound_end : Sound .block w.graph.intervals.size none w₂ := h.sound.moves h.moves

/-- The blocks have the edges that they had before the loop starts. -/
theorem net_start : w₁.net .block = w.graph.net .block blocks := by
  obtain ⟨w₀, hcleared, hopens⟩ := h.cleared
  rw [hopens.net, Workspace.net, hcleared.members, hcleared.bodies.net]

/-- When the loop starts, all intervals are still to be visited. -/
theorem busy_start {j : IntervalId} (hj : j ∈ w₁.opened) : w₁.Busy .block none j := by
  obtain ⟨w₀, hcleared, hopens⟩ := h.cleared
  refine hopens.busy_of_new hj ?_
  rw [hcleared.opened]
  exact List.not_mem_nil

/-- When the loop ends, no interval is still to be visited. -/
theorem not_busy_end (j : IntervalId) : ¬ w₂.Busy .block none j := by
  rintro (hj | ⟨m, hm, _⟩)
  · injection hj
  · rw [h.idle] at hm
    exact absurd hm List.not_mem_nil

/-- The pass is what filling in the intervals comes to. -/
theorem groupBlocks_eq (hv : w.graph.verify blocks = .ok ()) (hbudget : budget ≠ 0) :
    Pass.groupBlocks budget blocks w = andThen (Pass.complete .block budget w₂) fun w₃ =>
      .ok ⟨w₃.members, w₃.opened⟩ { w₃ with
        members := []
        opened := []
        log := w₃.log.push (.blocksGrouped w₃.members.length
          (w₃.members.length - blocks.length) w₃.opened.length) } :=
  groupBlocks_eq_andThen hv hbudget h.started h.looped

theorem completion :
    Completion .block budget w₂.opened w₂ (Pass.complete .block budget w₂) := by
  obtain ⟨⟨opener, hu⟩, _⟩ := h.sound_end
  exact completeAll_result hu.ready hu.grouped.nodup

/-- A pass that returns intervals has filled them in, and is at the end of its loop
otherwise. -/
theorem filled (hok : Pass.groupBlocks budget blocks w = .ok ig w₃) :
    ig.blocks = w₂.members ∧ ig.intervals = w₂.opened ∧
      (∀ i ∈ w₂.opened, Fits budget (w₂.summaryOf .block i).regs) ∧
      ∃ w', Filled .block w₂.opened w₂ w' ∧ w₃.graph = w'.graph := by
  obtain ⟨hbudget, hv⟩ := groupBlocks_eq_ok hok
  have hcompletion := h.completion
  rw [h.groupBlocks_eq hv hbudget] at hok
  generalize Pass.complete .block budget w₂ = r at hok hcompletion
  cases hcompletion with
  | @filled w' hfits hf =>
    injection hok with hig hw
    subst hig hw
    exact ⟨hf.members, hf.opened, hfits, w', hf, rfl⟩
  | outOfRange => injection hok
  | overBudget => injection hok

/-- If the intervals are filled in, the blocks are grouped into them. -/
theorem regrouped (hfits : ∀ i ∈ w₂.opened, Fits budget (w₂.summaryOf .block i).regs)
    (hf : Filled .block w₂.opened w₂ w₃) : ∃ opener, Regrouped .block w.graph.intervals.size budget
      (w₃.graph.net .block w₂.members) w₂.opened opener w₃.graph := by
  obtain ⟨⟨opener, hu⟩, hs⟩ := h.sound_end
  refine ⟨opener, ?_⟩
  rw [FlowGraph.net, FlowGraph.preds, FlowGraph.succs, hf.see_block, hf.see_block]
  exact hu.regrouped hs h.idle hfits hf

end FirstPass

/-! ### Runs -/

variable {p : BlockGrouper} {state : LoggedGraph}

theorem ofResult_result_eq_ok {α : Type} {r : EStateM.Result Fault Workspace α} {a : α}
    (h : (Outcome.ofResult r).result = .ok a) :
    ∃ w, r = .ok a w ∧ (Outcome.ofResult r).state.graph = w.graph := by
  cases r with
  | ok b w =>
    injection h with h
    exact ⟨w, by rw [h], rfl⟩
  | error e w => injection h

theorem verify_of_run_eq_ok (h : (p.run blocks state).result = .ok ig) :
    p.budget ≠ 0 ∧ state.graph.verify blocks = .ok () := by
  obtain ⟨w, hok, _⟩ := ofResult_result_eq_ok h
  exact groupBlocks_eq_ok hok

/-- What is left by a run that returns intervals. -/
theorem run_eq_ok (hnodup : blocks.Nodup) (h : (p.run blocks state).result = .ok ig) :
    ∃ w₁ w₂, FirstPass p.budget blocks (state.workspace p.scratch) w₁ w₂ ∧
      ig.blocks = w₂.members ∧ ig.intervals = w₂.opened ∧
      (p.run blocks state).state.graph.blocks = w₂.graph.blocks ∧
      ∃ opener, Regrouped .block state.graph.intervals.size p.budget
        ((p.run blocks state).state.graph.net .block ig.blocks) ig.intervals opener
        (p.run blocks state).state.graph := by
  obtain ⟨_, hv⟩ := verify_of_run_eq_ok h
  obtain ⟨w, hok, hgraph⟩ := ofResult_result_eq_ok h
  obtain ⟨w₁, w₂, hpass⟩ :=
    firstPass_exists (w := state.workspace p.scratch) p.budget hv hnodup
  have hgraph : (p.run blocks state).state.graph = w.graph := hgraph
  obtain ⟨hblocks, hintervals, hfits, w₃, hf, hgraph₃⟩ := hpass.filled hok
  rw [hgraph, hgraph₃, hblocks, hintervals]
  exact ⟨w₁, w₂, hpass, rfl, rfl, hf.blocks, hpass.regrouped hfits hf⟩

/-! ### A small graph -/

/-- A block that is split at a budget of 4 registers, a loop behind it, and a loop that
nothing leads to. -/
def loops : Dot.Graph where
  nodes := [⟨"a", [⟨some "entry", "MOV R1, R2 ;\\lMOV R3, R4 ;"⟩]⟩,
    ⟨"b", [⟨some "entry", "MOV R4, R3 ;"⟩]⟩, ⟨"c", [⟨some "entry", "EXIT ;"⟩]⟩]
  edges := [⟨"a", some "entry", "b"⟩, ⟨"b", some "entry", "b"⟩, ⟨"c", some "entry", "c"⟩]

def carvedLoops : LoggedGraph := (carve loops {}).2

theorem carve_loops : carve loops {} = (.ok [0, 1, 2], carvedLoops) :=
  Prod.ext (by decide +kernel) rfl

theorem verify_carvedLoops : carvedLoops.graph.verify [0, 1, 2] = .ok () := by
  decide +kernel

/-- The tail of the split is the fourth block. -/
theorem run_carvedLoops : (BlockGrouper.run ⟨4, {}⟩ [0, 1, 2] carvedLoops).result =
    .ok ⟨[0, 1, 2, 3], [0, 1, 2]⟩ := by
  decide +kernel

end KernelIntervals
