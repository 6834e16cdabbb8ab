/-
The final intervals partition the reachable blocks.

* `FlowGraph.climb` — the interval that a block is in after some coarsening,
* `EnteredAt` — a block of an interval that all edges from other intervals, and all
  paths from an entry, lead to first,
* `Partitions` — what it is for intervals to partition the reachable blocks,
* `Climbed`, `Climbed.coarsen` — intervals of some level cover the blocks, and so do
  those of the next level,
* `Climbed.converged` — so do those of the last level,
* `analysis_partitions` — so the final intervals of an analysis partition the
  reachable blocks.

Design notes: a pass gives owners to the intervals that it was given only, so what was
found below them stays. That a block climbs through intervals that are not grouped
again is the part of the invariant that says so.
-/
import KernelIntervals.Analysis
import KernelIntervals.Proofs.Covered
import KernelIntervals.Proofs.FirstPass
import KernelIntervals.Proofs.Handover

namespace KernelIntervals

open Relation

/-- The interval that a block is in after `k` passes over intervals. -/
def FlowGraph.climb (g : FlowGraph) : Nat → BlockId → Option IntervalId
  | 0, b => g.owner .block b
  | k + 1, b => (g.climb k b).bind (g.owner .interval)

/-- Edges from other intervals lead to the block `e` of the interval `i` only, and every
path from an entry of the net into the interval leads through it. -/
structure EnteredAt (net : Net) (ψ : BlockId → Option IntervalId) (i : IntervalId) (e : BlockId) :
    Prop where
  mem : e ∈ net.nodes
  eq_some : ψ e = some i
  target : ∀ a ∈ net.nodes, ∀ b, net.Edge a b → ψ b = some i → ∀ j, ψ a = some j → j ≠ i → b = e
  dominates : ∀ b ∈ net.nodes, ψ b = some i → net.Dominates e b

/-- The intervals partition the reachable nodes of a net of blocks, where `ψ` tells the
interval of a block. -/
structure Partitions (budget : Nat) (net : Net) (ψ : BlockId → Option IntervalId)
    (intervals : List IntervalId) (g : FlowGraph) : Prop where
  nodup : intervals.Nodup
  reached : ∀ b ∈ net.nodes, net.Reachable b → ∃ i ∈ intervals, ψ b = some i
  unreached : ∀ b ∈ net.nodes, ¬ net.Reachable b → ψ b = none
  narrow : ∀ i ∈ intervals, (g.regs .interval i).size < budget
  regs : ∀ i ∈ intervals, ∀ r, r ∈ g.regs .interval i ↔
    ∃ b ∈ net.nodes, ψ b = some i ∧ r ∈ g.regs .block b
  insts : ∀ i ∈ intervals, (g.insts .interval i).Perm
    ((net.nodes.filter fun b => ψ b = some i).flatMap (g.insts .block))
  insts_all : (intervals.flatMap (g.insts .interval)).Perm
    ((net.nodes.filter fun b => (ψ b).isSome).flatMap (g.insts .block))
  entered : ∀ i ∈ intervals, ∃! e, EnteredAt net ψ i e

variable {budget k : Nat} {net : Net} {ψ : BlockId → Option IntervalId}
  {intervals coarser : List IntervalId} {entry : IntervalId → BlockId} {nodes : List BlockId}
  {g g' : FlowGraph} {w w' : Workspace} {i : IntervalId} {e e' : BlockId} {scope : UnionScope}
  {watch : Round → Option IntervalError} {fp : Fixpoint}

/-! ### Covering intervals partition the blocks -/

/-- An interval is entered at one block. -/
theorem EnteredAt.unique (h : EnteredAt net ψ i e) (h' : EnteredAt net ψ i e')
    (hreach : net.Reachable e) : e = e' :=
  (h.dominates e' h'.mem h'.eq_some).antisymm (h'.dominates e h.mem h.eq_some) hreach

namespace Covered

variable (h : Covered budget net ψ intervals entry g)

include h

/-- A covering interval is entered at its entry. -/
theorem enteredAt (hc : net.Closed) (hi : i ∈ intervals) : EnteredAt net ψ i (entry i) where
  mem := (h.entry_mem i hi).1
  eq_some := (h.entry_mem i hi).2
  target := fun a ha b hedge hbi j haj hne =>
    h.eq_entry (hc.succ_mem ha hedge) hbi (hc.mem_preds ha hedge) haj hne
  dominates := by
    intro n hn hni
    refine Net.dominates_of_region (R := fun b => b ∈ net.nodes ∧ ψ b = some i) ?_ ?_ ⟨hn, hni⟩
    · rintro b ⟨hb, hbi⟩ ⟨_, hnil⟩
      by_contra hne
      exact (h.entry_only b hb i hbi hne).1 hnil
    · rintro a b ha hedge ⟨hb, hbi⟩ hne
      have hmem := ha.mem hc
      refine ⟨hmem, ?_⟩
      have hpreds := (h.entry_only b hb i hbi hne).2 a (hc.mem_preds hmem hedge)
      refine hpreds.resolve_right fun hnone => ?_
      have hsome := (h.isSome_iff a hmem).mpr ha
      rw [hnone] at hsome
      exact Bool.false_ne_true hsome

/-- All covering intervals together hold what the reachable blocks hold. -/
theorem insts_all : (intervals.flatMap (g.insts .interval)).Perm
    ((net.nodes.filter fun b => (ψ b).isSome).flatMap (g.insts .block)) := by
  have hsome : (net.nodes.filter fun b => ∃ i ∈ intervals, ψ b = some i) =
      net.nodes.filter fun b => (ψ b).isSome := by
    refine List.filter_congr fun b hb => ?_
    rw [Bool.eq_iff_iff, decide_eq_true_iff, Option.isSome_iff_exists]
    constructor
    · rintro ⟨i, _, hi⟩
      exact ⟨i, hi⟩
    · rintro ⟨i, hi⟩
      exact ⟨i, h.mem b hb i hi, hi⟩
  rw [← hsome]
  exact (List.Perm.flatMap_left _ h.insts).trans
    (flatMap_classes_perm (g.insts .block) ψ net.nodes h.nodup)

theorem partitions (hc : net.Closed) : Partitions budget net ψ intervals g where
  nodup := h.nodup
  reached := by
    intro b hb hreach
    obtain ⟨i, hi⟩ := Option.isSome_iff_exists.mp ((h.isSome_iff b hb).mpr hreach)
    exact ⟨i, h.mem b hb i hi, hi⟩
  unreached := by
    intro b hb hnot
    exact Option.not_isSome_iff_eq_none.mp fun hsome => hnot ((h.isSome_iff b hb).mp hsome)
  narrow := fun i hi => (h.fits i hi).1
  regs := h.regs
  insts := h.insts
  insts_all := h.insts_all
  entered := by
    intro i hi
    have hentered := h.enteredAt hc hi
    refine ⟨entry i, hentered, fun e he => ?_⟩
    have hreach : net.Reachable (entry i) := by
      refine (h.isSome_iff _ hentered.mem).mp ?_
      rw [hentered.eq_some]
      rfl
    exact (hentered.unique he hreach).symm

end Covered

/-! ### Level by level -/

/-- After `k` passes over intervals these intervals cover the blocks, and the intervals
that blocks climb through below are not among them. -/
structure Climbed (budget : Nat) (nodes : List BlockId) (k : Nat) (intervals : List IntervalId)
    (g : FlowGraph) : Prop where
  closed : (g.net .block nodes).Closed
  covered : ∃ entry, Covered budget (g.net .block nodes) (g.climb k) intervals entry g
  below : ∀ b ∈ nodes, ∀ m < k, ∀ i, g.climb m b = some i →
    i ∉ intervals ∧ i < g.intervals.size

/-- After the first pass no interval is below. -/
theorem Regrouped.climbed {base : Nat} {opener : IntervalId → BlockId}
    (h : Regrouped .block base budget (g.net .block nodes) intervals opener g) :
    Climbed budget nodes 0 intervals g where
  closed := h.closed
  covered := ⟨opener, h.covered⟩
  below := fun _ _ m hm => absurd hm (Nat.not_lt_zero m)

/-- What was climbed through below the given intervals stays. -/
theorem Climbed.climb_eq (h : Climbed budget nodes k intervals g)
    (hkept : Kept g.intervals.size intervals g g') {b : BlockId} (hb : b ∈ nodes) {m : Nat}
    (hm : m ≤ k) : g'.climb m b = g.climb m b := by
  induction m with
  | zero => exact congrFun (FlowGraph.see_block_congr hkept.blocks) b
  | succ m ih =>
    rw [FlowGraph.climb, FlowGraph.climb, ih (Nat.le_of_succ_le hm)]
    cases hi : g.climb m b with
    | none => rfl
    | some i =>
      -- Only the intervals that are grouped change owners.
      obtain ⟨hnot, hlt⟩ := h.below b hb m hm i hi
      exact hkept.owner i hlt hnot

/-- A pass over intervals of some level makes those of the next. -/
theorem Climbed.coarsen (h : Climbed budget nodes k intervals w.graph)
    (hrun : Pass.coarsen budget scope intervals w = .ok coarser w') :
    Climbed budget nodes (k + 1) coarser w'.graph := by
  obtain ⟨entry, hcov⟩ := h.covered
  obtain ⟨hkept, opener, hend⟩ := coarsen_eq_ok hcov.exists_interval hcov.nodup
    (hcov.closed h.closed) (fun i hi => hcov.loopless hi) hrun
  have hnet : w'.graph.net .block nodes = w.graph.net .block nodes := by
    rw [FlowGraph.net, FlowGraph.net, FlowGraph.preds, FlowGraph.succs,
      FlowGraph.see_block_congr hkept.blocks, FlowGraph.see_block_congr hkept.blocks]
    rfl
  have hnext : ∀ b ∈ nodes, w'.graph.climb (k + 1) b =
      (w.graph.climb k b).bind (w'.graph.owner .interval) := by
    intro b hb
    rw [FlowGraph.climb, h.climb_eq hkept hb (Nat.le_refl k)]
  refine ⟨hnet ▸ h.closed, ⟨fun j => entry (opener j), ?_⟩, ?_⟩
  · rw [hnet]
    exact (hcov.coarsen hend h.closed hkept).congr h.closed hnext
  · intro b hb m hm i hi
    rw [h.climb_eq hkept hb (Nat.le_of_lt_succ hm)] at hi
    -- The interval was there before the pass, so it is none of the new ones.
    have hlt : i < w.graph.intervals.size := by
      rcases Nat.lt_succ_iff_lt_or_eq.mp hm with hm | rfl
      · exact (h.below b hb m hm i hi).2
      · exact hcov.exists_interval i (hcov.mem b hb i hi)
    refine ⟨fun hmem => ?_, Nat.lt_of_lt_of_le hlt hkept.size_le⟩
    exact Nat.not_le.mpr hlt (hend.range i hmem).1

/-- The passes end with intervals that cover the blocks. -/
theorem Climbed.converged (h : Climbed budget nodes k intervals w.graph)
    (hrun : (coarsenToFixpoint budget scope watch k intervals w).2 = .ok fp w') :
    Climbed budget nodes fp.iterations fp.intervals w'.graph := by
  fun_induction coarsenToFixpoint budget scope watch k intervals w with
  | case1 k intervals w fault w₁ hpass => injection hrun
  | case2 k intervals w coarser w₁ hpass round w₂ objection hwatch => injection hrun
  | case3 k intervals w coarser w₁ hpass round w₂ hwatch hless rounds result hrest ih =>
    have hnext : Climbed budget nodes (k + 1) coarser w₁.graph := h.coarsen hpass
    refine ih hnext ?_
    rw [hrest]
    exact hrun
  | case4 k intervals w coarser w₁ hpass round w₂ hwatch hless =>
    injection hrun with hfp hw
    subst hfp hw
    have hnext : Climbed budget nodes (k + 1) coarser w₁.graph := h.coarsen hpass
    exact hnext

/-- If the blocks of a graph are carved, grouped and coarsened, whatever text it was read
from, the final intervals partition the reachable blocks. -/
theorem analysis_partitions (p : BlockGrouper) (scope : UnionScope)
    (watch : Round → Option IntervalError) (dot : Dot.Graph) (state state₁ : LoggedGraph)
    (blocks : List BlockId) (ig : IntervalGraph) (fp : Fixpoint)
    (hcarve : carve dot state = (.ok blocks, state₁))
    (hgroup : (p.run blocks state₁).result = .ok ig)
    (hconverge : (converge p.budget scope watch ig.intervals
      (p.run blocks state₁).state).2.result = .ok fp) :
    let g := (converge p.budget scope watch ig.intervals (p.run blocks state₁).state).2.state.graph
    Partitions p.budget (g.net .block ig.blocks) (g.climb fp.iterations) fp.intervals g := by
  intro g
  obtain ⟨_, _, _, _, _, _, opener, hend⟩ := run_eq_ok (carve_nodup hcarve) hgroup
  obtain ⟨w, hok, hgraph⟩ := ofResult_result_eq_ok hconverge
  -- No pass over intervals has run at the start, and as many as counted at the end.
  have hfinal : Climbed p.budget ig.blocks fp.iterations fp.intervals w.graph :=
    Climbed.converged (w := (p.run blocks state₁).state.workspace {}) hend.climbed hok
  have hg : g = w.graph := hgraph
  rw [hg]
  obtain ⟨entry, hcov⟩ := hfinal.covered
  exact hcov.partitions hfinal.closed

/-- Two of the three intervals of the first pass become one. -/
theorem partitions_loops :
    Dot.Graph.parse "digraph \x7b
      a [label=\"\x7b<entry>MOV R1, R2 ;\\lMOV R3, R4 ;\x7d\"]
      b [label=\"\x7b<entry>MOV R4, R3 ;\x7d\"]
      c [label=\"\x7b<entry>EXIT ;\x7d\"]
      a:entry -> b:entry
      b:entry -> b:entry
      c:entry -> c:entry \x7d" = .ok loops ∧
    carve loops {} = (.ok [0, 1, 2], carvedLoops) ∧
    (BlockGrouper.run ⟨4, {}⟩ [0, 1, 2] carvedLoops).result = .ok ⟨[0, 1, 2, 3], [0, 1, 2]⟩ ∧
    let state := (BlockGrouper.run ⟨4, {}⟩ [0, 1, 2] carvedLoops).state
    let outcome := (converge 4 .ancestors (fun _ => none) [0, 1, 2] state).2
    outcome.result = .ok ⟨[5, 6], 2⟩ ∧
    Partitions 4 (outcome.state.graph.net .block [0, 1, 2, 3]) (outcome.state.graph.climb 2) [5, 6]
      outcome.state.graph := by
  have hconverge : (converge 4 .ancestors (fun _ => none) [0, 1, 2]
      (BlockGrouper.run ⟨4, {}⟩ [0, 1, 2] carvedLoops).state).2.result = .ok ⟨[5, 6], 2⟩ := by
    decide +kernel
  refine ⟨by decide +kernel, carve_loops, run_carvedLoops, hconverge, ?_⟩
  exact analysis_partitions ⟨4, {}⟩ .ancestors (fun _ => none) loops {} carvedLoops [0, 1, 2] _ _
    carve_loops run_carvedLoops hconverge

end KernelIntervals
