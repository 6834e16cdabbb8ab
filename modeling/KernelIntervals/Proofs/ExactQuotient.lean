/-
The intervals of a run as a quotient of what they group.

* `FlowGraph.IsSumOf` — an interval holds what its members hold, and the edges between its
  members and those of other intervals,
* `IsQuotient` — so does each of some intervals, and their edges are the same at both ends,
* `Filled.quotient` — intervals that were filled in form a quotient,
* `intervals_are_quotient` — so do those that a run of either pass returns.

Design notes: the predecessors of an interval and the successors of another are gathered
from different members, one interval after the other. That they agree rests on the edges
of the members, which are noted at both ends after all splits.
-/
import KernelIntervals.Proofs.Reachability

namespace KernelIntervals

variable {l : Level} {base budget : Nat} {w w' : Workspace} {i j : IntervalId} {n : Nat}
  {opener : IntervalId → Nat} {g : FlowGraph} {nodes : List Nat} {net : Net}
  {intervals coarser : List IntervalId} {p : BlockGrouper} {q : IntervalGrouper}
  {blocks : List BlockId} {state : LoggedGraph} {ig : IntervalGraph}

namespace FlowGraph

/-- The register vector of an interval. -/
def vector (g : FlowGraph) (i : IntervalId) : RegVector :=
  ((g.interval? i).map (·.vector)).getD .empty

/-- The interval `i` holds what those of `nodes` hold that are its members: the registers,
in a set and in a vector, the instructions in the order of the nodes, and once each the
other intervals that edges of its members lead to or come from. -/
structure IsSumOf (g : FlowGraph) (l : Level) (nodes : List Nat) (i : IntervalId) : Prop where
  regs : ∀ r, r ∈ g.regs .interval i ↔ ∃ n ∈ nodes, g.owner l n = some i ∧ r ∈ g.regs l n
  vector : ∀ k, (g.vector i).bits.getLsbD k = true ↔ ∃ r ∈ g.regs .interval i, r.num = k
  insts : g.insts .interval i =
    (nodes.filter fun n => g.owner l n = some i).flatMap (g.insts l)
  nodup_preds : (g.preds .interval i).Nodup
  nodup_succs : (g.succs .interval i).Nodup
  preds : ∀ j, j ∈ g.preds .interval i ↔
    j ≠ i ∧ ∃ n ∈ nodes, g.owner l n = some i ∧ ∃ p ∈ g.preds l n, g.owner l p = some j
  succs : ∀ j, j ∈ g.succs .interval i ↔
    j ≠ i ∧ ∃ n ∈ nodes, g.owner l n = some i ∧ ∃ s ∈ g.succs l n, g.owner l s = some j

end FlowGraph

/-- Each of the intervals is the sum of its members among `nodes`, has fewer registers than
the budget, and is next to listed intervals only, which have the edge at their end too. -/
structure IsQuotient (l : Level) (budget : Nat) (nodes : List Nat) (intervals : List IntervalId)
    (g : FlowGraph) : Prop where
  sum : ∀ i ∈ intervals, g.IsSumOf l nodes i
  narrow : ∀ i ∈ intervals, (g.regs .interval i).size < budget
  listed : ∀ i ∈ intervals, ∀ j, j ∈ g.preds .interval i ∨ j ∈ g.succs .interval i →
    j ∈ intervals
  edge_iff : ∀ i ∈ intervals, ∀ j ∈ intervals,
    j ∈ g.succs .interval i ↔ i ∈ g.preds .interval j

/-! ### Intervals that were filled in -/

theorem getLsbD_of_ofSet {regs : RegSet} {v : RegVector} (h : RegVector.ofSet regs = .ok v)
    (k : Nat) : v.bits.getLsbD k = true ↔ ∃ r ∈ regs, r.num = k := by
  constructor
  · intro hk
    -- A bit that is set is one of the vector, so it belongs to a register.
    have hlt : k < UInt32.size := Nat.lt_trans (BitVec.lt_of_getLsbD hk) (by decide)
    exact ⟨⟨k, hlt⟩, (RegVector.contains_of_ofSet h ⟨k, hlt⟩).mp hk, rfl⟩
  · rintro ⟨r, hr, rfl⟩
    exact (RegVector.contains_of_ofSet h r).mpr hr

theorem nodup_foldl_addNew {found ids : List Nat} (h : found.Nodup) :
    (ids.foldl addNew found).Nodup := by
  induction ids generalizing found with
  | nil => exact h
  | cons id ids ih => exact ih (nodup_addNew h)

namespace Filled

variable (h : Filled l w.opened w w')

include h

theorem ofSet_vector (hi : i ∈ w.opened) (hlt : i < w.graph.intervals.size) :
    RegVector.ofSet (w'.graph.regs .interval i) = .ok (w'.graph.vector i) := by
  obtain ⟨v, hv⟩ : ∃ v, w.graph.interval? i = some v := Arena.exists_get? hlt
  obtain ⟨vector, hvector, hfilled⟩ := h.filled i hi
  rw [hv] at hfilled
  rw [FlowGraph.regs, FlowGraph.see_of_interval? hfilled, FlowGraph.vector, hfilled]
  exact hvector

/-- The new intervals have no edges before they are filled in, so that each edge is noted
once. -/
theorem nodup_edges (hu : Underway l base none opener w) (hi : i ∈ w.opened) :
    (w'.graph.preds .interval i).Nodup ∧ (w'.graph.succs .interval i).Nodup := by
  have hlt := (hu.opened_range i hi).2
  obtain ⟨v, vector, hv, hpreds⟩ := h.see_of_mem Node.preds [] hi hlt
  obtain ⟨v', vector', hv', hsuccs⟩ := h.see_of_mem Node.succs [] hi hlt
  have hnopreds : v.preds = [] :=
    (FlowGraph.see_of_interval? hv Node.preds []).symm.trans (hu.blank i hi).1
  have hnosuccs : v'.succs = [] :=
    (FlowGraph.see_of_interval? hv' Node.succs []).symm.trans (hu.blank i hi).2
  rw [FlowGraph.preds, FlowGraph.succs, hpreds, hsuccs]
  refine ⟨nodup_foldl_addNew ?_, nodup_foldl_addNew ?_⟩
  · rw [hnopreds]
    exact List.nodup_nil
  · rw [hnosuccs]
    exact List.nodup_nil

/-- The intervals of a pass that has come to its end form a quotient, once they are
filled in. -/
theorem quotient (hu : Underway l base none opener w) (hs : Seeded l w)
    (hwork : w.worklist = []) (hfits : ∀ i ∈ w.opened, Fits budget (w.summaryOf l i).regs) :
    IsQuotient l budget w.members w.opened w'.graph := by
  have hend := hu.regrouped hs hwork hfits h
  have hclosed := hend.classes.closed hend.closed
  have hnode : ∀ n ∈ w.members, w'.graph.preds l n = (w.net l).preds n ∧
      w'.graph.succs l n = (w.net l).succs n := by
    intro n hn
    have hne : l = .interval → n ∉ w.opened := fun hl hmem => hu.ne_of_opened hl hn hmem rfl
    exact ⟨h.see_node hne, h.see_node hne⟩
  refine ⟨fun i hi => ?_, fun i hi => (hend.fits i hi).1, ?_, ?_⟩
  · obtain ⟨hpreds, hsuccs⟩ := h.nodup_edges hu hi
    refine ⟨hend.regs i hi, getLsbD_of_ofSet (h.ofSet_vector hi (hu.opened_range i hi).2),
      hend.insts i hi, hpreds, hsuccs, fun j => ?_, fun j => ?_⟩
    · rw [hend.preds i hi j]
      constructor
      · rintro ⟨n, hn, hown, hne, hedge⟩
        exact ⟨hne, n, hn, hown, (hnode n hn).1 ▸ hedge⟩
      · rintro ⟨hne, n, hn, hown, hedge⟩
        exact ⟨n, hn, hown, hne, (hnode n hn).1 ▸ hedge⟩
    · rw [hend.succs i hi j]
      constructor
      · rintro ⟨n, hn, hown, hne, hedge⟩
        exact ⟨hne, n, hn, hown, (hnode n hn).2 ▸ hedge⟩
      · rintro ⟨hne, n, hn, hown, hedge⟩
        exact ⟨n, hn, hown, hne, (hnode n hn).2 ▸ hedge⟩
  · rintro i hi j (hj | hj)
    · exact hclosed.pred_mem hi hj
    · exact hclosed.succ_mem hi hj
  · intro i hi j hj
    exact ⟨fun hedge => hclosed.mem_preds hi hedge, fun hedge => hclosed.mem_succs hj hedge⟩

end Filled

/-! ### Runs -/

/-- The intervals of a first pass form a quotient of the blocks. -/
theorem BlockGrouper.quotient (hnodup : blocks.Nodup)
    (hrun : (p.run blocks state).result = .ok ig) :
    IsQuotient .block p.budget ig.blocks ig.intervals (p.run blocks state).state.graph := by
  obtain ⟨_, hv⟩ := verify_of_run_eq_ok hrun
  obtain ⟨w, hok, hgraph⟩ := ofResult_result_eq_ok hrun
  have hgraph : (p.run blocks state).state.graph = w.graph := hgraph
  obtain ⟨w₁, w₂, hpass⟩ :=
    firstPass_exists (w := state.workspace p.scratch) p.budget hv hnodup
  obtain ⟨hblocks, hintervals, hfits, w₃, hf, hgraph₃⟩ := hpass.filled hok
  obtain ⟨⟨opener, hu⟩, hs⟩ := hpass.sound_end
  rw [hgraph, hgraph₃, hblocks, hintervals]
  exact hf.quotient hu hs hpass.idle hfits

/-- The intervals of a second pass form a quotient of those that it was given. -/
theorem IntervalGrouper.quotient (hv : Valid state.graph intervals)
    (hrun : (q.run intervals state).result = .ok coarser) :
    IsQuotient .interval q.budget intervals coarser (q.run intervals state).state.graph := by
  obtain ⟨w, hok, hgraph⟩ := ofResult_result_eq_ok hrun
  have hgraph : (q.run intervals state).state.graph = w.graph := hgraph
  have hv : Valid (state.workspace q.scratch).graph intervals := hv
  obtain ⟨w₁, limits, w₂, hpass⟩ := hv.secondPass_exists q.budget q.scope
  obtain ⟨rfl, hfits, w₃, hf, hgraph₃⟩ := hpass.filled hok
  obtain ⟨⟨⟨opener, hu⟩, hs⟩, _⟩ := hpass.under_end
  have hend := hf.quotient hu hs hpass.idle hfits
  rw [hgraph, hgraph₃]
  rwa [hpass.members.2] at hend

/-- The intervals that a first pass returns form a quotient of the blocks that it returns,
and those that a pass over obtained intervals returns form a quotient of these. -/
theorem intervals_are_quotient :
    (∀ (p : BlockGrouper) (blocks : List BlockId) (state : LoggedGraph) (ig : IntervalGraph),
      blocks.Nodup → (p.run blocks state).result = .ok ig →
        IsQuotient .block p.budget ig.blocks ig.intervals (p.run blocks state).state.graph) ∧
    ∀ (intervals : List IntervalId) (state : LoggedGraph), Obtained intervals state →
      ∀ (q : IntervalGrouper) (coarser : List IntervalId),
        (q.run intervals state).result = .ok coarser →
          IsQuotient .interval q.budget intervals coarser (q.run intervals state).state.graph :=
  ⟨fun _ _ _ _ hnodup hrun => BlockGrouper.quotient hnodup hrun,
    fun _ _ hobtained _ _ hrun => IntervalGrouper.quotient hobtained.valid hrun⟩

/-- The first pass makes three intervals of four blocks, and a second pass makes two of
these. -/
theorem quotient_carvedLoops :
    let first := BlockGrouper.run ⟨4, {}⟩ [0, 1, 2] carvedLoops
    let second := IntervalGrouper.run ⟨4, .ancestors, {}⟩ [0, 1, 2] first.state
    [0, 1, 2].Nodup ∧ first.result = .ok ⟨[0, 1, 2, 3], [0, 1, 2]⟩ ∧
    IsQuotient .block 4 [0, 1, 2, 3] [0, 1, 2] first.state.graph ∧
    Obtained [0, 1, 2] first.state ∧ second.result = .ok [3, 4] ∧
    IsQuotient .interval 4 [0, 1, 2] [3, 4] second.state.graph := by
  intro first second
  have hobtained : Obtained [0, 1, 2] first.state := .first (by decide) run_carvedLoops
  have hok : second.result = .ok [3, 4] := by decide +kernel
  exact ⟨by decide, run_carvedLoops,
    intervals_are_quotient.1 ⟨4, {}⟩ [0, 1, 2] carvedLoops _ (by decide) run_carvedLoops,
    hobtained, hok, intervals_are_quotient.2 [0, 1, 2] first.state hobtained _ _ hok⟩

end KernelIntervals
