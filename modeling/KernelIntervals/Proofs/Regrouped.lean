/-
What a pass has come to when it ends.

* `Regrouped` — the nodes of a net are grouped into intervals with one entry each,
  and every interval holds what its members hold,
* `Underway.regrouped` — a pass that is under way ends so, if nothing waits and the
  new intervals are filled in.

Design notes: filling in intervals changes the edges of intervals, but not those of
the nodes that were grouped, so the statement is about the net of these nodes.
-/
import KernelIntervals.Proofs.Completion
import KernelIntervals.Proofs.Underway

namespace KernelIntervals

/-- The nodes of a net are grouped into intervals. -/
structure Regrouped (l : Level) (base budget : Nat) (net : Net) (intervals : List IntervalId)
    (opener : IntervalId → Nat) (g : FlowGraph) : Prop where
  nodup : net.nodes.Nodup
  closed : net.Closed
  grouped : Grouped net (g.owner l) opener intervals
  owner_isSome_iff : ∀ n ∈ net.nodes, (g.owner l n).isSome ↔ net.Reachable n
  range : ∀ i ∈ intervals, base ≤ i ∧ i < g.intervals.size
  fits : ∀ i ∈ intervals, Fits budget (g.regs .interval i)
  insts : ∀ i ∈ intervals, g.insts .interval i =
    (net.nodes.filter fun n => g.owner l n = some i).flatMap (g.insts l)
  regs : ∀ i ∈ intervals, ∀ r, r ∈ g.regs .interval i ↔
    ∃ n ∈ net.nodes, g.owner l n = some i ∧ r ∈ g.regs l n
  preds : ∀ i ∈ intervals, ∀ j, j ∈ g.preds .interval i ↔
    ∃ n ∈ net.nodes, g.owner l n = some i ∧ j ≠ i ∧ ∃ p ∈ net.preds n, g.owner l p = some j
  succs : ∀ i ∈ intervals, ∀ j, j ∈ g.succs .interval i ↔
    ∃ n ∈ net.nodes, g.owner l n = some i ∧ j ≠ i ∧ ∃ s ∈ net.succs n, g.owner l s = some j

variable {l : Level} {base budget : Nat} {current : Option IntervalId}
  {opener : IntervalId → Nat} {w w' : Workspace} {n : Nat} {i : IntervalId} {is : List IntervalId}

/-! ### What is seen of intervals that were filled in -/

namespace Filled

variable {α : Type} {π : Node → α} {default : α} (h : Filled l is w w')

include h

theorem see_block : w'.graph.see .block π default = w.graph.see .block π default :=
  FlowGraph.see_block_congr h.blocks

theorem see_of_not_mem (hi : i ∉ is) :
    w'.graph.see .interval π default i = w.graph.see .interval π default i := by
  rw [FlowGraph.see, FlowGraph.see, FlowGraph.node?, FlowGraph.node?, h.other i hi]

theorem see_of_mem (π : Node → α) (default : α) (hi : i ∈ is)
    (hlt : i < w.graph.intervals.size) : ∃ v vector,
    w.graph.interval? i = some v ∧
    w'.graph.see .interval π default i = π (v.fill (w.summaryOf l i) vector).toNode := by
  obtain ⟨v, hv⟩ : ∃ v, w.graph.interval? i = some v := Arena.exists_get? hlt
  obtain ⟨vector, _, hfilled⟩ := h.filled i hi
  refine ⟨v, vector, hv, ?_⟩
  rw [FlowGraph.see, FlowGraph.node?, hfilled, hv]
  rfl

theorem owner_eq (l' : Level) : w'.graph.owner l' = w.graph.owner l' := by
  cases l' with
  | block => exact h.see_block
  | interval =>
    funext i
    by_cases hi : i ∈ is
    · obtain ⟨vector, _, hfilled⟩ := h.filled i hi
      rw [FlowGraph.owner, FlowGraph.owner, FlowGraph.see, FlowGraph.see, FlowGraph.node?,
        FlowGraph.node?, hfilled]
      cases w.graph.interval? i with
      | none => rfl
      | some v => rfl
    · exact h.see_of_not_mem hi

/-- The nodes that were grouped are as before. -/
theorem see_node (hne : l = .interval → n ∉ is) :
    w'.graph.see l π default n = w.graph.see l π default n := by
  cases l with
  | block => exact congrFun h.see_block n
  | interval => exact h.see_of_not_mem (hne rfl)

end Filled

theorem mem_foldl_addNew {found ids : List Nat} {x : Nat} :
    x ∈ ids.foldl addNew found ↔ x ∈ found ∨ x ∈ ids := by
  have hstep : ∀ s y x, x ∈ addNew s y ↔ x ∈ s ∨ x = y := fun _ _ _ => mem_addNew
  rw [mem_foldl_iff hstep]
  simp

/-! ### The end of a pass -/

theorem Underway.ready (h : Underway l base current opener w) : Ready l w.opened w where
  exists_node := h.exists_node
  exists_pred := fun _ hn _ hp => (h.exists_pred hn hp).2
  exists_succ := fun _ hn _ hs => (h.exists_succ hn hs).2
  exists_interval := fun i hi => (h.opened_range i hi).2
  ne := fun hl _ hn _ hi => h.ne_of_opened hl hn hi

/-- A pass that is under way ends well if nothing waits and the new intervals are
filled in. -/
theorem Underway.regrouped (h : Underway l base none opener w) (hs : Seeded l w)
    (hwork : w.worklist = []) (hfits : ∀ i ∈ w.opened, Fits budget (w.summaryOf l i).regs)
    (hf : Filled l w.opened w w') :
    Regrouped l base budget (w.net l) w.opened opener w'.graph := by
  have hnot : ∀ n ∈ w.members, l = .interval → n ∉ w.opened :=
    fun n hn hl hmem => h.ne_of_opened hl hn hmem rfl
  have hregs : ∀ i ∈ w.opened, w'.graph.regs .interval i = (w.summaryOf l i).regs := by
    intro i hi
    obtain ⟨v, vector, _, hsee⟩ := hf.see_of_mem Node.regs ∅ hi (h.opened_range i hi).2
    exact hsee
  refine ⟨h.nodup, h.closed, ?_, ?_, ?_, ?_, ?_, ?_, ?_, ?_⟩
  · rw [hf.owner_eq]
    exact h.grouped
  · intro n hn
    rw [hf.owner_eq]
    exact h.owner_isSome_iff hs hwork hn
  · intro i hi
    rw [hf.size]
    exact h.opened_range i hi
  · intro i hi
    rw [hregs i hi]
    exact hfits i hi
  · intro i hi
    obtain ⟨v, vector, _, hsee⟩ := hf.see_of_mem Node.insts [] hi (h.opened_range i hi).2
    rw [FlowGraph.insts, hsee, hf.owner_eq]
    refine FlowGraph.insts_summaryOf.trans (List.flatMap_congr fun n hn => ?_)
    exact (hf.see_node (hnot n (List.mem_of_mem_filter hn))).symm
  · intro i hi r
    rw [hregs i hi, hf.owner_eq]
    refine FlowGraph.mem_regs_summaryOf.trans (exists_congr fun n => and_congr_right fun hn => ?_)
    rw [FlowGraph.regs, FlowGraph.regs, hf.see_node (hnot n hn)]
  · intro i hi j
    obtain ⟨v, vector, hv, hsee⟩ := hf.see_of_mem Node.preds [] hi (h.opened_range i hi).2
    have hblank : v.preds = [] :=
      (FlowGraph.see_of_interval? hv Node.preds []).symm.trans (h.blank i hi).1
    rw [FlowGraph.preds, hsee, hf.owner_eq]
    show j ∈ (w.summaryOf l i).preds.foldl addNew v.preds ↔ _
    rw [hblank, mem_foldl_addNew, or_iff_right List.not_mem_nil]
    exact FlowGraph.mem_preds_summaryOf
  · intro i hi j
    obtain ⟨v, vector, hv, hsee⟩ := hf.see_of_mem Node.succs [] hi (h.opened_range i hi).2
    have hblank : v.succs = [] :=
      (FlowGraph.see_of_interval? hv Node.succs []).symm.trans (h.blank i hi).2
    rw [FlowGraph.succs, hsee, hf.owner_eq]
    show j ∈ (w.summaryOf l i).succs.foldl addNew v.succs ↔ _
    rw [hblank, mem_foldl_addNew, or_iff_right List.not_mem_nil]
    exact FlowGraph.mem_succs_summaryOf

/-- A reachable node has an owner at the end. -/
theorem Regrouped.exists_owner {budget : Nat} {net : Net} {intervals : List IntervalId}
    {g : FlowGraph} (h : Regrouped l base budget net intervals opener g)
    (hreach : net.Reachable n) : ∃ i ∈ intervals, g.owner l n = some i := by
  have hn := hreach.mem h.closed
  obtain ⟨i, hi⟩ := Option.isSome_iff_exists.mp ((h.owner_isSome_iff n hn).mpr hreach)
  exact ⟨i, h.grouped.mem_opened hn hi, hi⟩

end KernelIntervals
