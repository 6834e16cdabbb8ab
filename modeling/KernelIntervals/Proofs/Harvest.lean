/-
What a first pass returns, in terms of what could join.

* `Harvest` — the intervals that a run over some blocks has returned, and what each of them has
  gathered,
* `BlockGrouper.run_harvest` — every run that returns intervals has such a result,
* `Harvest.not_joinable_tail` — a tail can join nothing.

Design notes: what is shown of the end of the loop is carried over to the graph that a run leaves,
where intervals are filled in and blocks are the same.
-/
import KernelIntervals.Proofs.Gathered
import KernelIntervals.Proofs.GreedyCut
import KernelIntervals.Proofs.SingleEntry

namespace KernelIntervals

variable {budget : Nat} {g₀ g : FlowGraph} {blocks ns : List BlockId} {t : BlockId}
  {i : IntervalId} {opener : IntervalId → BlockId} {ig : IntervalGraph}

/-- A first pass with this budget over the `blocks` of `g₀` has returned `ig` in `g`. -/
structure Harvest (budget : Nat) (g₀ : FlowGraph) (blocks : List BlockId) (g : FlowGraph)
    (ig : IntervalGraph) (opener : IntervalId → BlockId) : Prop where
  listed : blocks <+: ig.blocks
  exact : ∀ n ∈ ig.blocks, g.regs .block n = instRegs (g.insts .block n)
  tail : ∀ t ∈ ig.blocks, t ∉ blocks → ∃ h, g.preds .block t = [h] ∧ Crowded budget g h t
  regrouped : Regrouped .block g₀.intervals.size budget (g.net .block ig.blocks) ig.intervals
    opener g
  gathered : ∀ k ∈ ig.intervals, Gathered budget g₀ blocks g ig.blocks (opener k) k

/-- A run that returns intervals has gathered their members. -/
theorem BlockGrouper.run_harvest {p : BlockGrouper} {state : LoggedGraph} (hnodup : blocks.Nodup)
    (hexact : Exact state.graph blocks) (hbudget : 0 < p.budget)
    (hrun : (p.run blocks state).result = .ok ig) :
    ∃ opener, Harvest p.budget state.graph blocks (p.run blocks state).state.graph ig opener := by
  obtain ⟨_, hv⟩ := verify_of_run_eq_ok hrun
  obtain ⟨w₁, w₂, hpass, hblocks, hintervals, hsame, opener, hend⟩ := run_eq_ok hnodup hrun
  have ht := hpass.tallied hbudget (FlowGraph.verify_eq_ok hv).1 hexact
  obtain ⟨htracked, opener', hu, hgathered⟩ := hpass.gathered hbudget hv hnodup hexact
  -- Blocks are as they were at the end of the loop.
  generalize (p.run blocks state).state.graph = g at hsame hend ⊢
  have hinsts : g.insts .block = w₂.graph.insts .block := FlowGraph.see_block_congr hsame
  have hregs : g.regs .block = w₂.graph.regs .block := FlowGraph.see_block_congr hsame
  have hpreds : g.preds .block = w₂.graph.preds .block := FlowGraph.see_block_congr hsame
  have howner : g.owner .block = w₂.graph.owner .block := FlowGraph.see_block_congr hsame
  have hgrouped : Grouped (g.net .block ig.blocks) (g.owner .block) opener' ig.intervals := by
    rw [FlowGraph.net_block_congr hsame, hblocks, howner, hintervals]
    exact hu.grouped
  refine ⟨opener, hblocks ▸ htracked.listed, ?_, fun t ht hnot => ?_, hend, fun k hk => ?_⟩
  · rw [hblocks, hregs, hinsts]
    exact ht.exact
  · obtain ⟨h, hp, _, _, hcrowded⟩ := htracked.tail t (hblocks ▸ ht) hnot
    rw [Crowded, ← hinsts, ← hregs] at hcrowded
    exact ⟨h, hpreds ▸ hp, hcrowded⟩
  · rw [hblocks, ← hgrouped.opener_unique hend.grouped hend.closed hk]
    exact (hgathered k (hintervals ▸ hk)).congr howner hpreds hregs

/-- A tail can join nothing: together with its head it has too many registers. -/
theorem Harvest.not_joinable_tail (h : Harvest budget g₀ blocks g ig opener) (ht : t ∈ ig.blocks)
    (hnot : t ∉ blocks) : ¬ Joinable budget g ns t := by
  intro hjoin
  obtain ⟨head, hpreds, x, hx, hsize⟩ := h.tail t ht hnot
  have hhead : head ∈ ns := hjoin.inside head (hpreds ▸ List.mem_singleton_self head)
  refine absurd hjoin.room (Nat.not_lt.mpr (Nat.le_trans hsize (RegSet.size_le fun r hr => ?_)))
  refine FlowGraph.mem_blockRegs.mpr ((RegSet.mem_union.mp hr).elim ?_ ?_)
  · exact fun hr => ⟨head, List.mem_cons_of_mem t hhead, hr⟩
  · intro hr
    refine ⟨t, List.mem_cons_self, ?_⟩
    rw [h.exact t ht]
    exact instRegs_subset (fun y hy => List.mem_singleton.mp hy ▸ List.mem_of_head? hx) r hr

/-- Blocks of an interval have no registers that it has not. -/
theorem Harvest.size_le (h : Harvest budget g₀ blocks g ig opener) (hi : i ∈ ig.intervals)
    (hns : ∀ n ∈ ns, n ∈ ig.blocks ∧ g.owner .block n = some i) :
    (g.blockRegs (t :: ns)).size ≤ (g.regs .interval i ∪ g.regs .block t).size := by
  refine RegSet.size_le fun r hr => RegSet.mem_union.mpr ?_
  obtain ⟨n, hn, hnr⟩ := FlowGraph.mem_blockRegs.mp hr
  rcases List.mem_cons.mp hn with rfl | hn
  · exact .inr hnr
  · obtain ⟨hmem, hown⟩ := hns n hn
    exact .inl ((h.regrouped.regs i hi r).mpr ⟨n, hmem, hown, hnr⟩)

end KernelIntervals
