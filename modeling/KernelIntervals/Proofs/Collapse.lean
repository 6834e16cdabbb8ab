/-
Which blocks collapse into one interval.

* `FlowGraph.mentioned` — the registers of the instructions of some blocks,
* `Underway.rep_eq_self` — when a pass starts, every node stands for itself,
* `BlockGrouper.sameCollapse`, `Valid.sameCollapse` — a pass of either level returns
  intervals whose graph can be reduced to a single node iff that of their members can,
* `collapses_iff_reducible` — with room for all registers the passes end with one interval
  iff the graph of the blocks can be reduced to a single node.

Design notes: passes take steps of a reduction, but only some of them, and in their own
order. That they end with a single node if any order does is due to the confluence of the
steps, and to the last pass having left no step to take.
-/
import Mathlib.Data.Finset.Card
import KernelIntervals.Proofs.Contraction
import KernelIntervals.Proofs.Convergence
import KernelIntervals.Proofs.Narrow

namespace KernelIntervals

open Relation

variable {l : Level} {base budget : Nat} {scope : UnionScope} {w w' : Workspace}
  {opener : IntervalId → Nat} {g : FlowGraph} {blocks : List BlockId}
  {intervals coarser : List IntervalId} {p : BlockGrouper} {state : LoggedGraph}
  {ig : IntervalGraph} {s : RegSet} {net : Net} {root : Nat}

/-! ### Nets with a root -/

/-- An entry that reaches all nodes is the root of the graph. -/
theorem Net.Closed.rooted (hc : net.Closed) (hroot : net.IsEntry root)
    (hreach : ∀ n ∈ net.nodes, ReflTransGen net.Edge root n) : net.shape.Rooted root where
  mem := List.mem_toFinset.mpr hroot.1
  entry := by
    rintro a ⟨ha, _, hedge⟩
    have hmem := hc.mem_preds ha hedge
    rw [hroot.2] at hmem
    exact List.not_mem_nil hmem
  reaches := by
    intro n hn
    have hpath : ∀ m, ReflTransGen net.Edge root m →
        m ∈ net.nodes ∧ ReflTransGen net.shape.edge root m := by
      intro m hm
      induction hm with
      | refl => exact ⟨hroot.1, .refl⟩
      | tail _ hedge ih =>
        have hmem := hc.succ_mem ih.1 hedge
        exact ⟨hmem, ih.2.tail ⟨ih.1, hmem, hedge⟩⟩
    exact (hpath n (hreach n (List.mem_toFinset.mp hn))).2

/-- A graph is a single node iff the list of nodes has one member. -/
theorem Net.shape_nodes_eq_singleton_iff (hnodup : net.nodes.Nodup) :
    (∃ n, net.shape.nodes = {n}) ↔ net.nodes.length = 1 := by
  rw [← Finset.card_eq_one, ← List.toFinset_card_of_nodup hnodup]
  rfl

/-! ### One pass -/

/-- When a pass starts, no region has a second node. -/
theorem Underway.rep_eq_self (h : Underway l base none opener w)
    (hbusy : ∀ j ∈ w.opened, w.Busy l none j) {n : Nat} (hn : n ∈ w.members) :
    (w.regions l opener).rep n = n := by
  cases hown : w.graph.owner l n with
  | none => exact Regions.rep_of_free hown
  | some i =>
    have hi : i ∈ w.opened := h.grouped.mem_opened hn hown
    rcases hbusy i hi with hj | ⟨m, hm, hmi⟩
    · injection hj
    · obtain ⟨k, hk, halone⟩ := h.waiting.alone hm
      obtain rfl : k = i := Option.some.inj (hk.symm.trans hmi)
      have hopener : opener k = m :=
        halone _ (h.grouped.opener_mem hi) (h.grouped.owner_opener hi)
      exact (Regions.rep_of_owner hown).trans (hopener.trans (halone n hn hown).symm)

/-- A first pass over reachable blocks. -/
theorem BlockGrouper.sameCollapse (hnodup : blocks.Nodup)
    (hrun : (p.run blocks state).result = .ok ig)
    (hreach : ∀ n ∈ blocks, (state.graph.net .block blocks).Reachable n) :
    SameCollapse (state.graph.net .block blocks).shape
      ((p.run blocks state).state.graph.net .interval ig.intervals).shape := by
  obtain ⟨w₁, w₂, hpass, hblocks, hintervals, hsame, opener, hend⟩ := run_eq_ok hnodup hrun
  obtain ⟨⟨opener₁, hu₁⟩, hs₁⟩ := id hpass.sound
  obtain ⟨⟨opener₂, hu₂, hgrown⟩, _⟩ := hu₁.blockMoves hs₁ hpass.moves
  have hnet : (p.run blocks state).state.graph.net .block ig.blocks = w₂.net .block :=
    hblocks ▸ FlowGraph.net_block_congr hsame w₂.members
  have howner : (p.run blocks state).state.graph.owner .block = w₂.graph.owner .block :=
    FlowGraph.see_block_congr hsame
  have hclasses := hend.classes
  have hgrouped := hend.grouped
  rw [hnet, howner] at hclasses hgrouped
  -- Blocks that come from reachable ones are reachable.
  have hreach₂ : ∀ n ∈ w₂.members, (w₂.net .block).Reachable n := by
    intro n hn
    by_contra hnot
    obtain ⟨hn₀, _⟩ := hpass.descends.unreached n hn hnot
    exact hnot ((hpass.descends.kept n hn₀).2.mpr (hreach n hn₀))
  have hopener : ∀ i ∈ ig.intervals, opener₂ i = opener i := by
    intro i hi
    rw [hintervals] at hi hgrouped
    exact hu₂.grouped.opener_unique hgrouped hu₂.closed hi
  rw [← show w₁.net .block = state.graph.net .block blocks from hpass.net_start]
  exact hgrown.sameCollapse_coarse hu₁.proper
    (fun n hn => hu₁.rep_eq_self (fun _ hj => hpass.busy_start hj) hn) hclasses hreach₂ hopener

/-- A second pass. -/
theorem Valid.sameCollapse (hv : Valid w.graph intervals)
    (hok : Pass.coarsen budget scope intervals w = .ok coarser w') :
    SameCollapse (w.graph.net .interval intervals).shape
      (w'.graph.net .interval coarser).shape := by
  obtain ⟨w₁, limits, w₂, hpass⟩ := hv.secondPass_exists budget scope
  obtain ⟨⟨⟨opener₁, hu₁⟩, hs₁⟩, _⟩ := id hpass.under
  obtain ⟨⟨opener₂, hu₂, hgrown⟩, hs₂⟩ := hu₁.intervalMoves hs₁ hpass.moves
  obtain ⟨rfl, hfits, w₃, hf, hgraph⟩ := hpass.filled hok
  have hclasses := (hu₂.regrouped hs₂ hpass.idle hfits hf).classes
  rw [hf.owner_eq] at hclasses
  have hnet₁ : w₁.net .interval = w.graph.net .interval intervals :=
    (net_of_moves hpass.moves).symm.trans hpass.net_eq
  have hreach : ∀ n ∈ w₂.members, (w₂.net .interval).Reachable n := by
    intro n hn
    rw [hpass.members.2] at hn
    rw [hpass.net_eq]
    exact hv.reachable n hn
  rw [hgraph, ← hnet₁]
  exact hgrown.sameCollapse_coarse hu₁.proper
    (fun n hn => hu₁.rep_eq_self (fun _ hj => hpass.busy_start hj) hn) hclasses hreach
    fun _ _ => rfl

/-! ### All passes -/

/-- With room for all registers, intervals that have no room for each other are normal: the
graph that they form can only be reduced to a single node if it is one. -/
theorem Unfoldable.reducible_iff (hu : Unfoldable budget scope g intervals)
    (hv : Valid g intervals) (hw : Within s g intervals) (hroom : s.size < budget) :
    (g.net .interval intervals).shape.Reducible ↔ intervals.length = 1 := by
  have hnodes : (∃ n, (g.net .interval intervals).shape.nodes = {n}) ↔ intervals.length = 1 :=
    Net.shape_nodes_eq_singleton_iff hv.nodup
  refine Iff.trans (Shape.reducible_iff_of_normal ?_ ?_) hnodes
  · rintro i ⟨hi, _, hedge⟩
    exact (hv.loopless i hi).2 hedge
  · rintro e c hf
    obtain ⟨he, hc, hedge⟩ := hf.edge
    have hpred : ∀ q, q ∈ g.preds .interval c ↔ q = e := by
      intro q
      constructor
      · intro hq
        exact (hf.2 q).mp ⟨hv.closed.pred_mem hc hq, hc, hv.closed.mem_succs hc hq⟩
      · rintro rfl
        exact hv.closed.mem_preds he hedge
    have hfull := hu c hc e hpred
    cases scope with
    | ancestors =>
      have hle : (g.regs .interval e ∪ g.regs .interval c).size ≤ s.size := by
        refine RegSet.size_le fun r hr => ?_
        rcases RegSet.mem_union.mp hr with hr | hr
        · exact hw e he r hr
        · exact hw c hc r hr
      have hfull : budget ≤ (g.regs .interval e ∪ g.regs .interval c).size := hfull
      omega
    | global =>
      have hle : (g.unionRegs intervals).size ≤ s.size := by
        refine RegSet.size_le fun r hr => ?_
        obtain ⟨i, hi, hr⟩ := FlowGraph.mem_unionRegs.mp hr
        exact hw i hi r hr
      have hfull : budget ≤ (g.unionRegs intervals).size := hfull
      omega

/-! ### Both passes -/

/-- The registers that the instructions of some blocks mention. -/
def FlowGraph.mentioned (g : FlowGraph) (blocks : List BlockId) : RegSet :=
  instRegs (blocks.flatMap (g.insts .block))

theorem FlowGraph.mem_mentioned {r : Reg} :
    r ∈ g.mentioned blocks ↔ ∃ n ∈ blocks, ∃ x ∈ g.insts .block n, r ∈ x.regs := by
  rw [mentioned, mem_instRegs]
  constructor
  · rintro ⟨x, hx, hr⟩
    obtain ⟨n, hn, hx⟩ := List.mem_flatMap.mp hx
    exact ⟨n, hn, x, hx, hr⟩
  · rintro ⟨n, hn, x, hx, hr⟩
    exact ⟨x, List.mem_flatMap.mpr ⟨n, hn, hx⟩, hr⟩

/-- With room for all registers, all instructions are narrow. -/
theorem allNarrow_of_mentioned (hrange : ∀ r ∈ g.mentioned blocks, r.num < vectorWidth)
    (hroom : (g.mentioned blocks).size < budget) : AllNarrow budget g blocks := by
  intro n hn _ x hx
  have hmem : ∀ r ∈ x.regs, r ∈ g.mentioned blocks :=
    fun r hr => FlowGraph.mem_mentioned.mpr ⟨n, hn, x, hx, hr⟩
  refine ⟨Nat.lt_of_le_of_lt (RegSet.size_le fun r hr => ?_) hroom, fun r hr => ?_⟩
  · exact hmem r (RegSet.mem_ofList.mp hr)
  · exact hrange r (hmem r hr)

/-- A first pass returns intervals if all reachable instructions are narrow. -/
theorem BlockGrouper.run_ok (hverify : state.graph.verify blocks = .ok ())
    (hnodup : blocks.Nodup) (hexact : Exact state.graph blocks)
    (hnarrow : AllNarrow p.budget state.graph blocks) (hbudget : 1 ≤ p.budget) :
    ∃ ig, (p.run blocks state).result = .ok ig := by
  obtain ⟨w₁, w₂, hpass⟩ :=
    firstPass_exists (w := state.workspace p.scratch) p.budget hverify hnodup
  have ht := hpass.tallied hbudget (FlowGraph.verify_eq_ok hverify).1 hexact
  exact ofResult_isOk_iff.mpr
    (hpass.groupBlocks_ok hverify (Nat.ne_of_gt hbudget) (hpass.fits ht hnarrow))

/-- The intervals of a first pass have only registers that the blocks mention. -/
theorem BlockGrouper.within (hnodup : blocks.Nodup) (hexact : Exact state.graph blocks)
    (hrun : (p.run blocks state).result = .ok ig) :
    Within (state.graph.mentioned blocks) (p.run blocks state).state.graph ig.intervals := by
  obtain ⟨hbudget, hverify⟩ := verify_of_run_eq_ok hrun
  obtain ⟨w₁, w₂, hpass, hblocks, _, hsame, opener, hend⟩ := run_eq_ok hnodup hrun
  have ht := hpass.tallied (Nat.pos_of_ne_zero hbudget) (FlowGraph.verify_eq_ok hverify).1 hexact
  intro i hi r hr
  obtain ⟨m, hm, _, hrm⟩ := (hend.regs i hi r).mp hr
  have hm : m ∈ w₂.members := hblocks ▸ hm
  rw [FlowGraph.regs, FlowGraph.see_block_congr hsame] at hrm
  have hexact₂ : w₂.graph.regs .block m = _ := ht.exact m hm
  rw [show w₂.graph.see .block _ _ m = _ from hexact₂, mem_instRegs] at hrm
  obtain ⟨x, hx, hrx⟩ := hrm
  obtain ⟨n, hn, _, hinsts⟩ := hpass.descends.origin m hm
  obtain ⟨y, hy, hyx⟩ := hinsts x hx
  exact FlowGraph.mem_mentioned.mpr ⟨n, hn, y, hy, hyx ▸ hrx⟩

/-- If an entry reaches all blocks and the budget has room for all registers, a first pass and
coarsening until it no longer helps end with one interval iff the graph of the blocks can be
reduced to a single node by deleting self-edges and merging nodes into their only
predecessors. -/
theorem collapses_iff_reducible (p : BlockGrouper) (scope : UnionScope) (blocks : List BlockId)
    (state : LoggedGraph) (root : BlockId) (hverify : state.graph.verify blocks = .ok ())
    (hnodup : blocks.Nodup) (hexact : Exact state.graph blocks)
    (hroot : (state.graph.net .block blocks).IsEntry root)
    (hreach : ∀ n ∈ blocks, ReflTransGen (state.graph.net .block blocks).Edge root n)
    (hrange : ∀ r ∈ state.graph.mentioned blocks, r.num < vectorWidth)
    (hroom : (state.graph.mentioned blocks).size < p.budget) :
    ∃ ig fp, (p.run blocks state).result = .ok ig ∧
      (converge p.budget scope (fun _ => none) ig.intervals
        (p.run blocks state).state).2.result = .ok fp ∧
      (fp.intervals.length = 1 ↔ (state.graph.net .block blocks).shape.Reducible) := by
  have hbudget : 1 ≤ p.budget := by omega
  have hclosed : (state.graph.net .block blocks).Closed := (FlowGraph.verify_eq_ok hverify).2
  obtain ⟨ig, hrun⟩ := BlockGrouper.run_ok hverify hnodup hexact
    (allNarrow_of_mentioned hrange hroom) hbudget
  obtain ⟨_, _, _, _, _, _, opener, hend⟩ := run_eq_ok hnodup hrun
  obtain ⟨fp, hfp, hconverged⟩ := converge_ends scope hnodup hrun
  refine ⟨ig, fp, hrun, hfp, ?_⟩
  obtain ⟨w', hok, hgraph⟩ := ofResult_result_eq_ok hfp
  have hgraph : (converge p.budget scope (fun _ => none) ig.intervals
    (p.run blocks state).state).2.state.graph = w'.graph := hgraph
  rw [hgraph] at hconverged
  have hrooted := hclosed.rooted hroot hreach
  have hfirst : SameCollapse (state.graph.net .block blocks).shape
      ((p.run blocks state).state.graph.net .interval ig.intervals).shape :=
    BlockGrouper.sameCollapse hnodup hrun fun n hn => ⟨root, hroot, hreach n hn⟩
  -- Every pass keeps what is reducible, and brings in no registers.
  obtain ⟨_, hsame, hwithin⟩ := coarsenToFixpoint_induction
    (P := fun g intervals => Valid g intervals ∧
      SameCollapse (state.graph.net .block blocks).shape (g.net .interval intervals).shape ∧
      Within (state.graph.mentioned blocks) g intervals)
    (by
      rintro intervals coarser w w' ⟨hv, hsame, hwithin⟩ hpass
      exact ⟨(hv.coarsened hpass).valid, hsame.trans (hv.sameCollapse hpass),
        hv.within hpass hwithin⟩)
    hok ⟨hend.valid, hfirst, BlockGrouper.within hnodup hexact hrun⟩
  rw [(hsame ⟨root, hrooted⟩).2]
  exact (hconverged.unfoldable.reducible_iff hconverged.groupable.valid hwithin hroom).symm

/-- Two blocks behind an entry that lead to each other. -/
def crossed : Dot.Graph where
  nodes := [⟨"a", [⟨some "entry", "MOV R1, R2 ;"⟩]⟩, ⟨"b", [⟨some "entry", "MOV R2, R1 ;"⟩]⟩,
    ⟨"c", [⟨some "entry", "EXIT ;"⟩]⟩]
  edges := [⟨"a", some "entry", "b"⟩, ⟨"a", some "entry", "c"⟩, ⟨"b", some "entry", "c"⟩,
    ⟨"c", some "entry", "b"⟩]

def carvedCrossed : LoggedGraph := (carve crossed {}).2

/-- The blocks of the graph stay three intervals, so it cannot be reduced to a single node. -/
theorem not_reducible_carvedCrossed :
    let net := carvedCrossed.graph.net .block [0, 1, 2]
    let first := BlockGrouper.run ⟨4, {}⟩ [0, 1, 2] carvedCrossed
    let passes := converge 4 .ancestors (fun _ => none) [0, 1, 2] first.state
    carvedCrossed.graph.verify [0, 1, 2] = .ok () ∧ [0, 1, 2].Nodup ∧
    Exact carvedCrossed.graph [0, 1, 2] ∧ net.IsEntry 0 ∧
    (∀ n ∈ [0, 1, 2], ReflTransGen net.Edge 0 n) ∧
    (∀ r ∈ carvedCrossed.graph.mentioned [0, 1, 2], r.num < vectorWidth) ∧
    (carvedCrossed.graph.mentioned [0, 1, 2]).size < 4 ∧
    first.result = .ok ⟨[0, 1, 2], [0, 1, 2]⟩ ∧ passes.2.result = .ok ⟨[3, 4, 5], 1⟩ ∧
    ¬ net.shape.Reducible := by
  intro net first passes
  have hverify : carvedCrossed.graph.verify [0, 1, 2] = .ok () := by decide +kernel
  have hexact : Exact carvedCrossed.graph [0, 1, 2] := exact_of_all (by decide +kernel)
  have hroot : net.IsEntry 0 := ⟨by decide, by decide +kernel⟩
  have hedge : ∀ n ∈ [1, 2], n ∈ net.succs 0 := by decide +kernel
  have hreach : ∀ n ∈ [0, 1, 2], ReflTransGen net.Edge 0 n := by
    intro n hn
    rcases List.mem_cons.mp hn with rfl | hn
    · exact .refl
    · exact .single (hedge n hn)
  have hrange : ∀ r ∈ carvedCrossed.graph.mentioned [0, 1, 2], r.num < vectorWidth := by
    decide +kernel
  have hroom : (carvedCrossed.graph.mentioned [0, 1, 2]).size < 4 := by decide +kernel
  have hrun : first.result = .ok ⟨[0, 1, 2], [0, 1, 2]⟩ := by decide +kernel
  have hok : passes.2.result = .ok ⟨[3, 4, 5], 1⟩ := by decide +kernel
  refine ⟨hverify, by decide, hexact, hroot, hreach, hrange, hroom, hrun, hok, ?_⟩
  obtain ⟨ig, fp, hrun', hfp, hiff⟩ := collapses_iff_reducible ⟨4, {}⟩ .ancestors [0, 1, 2]
    carvedCrossed 0 hverify (by decide) hexact hroot hreach hrange hroom
  obtain rfl : ig = ⟨[0, 1, 2], [0, 1, 2]⟩ := by
    have heq := hrun'.symm.trans hrun
    injection heq
  obtain rfl : fp = ⟨[3, 4, 5], 1⟩ := by
    have heq := hfp.symm.trans hok
    injection heq
  exact fun hreducible => absurd (hiff.mpr hreducible) (by decide)

end KernelIntervals
