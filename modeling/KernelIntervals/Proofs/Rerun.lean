/-
First passes over the blocks that a first pass returned.

* `uncutLineage`, `FirstPass.uncut` — a pass leaves all blocks as they are if none that it reaches
  has too many registers,
* `Latecomer`, `Harvest.stable` — the grouping that a run returns is stable, unless the head of a
  block that had too many registers can join an interval,
* `BlockGrouper.run_of_fits` — a run over blocks that fit returns them all and cuts none,
* `rerun_shares_iff` — so it is with a second run over the blocks that a first run returned, which
  groups them as the first one did exactly if no block comes late.

Design notes: the first run asks whether a block can join before the block is cut, the second one
asks for all fragments. Tails can join in neither, since their heads leave no room for them, so the
runs differ in the heads only.
-/
import KernelIntervals.Proofs.CoarseBudget
import KernelIntervals.Proofs.Departure
import KernelIntervals.Proofs.Lineage
import KernelIntervals.Proofs.Maximality
import KernelIntervals.Proofs.Stable

namespace KernelIntervals

open Function Relation

variable {base budget : Nat} {g g' g₀ g₁ : FlowGraph} {blocks nodes : List BlockId}
  {w w' w₁ w₂ : Workspace} {m m' : Moment} {n c : BlockId} {i : IntervalId}
  {opener : IntervalId → Nat}

/-! ### Passes that cut nothing -/

/-- The list of blocks only grows, and if it is the same, so are the blocks. -/
theorem uncutLineage : Lineage fun g nodes g' nodes' =>
    nodes <+: nodes' ∧ (nodes' = nodes → SameBlocks g g') where
  same h := ⟨List.prefix_refl _, fun _ => h⟩
  trans := by
    rintro g₀ nodes₀ g₁ nodes₁ g nodes ⟨hinitial, hsame⟩ ⟨hinitial', hsame'⟩
    refine ⟨hinitial.trans hinitial', ?_⟩
    rintro rfl
    obtain rfl : nodes₁ = nodes := hinitial'.eq_of_length_le hinitial.length_le
    exact (hsame rfl).trans (hsame' rfl)
  cut _ := ⟨List.prefix_append _ _, fun h => absurd h (by simp)⟩

/-- If the blocks that have an owner have few registers, none is cut in a move. -/
theorem Sound.uncut_move (hs : Sound .block base m.1 m.2) (ht : Tallied budget none m.2)
    (hfew : ∀ n ∈ m.2.members, m.2.graph.owner .block n ≠ none →
      (instRegs (m.2.graph.insts .block n)).size < budget) (hm : BlockMove budget m m') :
    m'.2.members = m.2.members ∧ m'.2.graph.regs .block = m.2.graph.regs .block := by
  cases hm with
  | take hwork hown hb hset hsync =>
    obtain ⟨hn, _, _, hsteady | ⟨t, j, hhalved⟩⟩ :=
      hs.take_cases ht.exact hwork (.take hwork hown hb hset hsync)
    · exact ⟨hsteady.alike.members, hsteady.regs⟩
    · exact absurd (hfew _ hn (hown ▸ Option.some_ne_none _)) (Nat.not_lt.mpr hhalved.full)
  | mark marker => exact ⟨rfl, rfl⟩
  | @join w w₁ w₂ n i b live hn hadm hlive hb hset hsync =>
    have hjoins : Joins budget i n w w₂ := ⟨hn, hadm, live, b, w₁, hlive, hb, hset, hsync⟩
    have hsteady := hjoins.steady ht.exact
    exact ⟨hsteady.alike.members,
      hsteady.regs.trans (congrFun (sameBodies_assign w.graph .block n (some i)).regs .block)⟩
  | leave hopens hdone =>
    exact ⟨hopens.members, congrFun hopens.sameBodies.regs .block⟩

/-- If the blocks that can be reached have few registers, none is cut in any number of moves. -/
theorem Sound.uncut_moves (hbudget : 0 < budget) (hs : Sound .block base m.1 m.2)
    (ht : Tallied budget none m.2)
    (hfew : ∀ n, (m.2.net .block).Reachable n →
      (instRegs (m.2.graph.insts .block n)).size < budget)
    (hm : ReflTransGen (BlockMove budget) m m') :
    m'.2.members = m.2.members ∧ m'.2.graph.regs .block = m.2.graph.regs .block := by
  induction hm with
  | refl => exact ⟨rfl, rfl⟩
  | @tail m₁ m' hpath hstep ih =>
    obtain ⟨hmembers, hregs⟩ := ih
    have hs₁ := hs.moves hpath
    have hsame := (uncutLineage.moves hs hpath).2 hmembers
    have hnet : m₁.2.net .block = m.2.net .block := by
      rw [Workspace.net, Workspace.net, FlowGraph.net, FlowGraph.net, hmembers, hsame.preds,
        hsame.succs]
    have hfew₁ : ∀ n ∈ m₁.2.members, m₁.2.graph.owner .block n ≠ none →
        (instRegs (m₁.2.graph.insts .block n)).size < budget := by
      intro n hn hown
      obtain ⟨opener, hu⟩ := hs₁.underway
      obtain ⟨i, hi⟩ := Option.ne_none_iff_exists'.mp hown
      rw [hsame.insts]
      exact hfew n (hnet ▸ hu.grouped.reachable hn hi)
    obtain ⟨hmembers', hregs'⟩ :=
      hs₁.uncut_move (hs.tallied_moves hbudget ht hpath) hfew₁ hstep
    exact ⟨hmembers'.trans hmembers, hregs'.trans hregs⟩

/-- A first pass leaves all blocks as they are if those that can be reached have few registers. -/
theorem FirstPass.uncut (h : FirstPass budget blocks w w₁ w₂) (hbudget : 0 < budget)
    (hexist : ∀ n ∈ blocks, n < w.graph.extent .block) (hexact : Exact w.graph blocks)
    (hfew : ∀ n, (w.graph.net .block blocks).Reachable n →
      (instRegs (w.graph.insts .block n)).size < budget) :
    w₂.members = blocks ∧ SameBlocks w.graph w₂.graph ∧
      w₂.graph.regs .block = w.graph.regs .block := by
  obtain ⟨w₀, hcleared, hopens⟩ := h.cleared
  have hbodies := hcleared.bodies.trans hopens.sameBodies
  have hmembers₁ : w₁.members = blocks := hopens.members.trans hcleared.members
  have hfew₁ : ∀ n, (w₁.net .block).Reachable n →
      (instRegs (w₁.graph.insts .block n)).size < budget := by
    intro n hreach
    rw [hbodies.insts]
    exact hfew n (h.net_start ▸ hreach)
  obtain ⟨hmembers, hregs⟩ := Sound.uncut_moves (m := (none, w₁)) hbudget h.sound
    (h.tallied_start hexist hexact) hfew₁ h.moves
  have hmembers₂ : w₂.members = blocks := hmembers.trans hmembers₁
  exact ⟨hmembers₂, (uncutLineage.firstPass h).2 hmembers₂,
    hregs.trans (congrFun hbodies.regs .block)⟩

/-! ### Blocks that come late -/

/-- A block that reached the budget before a pass with its registers, and the head of which can
join the interval `i` after it. -/
structure Latecomer (budget : Nat) (g₀ : FlowGraph) (blocks : List BlockId) (g : FlowGraph)
    (ig : IntervalGraph) (c : BlockId) (i : IntervalId) : Prop where
  mem : c ∈ blocks
  wide : budget ≤ (g₀.regs .block c).size
  interval : i ∈ ig.intervals
  outside : g.owner .block c ≠ some i
  joinable : ∃ e, SingleEntry (g.net .block ig.blocks) (g.owner .block) i e ∧
    Joinable budget g (before (g.owner .block) ig.blocks e i c) c

variable {ig : IntervalGraph}

/-- If no block comes late, the grouping is stable. -/
theorem Harvest.stable (h : Harvest budget g₀ blocks g ig opener)
    (hlate : ∀ c i, ¬ Latecomer budget g₀ blocks g ig c i) :
    Stable budget g ig.blocks (g.owner .block) opener ig.intervals := by
  refine ⟨h.regrouped.grouped, fun x hreach => ?_, fun k hk c hc hne => ?_⟩
  · obtain ⟨i, _, hi⟩ := h.regrouped.exists_owner hreach
    exact ⟨i, hi⟩
  by_cases hlisted : c ∈ blocks
  swap
  · exact iff_of_false (fun hown => hlisted ((h.gathered k hk).listed c hc hne hown))
      (h.not_joinable_tail hc hlisted)
  have hiff := (h.gathered k hk).owner_iff c hlisted hne
  rw [hiff, before_of_listed h.listed hlisted]
  refine ⟨fun hjoin => hjoin.2, fun hjoin => ⟨?_, hjoin⟩⟩
  by_contra hwide
  refine hlate c k ⟨hlisted, Nat.le_of_not_lt hwide, hk, fun hown => hwide (hiff.mp hown).1,
    opener k, h.regrouped.grouped.singleEntry h.regrouped.closed hk, ?_⟩
  rw [before_of_listed h.listed hlisted]
  exact hjoin

/-- A block that can be reached fits, because its interval does. -/
theorem Harvest.fits (h : Harvest budget g₀ blocks g ig opener)
    (hreach : (g.net .block ig.blocks).Reachable n) :
    Fits budget (instRegs (g.insts .block n)) := by
  have hn := hreach.mem h.regrouped.closed
  obtain ⟨i, hi, hown⟩ := h.regrouped.exists_owner hreach
  rw [← h.exact n hn]
  exact (h.regrouped.fits i hi).mono fun r hr => (h.regrouped.regs i hi r).mpr ⟨n, hn, hown, hr⟩

/-! ### A second run -/

/-- An instruction of a block that fits is narrow. -/
theorem Fits.narrow {insts : List Inst} {x : Inst} (h : Fits budget (instRegs insts))
    (hx : x ∈ insts) : x.Narrow budget := by
  have hsub : ∀ r ∈ RegSet.ofList x.regs, r ∈ instRegs insts :=
    fun r hr => mem_instRegs.mpr ⟨x, hx, RegSet.mem_ofList.mp hr⟩
  have hfits := h.mono hsub
  exact ⟨hfits.1, fun r hr => hfits.2 r (RegSet.mem_ofList.mpr hr)⟩

/-- If the blocks that can be reached fit, a run over them returns them all and cuts none. -/
theorem BlockGrouper.run_of_fits {q : BlockGrouper} {state : LoggedGraph} (hbudget : q.budget ≠ 0)
    (hv : state.graph.verify blocks = .ok ()) (hnodup : blocks.Nodup)
    (hexact : Exact state.graph blocks)
    (hfits : ∀ n, (state.graph.net .block blocks).Reachable n →
      Fits q.budget (instRegs (state.graph.insts .block n))) :
    (∃ intervals, (q.run blocks state).result = .ok ⟨blocks, intervals⟩) ∧
      SameBlocks state.graph (q.run blocks state).state.graph ∧
      (q.run blocks state).state.graph.regs .block = state.graph.regs .block := by
  have hpos := Nat.pos_of_ne_zero hbudget
  have hexist := (FlowGraph.verify_eq_ok hv).1
  obtain ⟨w₁, w₂, hpass⟩ :=
    firstPass_exists (w := state.workspace q.scratch) q.budget hv hnodup
  have ht := hpass.tallied hpos hexist hexact
  obtain ⟨ig, w₃, hok⟩ := hpass.groupBlocks_ok hv hbudget
    (hpass.fits ht fun n _ hreach x hx => (hfits n hreach).narrow hx)
  have hrun : (q.run blocks state).result = .ok ig := by
    rw [run, hok]
    rfl
  obtain ⟨_, w₄, hpass', hblocks, _, hsame, _⟩ := run_eq_ok hnodup hrun
  obtain ⟨hmembers, hblocks', hregs⟩ :=
    hpass'.uncut hpos hexist hexact fun n hreach => (hfits n hreach).1
  refine ⟨⟨ig.intervals, ?_⟩, hblocks'.trans (sameBlocks_of_eq hsame), ?_⟩
  · rw [hrun, ← hmembers, ← hblocks]
  · exact (FlowGraph.see_block_congr hsame).trans hregs

theorem Stable.congr {owner : BlockId → Option IntervalId} {opened : List IntervalId}
    (hsame : SameBlocks g g') (hregs : g'.regs .block = g.regs .block)
    (h : Stable budget g' nodes owner opener opened) :
    Stable budget g nodes owner opener opened := by
  refine ⟨hsame.net nodes ▸ h.grouped, hsame.net nodes ▸ h.exists_owner, fun k hk c hc hne => ?_⟩
  rw [h.member_iff k hk c hc hne]
  exact joinable_congr (congrFun hsame.preds c) fun n _ => congrFun hregs n

/-- A run upholds the blocks that it was given, if it returns intervals. -/
theorem BlockGrouper.run_upheld {p : BlockGrouper} {state : LoggedGraph}
    (hrun : (p.run blocks state).result = .ok ig) :
    Upheld ⟨state.graph, blocks⟩ ⟨(p.run blocks state).state.graph, ig.blocks⟩ := by
  obtain ⟨hbudget, hv⟩ := verify_of_run_eq_ok hrun
  obtain ⟨w, hok, hgraph⟩ := ofResult_result_eq_ok hrun
  have hwell : WellFormed (state.workspace p.scratch).graph blocks :=
    FlowGraph.verify_eq_ok_iff.mp hv
  rw [show (p.run blocks state).state.graph = w.graph from hgraph]
  rcases groupBlocks_upheld hbudget hwell with ⟨a, u, hok', hupheld⟩ | ⟨e, u, herror, _⟩
  · rw [hok] at hok'
    injection hok' with ha hu
    rw [ha, hu]
    exact hupheld
  · rw [hok] at herror
    injection herror

/-- A run over the blocks that a first run returned returns them again, cuts none of them, and
groups them as the first run did exactly if no block comes late. -/
theorem rerun_shares_iff (p q : BlockGrouper) (blocks : List BlockId) (state : LoggedGraph)
    (ig : IntervalGraph) (hnodup : blocks.Nodup) (hexact : Exact state.graph blocks)
    (hrun : (p.run blocks state).result = .ok ig) (hsame : q.budget = p.budget) :
    let first := (p.run blocks state).state
    let second := q.run ig.blocks first
    (∃ intervals, second.result = .ok ⟨ig.blocks, intervals⟩) ∧
      SameBlocks first.graph second.state.graph ∧
      second.state.graph.regs .block = first.graph.regs .block ∧
      ((∀ m ∈ ig.blocks, ∀ n ∈ ig.blocks, Shares (second.state.graph.owner .block) m n ↔
          Shares (first.graph.owner .block) m n) ↔
        ∀ c i, ¬ Latecomer p.budget state.graph blocks first.graph ig c i) := by
  intro first second
  have hbudget : p.budget ≠ 0 := (verify_of_run_eq_ok hrun).1
  obtain ⟨opener, hfirst⟩ :=
    BlockGrouper.run_harvest hnodup hexact (Nat.pos_of_ne_zero hbudget) hrun
  have hnodup' : ig.blocks.Nodup := hfirst.regrouped.nodup
  have hclosed : (first.graph.net .block ig.blocks).Closed := hfirst.regrouped.closed
  have hexact' : Exact first.graph ig.blocks := by
    intro n hn b hb
    have h := hfirst.exact n hn
    rwa [FlowGraph.regs, FlowGraph.insts, FlowGraph.see_of_block? hb,
      FlowGraph.see_of_block? hb] at h
  have hv' : first.graph.verify ig.blocks = .ok () :=
    FlowGraph.verify_eq_ok_iff.mpr (BlockGrouper.run_upheld hrun).wellFormed
  obtain ⟨⟨intervals, hrun'⟩, hblocks, hregs⟩ :=
    BlockGrouper.run_of_fits (q := q) (hsame ▸ hbudget) hv' hnodup' hexact' fun n hreach =>
      hsame ▸ hfirst.fits hreach
  refine ⟨⟨intervals, hrun'⟩, hblocks, hregs, ?_⟩
  obtain ⟨opener', hsecond⟩ := BlockGrouper.run_harvest hnodup' hexact'
    (hsame ▸ Nat.pos_of_ne_zero hbudget) hrun'
  rw [hsame] at hsecond
  -- All blocks of the second run have few registers, so none of them comes late.
  have hstable : Stable p.budget first.graph ig.blocks (second.state.graph.owner .block) opener'
      intervals := by
    refine (hsecond.stable fun c i hlate => ?_).congr hblocks hregs
    obtain ⟨e, _, hjoin⟩ := hlate.joinable
    have hroom := Nat.lt_of_le_of_lt (FlowGraph.size_le_blockRegs List.mem_cons_self) hjoin.room
    rw [hregs] at hroom
    exact absurd hroom (Nat.not_lt.mpr hlate.wide)
  constructor
  · intro hshares c i hlate
    obtain ⟨e, he, hjoin⟩ := hlate.joinable
    exact hlate.outside (hstable.owner_eq_of_joinable hclosed hshares he
      (hfirst.regrouped.grouped.reachable he.mem he.owner_eq) (hfirst.listed.subset hlate.mem)
      hjoin)
  · intro hnone m hm n hn
    exact hstable.shares_iff (hfirst.stable hnone) hclosed hm hn

/-- The block that is split has no predecessors, so its head joins nothing in a second run. -/
theorem rerun_shares_carvedLoops :
    let first := (BlockGrouper.run ⟨4, {}⟩ [0, 1, 2] carvedLoops).state
    let second := BlockGrouper.run ⟨4, {}⟩ [0, 1, 2, 3] first
    [0, 1, 2].Nodup ∧ Exact carvedLoops.graph [0, 1, 2] ∧
    (BlockGrouper.run ⟨4, {}⟩ [0, 1, 2] carvedLoops).result = .ok ⟨[0, 1, 2, 3], [0, 1, 2]⟩ ∧
    (∃ intervals, second.result = .ok ⟨[0, 1, 2, 3], intervals⟩) ∧
    SameBlocks first.graph second.state.graph ∧
    second.state.graph.regs .block = first.graph.regs .block ∧
    ((∀ m ∈ [0, 1, 2, 3], ∀ n ∈ [0, 1, 2, 3], Shares (second.state.graph.owner .block) m n ↔
        Shares (first.graph.owner .block) m n) ↔
      ∀ c i, ¬ Latecomer 4 carvedLoops.graph [0, 1, 2] first.graph ⟨[0, 1, 2, 3], [0, 1, 2]⟩ c i) :=
  ⟨by decide, exact_carvedLoops, run_carvedLoops,
    rerun_shares_iff ⟨4, {}⟩ ⟨4, {}⟩ [0, 1, 2] carvedLoops _ (by decide) exact_carvedLoops
      run_carvedLoops rfl⟩

/-- Of three blocks in a row, the second one is split at a budget of 4 registers, and its head has
the registers of the first one. A second run takes it into the interval of that. -/
theorem rerun_regroups_carvedRow :
    let first := BlockGrouper.run ⟨4, {}⟩ [0, 1, 2] carvedRow
    let second := BlockGrouper.run ⟨4, {}⟩ [0, 1, 2, 3] first.state
    [0, 1, 2].Nodup ∧ carvedRow.graph.verify [0, 1, 2] = .ok () ∧
      Exact carvedRow.graph [0, 1, 2] ∧ first.result = .ok ⟨[0, 1, 2, 3], [0, 1, 2, 3]⟩ ∧
      second.result = .ok ⟨[0, 1, 2, 3], [4, 5, 6]⟩ ∧
      Shares (second.state.graph.owner .block) 0 1 ∧
      ¬ Shares (first.state.graph.owner .block) 0 1 := by
  intro first second
  have hverify : carvedRow.graph.verify [0, 1, 2] = .ok () := by decide +kernel
  have hrun : second.result = .ok ⟨[0, 1, 2, 3], [4, 5, 6]⟩ := by decide +kernel
  exact ⟨by decide, hverify, exact_carvedRow, run_carvedRow, hrun, by decide +kernel,
    by decide +kernel⟩

end KernelIntervals
