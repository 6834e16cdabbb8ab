/-
When the first pass succeeds.

* `Narrow` — an instruction mentions fewer registers than the budget, and only
  registers with a bit in a vector,
* `FirstPass.tallied_start`, `FirstPass.tallied` — if blocks start with the registers of
  their instructions, the registers of all intervals are tallied when the loop starts and
  when it ends,
* `run_isOk_iff` — a first pass returns intervals iff all instructions that are
  reachable are narrow, and is over the budget only because of one that is not.
-/
import KernelIntervals.Proofs.Partition
import KernelIntervals.Proofs.Tallied

namespace KernelIntervals

/-- An instruction fits in an interval of its own. -/
def Inst.Narrow (budget : Nat) (x : Inst) : Prop :=
  x.width < budget ∧ ∀ r ∈ x.regs, r.num < vectorWidth

theorem Inst.width_congr {x y : Inst} (h : x.regs = y.regs) : x.width = y.width := by
  rw [Inst.width, Inst.width, h]

variable {budget : Nat} {blocks : List BlockId} {w w₁ w₂ : Workspace} {i : IntervalId}

/-- Blocks have the registers of their instructions as outputs. -/
def Exact (g : FlowGraph) (blocks : List BlockId) : Prop :=
  ∀ n ∈ blocks, ∀ b, g.block? n = some b → b.outputs = instRegs b.insts

/-- All instructions of reachable blocks are narrow. -/
def AllNarrow (budget : Nat) (g : FlowGraph) (blocks : List BlockId) : Prop :=
  ∀ n ∈ blocks, (g.net .block blocks).Reachable n → ∀ x ∈ g.insts .block n, x.Narrow budget

namespace FirstPass

/-- When the loop starts, all registers are tallied: no interval was visited yet. -/
theorem tallied_start (h : FirstPass budget blocks w w₁ w₂)
    (hexist : ∀ n ∈ blocks, n < w.graph.extent .block) (hexact : Exact w.graph blocks) :
    Tallied budget none w₁ := by
  obtain ⟨w₀, hcleared, hopens⟩ := h.cleared
  have hnone : ∀ i ∈ w₀.opened, i < w₀.graph.intervals.size := by
    rw [hcleared.opened]
    exact fun i hi => absurd hi List.not_mem_nil
  have hstart : Tallied budget none w₀ := by
    constructor
    · intro n hn
      rw [hcleared.members] at hn
      rw [hcleared.bodies.regs, hcleared.bodies.insts]
      obtain ⟨b, hb⟩ : ∃ b, w.graph.block? n = some b := Arena.exists_get? (hexist n hn)
      rw [FlowGraph.regs, FlowGraph.insts, FlowGraph.see_of_block? hb, FlowGraph.see_of_block? hb]
      exact hexact n hn b hb
    · intro i hi
      rw [hcleared.opened] at hi
      exact absurd hi List.not_mem_nil
  exact hstart.opens hnone hopens

/-- The registers of all intervals are tallied when the loop ends. -/
theorem tallied (h : FirstPass budget blocks w w₁ w₂) (hbudget : 0 < budget)
    (hexist : ∀ n ∈ blocks, n < w.graph.extent .block) (hexact : Exact w.graph blocks) :
    Tallied budget none w₂ :=
  h.sound.tallied_moves hbudget (h.tallied_start hexist hexact) h.moves

/-- When the loop ends, all intervals hold the registers of their members. -/
theorem held (h : FirstPass budget blocks w w₁ w₂) (ht : Tallied budget none w₂)
    (hi : i ∈ w₂.opened) : Held budget w₂ i := by
  refine ht.held i hi (Option.some_ne_none i).symm fun m hm => ?_
  rw [h.idle] at hm
  exact absurd hm List.not_mem_nil

/-- The registers of an interval fit, or it has an instruction that is too wide: in
either case the instructions of its members are reachable ones that were given. -/
theorem regs_summaryOf (h : FirstPass budget blocks w w₁ w₂) (ht : Tallied budget none w₂)
    (hi : i ∈ w₂.opened) :
    ((w₂.summaryOf .block i).regs.size < budget ∨ ∃ n ∈ blocks,
      (w.graph.net .block blocks).Reachable n ∧ ∃ x ∈ w.graph.insts .block n,
        budget ≤ x.width) ∧
    ∀ r ∈ (w₂.summaryOf .block i).regs, ∃ n ∈ blocks,
      (w.graph.net .block blocks).Reachable n ∧ ∃ x ∈ w.graph.insts .block n, r ∈ x.regs := by
  obtain ⟨⟨opener, hu⟩, _⟩ := h.sound_end
  have hheld := h.held ht hi
  have hregs : (w₂.summaryOf .block i).regs = w₂.graph.regs .interval i :=
    RegSet.ext_mem fun r => FlowGraph.mem_regs_summaryOf.trans (hheld.regs r).symm
  -- Members are reachable, so what they hold comes from reachable blocks.
  have horigin : ∀ m ∈ w₂.members, w₂.graph.owner .block m = some i →
      ∃ n ∈ blocks, (w.graph.net .block blocks).Reachable n ∧
        ∀ x ∈ w₂.graph.insts .block m, ∃ y ∈ w.graph.insts .block n, y.regs = x.regs := by
    intro m hm hown
    obtain ⟨n, hn, hreach, hinsts⟩ := h.descends.origin m hm
    exact ⟨n, hn, hreach.mpr (hu.grouped.reachable hm hown), hinsts⟩
  rw [hregs]
  constructor
  · refine hheld.bound.imp_right ?_
    rintro ⟨m, hm, hown, x, hx, hwide⟩
    obtain ⟨n, hn, hreach, hinsts⟩ := horigin m hm hown
    obtain ⟨y, hy, hyx⟩ := hinsts x hx
    exact ⟨n, hn, hreach, y, hy, Inst.width_congr hyx ▸ hwide⟩
  · intro r hr
    obtain ⟨m, hm, hown, hrm⟩ := (hheld.regs r).mp hr
    rw [ht.exact m hm, mem_instRegs] at hrm
    obtain ⟨x, hx, hrx⟩ := hrm
    obtain ⟨n, hn, hreach, hinsts⟩ := horigin m hm hown
    obtain ⟨y, hy, hyx⟩ := hinsts x hx
    exact ⟨n, hn, hreach, y, hy, hyx ▸ hrx⟩

/-- If the registers of all intervals fit, the reachable instructions are narrow. -/
theorem allNarrow (h : FirstPass budget blocks w w₁ w₂) (ht : Tallied budget none w₂)
    (hfits : ∀ i ∈ w₂.opened, Fits budget (w₂.summaryOf .block i).regs) :
    AllNarrow budget w.graph blocks := by
  obtain ⟨⟨opener, hu⟩, hs⟩ := h.sound_end
  intro n hn hreach y hy
  obtain ⟨m, hm, hreachm, x, hx, hxy⟩ := h.descends.survives n hn y hy
  have hsome : (w₂.graph.owner .block m).isSome :=
    (hu.owner_isSome_iff hs h.idle hm).mpr (hreachm.mpr hreach)
  obtain ⟨i, hi⟩ := Option.isSome_iff_exists.mp hsome
  -- The instruction is in some block of the interval, under another name maybe.
  have hregs : ∀ r ∈ y.regs, r ∈ (w₂.summaryOf .block i).regs := by
    intro r hr
    refine FlowGraph.mem_regs_summaryOf.mpr ⟨m, hm, hi, ?_⟩
    rw [ht.exact m hm, mem_instRegs]
    exact ⟨x, hx, hxy ▸ hr⟩
  obtain ⟨hsize, hrange⟩ := hfits i (hu.grouped.mem_opened hm hi)
  refine ⟨Nat.lt_of_le_of_lt (RegSet.size_le fun r hr => ?_) hsize, fun r hr => ?_⟩
  · exact hregs r (RegSet.mem_ofList.mp hr)
  · exact hrange r (hregs r hr)

/-- If the reachable instructions are narrow, the registers of all intervals fit. -/
theorem fits (h : FirstPass budget blocks w w₁ w₂) (ht : Tallied budget none w₂)
    (hnarrow : AllNarrow budget w.graph blocks) :
    ∀ i ∈ w₂.opened, Fits budget (w₂.summaryOf .block i).regs := by
  intro i hi
  obtain ⟨hsize, hrange⟩ := h.regs_summaryOf ht hi
  constructor
  · refine hsize.resolve_right ?_
    rintro ⟨n, hn, hreach, x, hx, hle⟩
    exact Nat.not_lt.mpr hle (hnarrow n hn hreach x hx).1
  · intro r hr
    obtain ⟨n, hn, hreach, x, hx, hrx⟩ := hrange r hr
    exact (hnarrow n hn hreach x hx).2 r hrx

/-- The pass returns intervals if the registers of all of them fit. -/
theorem groupBlocks_ok (h : FirstPass budget blocks w w₁ w₂)
    (hv : w.graph.verify blocks = .ok ()) (hbudget : budget ≠ 0)
    (hfits : ∀ i ∈ w₂.opened, Fits budget (w₂.summaryOf .block i).regs) :
    ∃ ig w₃, Pass.groupBlocks budget blocks w = .ok ig w₃ := by
  have hcompletion := h.completion
  rw [h.groupBlocks_eq hv hbudget]
  generalize Pass.complete .block budget w₂ = result at hcompletion
  cases hcompletion with
  | filled _ _ => exact ⟨_, _, rfl⟩
  | outOfRange hi hwide =>
    obtain ⟨r, hr, hle⟩ := hwide
    exact absurd ((hfits _ hi).2 r hr) (Nat.not_lt.mpr hle)
  | overBudget hi hover => exact absurd (hfits _ hi).1 (Nat.not_lt.mpr hover)

end FirstPass

/-- On blocks that have the registers of their instructions, a first pass returns
intervals iff all reachable instructions are narrow. It is over the budget only because
of one that is not. -/
theorem run_isOk_iff (p : BlockGrouper) (blocks : List BlockId) (state : LoggedGraph)
    (hverify : state.graph.verify blocks = .ok ()) (hnodup : blocks.Nodup)
    (hexact : Exact state.graph blocks) (hbudget : 1 ≤ p.budget) :
    ((∃ ig, (p.run blocks state).result = .ok ig) ↔
      AllNarrow p.budget state.graph blocks) ∧
    ∀ i size limit,
      (p.run blocks state).result = .error (.interval (.budgetViolation i size limit)) →
      ∃ n ∈ blocks, (state.graph.net .block blocks).Reachable n ∧
        ∃ x ∈ state.graph.insts .block n, p.budget ≤ x.width := by
  obtain ⟨w₁, w₂, hpass⟩ :=
    firstPass_exists (w := state.workspace p.scratch) p.budget hverify hnodup
  have ht := hpass.tallied hbudget (FlowGraph.verify_eq_ok hverify).1 hexact
  have hcompletion := hpass.completion
  rw [BlockGrouper.run, hpass.groupBlocks_eq hverify (Nat.ne_of_gt hbudget)]
  generalize Pass.complete .block p.budget w₂ = result at hcompletion
  cases hcompletion with
  | filled hfits hf =>
    refine ⟨iff_of_true ⟨_, rfl⟩ (hpass.allNarrow ht hfits), fun i size limit herror => ?_⟩
    injection herror
  | outOfRange hi hrange =>
    refine ⟨iff_of_false ?_ fun hnarrow => ?_, fun i size limit herror => ?_⟩
    · rintro ⟨ig, hok⟩
      injection hok
    · obtain ⟨r, hr, hle⟩ := hrange
      obtain ⟨n, hn, hreach, x, hx, hrx⟩ := (hpass.regs_summaryOf ht hi).2 r hr
      have hlt := (hnarrow n hn hreach x hx).2 r hrx
      omega
    · injection herror with herror
      injection herror with herror
      injection herror
  | overBudget hi hover =>
    have hwide := (hpass.regs_summaryOf ht hi).1.resolve_left (Nat.not_lt.mpr hover)
    refine ⟨iff_of_false ?_ fun hnarrow => ?_, fun i size limit herror => hwide⟩
    · rintro ⟨ig, hok⟩
      injection hok
    · obtain ⟨n, hn, hreach, x, hx, hle⟩ := hwide
      have hlt := (hnarrow n hn hreach x hx).1
      omega

theorem exact_of_all {g : FlowGraph}
    (h : ∀ n ∈ blocks, (g.block? n).all fun b => b.outputs = instRegs b.insts) :
    Exact g blocks := by
  intro n hn b hb
  have hn := h n hn
  rw [hb] at hn
  exact of_decide_eq_true hn

/-- The carved blocks have the registers of their instructions. -/
theorem exact_carvedLoops : Exact carvedLoops.graph [0, 1, 2] := exact_of_all (by decide +kernel)

theorem isOk_iff_carvedLoops :
    carvedLoops.graph.verify [0, 1, 2] = .ok () ∧ [0, 1, 2].Nodup ∧
    Exact carvedLoops.graph [0, 1, 2] ∧ 1 ≤ 4 ∧
    ((∃ ig, (BlockGrouper.run ⟨4, {}⟩ [0, 1, 2] carvedLoops).result = .ok ig) ↔
      AllNarrow 4 carvedLoops.graph [0, 1, 2]) ∧
    ∀ i size limit, (BlockGrouper.run ⟨4, {}⟩ [0, 1, 2] carvedLoops).result =
        .error (.interval (.budgetViolation i size limit)) →
      ∃ n ∈ [0, 1, 2], (carvedLoops.graph.net .block [0, 1, 2]).Reachable n ∧
        ∃ x ∈ carvedLoops.graph.insts .block n, 4 ≤ x.width :=
  ⟨verify_carvedLoops, by decide, exact_carvedLoops, by decide,
    run_isOk_iff ⟨4, {}⟩ [0, 1, 2] carvedLoops verify_carvedLoops (by decide) exact_carvedLoops
      (by decide)⟩

end KernelIntervals
