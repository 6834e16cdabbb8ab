/-
The second pass from its start to its end.

* `Kept` — what a pass over intervals does not change: the blocks, and the intervals
  that were there, apart from the owners of those that are grouped,
* `SecondPass`, `secondPass_exists` — the states in which a second pass starts its loop
  and ends it,
* `coarsen_eq_ok` — a second pass that returns intervals has grouped those it was
  given, and kept the rest.
-/
import KernelIntervals.Proofs.IntervalMoves
import KernelIntervals.Proofs.Regrouped

namespace KernelIntervals

open Function Relation

/-- The blocks of `g`, and its intervals below `base`, are as they were, apart from the
owners of `nodes`. -/
structure Kept (base : Nat) (nodes : List IntervalId) (g g' : FlowGraph) : Prop where
  blocks : g'.blocks = g.blocks
  size_le : g.intervals.size ≤ g'.intervals.size
  insts : ∀ m < base, g'.insts .interval m = g.insts .interval m
  regs : ∀ m < base, g'.regs .interval m = g.regs .interval m
  preds : ∀ m < base, g'.preds .interval m = g.preds .interval m
  succs : ∀ m < base, g'.succs .interval m = g.succs .interval m
  owner : ∀ m < base, m ∉ nodes → g'.owner .interval m = g.owner .interval m

variable {base budget : Nat} {nodes : List IntervalId} {g g' g'' : FlowGraph}
  {w w' w₁ w₂ : Workspace} {m m' : Moment} {n i : IntervalId} {scope : UnionScope}
  {limits : CoarsenLimits} {intervals coarser : List IntervalId}

namespace Kept

theorem refl (base : Nat) (nodes : List IntervalId) (g : FlowGraph) : Kept base nodes g g :=
  ⟨rfl, Nat.le_refl _, fun _ _ => rfl, fun _ _ => rfl, fun _ _ => rfl, fun _ _ => rfl,
    fun _ _ _ => rfl⟩

theorem trans (h : Kept base nodes g g') (h' : Kept base nodes g' g'') :
    Kept base nodes g g'' where
  blocks := h'.blocks.trans h.blocks
  size_le := Nat.le_trans h.size_le h'.size_le
  insts := fun m hm => (h'.insts m hm).trans (h.insts m hm)
  regs := fun m hm => (h'.regs m hm).trans (h.regs m hm)
  preds := fun m hm => (h'.preds m hm).trans (h.preds m hm)
  succs := fun m hm => (h'.succs m hm).trans (h.succs m hm)
  owner := fun m hm hn => (h'.owner m hm hn).trans (h.owner m hm hn)

theorem modifyInterval (g : FlowGraph) (nodes : List IntervalId) (hi : base ≤ i)
    (f : Interval → Interval) : Kept base nodes g (g.modifyInterval i f) where
  blocks := rfl
  size_le := Nat.le_of_eq (Arena.size_modify ..).symm
  insts := fun _ _ => FlowGraph.see_modifyInterval_of_ne (Nat.ne_of_gt (by omega))
  regs := fun _ _ => FlowGraph.see_modifyInterval_of_ne (Nat.ne_of_gt (by omega))
  preds := fun _ _ => FlowGraph.see_modifyInterval_of_ne (Nat.ne_of_gt (by omega))
  succs := fun _ _ => FlowGraph.see_modifyInterval_of_ne (Nat.ne_of_gt (by omega))
  owner := fun _ _ _ => FlowGraph.see_modifyInterval_of_ne (Nat.ne_of_gt (by omega))

theorem assign (g : FlowGraph) (hn : n < base → n ∈ nodes) (hlt : n < g.extent .interval)
    (o : Option IntervalId) : Kept base nodes g (g.assign .interval n o) where
  blocks := rfl
  size_le := Nat.le_of_eq (Arena.size_modify ..).symm
  insts := fun m _ => congrFun (FlowGraph.insts_assign o) m
  regs := fun m _ => congrFun (FlowGraph.regs_assign o) m
  preds := fun m _ => congrFun (FlowGraph.preds_assign o) m
  succs := fun m _ => congrFun (FlowGraph.succs_assign o) m
  owner := fun m hlt' hm => by
    have hne : m ≠ n := fun heq => hm (heq ▸ hn (heq ▸ hlt'))
    rw [FlowGraph.owner_assign o hlt, update_of_ne hne]

theorem addInterval (base : Nat) (nodes : List IntervalId) (g : FlowGraph) :
    Kept base nodes g (g.addInterval {}) where
  blocks := rfl
  size_le := Nat.le_trans (Nat.le_succ _) (Nat.le_of_eq (Arena.size_alloc ..).symm)
  insts := fun m _ => congrFun FlowGraph.insts_addInterval m
  regs := fun m _ => congrFun FlowGraph.regs_addInterval m
  preds := fun m _ => congrFun FlowGraph.preds_addInterval m
  succs := fun m _ => congrFun FlowGraph.succs_addInterval m
  owner := fun m _ _ => congrFun FlowGraph.owner_addInterval m

end Kept

theorem Opens.kept (h : Opens .interval w w') : Kept base w.members w.graph w'.graph := by
  induction h with
  | refl => exact .refl ..
  | @tail w₁ _ hpath hstep ih =>
    obtain ⟨n, hn, hlt, _, _, rfl⟩ := hstep
    have hn' : n ∈ w.members := by
      rw [← Opens.members hpath]
      exact hn
    refine (ih.trans (.addInterval base w.members w₁.graph)).trans ?_
    exact .assign _ (fun _ => hn') (Nat.lt_of_lt_of_le hlt (extent_le_addInterval _ _)) _

theorem Under.base_le (h : Under base (some i) w) : base ≤ i := by
  obtain ⟨⟨⟨opener, hu⟩, _⟩, _⟩ := h
  exact (hu.opened_range i (hu.idle i rfl).1).1

theorem Under.kept_move (h : Under base m.1 m.2) (hm : IntervalMove limits m m') :
    Kept base m.2.members m.2.graph m'.2.graph := by
  cases hm with
  | take hwork hown hroom => exact .modifyInterval _ _ (h.taken hwork hown).base_le _
  | skip hwork hown hfull => exact .refl ..
  | mark marker => exact .refl ..
  | fold hn hfold =>
    obtain ⟨⟨⟨opener, hu⟩, _⟩, _⟩ := id h
    exact (Kept.assign _ (fun _ => hn) (hu.exists_node _ hn) _).trans
      (.modifyInterval _ _ h.base_le _)
  | leave hleaves hscanned => exact hleaves.opens.kept

theorem Under.kept_moves (h : Under base m.1 m.2)
    (hm : ReflTransGen (IntervalMove limits) m m') :
    Kept base m.2.members m.2.graph m'.2.graph := by
  induction hm with
  | refl => exact .refl ..
  | tail hpath hstep ih =>
    have hlast := (h.moves hpath).kept_move hstep
    rw [members_of_moves hpath] at hlast
    exact ih.trans hlast

/-! ### The pass -/

/-- The registers of some intervals. -/
def FlowGraph.unionRegs (g : FlowGraph) (intervals : List IntervalId) : RegSet :=
  intervals.foldl (fun regs i => regs ∪ g.regs .interval i) ∅

theorem FlowGraph.mem_unionRegs {r : Reg} :
    r ∈ g.unionRegs intervals ↔ ∃ i ∈ intervals, r ∈ g.regs .interval i := by
  have hstep : ∀ (s : RegSet) i r, r ∈ s ∪ g.regs .interval i ↔ r ∈ s ∨ r ∈ g.regs .interval i :=
    fun _ _ _ => RegSet.mem_union
  rw [unionRegs, mem_foldl_iff hstep, or_iff_right (RegSet.not_mem_empty r)]

/-- A second pass on a workspace `w` starts its loop in `w₁` with some limits, and ends
it in `w₂`. -/
structure SecondPass (budget : Nat) (scope : UnionScope) (intervals : List IntervalId)
    (w w₁ : Workspace) (limits : CoarsenLimits) (w₂ : Workspace) : Prop where
  started : Pass.start .interval intervals w = .ok () w₁
  cleared : ∃ w₀, Cleared .interval intervals w.graph w₀ ∧ Opens .interval w₀ w₁
  entries : ∀ n ∈ intervals, w₁.graph.owner .interval n ≠ none → w₁.graph.preds .interval n = []
  limited : Pass.coarsenLimits budget scope intervals w₁ = .ok limits w₁
  under : Under w.graph.intervals.size none w₁
  looped : drain (intervalVisit limits) w₁ = .ok () w₂
  moves : ReflTransGen (IntervalMove limits) (none, w₁) (none, w₂)
  idle : w₂.worklist = []

/-- The limits of a pass over intervals that exist are found. -/
theorem coarsenLimits_ends (budget : Nat) (scope : UnionScope)
    (h : ∀ i ∈ intervals, i < w.graph.intervals.size) :
    Ends (Pass.coarsenLimits budget scope intervals) w fun limits w' => w' = w ∧
      limits.budget = budget ∧ limits.scope = scope ∧
      (scope = .global → limits.everything = w.graph.unionRegs intervals) := by
  cases scope with
  | ancestors =>
    refine ends_pure ⟨rfl, rfl, rfl, fun hscope => ?_⟩
    injection hscope
  | global =>
    have hregs : w.graph.regsOf? intervals = some (w.graph.unionRegs intervals) := by
      refine foldlM_eq_some_foldl (fun i hi regs => ?_) ∅
      obtain ⟨v, hv⟩ : ∃ v, w.graph.interval? i = some v := Arena.exists_get? (h i hi)
      rw [FlowGraph.regs, FlowGraph.see_of_interval? hv, hv]
      rfl
    exact Ends.bind (Pass.ends_query hregs (ends_pure ⟨rfl, rfl, rfl, fun _ => rfl⟩))

/-- Every list of intervals with its edges can be looped over. -/
theorem secondPass_exists (budget : Nat) (scope : UnionScope)
    (hexist : ∀ i ∈ intervals, i < w.graph.intervals.size) (hnodup : intervals.Nodup)
    (hclosed : (w.graph.net .interval intervals).Closed)
    (hloopless : ∀ i ∈ intervals, i ∉ w.graph.preds .interval i) :
    ∃ w₁ limits w₂, SecondPass budget scope intervals w w₁ limits w₂ := by
  obtain ⟨_, w₁, hstart, hsound, ⟨w₀, hcleared, hopens⟩, hentries⟩ :=
    start_ends (l := .interval) hexist hnodup hclosed
  have hmembers : w₁.members = intervals := hopens.members.trans hcleared.members
  have hunder : Under w.graph.intervals.size none w₁ := by
    refine ⟨hsound, ?_⟩
    rw [hmembers, hopens.sameBodies.preds, hcleared.bodies.preds]
    exact hloopless
  have hexist₁ : ∀ i ∈ intervals, i < w₁.graph.intervals.size := by
    obtain ⟨⟨opener, hu⟩, _⟩ := hsound
    rw [← hmembers]
    exact hu.exists_node
  obtain ⟨limits, w', hlimits, rfl, _⟩ := coarsenLimits_ends budget scope hexist₁
  obtain ⟨_, w₂, hloop, hmoves, hidle⟩ := intervalLoop_ends limits hunder
  exact ⟨_, limits, w₂, hstart, ⟨w₀, hcleared, hopens⟩, hentries, hlimits, hunder, hloop, hmoves,
    hidle⟩

/-- A second pass that returns intervals was given a budget. -/
theorem budget_of_coarsen_eq_ok (h : Pass.coarsen budget scope intervals w = .ok coarser w') :
    budget ≠ 0 := by
  rintro rfl
  rw [Pass.coarsen, if_pos rfl] at h
  injection h

namespace SecondPass

variable (h : SecondPass budget scope intervals w w₁ limits w₂)

include h

/-- The pass is what filling in the intervals comes to. -/
theorem coarsen_eq (hbudget : budget ≠ 0) :
    Pass.coarsen budget scope intervals w = andThen (Pass.complete .interval budget w₂) fun w₃ =>
      .ok w₃.opened { w₃ with
        members := []
        opened := []
        log := w₃.log.push (.intervalsGrouped intervals.length w₃.opened.length scope.name) } := by
  rw [Pass.coarsen, if_neg hbudget]
  refine (bind_of_eq_ok h.started).trans ((bind_of_eq_ok h.limited).trans ?_)
  exact (bind_of_eq_ok h.looped).trans (bind_eq_andThen _ _ w₂)

theorem members : w₁.members = intervals ∧ w₂.members = intervals := by
  obtain ⟨w₀, hcleared, hopens⟩ := h.cleared
  have hmembers : w₁.members = intervals := hopens.members.trans hcleared.members
  exact ⟨hmembers, (members_of_moves h.moves).trans hmembers⟩

theorem regs_start : w₁.graph.regs = w.graph.regs := by
  obtain ⟨w₀, hcleared, hopens⟩ := h.cleared
  exact hopens.sameBodies.regs.trans hcleared.bodies.regs

/-- When a pass starts, all coarse intervals are still to be visited. -/
theorem busy_start {k : IntervalId} (hk : k ∈ w₁.opened) : w₁.Busy .interval none k := by
  obtain ⟨w₀, hcleared, hopens⟩ := h.cleared
  refine hopens.busy_of_new hk ?_
  rw [hcleared.opened]
  exact List.not_mem_nil

/-- When the loop ends the pass is still under way. -/
theorem under_end : Under w.graph.intervals.size none w₂ := h.under.moves h.moves

theorem net_eq : w₂.net .interval = w.graph.net .interval intervals := by
  obtain ⟨w₀, hcleared, hopens⟩ := h.cleared
  rw [show w₂.net .interval = w₁.net .interval from net_of_moves h.moves, hopens.net,
    Workspace.net, hcleared.members, hcleared.bodies.net]

theorem kept : Kept w.graph.intervals.size intervals w.graph w₂.graph := by
  obtain ⟨w₀, hcleared, hopens⟩ := h.cleared
  have hstart : Kept w.graph.intervals.size intervals w.graph w₀.graph := by
    refine ⟨hcleared.blocks rfl, ?_, fun m _ => ?_, fun m _ => ?_, fun m _ => ?_, fun m _ => ?_,
      fun m _ hm => ?_⟩
    · exact Nat.le_of_eq (congrFun hcleared.extent .interval).symm
    · rw [hcleared.bodies.insts]
    · rw [hcleared.bodies.regs]
    · rw [hcleared.bodies.preds]
    · rw [hcleared.bodies.succs]
    · exact hcleared.owner m hm
  have hopen : Kept w.graph.intervals.size intervals w₀.graph w₁.graph := by
    rw [← hcleared.members]
    exact hopens.kept
  have hloop : Kept w.graph.intervals.size intervals w₁.graph w₂.graph := by
    rw [← h.members.1]
    exact h.under.kept_moves h.moves
  exact (hstart.trans hopen).trans hloop

theorem limits_eq (hexist : ∀ i ∈ intervals, i < w.graph.intervals.size) :
    limits.budget = budget ∧ limits.scope = scope ∧
      (scope = .global → limits.everything = w.graph.unionRegs intervals) := by
  obtain ⟨w₀, hcleared, hopens⟩ := h.cleared
  have hregs : w₁.graph.unionRegs intervals = w.graph.unionRegs intervals := by
    rw [FlowGraph.unionRegs, FlowGraph.unionRegs, h.regs_start]
  have hsize : w.graph.intervals.size ≤ w₁.graph.intervals.size := by
    have hle : w₀.graph.intervals.size ≤ w₁.graph.intervals.size := hopens.size_le
    rwa [show w₀.graph.intervals.size = w.graph.intervals.size from
      congrFun hcleared.extent .interval] at hle
  have hexist₁ : ∀ i ∈ intervals, i < w₁.graph.intervals.size :=
    fun i hi => Nat.lt_of_lt_of_le (hexist i hi) hsize
  obtain ⟨_, hlimits⟩ := (coarsenLimits_ends budget scope hexist₁).of_eq_ok h.limited
  rwa [hregs] at hlimits

theorem completion : Completion .interval budget w₂.opened w₂
    (Pass.complete .interval budget w₂) := by
  obtain ⟨⟨⟨opener, hu⟩, _⟩, _⟩ := h.under_end
  exact completeAll_result hu.ready hu.grouped.nodup

/-- A pass that returns intervals has filled them in, and is at the end of its loop
otherwise. -/
theorem filled (hok : Pass.coarsen budget scope intervals w = .ok coarser w') :
    coarser = w₂.opened ∧ (∀ i ∈ w₂.opened, Fits budget (w₂.summaryOf .interval i).regs) ∧
      ∃ w₃, Filled .interval w₂.opened w₂ w₃ ∧ w'.graph = w₃.graph := by
  have hcompletion := h.completion
  rw [h.coarsen_eq (budget_of_coarsen_eq_ok hok)] at hok
  generalize Pass.complete .interval budget w₂ = r at hok hcompletion
  cases hcompletion with
  | @filled w₃ hfits hf =>
    injection hok with hcoarser hw
    subst hcoarser hw
    exact ⟨hf.opened, hfits, w₃, hf, rfl⟩
  | outOfRange => injection hok
  | overBudget => injection hok

end SecondPass

/-- A second pass that returns intervals has grouped those it was given, and kept the
rest. -/
theorem coarsen_eq_ok (hexist : ∀ i ∈ intervals, i < w.graph.intervals.size)
    (hnodup : intervals.Nodup) (hclosed : (w.graph.net .interval intervals).Closed)
    (hloopless : ∀ i ∈ intervals, i ∉ w.graph.preds .interval i)
    (h : Pass.coarsen budget scope intervals w = .ok coarser w') :
    Kept w.graph.intervals.size intervals w.graph w'.graph ∧
      ∃ opener, Regrouped .interval w.graph.intervals.size budget
        (w.graph.net .interval intervals) coarser opener w'.graph := by
  obtain ⟨w₁, limits, w₂, hpass⟩ := secondPass_exists budget scope hexist hnodup hclosed hloopless
  obtain ⟨⟨⟨opener, hu⟩, hs⟩, _⟩ := hpass.under_end
  obtain ⟨rfl, hfits, w₃, hf, hgraph⟩ := hpass.filled h
  rw [hgraph]
  -- Only new intervals are filled in.
  have hbelow : ∀ m < w.graph.intervals.size, m ∉ w₂.opened := by
    intro m hm hmem
    have hnew := (hu.opened_range m hmem).1
    omega
  have hfill : Kept w.graph.intervals.size intervals w₂.graph w₃.graph := by
    refine ⟨hf.blocks, Nat.le_of_eq hf.size.symm, fun m hm => ?_, fun m hm => ?_, fun m hm => ?_,
      fun m hm => ?_, fun m _ _ => ?_⟩
    · exact hf.see_of_not_mem (hbelow m hm)
    · exact hf.see_of_not_mem (hbelow m hm)
    · exact hf.see_of_not_mem (hbelow m hm)
    · exact hf.see_of_not_mem (hbelow m hm)
    · rw [hf.owner_eq]
  refine ⟨hpass.kept.trans hfill, opener, ?_⟩
  rw [← hpass.net_eq]
  exact hu.regrouped hs hpass.idle hfits hf

end KernelIntervals
