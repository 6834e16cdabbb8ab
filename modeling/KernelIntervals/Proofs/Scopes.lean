/-
The two union scopes compared.

* `CoarsenLimits.Roomy` — limits that leave room for all registers of a set,
* `Confined` — no interval of a pass has registers outside a set,
* `mirrors_foldIfAdmitted`, `mirrors_visitInterval`, `Valid.mirrors_coarsen` — passes that
  always have room do the same, whatever their scope,
* `Valid.copied_global` — a pass with the global scope that never has room copies its list,
* `mirrors_coarsenToFixpoint` — passes until it no longer helps do the same then as well,
* `scopes_compare` — both cases, and what they come to for all passes.

Design notes: the scopes hold different registers against the budget, and the narrower one
marks ancestors to find them. Neither matters when all registers fit, so an interval is
folded iff its predecessors are in the coarse interval that is visited.
-/
import KernelIntervals.Proofs.Convergence
import KernelIntervals.Proofs.Twins

namespace KernelIntervals

open Relation

/-- There is room for all registers of a set. -/
def CoarsenLimits.Roomy (limits : CoarsenLimits) (s : RegSet) : Prop :=
  ∀ regs : RegSet, (∀ r ∈ regs, r ∈ s) → ¬ limits.Full regs

/-- The intervals of a pass have only registers of a set, and so has the coarse interval
that is visited. -/
structure Confined (s : RegSet) (current : Option IntervalId) (w : Workspace) : Prop where
  within : Within s w.graph w.members
  current : ∀ i, current = some i → ∀ r ∈ w.graph.regs .interval i, r ∈ s

/-- A pass is under way within bounds and a set of registers. -/
structure Contained (base budget : Nat) (s : RegSet) (current : Option IntervalId)
    (w : Workspace) : Prop where
  under : Under base current w
  bounded : Bounded budget current w
  confined : Confined s current w

variable {base budget : Nat} {s : RegSet} {g : FlowGraph} {current : Option IntervalId}
  {limits limits' : CoarsenLimits} {w w' u u' : Workspace} {m m' : Moment} {n i : IntervalId}
  {scope scope' : UnionScope} {intervals coarser : List IntervalId} {w₁ : Workspace} {done : Nat}
  {watch : Round → Option IntervalError} {fp : Fixpoint}

/-! ### Registers stay in a set -/

theorem Under.confined_move (h : Under base m.1 m.2) (hb : Bounded limits.budget m.1 m.2)
    (hc : Confined s m.1 m.2) (hm : IntervalMove limits m m') : Confined s m'.1 m'.2 := by
  obtain ⟨hwithin, hcurrent⟩ := hc
  cases hm with
  | @take w n rest i hwork hown hroom =>
    obtain ⟨j, hn, hj, _, hunder⟩ := h.pop hwork
    obtain rfl : j = i := Option.some.inj (hj.symm.trans hown)
    constructor
    · intro x hx r hr
      rw [regs_setRegs_of_ne (hunder.ne_current hx)] at hr
      exact hwithin x hx r hr
    · rintro k hk r hr
      injection hk with hk
      rw [← hk, regs_setRegs_self hunder.current_lt] at hr
      exact hwithin n hn r hr
  | skip hwork hown hfull =>
    obtain ⟨_, hn, _⟩ := h.pop hwork
    exact absurd (hb.narrow _ hn) (Nat.not_lt.mpr hfull)
  | mark marker => exact ⟨hwithin, hcurrent⟩
  | @fold w n i hn hfold =>
    constructor
    · intro x hx r hr
      rw [regs_fold_of_ne (h.ne_current hx)] at hr
      exact hwithin x hx r hr
    · rintro k hk r hr
      injection hk with hk
      rw [← hk, regs_fold_self h.current_lt] at hr
      rcases RegSet.mem_union.mp hr with hr | hr
      · exact hcurrent i rfl r hr
      · exact hwithin n hn r hr
  | @leave w w' i hleaves hscanned =>
    constructor
    · intro x hx r hr
      rw [hleaves.opens.members] at hx
      rw [hleaves.opens.sameBodies.regs] at hr
      exact hwithin x hx r hr
    · intro k hk
      injection hk

theorem Contained.moves (h : Contained base limits.budget s m.1 m.2)
    (hm : ReflTransGen (IntervalMove limits) m m') :
    Contained base limits.budget s m'.1 m'.2 := by
  induction hm with
  | refl => exact h
  | tail _ hstep ih =>
    exact ⟨ih.under.move hstep, ih.under.bounded_move ih.bounded hstep,
      ih.under.confined_move ih.bounded ih.confined hstep⟩

theorem Twin.contained (ht : Twin w w') (h : Contained base budget s current w) :
    Contained base budget s current w' := by
  have halike : Alike .interval w w' := by
    refine ⟨ht.members, ht.opened, ht.worklist, ?_, ?_, ?_, ?_⟩ <;> rw [ht.graph]
  refine ⟨h.under.alike halike, ⟨?_, ?_, ?_⟩, ⟨?_, ?_⟩⟩
  · rw [ht.members, ht.graph]
    exact h.bounded.narrow
  · rw [ht.members, ht.graph, ht.opened]
    exact h.bounded.bound
  · rw [ht.members, ht.graph]
    exact h.bounded.held
  · rw [ht.members, ht.graph]
    exact h.confined.within
  · rw [ht.graph]
    exact h.confined.current

/-! ### Passes that always have room -/

/-- With room for all registers, a free interval is folded iff all its predecessors are in
the coarse interval. -/
theorem Contained.foldIfAdmitted_ends (h : Contained base budget s (some i) w)
    (hl : limits.Roomy s) (hn : n ∈ w.members) :
    Ends (Pass.foldIfAdmitted limits i n) w fun _ u => ∃ marker,
      ((w.graph.owner .interval n = none ∧
          ∀ p ∈ w.graph.preds .interval n, w.graph.owner .interval p = some i) ∧
        u = Workspace.fold i n (w.graph.regs .interval i ∪ w.graph.regs .interval n)
          { w with marker }) ∨
      (¬ (w.graph.owner .interval n = none ∧
          ∀ p ∈ w.graph.preds .interval n, w.graph.owner .interval p = some i) ∧
        u = { w with marker }) := by
  refine (KernelIntervals.foldIfAdmitted_ends h.under hn).mono ?_
  rintro _ u ⟨marker, ⟨hrefused, rfl⟩ | ⟨hfold, rfl⟩⟩
  · refine ⟨marker, .inr ⟨?_, rfl⟩⟩
    rintro ⟨hfree, hpreds⟩
    refine hl _ (fun r hr => ?_) (hrefused hfree hpreds (h.bounded.held i rfl).2)
    rcases RegSet.mem_union.mp hr with hr | hr
    · exact h.confined.current i rfl r hr
    · exact h.confined.within n hn r hr
  · exact ⟨marker, .inl ⟨⟨hfold.free, hfold.preds⟩, rfl⟩⟩

theorem mirrors_foldIfAdmitted (h : Contained base budget s (some i) w) (hl : limits.Roomy s)
    (hl' : limits'.Roomy s) (hn : n ∈ w.members) (ht : Twin w w') :
    Mirrors (Pass.foldIfAdmitted limits i n) (Pass.foldIfAdmitted limits' i n) w w' := by
  intro a u hu
  have hn' : n ∈ w'.members := ht.members ▸ hn
  obtain ⟨b, u', hu', marker', hend'⟩ := (ht.contained h).foldIfAdmitted_ends hl' hn'
  obtain ⟨marker, hend⟩ := (h.foldIfAdmitted_ends hl hn).of_eq_ok hu
  refine ⟨u', hu', ?_⟩
  rw [ht.graph] at hend'
  rcases hend with ⟨hadm, rfl⟩ | ⟨hnot, rfl⟩
  · rcases hend' with ⟨_, rfl⟩ | ⟨hnot, _⟩
    · exact ⟨rfl, ht.members, ht.opened, ht.worklist⟩
    · exact absurd hadm hnot
  · rcases hend' with ⟨hadm, _⟩ | ⟨_, rfl⟩
    · exact absurd hadm hnot
    · exact ⟨rfl, ht.members, ht.opened, ht.worklist⟩

/-- Folding keeps a pass within its bounds. -/
theorem Contained.foldIfAdmitted (h : Contained base limits.budget s (some i) w)
    (hn : n ∈ w.members) (hok : Pass.foldIfAdmitted limits i n w = .ok () u) :
    Contained base limits.budget s (some i) u ∧ u.members = w.members := by
  have hmark : ∀ marker, IntervalMove limits (some i, w) (some i, { w with marker }) :=
    fun marker => .mark marker
  obtain ⟨marker, ⟨_, rfl⟩ | ⟨hfold, rfl⟩⟩ :=
    (KernelIntervals.foldIfAdmitted_ends h.under hn).of_eq_ok hok
  · exact ⟨Contained.moves (m := (some i, w)) h (.single (hmark marker)), rfl⟩
  · exact ⟨Contained.moves (m := (some i, w)) h (.tail (.single (hmark marker)) (.fold hn hfold)),
      rfl⟩

/-- The scans of a coarse interval do the same. -/
theorem mirrors_scan (h : Contained base limits.budget s (some i) w) (hl : limits.Roomy s)
    (hl' : limits'.Roomy s) (ht : Twin w w') :
    Mirrors (w.members.forM (Pass.foldIfAdmitted limits i))
      (w'.members.forM (Pass.foldIfAdmitted limits' i)) w w' := by
  rw [ht.members]
  refine mirrors_forM (P := fun u => Contained base limits.budget s (some i) u ∧
    u.members = w.members) ?_ ?_ ⟨h, rfl⟩ ht
  · rintro n hn u u' ⟨hu, hmembers⟩ htwin
    exact mirrors_foldIfAdmitted hu hl hl' (hmembers ▸ hn) htwin
  · rintro n hn u v ⟨hu, hmembers⟩ hok
    obtain ⟨hv, hsame⟩ := hu.foldIfAdmitted (hmembers ▸ hn) hok
    exact ⟨hv, hsame.trans hmembers⟩

/-- Visits do the same. -/
theorem mirrors_visitInterval {rest : List IntervalId} (h : Contained base limits.budget s none w)
    (hl : limits.Roomy s) (hl' : limits'.Roomy s) (hbudget : limits'.budget = limits.budget)
    (hwork : w.worklist = n :: rest) (ht : Twin w w') :
    Mirrors (Pass.visitInterval limits n) (Pass.visitInterval limits' n)
      { w with worklist := rest } { w' with worklist := rest } := by
  obtain ⟨i, hn, hown, halone, hunder⟩ := h.under.pop hwork
  have htwin : Twin { w with worklist := rest } { w' with worklist := rest } :=
    ⟨ht.graph, ht.members, ht.opened, rfl⟩
  refine mirrors_bind (blind_query _ _ _ htwin) fun v u u' hquery hu => ?_
  obtain ⟨hv, rfl⟩ := Pass.query_eq_ok hquery
  have hv : w.graph.interval? n = some v := hv
  have hnext : v.nextLevel = some i := (FlowGraph.see_of_interval? hv _ _).symm.trans hown
  have hregs : w.graph.regs .interval n = v.regs := FlowGraph.see_of_interval? hv _ _
  rw [hnext, ← hregs, hbudget]
  show Mirrors (if (w.graph.regs .interval n).size < limits.budget then _ else _)
    (if (w.graph.regs .interval n).size < limits.budget then _ else _) _ _
  by_cases hroom : (w.graph.regs .interval n).size < limits.budget
  · rw [if_pos hroom, if_pos hroom]
    refine mirrors_bind ?_ fun _ v v' _ htwin => Pass.blind_openFrontier _ _ v v' htwin
    refine mirrors_bind (blind_edit _ _ _ hu) fun _ v v' hok htwin => ?_
    -- The coarse interval starts with the registers of the interval that is taken.
    obtain rfl : v = Workspace.setRegs { w with worklist := rest } i
        (w.graph.regs .interval n) := by
      obtain ⟨c, hc⟩ : ∃ c, w.graph.interval? i = some c := Arena.exists_get? hunder.current_lt
      have hend : Ends (Pass.edit (Edit.updateInterval i
          ({ · with regs := w.graph.regs .interval n }))) { w with worklist := rest } fun _ v =>
            v = Workspace.setRegs { w with worklist := rest } i (w.graph.regs .interval n) :=
        Pass.ends_edit (Edit.ends_updateInterval hc rfl)
      exact hend.of_eq_ok hok
    have htaken : Contained base limits.budget s (some i) _ :=
      Contained.moves (m := (none, w)) h (.single (.take hwork hown hroom))
    exact mirrors_of_eq_ok rfl rfl (mirrors_scan htaken hl hl' htwin)
  · rw [if_neg hroom, if_neg hroom]
    exact Pass.blind_openFrontier _ _ _ _ hu

/-- Visits keep a pass within its bounds. -/
theorem Contained.visitInterval {rest : List IntervalId}
    (h : Contained base limits.budget s none w) (hwork : w.worklist = n :: rest)
    (hok : Pass.visitInterval limits n { w with worklist := rest } = .ok () u) :
    Contained base limits.budget s none u := by
  obtain ⟨_, _, _, hturn⟩ := (visitInterval_ends h.under hwork).of_eq_ok hok
  exact Contained.moves (m := (none, w)) h hturn.moves

/-- Limits have room for all registers of a set below the budget, if the scope asks for no
others. -/
theorem CoarsenLimits.roomy (hbudget : limits.budget = budget)
    (heverything : limits.scope = .global → limits.everything = s) (hroom : s.size < budget) :
    limits.Roomy s := by
  rintro regs hregs (hfull | ⟨hglobal, hfull⟩)
  · have hle := RegSet.size_le hregs
    omega
  · rw [heverything hglobal] at hfull
    omega

/-- If the registers of all listed intervals are below the budget, passes with either scope do
the same on all workspaces with one graph. -/
theorem Valid.mirrors_coarsen (hv : Valid w.graph intervals)
    (hfits : ∀ i ∈ intervals, Fits budget (w.graph.regs .interval i))
    (hroom : (w.graph.unionRegs intervals).size < budget) (hgraph : w'.graph = w.graph)
    (scope scope' : UnionScope) :
    Mirrors (Pass.coarsen budget scope intervals) (Pass.coarsen budget scope' intervals) w w' := by
  obtain ⟨w₁, limits, w₂, hpass⟩ := hv.secondPass_exists budget scope
  obtain ⟨hbudget, hscope, heverything⟩ := hpass.limits_eq hv.exist
  have hne : budget ≠ 0 := by omega
  rw [Pass.coarsen, Pass.coarsen, if_neg hne, if_neg hne]
  refine mirrors_bind (Pass.mirrors_start .interval intervals hgraph) fun _ u u' hu ht => ?_
  obtain rfl : u = w₁ := by
    have heq := hu.symm.trans hpass.started
    injection heq
  have hunion : u.graph.unionRegs intervals = w.graph.unionRegs intervals := by
    rw [FlowGraph.unionRegs, FlowGraph.unionRegs, hpass.regs_start]
  -- Each pass has limits of its own.
  obtain ⟨limits', _, hlimited', rfl, hbudget', hscope', heverything'⟩ :
      Ends (Pass.coarsenLimits budget scope' intervals) u' _ := by
    obtain ⟨⟨⟨opener, hunder⟩, _⟩, _⟩ := id hpass.under
    refine coarsenLimits_ends budget scope' fun i hi => ?_
    rw [ht.graph]
    exact hunder.exists_node i (hpass.members.1.symm ▸ hi)
  rw [ht.graph, hunion] at heverything'
  have hl : limits.Roomy (w.graph.unionRegs intervals) :=
    CoarsenLimits.roomy hbudget (fun hglobal => heverything (hscope ▸ hglobal)) hroom
  have hl' : limits'.Roomy (w.graph.unionRegs intervals) :=
    CoarsenLimits.roomy hbudget' (fun hglobal => heverything' (hscope' ▸ hglobal)) hroom
  have hstart : Contained w.graph.intervals.size limits.budget (w.graph.unionRegs intervals)
      none u := by
    refine ⟨hpass.under, hpass.bounded_start hv.exist hfits, fun i hi r hr => ?_, fun i hi => ?_⟩
    · rw [hpass.members.1] at hi
      rw [hpass.regs_start] at hr
      exact FlowGraph.mem_unionRegs.mpr ⟨i, hi, hr⟩
    · injection hi
  refine mirrors_of_eq_ok hpass.limited hlimited' (mirrors_bind ?_ fun _ v v' _ hv => ?_)
  · refine mirrors_drain (fun n rest x x' hx hwork htwin => ?_)
      (fun n rest x x₁ hx hwork hok => hx.visitInterval hwork hok) hstart ht
    exact mirrors_visitInterval hx hl hl' (hbudget'.trans hbudget.symm) hwork htwin
  · refine mirrors_bind (Pass.blind_complete _ _ v v' hv) fun _ v v' _ hv => ?_
    refine mirrors_bind (Pass.blind_finish v v' hv) fun _ v v' _ hv => ?_
    exact mirrors_bind (Pass.mirrors_report hv _ _) fun _ v v' _ hv => blind_pure _ v v' hv

/-- A pass that lowered the number of intervals is followed by others. -/
theorem coarsenToFixpoint_of_lt (hok : Pass.coarsen budget scope intervals w = .ok coarser w₁)
    (hsilent : watch ⟨done + 1, coarser, w₁.graph⟩ = none)
    (hless : coarser.length < intervals.length) : ∃ log,
    (coarsenToFixpoint budget scope watch done intervals w).2 =
      (coarsenToFixpoint budget scope watch (done + 1) coarser { w₁ with log }).2 := by
  rw [coarsenToFixpoint_eq_cons hok hsilent hless]
  exact ⟨_, rfl⟩

/-- A pass that kept the number of intervals is the last one. -/
theorem coarsenToFixpoint_of_not_lt
    (hok : Pass.coarsen budget scope intervals w = .ok coarser w₁)
    (hsilent : watch ⟨done + 1, coarser, w₁.graph⟩ = none)
    (hless : ¬ coarser.length < intervals.length) : ∃ log,
    (coarsenToFixpoint budget scope watch done intervals w).2 =
      .ok ⟨coarser, done + 1⟩ { w₁ with log } := by
  rw [coarsenToFixpoint_eq_last hok hsilent hless]
  exact ⟨_, rfl⟩

/-- If the registers of all listed intervals are below the budget, all passes with either
scope do the same. -/
theorem Groupable.mirrors_coarsenToFixpoint (h : Groupable budget w.graph intervals)
    (hroom : (w.graph.unionRegs intervals).size < budget) (scope scope' : UnionScope)
    (hok : (coarsenToFixpoint budget scope watch done intervals w).2 = .ok fp u) :
    ∀ w' : Workspace, w'.graph = w.graph → ∃ u',
      (coarsenToFixpoint budget scope' watch done intervals w').2 = .ok fp u' ∧
        u'.graph = u.graph := by
  fun_induction coarsenToFixpoint budget scope watch done intervals w with
  | case1 => injection hok
  | case2 => injection hok
  | case3 done intervals w coarser w₁ hpass round w₂ hsilent hless rounds result hrest ih =>
    intro w' hgraph
    obtain ⟨w₁', hpass', htwin⟩ :=
      h.valid.mirrors_coarsen h.fits hroom hgraph scope scope' _ _ hpass
    have hsilent' : watch ⟨done + 1, coarser, w₁'.graph⟩ = none := htwin.graph.symm ▸ hsilent
    obtain ⟨log, hmore⟩ := coarsenToFixpoint_of_lt hpass' hsilent' hless
    have hnext : Groupable budget w₁.graph coarser := h.next hpass
    -- The registers of the coarse intervals are among those there were.
    have hroom₁ : (w₁.graph.unionRegs coarser).size < budget := by
      refine Nat.lt_of_le_of_lt (RegSet.size_le fun r hr => ?_) hroom
      obtain ⟨j, hj, hr⟩ := FlowGraph.mem_unionRegs.mp hr
      have hwithin : Within (w.graph.unionRegs intervals) w₁.graph coarser :=
        h.valid.within hpass fun i hi r hr => FlowGraph.mem_unionRegs.mpr ⟨i, hi, hr⟩
      exact hwithin j hj r hr
    rw [hmore]
    refine ih hnext hroom₁ ?_ _ htwin.graph
    rw [hrest]
    exact hok
  | case4 done intervals w coarser w₁ hpass round w₂ hsilent hless =>
    intro w' hgraph
    obtain ⟨w₁', hpass', htwin⟩ :=
      h.valid.mirrors_coarsen h.fits hroom hgraph scope scope' _ _ hpass
    have hsilent' : watch ⟨done + 1, coarser, w₁'.graph⟩ = none := htwin.graph.symm ▸ hsilent
    obtain ⟨log, hlast⟩ := coarsenToFixpoint_of_not_lt hpass' hsilent' hless
    injection hok with hfp hu
    rw [hlast, ← hfp, ← hu]
    exact ⟨_, rfl, htwin.graph⟩

/-! ### Passes that never have room -/

/-- If the registers of all listed intervals reach the budget, a pass with the global scope
folds nothing. -/
theorem unfoldable_global (hfull : budget ≤ (g.unionRegs intervals).size) :
    Unfoldable budget .global g intervals :=
  fun _ _ _ _ => hfull

/-- The copy of an interval has its instructions. -/
theorem Valid.insts_copied {copy : IntervalId → IntervalId} (hv : Valid w.graph intervals)
    (hok : Pass.coarsen budget scope intervals w = .ok coarser w')
    (hcopied : Copied w.graph intervals w'.graph coarser copy) (hi : i ∈ intervals) :
    w'.graph.insts .interval (copy i) = w.graph.insts .interval i := by
  obtain ⟨hkept, opener, hend⟩ := hv.coarsen_eq_ok hok
  have hmem : copy i ∈ coarser := hcopied.perm.mem_iff.mpr (List.mem_map_of_mem hi)
  -- The interval is the only member of its copy.
  have hself : (intervals.filter fun n => w'.graph.owner .interval n = some (copy i)) = [i] := by
    have hsame : ∀ n ∈ intervals,
        decide (w'.graph.owner .interval n = some (copy i)) = (n == i) := by
      intro n hn
      rw [hcopied.owner n hn, Bool.eq_iff_iff, decide_eq_true_iff, beq_iff_eq]
      exact ⟨fun heq => hcopied.inj n hn i hi (Option.some.inj heq), fun heq => heq ▸ rfl⟩
    rw [List.filter_congr hsame, List.filter_beq, hv.nodup.count, if_pos hi]
    rfl
  rw [hend.insts _ hmem]
  show (intervals.filter fun n => w'.graph.owner .interval n = some (copy i)).flatMap _ = _
  rw [hself, List.flatMap_singleton, hkept.insts i (hv.exist i hi)]

/-- If the registers of all listed intervals reach the budget, a pass with the global scope
copies the list. -/
theorem Groupable.copied_global (h : Groupable budget w.graph intervals) (hbudget : 1 ≤ budget)
    (hfull : budget ≤ (w.graph.unionRegs intervals).size) :
    ∃ coarser w' copy, Pass.coarsen budget .global intervals w = .ok coarser w' ∧
      Copied w.graph intervals w'.graph coarser copy ∧
      ∀ i ∈ intervals, w'.graph.insts .interval (copy i) = w.graph.insts .interval i := by
  obtain ⟨coarser, w', hok⟩ := h.coarsen .global hbudget
  obtain ⟨copy, hcopied⟩ := h.copied hok (unfoldable_global hfull)
  exact ⟨coarser, w', copy, hok, hcopied, fun i hi => h.valid.insts_copied hok hcopied hi⟩

/-! ### Both scopes -/

/-- How runs of the second pass and coarsening until it no longer helps depend on the scope. -/
structure ScopesCompared (budget : Nat) (intervals : List IntervalId) (state : LoggedGraph) :
    Prop where
  /-- If the registers of all intervals are below the budget, both scopes make the same
  coarse intervals of the same graph. -/
  same : (state.graph.unionRegs intervals).size < budget → ∀ scratch scratch',
    let wide := IntervalGrouper.run ⟨budget, .global, scratch⟩ intervals state
    let narrow := IntervalGrouper.run ⟨budget, .ancestors, scratch'⟩ intervals state
    ∃ coarser, wide.result = .ok coarser ∧ narrow.result = .ok coarser ∧
      narrow.state.graph = wide.state.graph
  /-- If they reach the budget, the global scope copies every interval. -/
  copied : budget ≤ (state.graph.unionRegs intervals).size → ∀ scratch,
    let wide := IntervalGrouper.run ⟨budget, .global, scratch⟩ intervals state
    ∃ coarser copy, wide.result = .ok coarser ∧ coarser.length = intervals.length ∧
      Copied state.graph intervals wide.state.graph coarser copy ∧
      ∀ i ∈ intervals, wide.state.graph.insts .interval (copy i) = state.graph.insts .interval i
  /-- All passes end with no more intervals when the scope is that of ancestors, and after one
  pass when the scope is global and the registers of all intervals reach the budget. -/
  converged : ∃ wide narrow,
    (converge budget .global (fun _ => none) intervals state).2.result = .ok wide ∧
    (converge budget .ancestors (fun _ => none) intervals state).2.result = .ok narrow ∧
    narrow.intervals.length ≤ wide.intervals.length ∧
    (budget ≤ (state.graph.unionRegs intervals).size → wide.iterations = 1)

theorem result_of_eq_ok {fp : Fixpoint} {state : LoggedGraph}
    (h : (coarsenToFixpoint budget scope watch 0 intervals (state.workspace {})).2 = .ok fp u) :
    (converge budget scope watch intervals state).2.result = .ok fp := by
  have hpasses : (converge budget scope watch intervals state).2 = .ofResult (.ok fp u) :=
    congrArg Outcome.ofResult h
  rw [hpasses]
  rfl

/-- All passes end with no more intervals than they were given. -/
theorem Groupable.length_le (h : Groupable budget w.graph intervals)
    (hok : (coarsenToFixpoint budget scope watch done intervals w).2 = .ok fp u) :
    fp.intervals.length ≤ intervals.length := by
  refine (coarsenToFixpoint_induction
    (P := fun g coarser => Valid g coarser ∧ coarser.length ≤ intervals.length)
    ?_ hok ⟨h.valid, Nat.le_refl _⟩).2
  rintro coarse coarser w w' ⟨hv, hle⟩ hpass
  have hcoarsened := hv.coarsened hpass
  exact ⟨hcoarsened.valid, Nat.le_trans hcoarsened.length_le hle⟩

/-- Over a valid list whose registers fit, the scopes come to the same if the registers of all
intervals are below the budget. Otherwise the global one folds nothing. -/
theorem scopes_compare (budget : Nat) (intervals : List IntervalId) (state : LoggedGraph)
    (hbudget : 1 ≤ budget) (hv : Valid state.graph intervals)
    (hfits : ∀ i ∈ intervals, Fits budget (state.graph.regs .interval i)) :
    ScopesCompared budget intervals state := by
  have hgroupable : ∀ scratch, Groupable budget (state.workspace scratch).graph intervals :=
    fun _ => ⟨hv, hfits⟩
  refine ⟨fun hroom scratch scratch' => ?_, fun hfull scratch => ?_, ?_⟩
  · intro wide narrow
    obtain ⟨coarser, u, hok⟩ := (hgroupable scratch).coarsen .global hbudget
    have hgraph : (state.workspace scratch').graph = (state.workspace scratch).graph := rfl
    obtain ⟨u', hok', htwin⟩ := (hgroupable scratch).valid.mirrors_coarsen hfits hroom hgraph
      .global .ancestors _ _ hok
    have hwide : wide = .ofResult (.ok coarser u) := congrArg Outcome.ofResult hok
    have hnarrow : narrow = .ofResult (.ok coarser u') := congrArg Outcome.ofResult hok'
    rw [hwide, hnarrow]
    exact ⟨coarser, rfl, rfl, htwin.graph⟩
  · intro wide
    obtain ⟨coarser, u, copy, hok, hcopied, hinsts⟩ :=
      (hgroupable scratch).copied_global hbudget hfull
    have hwide : wide = .ofResult (.ok coarser u) := congrArg Outcome.ofResult hok
    rw [hwide]
    exact ⟨coarser, copy, rfl, hcopied.length_eq, hcopied, hinsts⟩
  · by_cases hfull : budget ≤ (state.graph.unionRegs intervals).size
    · obtain ⟨coarser, u, copy, hok, hcopied, _⟩ :=
        (hgroupable {}).copied_global hbudget hfull
      obtain ⟨narrow, u', hok', _⟩ :=
        (hgroupable {}).converged .ancestors 0 hbudget fun _ => rfl
      obtain ⟨log, hlast⟩ : ∃ log, (coarsenToFixpoint budget .global (fun _ => none) 0 intervals
          (state.workspace {})).2 = .ok ⟨coarser, 1⟩ { u with log } :=
        coarsenToFixpoint_of_not_lt hok rfl (Nat.not_lt.mpr (Nat.le_of_eq hcopied.length_eq.symm))
      refine ⟨_, narrow, result_of_eq_ok hlast, result_of_eq_ok hok', ?_, fun _ => rfl⟩
      exact Nat.le_trans ((hgroupable {}).length_le hok') (Nat.le_of_eq hcopied.length_eq.symm)
    · obtain ⟨wide, u, hok, _⟩ :=
        (hgroupable {}).converged .global 0 hbudget fun _ => rfl
      obtain ⟨u', hok', _⟩ := (hgroupable {}).mirrors_coarsenToFixpoint (Nat.lt_of_not_le hfull)
        .global .ancestors hok (state.workspace {}) rfl
      exact ⟨wide, wide, result_of_eq_ok hok, result_of_eq_ok hok', Nat.le_refl _,
        fun hle => absurd hle hfull⟩

/-- The three intervals of a first pass have four registers together, which leave no room for
a fold at a budget of 4 if the scope is global. -/
theorem compared_carvedLoops :
    let state := (BlockGrouper.run ⟨4, {}⟩ [0, 1, 2] carvedLoops).state
    1 ≤ 4 ∧ Valid state.graph [0, 1, 2] ∧
    (∀ i ∈ [0, 1, 2], Fits 4 (state.graph.regs .interval i)) ∧
    4 ≤ (state.graph.unionRegs [0, 1, 2]).size ∧
    (IntervalGrouper.run ⟨4, .global, {}⟩ [0, 1, 2] state).result = .ok [3, 4, 5] ∧
    (IntervalGrouper.run ⟨4, .ancestors, {}⟩ [0, 1, 2] state).result = .ok [3, 4] ∧
    ScopesCompared 4 [0, 1, 2] state := by
  intro state
  obtain ⟨_, _, _, _, _, _, opener, hend⟩ := run_eq_ok (by decide) run_carvedLoops
  exact ⟨by decide, hend.valid, hend.fits, by decide +kernel, by decide +kernel,
    by decide +kernel, scopes_compare 4 [0, 1, 2] state (by decide) hend.valid hend.fits⟩

end KernelIntervals
