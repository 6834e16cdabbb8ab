/-
The second pass with the footprint alone held against the budget.

* `Pass.footprintOnly` — the registers of a coarse interval with a candidate in it, found
  without a look at ancestors,
* `Pass.visitIntervalIf` — a visit in which intervals are admitted in any way,
* `IntervalGrouper.runByFootprint` — a run that admits them by the footprint,
* `FlowGraph.roomFor?` — what the decision about an interval comes to in both ways,
* `Loose` — what a pass keeps over any closed list of intervals,
* `sameEnd_coarsenByFootprint` — both passes come to the same over such a list,
* `ancestor_tests_redundant` — so do both runs, and those of the first pass.

Design notes: the listed intervals may follow themselves, and a cycle that nothing leads to
may be listed, so regions need not have one entry (`Under` is not at hand). All that the tests
depend on is that a waiting interval is alone in its coarse interval, and that no coarse
interval is listed.
-/
import KernelIntervals.Proofs.BlockFootprint
import KernelIntervals.Proofs.Quotients
import KernelIntervals.Proofs.Reuse

namespace KernelIntervals

open Function

namespace Pass

/-- The registers of a coarse interval with a candidate in it, if the candidate may be folded
into it and there is room for them. -/
def footprintOnly (budget : Nat) (coarse n : IntervalId) : Pass (Option RegSet) := do
  let node ← query (·.node? .interval n)
  if node.owner.isSome then return none
  let inside ← query fun g =>
    node.preds.allM fun p => if p = n then some true else g.ownedBy? .interval coarse p
  if !inside then return none
  let interval ← query (·.interval? coarse)
  let regs := interval.regs ∪ node.regs
  if budget ≤ regs.size then return none
  return some regs

section Visits

variable (grant : IntervalId → IntervalId → Pass (Option RegSet))

/-- Folds an interval into a coarse one, if it is admitted. -/
def foldIf (coarse n : IntervalId) : Pass Unit := do
  match ← grant coarse n with
  | none => return
  | some regs => modify (Workspace.fold coarse n regs)

/-- Folds the intervals that are admitted into a coarse interval, which starts with the registers
of its first member. -/
def growCoarseIf (coarse : IntervalId) (regs : RegSet) : Pass Unit := do
  edit (Edit.updateInterval coarse ({ · with regs }))
  (← get).members.forM (foldIf grant coarse)

/-- Visits a waiting interval; `grant` tells which intervals may be folded into its coarse
interval. -/
def visitIntervalIf (budget : Nat) (n : IntervalId) : Pass Unit := do
  let interval ← query (·.interval? n)
  match interval.nextLevel with
  | none => fail (.malformed (.unownedInterval n))
  | some coarse =>
    if interval.regs.size < budget then growCoarseIf grant coarse interval.regs
    openFrontier .interval coarse

end Visits

theorem visitIntervalIf_footprint (limits : CoarsenLimits) :
    visitIntervalIf (footprint limits) limits.budget = visitInterval limits := rfl

/-! ### The work left -/

theorem footprintOnly_work (budget : Nat) (coarse n : IntervalId) :
    Respects noMoreIntervalWork (footprintOnly budget coarse n) := by
  refine respects_bind (respects_query _) fun node => respects_ite (respects_pure _) ?_
  refine respects_bind (respects_query _) fun inside => respects_ite (respects_pure _) ?_
  exact respects_bind (respects_query _) fun interval =>
    respects_ite (respects_pure _) (respects_pure _)

theorem visitIntervalIf_work_le {grant : IntervalId → IntervalId → Pass (Option RegSet)}
    (hgrant : ∀ i n, Respects noMoreIntervalWork (grant i n)) (budget : Nat) (n : IntervalId) :
    Respects noMoreIntervalWork (visitIntervalIf grant budget n) := by
  have hfold : ∀ i n, Respects noMoreIntervalWork (foldIf grant i n) := by
    refine fun i n => respects_bind (hgrant i n) fun regs => ?_
    cases regs with
    | none => exact respects_pure ()
    | some regs => exact respects_modify (fold_work i n regs)
  refine respects_bind (respects_query _) fun interval => ?_
  split
  next => exact respects_fail _
  next coarse _ =>
    split
    · refine respects_bind (respects_bind (setRegs_interval_work coarse _) fun _ => ?_) fun _ =>
        openFrontier_interval_work coarse
      exact respects_bind respects_get fun w => respects_forM fun n _ => hfold coarse n
    · exact openFrontier_interval_work coarse

end Pass

/-! ### The pass -/

theorem footprintIntervalVisit_work_lt (budget : Nat) {n : IntervalId} {rest : List IntervalId}
    {w w' : Workspace} (hwork : w.worklist = n :: rest)
    (hvisit : Pass.visitIntervalIf (Pass.footprintOnly budget) budget n
      { w with worklist := rest } = .ok () w') : intervalWork w' < intervalWork w := by
  have hrel := Pass.visitIntervalIf_work_le (Pass.footprintOnly_work budget) budget n hvisit
  have hle := hrel.2.2.2
  simp only [intervalWork, Workspace.targets] at hle ⊢
  rw [hwork, List.length_cons]
  omega

/-- The visits of the second pass by footprint. -/
def footprintIntervalVisit (budget : Nat) : Visit where
  visit := Pass.visitIntervalIf (Pass.footprintOnly budget) budget
  work := intervalWork
  work_lt := @footprintIntervalVisit_work_lt budget

/-- Groups intervals into coarser ones by footprint. -/
def Pass.coarsenByFootprint (budget : Nat) (intervals : List IntervalId) :
    Pass (List IntervalId) := do
  if budget = 0 then fail .zeroBudget
  start .interval intervals
  drain (footprintIntervalVisit budget)
  complete .interval budget
  let (_, coarser) ← finish
  report (.intervalsGrouped intervals.length coarser.length UnionScope.ancestors.name)
  return coarser

/-- Groups some intervals by footprint. -/
def IntervalGrouper.runByFootprint (p : IntervalGrouper) (intervals : List IntervalId)
    (state : LoggedGraph) : Outcome (List IntervalId) :=
  .ofResult (Pass.coarsenByFootprint p.budget intervals (state.workspace p.scratch))

/-! ### What a pass over a closed list keeps -/

/-- A pass over a closed list of intervals is under way, in a visit of the coarse interval
`current` if there is one. -/
structure Loose (base : Nat) (current : Option IntervalId) (w : Workspace) : Prop where
  below : ∀ n ∈ w.members, n < base
  base_le : base ≤ w.graph.intervals.size
  closed : (w.net .interval).Closed
  waiting : Waiting (w.net .interval) (w.graph.owner .interval) w.worklist
  owners : ∀ n ∈ w.members, ∀ i, w.graph.owner .interval n = some i →
    base ≤ i ∧ i < w.graph.intervals.size
  idle : ∀ i, current = some i → (base ≤ i ∧ i < w.graph.intervals.size) ∧
    ∀ m ∈ w.worklist, w.graph.owner .interval m ≠ some i

variable {base budget : Nat} {current : Option IntervalId} {w w' : Workspace} {n i : IntervalId}
  {intervals rest : List IntervalId}

theorem Sound.loose (h : Sound .interval base none w) : Loose base none w := by
  obtain ⟨⟨opener, hu⟩, _⟩ := h
  refine ⟨hu.below_base rfl, hu.base_le, hu.closed, hu.waiting, fun n hn i hown => ?_, ?_⟩
  · exact hu.opened_range i (hu.grouped.mem_opened hn hown)
  · intro i hi
    injection hi

namespace Loose

theorem lt_extent (h : Loose base current w) (hn : n ∈ w.members) :
    n < w.graph.extent .interval :=
  Nat.lt_of_lt_of_le (h.below n hn) h.base_le

theorem pred_mem (h : Loose base current w) :
    ∀ x ∈ w.members, ∀ p ∈ w.graph.preds .interval x, p ∈ w.members :=
  fun _ hx _ hp => h.closed.pred_mem hx hp

/-- The coarse interval that is visited is none of the intervals that are grouped. -/
theorem ne_current (h : Loose base (some i) w) (hn : n ∈ w.members) : i ≠ n :=
  Nat.ne_of_gt (Nat.lt_of_lt_of_le (h.below n hn) (h.idle i rfl).1.1)

theorem alike (h : Loose base current w) (ha : Alike .interval w w') : Loose base current w' := by
  have hsize : w'.graph.intervals.size = w.graph.intervals.size :=
    congrFun ha.extent .interval
  refine ⟨?_, ?_, ?_, ?_, ?_, ?_⟩
  · rw [ha.members]
    exact h.below
  · rw [hsize]
    exact h.base_le
  · rw [ha.net]
    exact h.closed
  · rw [ha.net, ha.owner, ha.worklist]
    exact h.waiting
  · rw [ha.members, ha.owner, hsize]
    exact h.owners
  · rw [ha.worklist, ha.owner, hsize]
    exact h.idle

theorem openGroup (h : Loose base current w) (hn : n ∈ w.members)
    (hfree : w.graph.owner .interval n = none) :
    Loose base current (w.openGroup .interval n) := by
  have howner := owner_openGroup (h.lt_extent hn)
  have hfresh : ∀ m ∈ w.members, w.graph.owner .interval m ≠ some w.graph.intervals.size :=
    fun m hm hown => Nat.lt_irrefl _ (h.owners m hm _ hown).2
  refine ⟨h.below, ?_, ?_, ?_, fun m hm j hown => ?_, fun j hj => ?_⟩
  · rw [size_openGroup]
    exact Nat.le_succ_of_le h.base_le
  · rw [net_openGroup]
    exact h.closed
  · rw [net_openGroup, howner]
    exact h.waiting.start hn hfree hfresh
  · rw [howner] at hown
    rw [size_openGroup]
    by_cases hmn : m = n
    · rw [hmn, update_self] at hown
      rw [← Option.some.inj hown]
      exact ⟨h.base_le, Nat.lt_succ_self _⟩
    · rw [update_of_ne hmn] at hown
      exact (h.owners m hm j hown).imp_right Nat.lt_succ_of_lt
  · obtain ⟨⟨hle, hlt⟩, hidle⟩ := h.idle j hj
    rw [size_openGroup, howner]
    refine ⟨⟨hle, Nat.lt_succ_of_lt hlt⟩, fun m hm hown => ?_⟩
    rcases List.mem_append.mp hm with hm | hm
    · exact h.waiting.idle_claim hfree hidle m hm hown
    · rw [List.mem_singleton.mp hm, update_self] at hown
      exact Nat.ne_of_gt hlt (Option.some.inj hown)

/-- A free interval is folded into the coarse interval that is visited. -/
theorem fold (h : Loose base (some i) w) (hn : n ∈ w.members)
    (hfree : w.graph.owner .interval n = none) (regs : RegSet) :
    Loose base (some i) (w.fold i n regs) := by
  have howner := owner_fold (i := i) (h.lt_extent hn) regs
  have hnet : (w.fold i n regs).net .interval = w.net .interval :=
    (alike_fold w i n regs).net.trans net_assign
  have hsize : (w.fold i n regs).graph.intervals.size = w.graph.intervals.size := by
    refine (congrFun (alike_fold w i n regs).extent .interval).trans ?_
    show (w.graph.assign .interval n (some i)).extent .interval = _
    rw [FlowGraph.extent_assign]
    rfl
  obtain ⟨hrange, hidle⟩ := h.idle i rfl
  refine ⟨h.below, ?_, ?_, ?_, fun m hm j hown => ?_, ?_⟩
  · rw [hsize]
    exact h.base_le
  · rw [hnet]
    exact h.closed
  · rw [hnet, howner]
    exact h.waiting.join hfree hidle
  · rw [howner] at hown
    rw [hsize]
    by_cases hmn : m = n
    · rw [hmn, update_self] at hown
      exact Option.some.inj hown ▸ hrange
    · rw [update_of_ne hmn] at hown
      exact h.owners m hm j hown
  · rintro _ ⟨⟩
    rw [hsize, howner]
    exact ⟨hrange, h.waiting.idle_claim hfree hidle⟩

/-- The first waiting interval is taken: it is alone in its coarse interval. -/
theorem pop (h : Loose base none w) (hwork : w.worklist = n :: rest) :
    ∃ i, n ∈ w.members ∧ w.graph.owner .interval n = some i ∧
      (∀ m ∈ w.members, w.graph.owner .interval m = some i → m = n) ∧
      Loose base (some i) { w with worklist := rest } := by
  have hwaiting := h.waiting
  rw [hwork] at hwaiting
  obtain ⟨hrest, hn, i, hi, halone, hidle⟩ := hwaiting.pop
  refine ⟨i, hn, hi, halone, h.below, h.base_le, h.closed, hrest, h.owners, ?_⟩
  rintro _ ⟨⟩
  exact ⟨h.owners n hn i hi, hidle⟩

theorem leave (h : Loose base current w) : Loose base none w := by
  refine ⟨h.below, h.base_le, h.closed, h.waiting, h.owners, ?_⟩
  intro i hi
  injection hi

end Loose

/-! ### What admission comes to -/

namespace FlowGraph

/-- The registers of a coarse interval with a candidate in it, if there is room for them and it
may be folded. -/
def roomFor? (g : FlowGraph) (budget : Nat) (i n : IntervalId) : Option RegSet :=
  if g.Eligible i n ∧ (g.regs .interval i ∪ g.regs .interval n).size < budget then
    some (g.regs .interval i ∪ g.regs .interval n)
  else none

theorem roomFor?_eq_some {g : FlowGraph} {regs : RegSet} (h : g.roomFor? budget i n = some regs) :
    g.owner .interval n = none ∧ regs = g.regs .interval i ∪ g.regs .interval n := by
  rw [roomFor?] at h
  split at h
  next hroom => exact ⟨hroom.1.1, (Option.some.inj h).symm⟩
  next => injection h

end FlowGraph

/-- The footprint of an interval that may be folded is held against the budget. -/
theorem Loose.room_ends (h : Loose base (some i) w) (heligible : w.graph.Eligible i n)
    {regs : RegSet} (hregs : regs = w.graph.regs .interval n) :
    Ends (do
      let interval ← Pass.query (·.interval? i)
      if budget ≤ (interval.regs ∪ regs).size then return none
      return some (interval.regs ∪ regs)) w fun found w' =>
        found = w.graph.roomFor? budget i n ∧ w' = w := by
  obtain ⟨v, hv⟩ : ∃ v, w.graph.interval? i = some v := Arena.exists_get? (h.idle i rfl).1.2
  have hcoarse : w.graph.regs .interval i = v.regs := FlowGraph.see_of_interval? hv _ _
  refine Ends.bind (Pass.ends_query hv ?_)
  rw [← hcoarse, hregs, FlowGraph.roomFor?]
  by_cases hroom : budget ≤ (w.graph.regs .interval i ∪ w.graph.regs .interval n).size
  · rw [if_pos hroom, if_neg fun hlt => Nat.not_lt.mpr hroom hlt.2]
    exact ends_pure ⟨rfl, rfl⟩
  · rw [if_neg hroom, if_pos ⟨heligible, Nat.lt_of_not_le hroom⟩]
    exact ends_pure ⟨rfl, rfl⟩

theorem footprintOnly_ends (h : Loose base (some i) w) (hn : n ∈ w.members) (budget : Nat) :
    Ends (Pass.footprintOnly budget i n) w fun found w' =>
      found = w.graph.roomFor? budget i n ∧ w' = w := by
  refine eligible_ends (fun _ => h.lt_extent) h.pred_mem hn
    (fun hnot => ⟨(if_neg fun hroom => hnot hroom.1).symm, rfl⟩) ?_
  exact fun heligible node hregs => h.room_ends heligible hregs

/-- The test of the ancestors refuses nothing that the footprint does not refuse. -/
theorem footprint_ancestors_ends (h : Loose base (some i) w) (hs : Summed .interval i w)
    (hn : n ∈ w.members) (budget : Nat) :
    Ends (Pass.footprint ⟨budget, .ancestors, ∅⟩ i n) w fun found w' =>
      found = w.graph.roomFor? budget i n ∧ ∃ marker, w' = { w with marker } := by
  refine eligible_ends (fun _ => h.lt_extent) h.pred_mem hn
    (fun hnot => ⟨(if_neg fun hroom => hnot hroom.1).symm, w.marker, rfl⟩) ?_
  intro heligible node hregs
  refine Ends.bind ((scopeRegs_ends_of_listed (fun _ => h.lt_extent) h.pred_mem hn node).mono ?_)
  rintro held _ ⟨⟨marker, rfl⟩, hagainst⟩
  show Ends (if budget ≤ held.size then _ else _) _ _
  by_cases hheld : budget ≤ held.size
  · have hfull := hagainst.full hheld fun m hm hown r hr => (hs r).mpr ⟨m, hm, hown, hr⟩
    have hroom : budget ≤ (w.graph.regs .interval i ∪ w.graph.regs .interval n).size := by
      rw [← hregs]
      exact hfull.resolve_right fun hglobal => UnionScope.noConfusion hglobal.1
    rw [if_pos hheld]
    exact ends_pure ⟨(if_neg fun hlt => Nat.not_lt.mpr hroom hlt.2).symm, marker, rfl⟩
  · rw [if_neg hheld]
    refine ((h.alike (alike_marker .interval w marker)).room_ends heligible hregs).mono ?_
    rintro _ _ ⟨rfl, rfl⟩
    exact ⟨rfl, marker, rfl⟩

/-! ### Both passes side by side -/

/-- A coarse interval is grown in two workspaces that differ in their marks only, and has the
registers of its members. -/
structure Growing (base : Nat) (i : IntervalId) (members : List IntervalId) (w w' : Workspace) :
    Prop where
  loose : Loose base (some i) w
  summed : Summed .interval i w
  members : w.members = members
  remarked : Remarked w w'

variable {members : List IntervalId} {m : Marker}

theorem Summed.fold (h : Summed .interval i w) (hl : Loose base (some i) w) (hn : n ∈ w.members)
    (hfree : w.graph.owner .interval n = none) : Summed .interval i
      (w.fold i n (w.graph.regs .interval i ∪ w.graph.regs .interval n)) := by
  intro r
  rw [regs_fold_self (hl.idle i rfl).1.2, owner_fold (hl.lt_extent hn), RegSet.mem_union, h r]
  constructor
  · rintro (⟨x, hx, hown, hr⟩ | hr)
    · exact ⟨x, hx, owner_update hfree hown, (regs_fold_of_ne (hl.ne_current hx) _).symm ▸ hr⟩
    · exact ⟨n, hn, update_self .., (regs_fold_of_ne (hl.ne_current hn) _).symm ▸ hr⟩
  · rintro ⟨x, hx, hown, hr⟩
    have hx : x ∈ w.members := hx
    rw [regs_fold_of_ne (hl.ne_current hx)] at hr
    by_cases hxn : x = n
    · exact .inr (hxn ▸ hr)
    · rw [update_of_ne hxn] at hown
      exact .inl ⟨x, hx, hown, hr⟩

/-- The same intervals are folded, with marks and without. -/
theorem Growing.step (h : Growing base i members w w') (hn : n ∈ members) (budget : Nat) :
    Agree (fun _ u _ u' => Growing base i members u u') (fun e u f u' => f = e ∧ Remarked u u')
      (Pass.foldIfAdmitted ⟨budget, .ancestors, ∅⟩ i n w)
      (Pass.foldIf (Pass.footprintOnly budget) i n w') := by
  obtain ⟨hloose, hsummed, rfl, m, rfl⟩ := h
  have hremarked : Loose base (some i) (w.remark m) := hloose.alike (alike_marker .interval w m)
  refine Agree.bind ((footprint_ancestors_ends hloose hsummed hn budget).agree
    (footprintOnly_ends hremarked hn budget) ?_)
  rintro found _ found' _ ⟨hfound, marker, rfl⟩ ⟨hfound', rfl⟩
  obtain rfl : found' = found := hfound'.trans hfound.symm
  have hmarked : Loose base (some i) { w with marker } := hloose.alike (alike_marker ..)
  have hsummed : Summed .interval i { w with marker } := hsummed
  cases found' with
  | none => exact agree_pure ⟨hmarked, hsummed, rfl, m, rfl⟩
  | some regs =>
    obtain ⟨hfree, rfl⟩ := FlowGraph.roomFor?_eq_some hfound.symm
    exact agree_modify ⟨hmarked.fold hn hfree _, hsummed.fold hmarked hn hfree, rfl, m, rfl⟩

/-- A coarse interval that has one member starts with the registers of that member. -/
theorem Summed.setRegs (hl : Loose base (some i) w) (hn : n ∈ w.members)
    (hown : w.graph.owner .interval n = some i)
    (halone : ∀ m ∈ w.members, w.graph.owner .interval m = some i → m = n) :
    Summed .interval i (w.setRegs i (w.graph.regs .interval n)) := by
  have howner := (alike_setRegs .interval w i (w.graph.regs .interval n)).owner
  intro r
  rw [regs_setRegs_self (hl.idle i rfl).1.2]
  constructor
  · intro hr
    refine ⟨n, hn, (congrFun howner n).trans hown, ?_⟩
    rw [regs_setRegs_of_ne (hl.ne_current hn)]
    exact hr
  · rintro ⟨x, hx, hxi, hr⟩
    have hx : x ∈ w.members := hx
    obtain rfl := halone x hx ((congrFun howner x).symm.trans hxi)
    rwa [regs_setRegs_of_ne (hl.ne_current hx)] at hr

/-- A coarse interval that has one member grows alike, with marks and without. -/
theorem Loose.grow_agree (h : Loose base (some i) w) (hn : n ∈ w.members)
    (hown : w.graph.owner .interval n = some i)
    (halone : ∀ m ∈ w.members, w.graph.owner .interval m = some i → m = n) (budget : Nat)
    (m : Marker) :
    Agree (fun _ u _ u' => Growing base i w.members u u')
      (fun e u f u' => f = e ∧ Remarked u u')
      (Pass.growCoarse ⟨budget, .ancestors, ∅⟩ i (w.graph.regs .interval n) w)
      (Pass.growCoarseIf (Pass.footprintOnly budget) i (w.graph.regs .interval n)
        (w.remark m)) := by
  obtain ⟨v, hv⟩ : ∃ v, w.graph.interval? i = some v := Arena.exists_get? (h.idle i rfl).1.2
  have hstart : Growing base i w.members (w.setRegs i (w.graph.regs .interval n))
      ((w.remark m).setRegs i (w.graph.regs .interval n)) :=
    ⟨h.alike (alike_setRegs ..), Summed.setRegs h hn hown halone, rfl, m, rfl⟩
  refine Agree.bind (Pass.agree_updateInterval hv hv (Agree.bind (agree_get ?_)))
  have hscan := agree_forM_inv (ρ := id) (P := Growing base i w.members)
    (fun x hx u u' hu => hu.step hx budget) hstart
  rwa [List.map_id] at hscan

/-- A step that does not look at marks comes to the same and keeps what it keeps. -/
theorem Oblivious.agree {α : Type} {x : Pass α} {post : α → Workspace → Prop} (hx : Oblivious x)
    (h : Ends x w post) (m : Marker) :
    Agree (fun a u b u' => (b = a ∧ Remarked u u') ∧ post a u)
      (fun e u f u' => f = e ∧ Remarked u u') (x w) (x (w.remark m)) := by
  obtain ⟨a, u, hok, hpost⟩ := h
  have hsame := hx w m
  rw [hok] at hsame ⊢
  generalize x (w.remark m) = r at hsame
  cases hsame with
  | ends hsame => exact .ends ⟨hsame, hpost⟩

/-- Opening what is behind a coarse interval keeps a pass over a closed list under way. -/
theorem Loose.openFrontier_ends (h : Loose base current w) (i : IntervalId) :
    Ends (Pass.openFrontier .interval i) w fun _ w' => Loose base none w' := by
  obtain ⟨found, hsurvey, hmem⟩ := FlowGraph.frontier?_eq_some (i := i)
    (fun _ => h.lt_extent) fun n hn s hs => h.lt_extent (h.closed.succ_mem hn hs)
  have hfound : ∀ s ∈ found, s ∈ w.members := by
    intro s hs
    obtain ⟨n, hn, _, hsucc, _⟩ := (hmem s).mp hs
    exact h.closed.succ_mem hn hsucc
  refine Ends.bind (Pass.ends_survey hsurvey ?_)
  refine (ends_forM_inv (P := fun u => Loose base current u ∧ u.members = w.members) ?_
    ⟨h, rfl⟩).mono fun _ _ hu => hu.1.leave
  rintro s hs u ⟨hu, hmembers⟩
  have hs : s ∈ u.members := by
    rw [hmembers]
    exact hfound s hs
  refine (KernelIntervals.openFree_ends (hu.lt_extent hs)).mono ?_
  rintro _ _ (⟨hfree, rfl⟩ | ⟨_, rfl⟩)
  · exact ⟨hu.openGroup hs hfree, hmembers⟩
  · exact ⟨hu, hmembers⟩

/-- Visits do the same, with marks and without. -/
theorem Loose.visit_agree (h : Loose base none w) (hwork : w.worklist = n :: rest) (budget : Nat)
    (m : Marker) :
    Agree (fun _ u _ u' => Loose base none u ∧ Remarked u u')
      (fun e u f u' => f = e ∧ Remarked u u')
      (Pass.visitInterval ⟨budget, .ancestors, ∅⟩ n { w with worklist := rest })
      (Pass.visitIntervalIf (Pass.footprintOnly budget) budget n
        { w.remark m with worklist := rest }) := by
  obtain ⟨i, hn, hown, halone, hloose⟩ := h.pop hwork
  obtain ⟨v, hv⟩ : ∃ v, w.graph.interval? n = some v := Arena.exists_get? (h.lt_extent hn)
  have hnext : v.nextLevel = some i := (FlowGraph.see_of_interval? hv _ _).symm.trans hown
  have hregs : w.graph.regs .interval n = v.regs := FlowGraph.see_of_interval? hv _ _
  -- However far the coarse interval grows, what is behind it is opened last.
  have hlast : ∀ {u u'}, Loose base (some i) u → Remarked u u' →
      Agree (fun _ u _ u' => Loose base none u ∧ Remarked u u')
        (fun e u f u' => f = e ∧ Remarked u u') (Pass.openFrontier .interval i u)
        (Pass.openFrontier .interval i u') := by
    rintro u _ hu ⟨m, rfl⟩
    refine ((Pass.oblivious_openFrontier .interval i).agree (hu.openFrontier_ends i) m).mono_ends ?_
    exact fun _ _ _ _ hagree => ⟨hagree.2, hagree.1.2⟩
  rw [← Pass.visitIntervalIf_footprint]
  refine Agree.bind (Pass.agree_query hv hv ?_)
  rw [hnext, ← hregs]
  show Agree _ _ ((if (w.graph.regs .interval n).size < budget then _ else _ : Pass Unit) _)
    ((if (w.graph.regs .interval n).size < budget then _ else _ : Pass Unit) _)
  refine agree_ite Iff.rfl (fun _ => Agree.bind ?_) fun _ => hlast hloose ⟨m, rfl⟩
  refine (hloose.grow_agree hn hown halone budget m).mono_ends ?_
  exact fun _ _ _ _ hgrown => hlast hgrown.loose hgrown.remarked

/-! ### The second pass -/

theorem exist_of_release_eq_ok {l : Level} {nodes : List Nat} {a : Unit}
    (h : nodes.forM (Pass.release l) w = .ok a w') : ∀ n ∈ nodes, n < w.graph.extent l := by
  induction nodes generalizing w with
  | nil => exact fun n hn => absurd hn List.not_mem_nil
  | cons x nodes ih =>
    obtain ⟨_, u, hx, hrest⟩ := bind_eq_ok h
    obtain ⟨node, u', hquery, hmodify⟩ := bind_eq_ok hx
    obtain ⟨hnode, rfl⟩ := Pass.query_eq_ok hquery
    injection hmodify with _ hmodify
    have hextent : u.graph.extent l = u'.graph.extent l := by
      rw [← hmodify]
      exact FlowGraph.extent_assign none
    intro n hn
    rcases List.mem_cons.mp hn with rfl | hn
    · refine Nat.lt_of_not_le fun hle => ?_
      rw [FlowGraph.node?_eq_none hle] at hnode
      injection hnode
    · rw [← hextent]
      exact ih hrest n hn

/-- A pass that starts was given nodes that exist. -/
theorem exist_of_start_eq_ok {l : Level} {nodes : List Nat} {a : Unit}
    (h : Pass.start l nodes w = .ok a w') : ∀ n ∈ nodes, n < w.graph.extent l := by
  obtain ⟨_, u, hclear, hrest⟩ := bind_eq_ok h
  obtain ⟨_, u', hrelease, _⟩ := bind_eq_ok hrest
  injection hclear with _ hclear
  rw [← hclear] at hrelease
  have hexist := exist_of_release_eq_ok hrelease
  exact hexist

/-- The second pass comes to the same by footprint, over any closed list. -/
theorem sameEnd_coarsenByFootprint (hnodup : intervals.Nodup)
    (hclosed : (w.graph.net .interval intervals).Closed) (budget : Nat) :
    Pass.SameEnd (Pass.coarsen budget .ancestors intervals w)
      (Pass.coarsenByFootprint budget intervals w) := by
  rw [Pass.coarsen, Pass.coarsenByFootprint]
  by_cases hbudget : budget = 0
  · rw [if_pos hbudget, if_pos hbudget]
    exact .breaks ⟨rfl, rfl, rfl⟩
  rw [if_neg hbudget, if_neg hbudget]
  refine Agree.bind ?_
  cases hstart : Pass.start .interval intervals w with
  | error e w₁ => exact .breaks ⟨rfl, rfl, rfl⟩
  | ok a w₁ =>
    refine .ends (Pass.Same.sameEnd ?_)
    obtain ⟨hsound, _⟩ :=
      (start_ends (exist_of_start_eq_ok hstart) hnodup hclosed).of_eq_ok hstart
    have hlimits : Pass.coarsenLimits budget .ancestors intervals w₁ =
        .ok ⟨budget, .ancestors, ∅⟩ w₁ := rfl
    show Same ((Pass.coarsenLimits budget .ancestors intervals >>= _) w₁) _
    rw [bind_of_eq_ok hlimits]
    refine Agree.bind ((agree_drain id (P := fun u u' => Loose w.graph.intervals.size none u ∧
      Remarked u u') ?_ ?_ ⟨hsound.loose, w₁.marker, rfl⟩).mono_ends ?_)
    · rintro u _ ⟨_, m, rfl⟩
      exact (List.map_id _).symm
    · rintro n rest u _ hwork ⟨hu, m, rfl⟩
      rw [List.map_id]
      exact hu.visit_agree hwork budget m
    · rintro _ u _ _ ⟨⟨_, m, rfl⟩, _⟩
      refine oblivious_bind (Pass.oblivious_complete .interval budget) (fun _ => ?_) u m
      exact oblivious_bind Pass.oblivious_finish fun _ =>
        oblivious_bind (Pass.oblivious_report _) fun _ => oblivious_pure _

/-! ### Runs -/

/-- The tests of the registers of ancestors refuse nothing that the footprint does not refuse. -/
theorem ancestor_tests_redundant :
    (∀ (p : BlockGrouper) (blocks : List BlockId) (state : LoggedGraph), blocks.Nodup →
      state.graph.verify blocks = .ok () →
        p.runByFootprint blocks state = p.run blocks state) ∧
    ∀ (p : IntervalGrouper) (intervals : List IntervalId) (state : LoggedGraph),
      p.scope = .ancestors → intervals.Nodup → (state.graph.net .interval intervals).Closed →
        (p.runByFootprint intervals state).result = (p.run intervals state).result ∧
          (p.runByFootprint intervals state).state = (p.run intervals state).state := by
  constructor
  · intro p blocks state hnodup hv
    exact congrArg Outcome.ofResult
      (groupBlocksByFootprint_eq (w := state.workspace p.scratch) hv hnodup p.budget)
  · intro p intervals state hscope hnodup hclosed
    rw [IntervalGrouper.run, hscope]
    exact ofResult_eq_of_sameEnd
      (sameEnd_coarsenByFootprint (w := state.workspace p.scratch) hnodup hclosed p.budget)

/-- Of the three intervals of a first pass, the first two are folded into one. -/
theorem redundant_carvedLoops :
    let first := BlockGrouper.run ⟨4, {}⟩ [0, 1, 2] carvedLoops
    let second : IntervalGrouper := ⟨4, .ancestors, {}⟩
    [0, 1, 2].Nodup ∧ carvedLoops.graph.verify [0, 1, 2] = .ok () ∧
    BlockGrouper.runByFootprint ⟨4, {}⟩ [0, 1, 2] carvedLoops = first ∧
    second.scope = .ancestors ∧ (first.state.graph.net .interval [0, 1, 2]).Closed ∧
    (second.run [0, 1, 2] first.state).result = .ok [3, 4] ∧
    (second.runByFootprint [0, 1, 2] first.state).result =
      (second.run [0, 1, 2] first.state).result ∧
    (second.runByFootprint [0, 1, 2] first.state).state =
      (second.run [0, 1, 2] first.state).state := by
  intro first second
  obtain ⟨_, _, _, _, _, _, opener, hend⟩ := run_eq_ok (by decide) run_carvedLoops
  have hclosed : (first.state.graph.net .interval [0, 1, 2]).Closed := hend.valid.closed
  exact ⟨by decide, verify_carvedLoops,
    ancestor_tests_redundant.1 ⟨4, {}⟩ [0, 1, 2] carvedLoops (by decide) verify_carvedLoops,
    rfl, hclosed, by decide +kernel,
    ancestor_tests_redundant.2 second [0, 1, 2] first.state rfl (by decide) hclosed⟩

end KernelIntervals
