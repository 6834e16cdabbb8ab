/-
The work left in the second pass.

* `intervalWork` — the work left in a workspace,
* `visitInterval_work_le` — a visit adds no work.

An interval is opened from the worklist only as a successor of an interval of
the pass, and only if it is a member of no coarse interval yet. Each time such an
interval is a successor counts twice, and a waiting interval counts once.
-/
import KernelIntervals.Flow.EditLemmas
import KernelIntervals.Grouping.IntervalVisit
import KernelIntervals.Grouping.Respects

namespace KernelIntervals

namespace FlowGraph

/-- The successors of an interval, none if it does not exist. -/
def intervalSuccs (g : FlowGraph) (n : IntervalId) : List IntervalId :=
  ((g.interval? n).map (·.succs)).getD []

/-- Whether an interval is a member of no coarse interval, or does not exist. -/
def isFree (g : FlowGraph) (n : IntervalId) : Bool :=
  ((g.interval? n).bind (·.nextLevel)).isNone

end FlowGraph

/-- The successors of the intervals of the pass, with repeats. -/
def Workspace.targets (w : Workspace) : List IntervalId :=
  w.members.flatMap w.graph.intervalSuccs

/-- The work left in the second pass. -/
def intervalWork (w : Workspace) : Nat :=
  2 * w.targets.countP w.graph.isFree + w.worklist.length

/-! ### Counting -/

theorem countP_le_of_imp {α : Type} {p q : α → Bool} (xs : List α)
    (h : ∀ x, q x = true → p x = true) : xs.countP q ≤ xs.countP p :=
  List.countP_mono_left fun x _ => h x

theorem countP_lt_of_imp {α : Type} {p q : α → Bool} {xs : List α} {x : α}
    (h : ∀ x, q x = true → p x = true) (hx : x ∈ xs) (hp : p x = true) (hq : q x = false) :
    xs.countP q < xs.countP p := by
  induction xs with
  | nil => simp at hx
  | cons y ys ih =>
    simp only [List.countP_cons]
    rcases List.mem_cons.mp hx with rfl | hx
    · have := countP_le_of_imp ys h
      simp only [hp, hq, if_true, Bool.false_eq_true, if_false]
      omega
    · have := ih hx
      have : (if q y = true then 1 else 0) ≤ (if p y = true then 1 else 0) := by
        split
        next hqy => simp [h y hqy]
        next => exact Nat.zero_le _
      omega

/-! ### Steps that add no work -/

/-- The intervals of the pass and all successors stay, no interval loses its
coarse interval, and no work is added. -/
def noMoreIntervalWork : Evolution where
  Rel w w' := w'.members = w.members
    ∧ (∀ n, w'.graph.intervalSuccs n = w.graph.intervalSuccs n)
    ∧ (∀ n, w'.graph.isFree n = true → w.graph.isFree n = true)
    ∧ intervalWork w' ≤ intervalWork w
  refl _ := ⟨rfl, fun _ => rfl, fun _ h => h, Nat.le_refl _⟩
  trans h₁ h₂ := ⟨h₂.1.trans h₁.1, fun n => (h₂.2.1 n).trans (h₁.2.1 n),
    fun n h => h₁.2.2.1 n (h₂.2.2.1 n h), Nat.le_trans h₂.2.2.2 h₁.2.2.2⟩

theorem targets_eq {w w' : Workspace} (hmembers : w'.members = w.members)
    (hsuccs : ∀ n, w'.graph.intervalSuccs n = w.graph.intervalSuccs n) :
    w'.targets = w.targets := by
  rw [Workspace.targets, Workspace.targets, hmembers, funext hsuccs]

/-- A step that leaves the worklist alone adds no work if it keeps the rest. -/
theorem rel_of_worklist_eq {w w' : Workspace} (hmembers : w'.members = w.members)
    (hwork : w'.worklist = w.worklist)
    (hsuccs : ∀ n, w'.graph.intervalSuccs n = w.graph.intervalSuccs n)
    (hfree : ∀ n, w'.graph.isFree n = true → w.graph.isFree n = true) :
    noMoreIntervalWork.Rel w w' := by
  refine ⟨hmembers, hsuccs, hfree, ?_⟩
  have := countP_le_of_imp w.targets hfree
  simp only [intervalWork, targets_eq hmembers hsuccs, hwork]
  omega

namespace FlowGraph

theorem intervalSuccs_modifyInterval {g : FlowGraph} {i : IntervalId} {f : Interval → Interval}
    (h : ∀ v, (f v).succs = v.succs) (n : IntervalId) :
    (g.modifyInterval i f).intervalSuccs n = g.intervalSuccs n := by
  simp only [intervalSuccs, interval?_modifyInterval]
  split
  · cases g.interval? n <;> simp [h]
  · rfl

theorem isFree_modifyInterval {g : FlowGraph} {i : IntervalId} {f : Interval → Interval}
    (h : ∀ v, (f v).nextLevel.isNone = true → v.nextLevel.isNone = true) (n : IntervalId)
    (hfree : (g.modifyInterval i f).isFree n = true) : g.isFree n = true := by
  simp only [isFree, interval?_modifyInterval] at hfree ⊢
  split at hfree
  · cases hn : g.interval? n with
    | none => simp
    | some v =>
      rw [hn] at hfree
      exact h v hfree
  · exact hfree

theorem intervalSuccs_addInterval (g : FlowGraph) (n : IntervalId) :
    (g.addInterval {}).intervalSuccs n = g.intervalSuccs n := by
  simp only [intervalSuccs, interval?_addInterval]
  split
  next h =>
    have : g.interval? n = none := Arena.get?_eq_none_iff.mpr (Nat.le_of_eq h.symm)
    simp [this]
  next => rfl

theorem isFree_addInterval (g : FlowGraph) (n : IntervalId) :
    (g.addInterval {}).isFree n = g.isFree n := by
  simp only [isFree, interval?_addInterval]
  split
  next h =>
    have : g.interval? n = none := Arena.get?_eq_none_iff.mpr (Nat.le_of_eq h.symm)
    simp [this]
  next => rfl

end FlowGraph

/-- The graph with an interval as a member of a coarse one. -/
def FlowGraph.setNextLevel (g : FlowGraph) (n coarse : IntervalId) : FlowGraph :=
  g.modifyInterval n fun i => { i with nextLevel := some coarse }

namespace FlowGraph

theorem intervalSuccs_setNextLevel (g : FlowGraph) (n coarse k : IntervalId) :
    (g.setNextLevel n coarse).intervalSuccs k = g.intervalSuccs k :=
  intervalSuccs_modifyInterval (fun _ => by rfl) k

theorem isFree_of_setNextLevel {g : FlowGraph} {n coarse k : IntervalId}
    (h : (g.setNextLevel n coarse).isFree k = true) : g.isFree k = true :=
  isFree_modifyInterval (fun _ hv => by simp at hv) k h

theorem isFree_setNextLevel_self {g : FlowGraph} {n coarse : IntervalId} {v : Interval}
    (h : g.interval? n = some v) : (g.setNextLevel n coarse).isFree n = false := by
  simp [isFree, setNextLevel, h]

end FlowGraph

theorem graph_openGroup (w : Workspace) (n : IntervalId) :
    (w.openGroup .interval n).graph =
      (w.graph.addInterval {}).setNextLevel n w.graph.intervals.size := rfl

theorem graph_fold (w : Workspace) (coarse n : IntervalId) (regs : RegSet) :
    (w.fold coarse n regs).graph =
      (w.graph.setNextLevel n coarse).modifyInterval coarse ({ · with regs }) := rfl

namespace Pass

/-- Opening a successor turns an opening still to come into a visit. -/
theorem openGroup_interval_work {w : Workspace} {n : IntervalId} (hn : n ∈ w.targets)
    (h : w.graph.unowned? .interval n = some true) :
    noMoreIntervalWork.Rel w (w.openGroup .interval n) := by
  obtain ⟨node, hnode, hnone⟩ := Option.map_eq_some_iff.mp h
  obtain ⟨v, hv, rfl⟩ := Option.map_eq_some_iff.mp hnode
  have hlt : n < w.graph.intervals.size := Arena.lt_size_of_get? hv
  have hsuccs : ∀ k, (w.openGroup .interval n).graph.intervalSuccs k =
      w.graph.intervalSuccs k := fun k => by
    rw [graph_openGroup, FlowGraph.intervalSuccs_setNextLevel,
      FlowGraph.intervalSuccs_addInterval]
  have hfree : ∀ k, (w.openGroup .interval n).graph.isFree k = true →
      w.graph.isFree k = true := fun k hk => by
    rw [graph_openGroup] at hk
    rw [← w.graph.isFree_addInterval k]
    exact FlowGraph.isFree_of_setNextLevel hk
  have hbefore : w.graph.isFree n = true := by
    simpa [FlowGraph.isFree, hv, Interval.toNode] using hnone
  have hafter : (w.openGroup .interval n).graph.isFree n = false := by
    rw [graph_openGroup]
    have hne : n ≠ w.graph.intervals.size := Nat.ne_of_lt hlt
    have hv' : (w.graph.addInterval {}).interval? n = some v := by
      rw [FlowGraph.interval?_addInterval, if_neg hne]
      exact hv
    exact FlowGraph.isFree_setNextLevel_self hv'
  refine ⟨rfl, hsuccs, hfree, ?_⟩
  have hcount := countP_lt_of_imp hfree hn hbefore hafter
  have htargets : (w.openGroup .interval n).targets = w.targets := targets_eq rfl hsuccs
  have hlength : (w.openGroup .interval n).worklist.length = w.worklist.length + 1 := by
    simp [Workspace.openGroup]
  simp only [intervalWork, htargets, hlength]
  omega

theorem openFree_interval_work {w w' : Workspace} {n : IntervalId} {a : Unit}
    (hn : n ∈ w.targets) (h : openFree .interval n w = .ok a w') :
    noMoreIntervalWork.Rel w w' := by
  obtain ⟨free, w₁, hquery, hrest⟩ := bind_eq_ok h
  obtain ⟨hfree, rfl⟩ := query_eq_ok hquery
  cases free with
  | false =>
    obtain ⟨_, rfl⟩ := pure_eq_ok hrest
    exact noMoreIntervalWork.refl _
  | true =>
    injection hrest with _ hrest
    exact hrest ▸ openGroup_interval_work hn hfree

theorem forM_openFree_work {ns : List IntervalId} {w w' : Workspace} {a : Unit}
    (hns : ∀ n ∈ ns, n ∈ w.targets) (h : ns.forM (openFree .interval) w = .ok a w') :
    noMoreIntervalWork.Rel w w' := by
  induction ns generalizing w with
  | nil =>
    obtain ⟨_, rfl⟩ := pure_eq_ok h
    exact noMoreIntervalWork.refl _
  | cons n ns ih =>
    obtain ⟨_, w₁, hopen, hrest⟩ := bind_eq_ok h
    have hrel := openFree_interval_work (hns n List.mem_cons_self) hopen
    refine noMoreIntervalWork.trans hrel (ih (fun k hk => ?_) hrest)
    rw [targets_eq hrel.1 hrel.2.1]
    exact hns k (List.mem_cons_of_mem n hk)

/-! ### The frontier -/

/-- What a fold over `Option` keeps at each step, it keeps. -/
theorem foldlM_induction {α β : Type} {P : β → Prop} {f : β → α → Option β} {xs : List α}
    {b c : β} (hstep : ∀ x ∈ xs, ∀ b c, P b → f b x = some c → P c) (hb : P b)
    (h : xs.foldlM f b = some c) : P c := by
  induction xs generalizing b with
  | nil =>
    simp only [List.foldlM_nil, Option.pure_def, Option.some.injEq] at h
    exact h ▸ hb
  | cons x xs ih =>
    simp only [List.foldlM_cons, Option.bind_eq_bind, Option.bind_eq_some_iff] at h
    obtain ⟨b', hx, hrest⟩ := h
    exact ih (fun y hy => hstep y (List.mem_cons_of_mem x hy))
      (hstep x List.mem_cons_self b b' hb hx) hrest

/-- The frontier of a coarse interval holds successors of intervals of the pass. -/
theorem mem_targets_of_frontier? {w : Workspace} {i : IntervalId} {found : List IntervalId}
    (h : w.graph.frontier? .interval i w.members = some found) :
    ∀ n ∈ found, n ∈ w.targets := by
  refine foldlM_induction (P := fun found => ∀ n ∈ found, n ∈ w.targets) ?_ (by simp) h
  intro k hk found found' hfound hstep
  obtain ⟨node, hnode, hstep⟩ := Option.bind_eq_some_iff.mp hstep
  split at hstep
  · refine foldlM_induction (P := fun found => ∀ n ∈ found, n ∈ w.targets) ?_ hfound hstep
    intro s hs found₁ found₂ hfound₁ hstep
    obtain ⟨free, _, hpure⟩ := Option.bind_eq_some_iff.mp hstep
    simp only [Option.pure_def, Option.some.injEq] at hpure
    subst hpure
    have hs' : s ∈ w.targets := by
      obtain ⟨v, hv, rfl⟩ := Option.map_eq_some_iff.mp hnode
      refine List.mem_flatMap.mpr ⟨k, hk, ?_⟩
      simpa [FlowGraph.intervalSuccs, hv, Interval.toNode] using hs
    intro n hn
    split at hn
    · rcases mem_addNew.mp hn with hn | rfl
      · exact hfound₁ n hn
      · exact hs'
    · exact hfound₁ n hn
  · simp only [Option.pure_def, Option.some.injEq] at hstep
    exact hstep ▸ hfound

theorem openFrontier_interval_work (i : IntervalId) :
    Respects noMoreIntervalWork (openFrontier .interval i) := by
  intro w a w' h
  obtain ⟨found, w₁, hsurvey, hrest⟩ := bind_eq_ok h
  obtain ⟨hfound, rfl⟩ := survey_eq_ok hsurvey
  exact forM_openFree_work (mem_targets_of_frontier? hfound) hrest

/-! ### Growth -/

theorem markAncestors_interval_work (n : IntervalId) :
    Respects noMoreIntervalWork (markAncestors .interval n) :=
  respects_markAncestors
    (fun _ _ => rel_of_worklist_eq rfl rfl (fun _ => rfl) fun _ h => h) _ _

theorem setRegs_interval_work (i : IntervalId) (regs : RegSet) :
    Respects noMoreIntervalWork (edit (Edit.updateInterval i ({ · with regs }))) := by
  refine respects_edit fun w a g' h => ?_
  obtain ⟨rfl, _⟩ := Edit.updateInterval_eq_ok h
  exact rel_of_worklist_eq rfl rfl (FlowGraph.intervalSuccs_modifyInterval fun _ => by rfl)
    (FlowGraph.isFree_modifyInterval fun _ h => by exact h)

theorem footprint_work (limits : CoarsenLimits) (coarse n : IntervalId) :
    Respects noMoreIntervalWork (footprint limits coarse n) := by
  refine respects_bind (respects_query _) fun node => respects_ite (respects_pure _) ?_
  refine respects_bind (respects_query _) fun inside => respects_ite (respects_pure _) ?_
  refine respects_bind ?_ fun held => respects_ite (respects_pure _) ?_
  · unfold scopeRegs
    split
    · exact respects_pure _
    · exact respects_bind (markAncestors_interval_work n) fun _ =>
        respects_bind (respects_survey _) fun _ => respects_pure _
  · exact respects_bind (respects_query _) fun interval =>
      respects_ite (respects_pure _) (respects_pure _)

theorem fold_work (coarse n : IntervalId) (regs : RegSet) (w : Workspace) :
    noMoreIntervalWork.Rel w (w.fold coarse n regs) := by
  refine rel_of_worklist_eq rfl rfl (fun k => ?_) fun k hk => ?_
  · rw [graph_fold]
    exact (FlowGraph.intervalSuccs_modifyInterval (fun _ => by rfl) k).trans
      (FlowGraph.intervalSuccs_setNextLevel ..)
  · rw [graph_fold] at hk
    exact FlowGraph.isFree_of_setNextLevel
      (FlowGraph.isFree_modifyInterval (fun _ h => by exact h) k hk)

theorem growCoarse_work (limits : CoarsenLimits) (coarse : IntervalId) (regs : RegSet) :
    Respects noMoreIntervalWork (growCoarse limits coarse regs) := by
  refine respects_bind (setRegs_interval_work coarse regs) fun _ => ?_
  refine respects_bind respects_get fun w => respects_forM fun n _ => ?_
  refine respects_bind (footprint_work limits coarse n) fun regs => ?_
  cases regs with
  | none => exact respects_pure ()
  | some regs => exact respects_modify (fold_work coarse n regs)

/-- A visit adds no work. -/
theorem visitInterval_work_le (limits : CoarsenLimits) (n : IntervalId) :
    Respects noMoreIntervalWork (visitInterval limits n) := by
  refine respects_bind (respects_query _) fun interval => ?_
  split
  next => exact respects_fail _
  next coarse _ =>
    split
    · exact respects_bind (growCoarse_work limits coarse _) fun _ =>
        openFrontier_interval_work coarse
    · exact openFrontier_interval_work coarse

end Pass

end KernelIntervals
