/-
Runs do not depend on the notes of earlier runs.

* `Workspace.remark` — a workspace with other marks,
* `Oblivious` — a step comes to the same whatever was marked before it, breaking off included,
* `oblivious_bind`, `oblivious_forM`, `oblivious_drain` — steps one after the other, and loops,
* `oblivious_visitBlock`, `oblivious_visitInterval` — so it is with the visits of both passes,
* `BlockGrouper.run_fresh`, `IntervalGrouper.run_fresh` — a grouper that was used comes to what a
  new one comes to.

Design notes: a pass clears all notes when it starts, but for the marks, which a query clears.
So the marks are all that has to be followed through a pass. A pass that does not get as far as
to start leaves old notes behind, which is why the runs are compared by what they return and
by the graph and the log they leave.
-/
import KernelIntervals.Grouping.Runs
import KernelIntervals.Proofs.Agreement
import KernelIntervals.Proofs.Verified

namespace KernelIntervals

variable {α β : Type}

/-- The workspace with other marks. -/
def Workspace.remark (w : Workspace) (m : Marker) : Workspace := { w with marker := m }

/-- Two workspaces that differ in their marks only. -/
def Remarked (w w' : Workspace) : Prop := ∃ m, w' = w.remark m

/-- What two steps come to, on workspaces that differ in their marks, is the same. -/
def Same (r r' : EStateM.Result Fault Workspace α) : Prop :=
  Agree (fun a u b u' => b = a ∧ Remarked u u') (fun e u f u' => f = e ∧ Remarked u u') r r'

/-- A step comes to the same whatever was marked before it. -/
def Oblivious (x : Pass α) : Prop := ∀ w m, Same (x w) (x (w.remark m))

/-! ### Steps -/

theorem oblivious_pure (a : α) : Oblivious (pure a) := fun _ m => .ends ⟨rfl, m, rfl⟩

theorem oblivious_throw (e : Fault) : Oblivious (throw e : Pass α) :=
  fun _ m => .breaks ⟨rfl, m, rfl⟩

theorem oblivious_bind {x : Pass α} {f : α → Pass β} (hx : Oblivious x)
    (hf : ∀ a, Oblivious (f a)) : Oblivious (x >>= f) := by
  intro w m
  refine Agree.bind ((hx w m).mono_ends ?_)
  rintro _ u a _ ⟨rfl, m', rfl⟩
  exact hf a u m'

theorem oblivious_ite {c : Prop} [Decidable c] {x y : Pass α} (hx : Oblivious x)
    (hy : Oblivious y) : Oblivious (if c then x else y) := by
  split
  · exact hx
  · exact hy

theorem oblivious_modify {f : Workspace → Workspace}
    (h : ∀ w m, f (w.remark m) = (f w).remark m) : Oblivious (modify f) :=
  fun w m => .ends ⟨rfl, m, h w m⟩

theorem oblivious_demand (value : Option α) : Oblivious (Pass.demand value) := by
  cases value with
  | none => exact oblivious_throw _
  | some a => exact oblivious_pure a

/-- What does not look at marks may be asked. -/
theorem oblivious_survey {look : Workspace → Option α}
    (h : ∀ w m, look (w.remark m) = look w) : Oblivious (Pass.survey look) := by
  intro w m
  show Same (Pass.demand (look w) w) (Pass.demand (look (w.remark m)) (w.remark m))
  rw [h]
  exact oblivious_demand _ w m

theorem oblivious_query (look : FlowGraph → Option α) : Oblivious (Pass.query look) := by
  show Oblivious (Pass.survey fun w => look w.graph)
  exact oblivious_survey fun _ _ => rfl

theorem oblivious_edit (change : Edit α) : Oblivious (Pass.edit change) := by
  intro w m
  refine Pass.agree_edit ?_
  show Agree _ _ (change w.graph) (change w.graph)
  cases change w.graph with
  | ok a g => exact .ends ⟨rfl, m, rfl⟩
  | error e g => exact .breaks ⟨rfl, m, rfl⟩

theorem oblivious_forM {f : β → Pass Unit} (hf : ∀ b, Oblivious (f b)) (xs : List β) :
    Oblivious (xs.forM f) := by
  induction xs with
  | nil => exact oblivious_pure ()
  | cons x xs ih => exact oblivious_bind (hf x) fun _ => ih

/-- The steps for all members, or for all intervals made so far. -/
theorem oblivious_forM_get {f : β → Pass Unit} {list : Workspace → List β}
    (hlist : ∀ w m, list (w.remark m) = list w) (hf : ∀ b, Oblivious (f b)) :
    Oblivious (do (list (← get)).forM f) := by
  intro w m
  show Same ((list w).forM f w) ((list (w.remark m)).forM f (w.remark m))
  rw [hlist]
  exact oblivious_forM hf _ w m

theorem oblivious_drain {v : Visit} (h : ∀ n, Oblivious (v.visit n)) : Oblivious (drain v) := by
  intro w m
  refine (agree_drain id (P := Remarked) ?_ ?_ ⟨m, rfl⟩).mono ?_ fun _ _ _ _ => id
  · rintro u _ ⟨m, rfl⟩
    exact (List.map_id _).symm
  · rintro n rest u _ _ ⟨m, rfl⟩
    rw [List.map_id]
    exact (h n { u with worklist := rest } m).mono (fun _ _ _ _ h => h.2) fun _ _ _ _ => id
  · exact fun _ _ _ _ h => ⟨rfl, h.1⟩

/-- Marking ancestors takes back what was marked before. -/
theorem same_markAncestors (l : Level) (n : Nat) (w : Workspace) (m : Marker) :
    Agree (fun _ u _ u' => ∃ m₁ m₂, u = w.remark m₁ ∧ u' = w.remark m₂ ∧
        m₂.isMarked = m₁.isMarked)
      (fun e u f u' => f = e ∧ Remarked u u')
      (Pass.markAncestors l n w) (Pass.markAncestors l n (w.remark m)) := by
  have hmark : Agree (fun _ u _ u' => SameMarks (fun _ => True) id u u')
      (fun e _ f _ => f = e ∧ ∃ k, True ∧ (w.graph.predTable l)[k]? = none)
      (Marker.mark (w.graph.predTable l) n w.marker) (Marker.mark (w.graph.predTable l) (id n) m) :=
    agree_mark Function.injective_id (fun k _ => by rw [List.map_id_fun, Option.map_id]; rfl)
      (fun _ _ _ _ _ _ => trivial) trivial w.marker m
  refine (Pass.agree_markAncestors hmark).mono ?_ ?_
  · rintro _ _ _ _ ⟨m₁, m₂, hmarks, rfl, rfl⟩
    exact ⟨m₁, m₂, rfl, rfl, funext fun k => hmarks k trivial⟩
  · rintro _ _ _ _ ⟨m₁, m₂, ⟨hfault, _⟩, rfl, rfl⟩
    exact ⟨hfault, m₂, rfl⟩

namespace Pass

/-! ### What both passes do -/

theorem oblivious_openFree (l : Level) (n : Nat) : Oblivious (openFree l n) :=
  oblivious_bind (oblivious_query _) fun _ =>
    oblivious_ite (oblivious_modify fun _ _ => rfl) (oblivious_pure _)

theorem oblivious_openFrontier (l : Level) (i : IntervalId) : Oblivious (openFrontier l i) :=
  oblivious_bind (oblivious_survey fun _ _ => rfl) fun found =>
    oblivious_forM (oblivious_openFree l) found

theorem oblivious_release (l : Level) (n : Nat) : Oblivious (release l n) :=
  oblivious_bind (oblivious_query _) fun _ => oblivious_modify fun _ _ => rfl

theorem oblivious_openEntry (l : Level) (n : Nat) : Oblivious (openEntry l n) :=
  oblivious_bind (oblivious_query _) fun _ =>
    oblivious_ite (oblivious_modify fun _ _ => rfl) (oblivious_pure _)

theorem oblivious_completeOne (l : Level) (budget : Nat) (i : IntervalId) :
    Oblivious (completeOne l budget i) := by
  refine oblivious_bind (oblivious_survey fun _ _ => rfl) fun s => ?_
  cases RegVector.ofSet s.regs with
  | error source => exact oblivious_throw _
  | ok vector => exact oblivious_ite (oblivious_throw _) (oblivious_edit _)

theorem oblivious_complete (l : Level) (budget : Nat) : Oblivious (complete l budget) :=
  oblivious_forM_get (fun _ _ => rfl) (oblivious_completeOne l budget)

theorem oblivious_finish : Oblivious finish := fun _ m => .ends ⟨rfl, m, rfl⟩

theorem oblivious_report (event : Event) : Oblivious (report event) :=
  oblivious_modify fun _ _ => rfl

/-- The registers of the marked members of an interval, found by a query. -/
theorem oblivious_markedRegs {f : RegSet → Pass α} (l : Level) (i : IntervalId) (n : Nat)
    (hf : ∀ regs, Oblivious (f regs)) : Oblivious (do
      markAncestors l n
      let above ← survey fun w => w.graph.memberRegs? l i w.marker.isMarked w.members
      f above) := by
  intro w m
  refine Agree.bind ((same_markAncestors l n w m).mono_ends ?_)
  rintro _ _ _ _ ⟨m₁, m₂, rfl, rfl, hmarks⟩
  show Same
    ((demand (w.graph.memberRegs? l i m₁.isMarked w.members) >>= f) (w.remark m₁))
    ((demand (w.graph.memberRegs? l i m₂.isMarked w.members) >>= f) ((w.remark m₁).remark m₂))
  rw [hmarks]
  exact oblivious_bind (oblivious_demand _) hf _ m₂

/-! ### The first pass -/

theorem oblivious_settle (budget : Nat) (n : BlockId) : Oblivious (settle budget n) := by
  refine oblivious_bind (oblivious_edit _) fun r => ?_
  cases r with
  | none => exact oblivious_pure ()
  | some fragments =>
    exact oblivious_bind (oblivious_forM oblivious_report _) fun _ =>
      oblivious_bind (oblivious_modify fun _ _ => rfl) fun _ => oblivious_openFree .block _

theorem oblivious_syncRegs (i : IntervalId) : Oblivious (syncRegs i) :=
  oblivious_bind (oblivious_survey fun _ _ => rfl) fun _ => oblivious_edit _

theorem oblivious_admission (budget : Nat) (i : IntervalId) (n : BlockId) :
    Oblivious (admission budget i n) := by
  refine oblivious_bind (oblivious_query _) fun node => oblivious_ite (oblivious_pure _) ?_
  refine oblivious_bind (oblivious_query _) fun inside => oblivious_ite (oblivious_pure _) ?_
  refine oblivious_markedRegs .block i n fun above => oblivious_ite (oblivious_pure _) ?_
  exact oblivious_bind (oblivious_query _) fun _ =>
    oblivious_ite (oblivious_pure _) (oblivious_pure _)

theorem oblivious_joinIfAdmitted (budget : Nat) (i : IntervalId) (n : BlockId) :
    Oblivious (joinIfAdmitted budget i n) := by
  refine oblivious_bind (oblivious_admission budget i n) fun live => ?_
  cases live with
  | none => exact oblivious_pure ()
  | some live =>
    exact oblivious_bind (oblivious_modify fun _ _ => rfl) fun _ =>
      oblivious_bind (oblivious_settle budget n) fun _ => oblivious_syncRegs i

theorem oblivious_grow (budget : Nat) (i : IntervalId) : Oblivious (grow budget i) :=
  oblivious_forM_get (fun _ _ => rfl) (oblivious_joinIfAdmitted budget i)

theorem oblivious_visitBlock (budget : Nat) (n : BlockId) : Oblivious (visitBlock budget n) := by
  refine oblivious_bind (oblivious_query _) fun b => ?_
  cases b.interval with
  | none => exact oblivious_throw _
  | some i =>
    refine oblivious_bind (oblivious_settle budget n) fun _ => ?_
    refine oblivious_bind (oblivious_syncRegs i) fun _ => ?_
    refine oblivious_bind (oblivious_query _) fun settled => ?_
    exact oblivious_ite (oblivious_bind (oblivious_grow budget i) fun _ =>
      oblivious_openFrontier .block i) (oblivious_openFrontier .block i)

/-! ### The second pass -/

theorem oblivious_footprint (limits : CoarsenLimits) (coarse n : IntervalId) :
    Oblivious (footprint limits coarse n) := by
  refine oblivious_bind (oblivious_query _) fun node => oblivious_ite (oblivious_pure _) ?_
  refine oblivious_bind (oblivious_query _) fun inside => oblivious_ite (oblivious_pure _) ?_
  refine oblivious_bind ?_ fun held => oblivious_ite (oblivious_pure _) ?_
  · unfold scopeRegs
    split
    · exact oblivious_pure _
    · exact oblivious_markedRegs .interval coarse n fun above => oblivious_pure _
  · exact oblivious_bind (oblivious_query _) fun _ =>
      oblivious_ite (oblivious_pure _) (oblivious_pure _)

theorem oblivious_foldIfAdmitted (limits : CoarsenLimits) (coarse n : IntervalId) :
    Oblivious (foldIfAdmitted limits coarse n) := by
  refine oblivious_bind (oblivious_footprint limits coarse n) fun regs => ?_
  cases regs with
  | none => exact oblivious_pure ()
  | some regs => exact oblivious_modify fun _ _ => rfl

theorem oblivious_growCoarse (limits : CoarsenLimits) (coarse : IntervalId) (regs : RegSet) :
    Oblivious (growCoarse limits coarse regs) :=
  oblivious_bind (oblivious_edit _) fun _ =>
    oblivious_forM_get (fun _ _ => rfl) (oblivious_foldIfAdmitted limits coarse)

theorem oblivious_visitInterval (limits : CoarsenLimits) (n : IntervalId) :
    Oblivious (visitInterval limits n) := by
  refine oblivious_bind (oblivious_query _) fun interval => ?_
  cases interval.nextLevel with
  | none => exact oblivious_throw _
  | some coarse =>
    exact oblivious_ite (oblivious_bind (oblivious_growCoarse limits coarse _) fun _ =>
      oblivious_openFrontier .interval coarse) (oblivious_openFrontier .interval coarse)

theorem oblivious_coarsenLimits (budget : Nat) (scope : UnionScope)
    (intervals : List IntervalId) : Oblivious (coarsenLimits budget scope intervals) := by
  cases scope with
  | global => exact oblivious_bind (oblivious_query _) fun _ => oblivious_pure _
  | ancestors => exact oblivious_pure _

/-! ### Whole passes -/

/-- The same is returned, or the pass breaks off for the same reason, and the same graph and log
are left. -/
def SameEnd (r r' : EStateM.Result Fault Workspace α) : Prop :=
  Agree (fun a u b u' => b = a ∧ u'.graph = u.graph ∧ u'.log = u.log)
    (fun e u f u' => f = e ∧ u'.graph = u.graph ∧ u'.log = u.log) r r'

theorem Same.sameEnd {r r' : EStateM.Result Fault Workspace α} (h : Same r r') : SameEnd r r' := by
  refine h.mono ?_ ?_
  · rintro a u _ _ ⟨rfl, m, rfl⟩
    exact ⟨rfl, rfl, rfl⟩
  · rintro e u _ _ ⟨rfl, m, rfl⟩
    exact ⟨rfl, rfl, rfl⟩

variable {w w' : Workspace}

/-- A pass that starts with its nodes does not depend on the notes of earlier passes. -/
theorem sameEnd_start {f : Unit → Pass α} (l : Level) (nodes : List Nat)
    (hf : ∀ a, Oblivious (f a)) (hgraph : w'.graph = w.graph) (hlog : w'.log = w.log) :
    SameEnd ((start l nodes >>= f) w) ((start l nodes >>= f) w') := by
  have hstart : ∀ u : Workspace, (start l nodes >>= f) u =
      ((do nodes.forM (release l); nodes.forM (openEntry l)) >>= f)
        { u with members := nodes, opened := [], worklist := [] } := fun _ => rfl
  have hcleared : { w' with members := nodes, opened := [], worklist := [] } =
      Workspace.remark { w with members := nodes, opened := [], worklist := [] } w'.marker := by
    rw [Workspace.remark, hgraph, hlog]
  rw [hstart, hstart, hcleared]
  refine Same.sameEnd (oblivious_bind ?_ hf _ _)
  exact oblivious_bind (oblivious_forM (oblivious_release l) _) fun _ =>
    oblivious_forM (oblivious_openEntry l) _

/-- The first pass comes to the same on two workspaces with one graph and one log. -/
theorem sameEnd_groupBlocks (budget : Nat) (blocks : List BlockId) (hgraph : w'.graph = w.graph)
    (hlog : w'.log = w.log) :
    SameEnd (groupBlocks budget blocks w) (groupBlocks budget blocks w') := by
  rw [groupBlocks]
  by_cases hbudget : budget = 0
  · rw [if_pos hbudget]
    exact .breaks ⟨rfl, hgraph, hlog⟩
  · rw [if_neg hbudget]
    refine Agree.bind ?_
    rw [verifyBlocks_eq, verifyBlocks_eq, hgraph]
    cases w.graph.verify blocks with
    | error fault => exact .breaks ⟨rfl, hgraph, hlog⟩
    | ok _ =>
      refine .ends (sameEnd_start .block blocks (fun _ => ?_) hgraph hlog)
      refine oblivious_bind (oblivious_drain (oblivious_visitBlock budget)) fun _ => ?_
      refine oblivious_bind (oblivious_complete .block budget) fun _ => ?_
      exact oblivious_bind oblivious_finish fun _ =>
        oblivious_bind (oblivious_report _) fun _ => oblivious_pure _

/-- The second pass comes to the same on two workspaces with one graph and one log. -/
theorem sameEnd_coarsen (budget : Nat) (scope : UnionScope) (intervals : List IntervalId)
    (hgraph : w'.graph = w.graph) (hlog : w'.log = w.log) :
    SameEnd (coarsen budget scope intervals w) (coarsen budget scope intervals w') := by
  rw [coarsen]
  by_cases hbudget : budget = 0
  · rw [if_pos hbudget]
    exact .breaks ⟨rfl, hgraph, hlog⟩
  · rw [if_neg hbudget]
    refine sameEnd_start .interval intervals (fun _ => ?_) hgraph hlog
    refine oblivious_bind (oblivious_coarsenLimits budget scope intervals) fun limits => ?_
    refine oblivious_bind (oblivious_drain (oblivious_visitInterval limits)) fun _ => ?_
    refine oblivious_bind (oblivious_complete .interval budget) fun _ => ?_
    exact oblivious_bind oblivious_finish fun _ =>
      oblivious_bind (oblivious_report _) fun _ => oblivious_pure _

end Pass

/-! ### Runs -/

theorem ofResult_eq_of_sameEnd {r r' : EStateM.Result Fault Workspace α}
    (h : Pass.SameEnd r r') : (Outcome.ofResult r').result = (Outcome.ofResult r).result ∧
      (Outcome.ofResult r').state = (Outcome.ofResult r).state := by
  cases h with
  | @ends a u b u' h =>
    obtain ⟨rfl, hgraph, hlog⟩ := h
    exact ⟨rfl, by rw [Outcome.ofResult, Outcome.ofResult, hgraph, hlog]⟩
  | @breaks e u f u' h =>
    obtain ⟨rfl, hgraph, hlog⟩ := h
    exact ⟨rfl, by rw [Outcome.ofResult, Outcome.ofResult, hgraph, hlog]⟩

/-- A block grouper that was used before comes to what a new one comes to. -/
theorem BlockGrouper.run_fresh (p : BlockGrouper) (blocks : List BlockId) (state : LoggedGraph) :
    (p.run blocks state).result = (BlockGrouper.run ⟨p.budget, {}⟩ blocks state).result ∧
      (p.run blocks state).state = (BlockGrouper.run ⟨p.budget, {}⟩ blocks state).state :=
  ofResult_eq_of_sameEnd (Pass.sameEnd_groupBlocks p.budget blocks rfl rfl)

/-- An interval grouper that was used before comes to what a new one comes to. -/
theorem IntervalGrouper.run_fresh (p : IntervalGrouper) (intervals : List IntervalId)
    (state : LoggedGraph) :
    (p.run intervals state).result =
        (IntervalGrouper.run ⟨p.budget, p.scope, {}⟩ intervals state).result ∧
      (p.run intervals state).state =
        (IntervalGrouper.run ⟨p.budget, p.scope, {}⟩ intervals state).state :=
  ofResult_eq_of_sameEnd (Pass.sameEnd_coarsen p.budget p.scope intervals rfl rfl)

end KernelIntervals
