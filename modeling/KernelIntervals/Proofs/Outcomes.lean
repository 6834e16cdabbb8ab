/-
What steps leave, whether or not they break off.

* `Comes` — what holds after a step that ends well, and what is left by one that breaks off,
* `Keeps` — a step keeps a property of the state either way,
* `Keeps.bind`, `keeps_forM`, `keeps_drain` — so do steps one after the other, and loops,
* `Lasting` — a property of graphs that each change by the first pass keeps,
* `keeps_groupBlocks`, `BlockGrouper.run_keeps` — the first pass keeps it then.

Unlike `Ends`, which says that a step does not break off, and `Pass.Respects`, which only speaks of
a step that does not, `Keeps` says something of every run. It asks for nothing that a check has to
grant, so it holds for blocks that are malformed too.
-/
import KernelIntervals.Grouping.Runs

namespace KernelIntervals

variable {σ α β : Type}

/-! ### Steps that may break off -/

/-- What holds after a step that ends well, and what is left by one that breaks off. -/
def Comes (act : EStateM Fault σ α) (s : σ) (good : α → σ → Prop) (bad : σ → Prop) : Prop :=
  match act s with
  | .ok a s' => good a s'
  | .error _ s' => bad s'

/-- A step keeps a property of the state, whether or not it breaks off. -/
def Keeps (P : σ → Prop) (act : EStateM Fault σ α) : Prop :=
  ∀ s, P s → Comes act s (fun _ => P) P

section Comes

variable {s : σ} {P bad bad' : σ → Prop} {good good' : α → σ → Prop}

theorem Comes.mono {act : EStateM Fault σ α} (h : Comes act s good bad)
    (hgood : ∀ a s', good a s' → good' a s') (hbad : ∀ s', bad s' → bad' s') :
    Comes act s good' bad' := by
  unfold Comes at h ⊢
  cases hact : act s with
  | ok a s' =>
    rw [hact] at h
    exact hgood a s' h
  | error e s' =>
    rw [hact] at h
    exact hbad s' h

theorem Comes.bind {x : EStateM Fault σ α} {f : α → EStateM Fault σ β} {good : β → σ → Prop}
    (h : Comes x s (fun a s' => Comes (f a) s' good bad) bad) : Comes (x >>= f) s good bad := by
  unfold Comes at h ⊢
  show match EStateM.bind x f s with
    | .ok a s' => good a s'
    | .error _ s' => bad s'
  rw [EStateM.bind]
  cases hx : x s with
  | ok a s' =>
    rw [hx] at h
    exact h
  | error e s' =>
    rw [hx] at h
    exact h

/-- A step that ends well comes to what was described. -/
theorem Comes.of_eq_ok {act : EStateM Fault σ α} {a : α} {s' : σ} (h : Comes act s good bad)
    (hact : act s = .ok a s') : good a s' := by
  rw [Comes, hact] at h
  exact h

theorem keeps_pure (a : α) : Keeps P (pure a) := fun _ hs => hs

theorem keeps_throw (e : Fault) : Keeps P (throw e : EStateM Fault σ α) := fun _ hs => hs

theorem Keeps.bind {x : EStateM Fault σ α} {f : α → EStateM Fault σ β} (hx : Keeps P x)
    (hf : ∀ a, Keeps P (f a)) : Keeps P (x >>= f) := fun s hs =>
  ((hx s hs).mono (fun a s' hs' => hf a s' hs') fun _ => id).bind

theorem keeps_get : Keeps P (get : EStateM Fault σ σ) := fun _ hs => hs

theorem keeps_ite {c : Prop} [Decidable c] {x y : EStateM Fault σ α} (hx : Keeps P x)
    (hy : Keeps P y) : Keeps P (if c then x else y) := by
  split
  · exact hx
  · exact hy

theorem keeps_modify {f : σ → σ} (h : ∀ s, P s → P (f s)) :
    Keeps P (modify f : EStateM Fault σ Unit) := fun s hs => h s hs

theorem keeps_forM {f : β → EStateM Fault σ Unit} {xs : List β} (hf : ∀ x, Keeps P (f x)) :
    Keeps P (xs.forM f) := by
  induction xs with
  | nil => exact keeps_pure ()
  | cons x xs ih => exact (hf x).bind fun _ => ih

end Comes

namespace Edit

variable {P : FlowGraph → Prop} {n : BlockId}

theorem keeps_query (look : FlowGraph → Option α) : Keeps P (query look) := by
  refine keeps_get.bind fun g => ?_
  cases look g with
  | none => exact keeps_throw _
  | some a => exact keeps_pure a

theorem comes_query {look : FlowGraph → Option α} {g : FlowGraph} {good : α → FlowGraph → Prop}
    {bad : FlowGraph → Prop} (hgood : ∀ a, look g = some a → good a g)
    (hbad : look g = none → bad g) : Comes (query look) g good bad := by
  refine Comes.bind ?_
  show Comes (demand (look g)) g good bad
  cases hlook : look g with
  | none => exact hbad hlook
  | some a => exact hgood a hlook

theorem comes_newBlock {b : Block} {g : FlowGraph} {good : BlockId → FlowGraph → Prop}
    {bad : FlowGraph → Prop} (h : good g.blocks.size (g.addBlock b)) :
    Comes (newBlock b) g good bad := h

theorem keeps_updateBlock {f : Block → Block} (h : ∀ g, P g → P (g.modifyBlock n f)) :
    Keeps P (updateBlock n f) :=
  (keeps_query _).bind fun _ => keeps_modify h

theorem keeps_updateInterval {i : IntervalId} {f : Interval → Interval}
    (h : ∀ g, P g → P (g.modifyInterval i f)) : Keeps P (updateInterval i f) :=
  (keeps_query _).bind fun _ => keeps_modify h

end Edit

/-! ### Passes -/

section Drain

variable {P : Workspace → Prop}

theorem keeps_drain {v : Visit} (hrest : ∀ w worklist, P w → P { w with worklist })
    (h : ∀ n, Keeps P (v.visit n)) : Keeps P (drain v) := by
  intro w hw
  unfold Comes
  fun_induction drain v w with
  | case1 w hwork => exact hw
  | case2 w n rest hwork e w' hvisit =>
    have hcomes := h n _ (hrest w rest hw)
    rw [Comes, hvisit] at hcomes
    exact hcomes
  | case3 w n rest hwork w' hvisit _ ih => exact ih ((h n _ (hrest w rest hw)).of_eq_ok hvisit)

end Drain

/-- A property of graphs that each change by the first pass keeps. -/
structure Lasting (budget : Nat) (P : FlowGraph → Prop) : Prop where
  addInterval : ∀ g, P g → P (g.addInterval {})
  modifyInterval : ∀ g i f, P g → P (g.modifyInterval i f)
  assign : ∀ g n o, P g → P (g.assign .block n o)
  setInputs : ∀ g n inputs, P g → P (g.modifyBlock n ({ · with inputs }))
  split : ∀ n, Keeps P (Edit.split budget n)

namespace Pass

/-- A step keeps a property of the graph. -/
abbrev KeepsGraph (P : FlowGraph → Prop) (act : Pass α) : Prop := Keeps (fun w => P w.graph) act

variable {P : FlowGraph → Prop} {budget : Nat}

theorem keeps_change {f : Workspace → Workspace} (hf : ∀ w, P w.graph → P (f w).graph) :
    KeepsGraph P (modify f) := keeps_modify hf

theorem keeps_survey (look : Workspace → Option α) : KeepsGraph P (survey look) := by
  refine keeps_get.bind fun w => ?_
  cases look w with
  | none => exact keeps_throw _
  | some a => exact keeps_pure a

theorem keeps_query (look : FlowGraph → Option α) : KeepsGraph P (query look) :=
  keeps_survey fun w => look w.graph

theorem keeps_edit {change : Edit α} (h : Keeps P change) : KeepsGraph P (edit change) := by
  intro w hw
  have hcomes := h w.graph hw
  unfold Comes at hcomes ⊢
  rw [edit]
  cases hchange : change w.graph with
  | ok a g =>
    rw [hchange] at hcomes
    exact hcomes
  | error e g =>
    rw [hchange] at hcomes
    exact hcomes

theorem keeps_markAncestors (l : Level) (n : Nat) : KeepsGraph P (markAncestors l n) := by
  intro w hw
  rw [Comes, markAncestors]
  cases Marker.mark (w.graph.predTable l) n w.marker with
  | ok a m => exact hw
  | error e m => exact hw

theorem keeps_forM_get {f : β → Pass Unit} (list : Workspace → List β)
    (hf : ∀ b, KeepsGraph P (f b)) : KeepsGraph P (do (list (← get)).forM f) :=
  keeps_get.bind fun _ => keeps_forM hf

theorem keeps_report (event : Event) : KeepsGraph P (report event) := keeps_change fun _ => id

theorem keeps_verifyBlocks (blocks : List BlockId) : KeepsGraph P (verifyBlocks blocks) := by
  refine keeps_get.bind fun w => ?_
  cases w.graph.verify blocks with
  | ok _ => exact keeps_pure ()
  | error fault => exact keeps_throw fault

theorem keeps_admission (i : IntervalId) (n : BlockId) : KeepsGraph P (admission budget i n) := by
  refine (keeps_query _).bind fun node => keeps_ite (keeps_pure _) ?_
  refine (keeps_query _).bind fun inside => keeps_ite (keeps_pure _) ?_
  refine (keeps_markAncestors .block n).bind fun _ => (keeps_survey _).bind fun above => ?_
  refine keeps_ite (keeps_pure _) ?_
  exact (keeps_query _).bind fun interval => keeps_ite (keeps_pure _) (keeps_pure _)

/-- Filling in the new intervals keeps what is kept when one of them is filled in. -/
theorem keeps_complete (h : ∀ g i s vector, P g → P (g.modifyInterval i (Interval.fill s vector)))
    (l : Level) (budget : Nat) : KeepsGraph P (complete l budget) := by
  refine keeps_forM_get (·.opened) fun i => Keeps.bind (keeps_survey _) fun s => ?_
  cases RegVector.ofSet s.regs with
  | error source => exact keeps_throw _
  | ok vector =>
    refine keeps_ite (keeps_throw _) (keeps_edit ?_)
    exact Edit.keeps_updateInterval fun g hg => h g i s vector hg

section Lasting

variable (h : Lasting budget P)

include h

theorem keeps_openGroup (n : BlockId) : KeepsGraph P (modify (Workspace.openGroup .block n)) :=
  keeps_change fun _ hw => h.assign _ _ _ (h.addInterval _ hw)

theorem keeps_openFree (n : BlockId) : KeepsGraph P (openFree .block n) :=
  (keeps_query _).bind fun _ => keeps_ite (keeps_openGroup h n) (keeps_pure ())

theorem keeps_openFrontier (i : IntervalId) : KeepsGraph P (openFrontier .block i) :=
  (keeps_survey _).bind fun _ => keeps_forM (keeps_openFree h)

theorem keeps_release (n : BlockId) : KeepsGraph P (release .block n) :=
  (keeps_query _).bind fun _ => keeps_change fun _ hw => h.assign _ _ _ hw

theorem keeps_openEntry (n : BlockId) : KeepsGraph P (openEntry .block n) :=
  (keeps_query _).bind fun _ => keeps_ite (keeps_openGroup h n) (keeps_pure ())

theorem keeps_start (blocks : List BlockId) : KeepsGraph P (start .block blocks) := by
  refine Keeps.bind (keeps_change fun _ => id) fun _ => ?_
  exact (keeps_forM (keeps_release h)).bind fun _ => keeps_forM (keeps_openEntry h)

theorem keeps_updateInterval (i : IntervalId) (f : Interval → Interval) :
    KeepsGraph P (edit (Edit.updateInterval i f)) :=
  keeps_edit (Edit.keeps_updateInterval fun _ => h.modifyInterval _ _ _)

theorem keeps_settle (n : BlockId) : KeepsGraph P (settle budget n) := by
  refine (keeps_edit (h.split n)).bind fun r => ?_
  cases r with
  | none => exact keeps_pure ()
  | some fragments =>
    refine (keeps_forM keeps_report).bind fun _ => ?_
    exact Keeps.bind (keeps_change fun _ => id) fun _ => keeps_openFree h _

theorem keeps_syncRegs (i : IntervalId) : KeepsGraph P (syncRegs i) :=
  (keeps_survey _).bind fun _ => keeps_updateInterval h i _

theorem keeps_joinIfAdmitted (i : IntervalId) (n : BlockId) :
    KeepsGraph P (joinIfAdmitted budget i n) := by
  refine (keeps_admission i n).bind fun live => ?_
  cases live with
  | none => exact keeps_pure ()
  | some live =>
    refine Keeps.bind (keeps_change fun _ hw => h.setInputs _ _ _ (h.assign _ _ _ hw)) fun _ => ?_
    exact (keeps_settle h n).bind fun _ => keeps_syncRegs h i

theorem keeps_visitBlock (n : BlockId) : KeepsGraph P (visitBlock budget n) := by
  refine (keeps_query _).bind fun b => ?_
  cases b.interval with
  | none => exact keeps_throw _
  | some i =>
    refine (keeps_settle h n).bind fun _ => (keeps_syncRegs h i).bind fun _ => ?_
    refine (keeps_query _).bind fun settled => keeps_ite ?_ (keeps_openFrontier h i)
    exact (keeps_forM_get (·.members) (keeps_joinIfAdmitted h i)).bind fun _ =>
      keeps_openFrontier h i

/-- The first pass keeps what its changes keep. -/
theorem keeps_groupBlocks (blocks : List BlockId) : KeepsGraph P (groupBlocks budget blocks) := by
  refine keeps_ite (keeps_throw _) ?_
  refine (keeps_verifyBlocks blocks).bind fun _ => (keeps_start h blocks).bind fun _ => ?_
  refine (keeps_drain (fun _ _ => id) (keeps_visitBlock h)).bind fun _ => ?_
  refine (keeps_complete (fun _ _ _ _ => h.modifyInterval _ _ _) _ budget).bind fun _ => ?_
  refine Keeps.bind (fun _ hw => hw) fun _ => ?_
  exact (keeps_report _).bind fun _ => keeps_pure _

end Lasting

end Pass

/-- Any run of the first pass keeps what its changes keep. -/
theorem BlockGrouper.run_keeps {P : FlowGraph → Prop} {p : BlockGrouper} (h : Lasting p.budget P)
    (blocks : List BlockId) {state : LoggedGraph} (hstate : P state.graph) :
    P (p.run blocks state).state.graph := by
  have hcomes := Pass.keeps_groupBlocks h blocks (state.workspace p.scratch) hstate
  rw [Comes] at hcomes
  rw [BlockGrouper.run]
  cases hrun : Pass.groupBlocks p.budget blocks (state.workspace p.scratch) with
  | ok a w =>
    rw [hrun] at hcomes
    exact hcomes
  | error fault w =>
    rw [hrun] at hcomes
    exact hcomes

end KernelIntervals
