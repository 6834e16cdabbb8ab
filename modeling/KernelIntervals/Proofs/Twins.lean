/-
Two runs side by side.

* `Twin` — two workspaces that differ in marks and log only,
* `Mirrors` — what a step comes to on one workspace, another comes to on its twin,
* `Blind` — a step that does not look at marks or log,
* `mirrors_bind`, `mirrors_forM`, `mirrors_drain` — steps one after the other, and loops,
* `blind_openFrontier`, `blind_complete`, `mirrors_start` — what the passes have in common
  is blind, and a start makes twins of all workspaces with one graph.

Design notes: `Mirrors` speaks of one pair of workspaces, so that what is known of them can be
used where steps differ. Only steps that do not break off are followed.
-/
import KernelIntervals.Grouping.Quotient
import KernelIntervals.Proofs.Ends

namespace KernelIntervals

/-- Two workspaces that differ in marks and log only. -/
structure Twin (w w' : Workspace) : Prop where
  graph : w'.graph = w.graph
  members : w'.members = w.members
  opened : w'.opened = w.opened
  worklist : w'.worklist = w.worklist

/-- What `x` comes to on `w`, `y` comes to on `w'`, and leaves a twin. -/
def Mirrors {α : Type} (x y : Pass α) (w w' : Workspace) : Prop :=
  ∀ a u, x w = .ok a u → ∃ u', y w' = .ok a u' ∧ Twin u u'

/-- A step that does not look at marks or log. -/
def Blind {α : Type} (x : Pass α) : Prop := ∀ w w', Twin w w' → Mirrors x x w w'

variable {α β : Type} {x y : Pass α} {w w' : Workspace}

theorem Twin.refl (w : Workspace) : Twin w w := ⟨rfl, rfl, rfl, rfl⟩

/-! ### Steps -/

theorem mirrors_bind {f g : α → Pass β} (hx : Mirrors x y w w')
    (hf : ∀ a u u', x w = .ok a u → Twin u u' → Mirrors (f a) (g a) u u') :
    Mirrors (x >>= f) (y >>= g) w w' := by
  intro b v hv
  obtain ⟨a, u, hu, hv⟩ := bind_eq_ok hv
  obtain ⟨u', hu', htwin⟩ := hx a u hu
  obtain ⟨v', hv', htwin'⟩ := hf a u u' hu htwin b v hv
  exact ⟨v', (bind_of_eq_ok hu').trans hv', htwin'⟩

/-- Steps with other results may be followed by steps that mirror each other. -/
theorem mirrors_of_eq_ok {γ : Type} {z : Pass γ} {a : α} {c : γ} {f : α → Pass β}
    {g : γ → Pass β} {u u' : Workspace} (hx : x w = .ok a u) (hz : z w' = .ok c u')
    (h : Mirrors (f a) (g c) u u') : Mirrors (x >>= f) (z >>= g) w w' := by
  intro b v hv
  rw [bind_of_eq_ok hx] at hv
  rw [bind_of_eq_ok hz]
  exact h b v hv

theorem mirrors_modify {f g : Workspace → Workspace} (h : Twin (f w) (g w')) :
    Mirrors (modify f) (modify g) w w' := by
  intro a u hu
  injection hu with ha hu
  exact ⟨g w', rfl, hu ▸ h⟩

theorem mirrors_fail (e : IntervalError) : Mirrors (Pass.fail e) y w w' := by
  intro a u hu
  injection hu

/-- Steps for the elements of a list, one after the other: what holds before a step is kept
by the one before. -/
theorem mirrors_forM {f g : α → Pass Unit} {P : Workspace → Prop} {xs : List α}
    (hstep : ∀ a ∈ xs, ∀ u u', P u → Twin u u' → Mirrors (f a) (g a) u u')
    (hkeep : ∀ a ∈ xs, ∀ u v, P u → f a u = .ok () v → P v) (hw : P w) (ht : Twin w w') :
    Mirrors (xs.forM f) (xs.forM g) w w' := by
  induction xs generalizing w w' with
  | nil =>
    intro a u hu
    injection hu with ha hu
    exact ⟨w', rfl, hu ▸ ht⟩
  | cons a xs ih =>
    refine mirrors_bind (hstep a List.mem_cons_self w w' hw ht) fun _ u u' hu htwin => ?_
    refine ih (fun b hb => hstep b (List.mem_cons_of_mem a hb))
      (fun b hb => hkeep b (List.mem_cons_of_mem a hb)) ?_ htwin
    exact hkeep a List.mem_cons_self w u hw hu

/-- Loops that mirror each other in every visit do so in the end. -/
theorem mirrors_drain {v v' : Visit} {P : Workspace → Prop}
    (hstep : ∀ n rest u u', P u → u.worklist = n :: rest → Twin u u' →
      Mirrors (v.visit n) (v'.visit n) { u with worklist := rest } { u' with worklist := rest })
    (hkeep : ∀ n rest u u₁, P u → u.worklist = n :: rest →
      v.visit n { u with worklist := rest } = .ok () u₁ → P u₁)
    (hw : P w) (ht : Twin w w') : Mirrors (drain v) (drain v') w w' := by
  intro a u hu
  fun_induction drain v w generalizing w' with
  | case1 w hwork =>
    injection hu with _ hu
    exact ⟨w', drain_of_nil (ht.worklist.trans hwork), hu ▸ ht⟩
  | case2 => injection hu
  | case3 w n rest hwork w₁ hvisit _ ih =>
    obtain ⟨w₁', hvisit', htwin⟩ := hstep n rest w w' hw hwork ht () w₁ hvisit
    obtain ⟨u', hu', htwin'⟩ := ih (hkeep n rest w w₁ hw hwork hvisit) htwin hu
    exact ⟨u', (drain_of_cons (ht.worklist.trans hwork) hvisit').trans hu', htwin'⟩

/-! ### Blind steps -/

theorem blind_pure (a : α) : Blind (pure a : Pass α) := by
  intro w w' ht b u hu
  injection hu with hb hu
  exact ⟨w', by rw [← hb]; rfl, hu ▸ ht⟩

theorem blind_bind {f : α → Pass β} (hx : Blind x) (hf : ∀ a, Blind (f a)) : Blind (x >>= f) :=
  fun w w' ht => mirrors_bind (hx w w' ht) fun a u u' _ htwin => hf a u u' htwin

theorem blind_ite {c : Prop} [Decidable c] (hx : Blind x) (hy : Blind y) :
    Blind (if c then x else y) := by
  split
  · exact hx
  · exact hy

theorem blind_fail (e : IntervalError) : Blind (Pass.fail e : Pass α) :=
  fun _ _ _ => mirrors_fail e

theorem blind_modify {f : Workspace → Workspace} (h : ∀ w w', Twin w w' → Twin (f w) (f w')) :
    Blind (modify f) :=
  fun w w' ht => mirrors_modify (h w w' ht)

theorem blind_survey {look : Workspace → Option α}
    (h : ∀ w w', Twin w w' → look w' = look w) : Blind (Pass.survey look) := by
  intro w w' ht a u hu
  obtain ⟨hlook, rfl⟩ := Pass.survey_eq_ok hu
  refine ⟨w', ?_, ht⟩
  show (Pass.demand (look w') : Pass α) w' = _
  rw [h u w' ht, hlook]
  rfl

theorem blind_query (look : FlowGraph → Option α) : Blind (Pass.query look) :=
  blind_survey fun _ _ ht => congrArg look ht.graph

theorem blind_edit (change : Edit α) : Blind (Pass.edit change) := by
  intro w w' ht a u hu
  rw [Pass.edit] at hu
  rw [Pass.edit, ht.graph]
  cases hchange : change w.graph with
  | ok b g =>
    rw [hchange] at hu
    injection hu with hb hu
    exact ⟨{ w' with graph := g }, by rw [hb], hu ▸ ⟨rfl, ht.members, ht.opened, ht.worklist⟩⟩
  | error e g =>
    rw [hchange] at hu
    injection hu

theorem blind_forM {f : α → Pass Unit} (hf : ∀ a, Blind (f a)) (xs : List α) :
    Blind (xs.forM f) := by
  intro w w' ht
  exact mirrors_forM (P := fun _ => True) (fun a _ u u' _ htwin => hf a u u' htwin)
    (fun _ _ _ _ _ _ => trivial) trivial ht

/-! ### What the passes have in common -/

namespace Pass

/-- What is reported makes no difference. -/
theorem mirrors_report (ht : Twin w w') (event event' : Event) :
    Mirrors (report event) (report event') w w' :=
  mirrors_modify ⟨ht.graph, ht.members, ht.opened, ht.worklist⟩

theorem blind_finish : Blind finish := by
  intro w w' ht a u hu
  injection hu with ha hu
  refine ⟨{ w' with members := [], opened := [] }, ?_, hu ▸ ⟨ht.graph, rfl, rfl, ht.worklist⟩⟩
  rw [← ha, ← ht.members, ← ht.opened]
  rfl

theorem blind_openGroup (l : Level) (n : Nat) : Blind (modify (Workspace.openGroup l n)) := by
  refine blind_modify fun w w' ht => ?_
  rw [Workspace.openGroup, Workspace.openGroup]
  refine ⟨?_, ht.members, ?_, ?_⟩
  · exact congrArg (fun g => (g.addInterval {}).assign l n (some g.intervals.size)) ht.graph
  · rw [ht.opened, ht.graph]
  · rw [ht.worklist]

theorem blind_openFree (l : Level) (n : Nat) : Blind (openFree l n) :=
  blind_bind (blind_query _) fun _ => blind_ite (blind_openGroup l n) (blind_pure _)

theorem blind_openFrontier (l : Level) (i : IntervalId) : Blind (openFrontier l i) := by
  refine blind_bind (blind_survey fun w w' ht => ?_) fun found => blind_forM (blind_openFree l) found
  rw [ht.graph, ht.members]

theorem blind_completeOne (l : Level) (budget : Nat) (i : IntervalId) :
    Blind (completeOne l budget i) := by
  refine blind_bind (blind_survey fun w w' ht => ?_) fun s => ?_
  · rw [ht.graph, ht.members]
  · cases RegVector.ofSet s.regs with
    | error source => exact blind_fail _
    | ok vector => exact blind_ite (blind_fail _) (blind_edit _)

theorem blind_complete (l : Level) (budget : Nat) : Blind (complete l budget) := by
  intro w w' ht
  refine mirrors_of_eq_ok rfl rfl ?_
  rw [ht.opened]
  exact blind_forM (blind_completeOne l budget) _ w w' ht

theorem blind_release (l : Level) (n : Nat) : Blind (release l n) := by
  refine blind_bind (blind_query _) fun _ => blind_modify fun w w' ht => ?_
  exact ⟨congrArg (fun g => g.assign l n none) ht.graph, ht.members, ht.opened, ht.worklist⟩

theorem blind_openEntry (l : Level) (n : Nat) : Blind (openEntry l n) :=
  blind_bind (blind_query _) fun _ => blind_ite (blind_openGroup l n) (blind_pure _)

/-- A start makes twins of workspaces with one graph, whatever is left in them of other
passes. -/
theorem mirrors_start (l : Level) (nodes : List Nat) (h : w'.graph = w.graph) :
    Mirrors (start l nodes) (start l nodes) w w' := by
  refine mirrors_bind (mirrors_modify ⟨h, rfl, rfl, rfl⟩) fun _ u u' _ ht => ?_
  exact blind_bind (blind_forM (blind_release l) nodes)
    (fun _ => blind_forM (blind_openEntry l) nodes) u u' ht

end Pass

end KernelIntervals
