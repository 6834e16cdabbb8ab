/-
Relations that the steps of a pass respect.

* `Pass.Respects` — a step that does not break off leads to a related workspace,
* `Pass.respects_bind`, `Pass.respects_forM` — steps one after the other.

Such relations are reflexive and transitive. They say what a pass never does,
for instance add to the work left.
-/
import KernelIntervals.Grouping.Quotient

namespace KernelIntervals

/-- A relation of a workspace to those that steps can lead to. -/
structure Evolution where
  Rel : Workspace → Workspace → Prop
  refl : ∀ w, Rel w w
  trans : ∀ {w₁ w₂ w₃}, Rel w₁ w₂ → Rel w₂ w₃ → Rel w₁ w₃

namespace Pass

variable {α β : Type} {R : Evolution}

/-- A step that does not break off leads to a related workspace. -/
def Respects (R : Evolution) (act : Pass α) : Prop :=
  ∀ ⦃w a w'⦄, act w = .ok a w' → R.Rel w w'

theorem respects_pure (a : α) : Respects R (pure a : Pass α) := by
  intro w b w' h
  injection h with _ h
  exact h ▸ R.refl w

theorem respects_throw (e : Fault) : Respects R (throw e : Pass α) := by
  intro w b w' h
  injection h

theorem respects_fail (e : IntervalError) : Respects R (fail e : Pass α) :=
  respects_throw _

theorem respects_get : Respects R (get : Pass Workspace) := by
  intro w b w' h
  injection h with _ h
  exact h ▸ R.refl w

theorem respects_modify {f : Workspace → Workspace} (h : ∀ w, R.Rel w (f w)) :
    Respects R (modify f : Pass Unit) := by
  intro w b w' heq
  injection heq with _ heq
  exact heq ▸ h w

theorem respects_bind {x : Pass α} {f : α → Pass β} (hx : Respects R x)
    (hf : ∀ a, Respects R (f a)) : Respects R (x >>= f) := by
  intro w b w' h
  simp only [bind, EStateM.bind] at h
  split at h
  next a w₁ hxw => exact R.trans (hx hxw) (hf a h)
  next => simp at h

theorem respects_ite {c : Prop} [Decidable c] {x y : Pass α} (hx : Respects R x)
    (hy : Respects R y) : Respects R (if c then x else y) := by
  split
  · exact hx
  · exact hy

theorem respects_forM {f : α → Pass Unit} {xs : List α}
    (hf : ∀ x ∈ xs, Respects R (f x)) : Respects R (xs.forM f) := by
  induction xs with
  | nil => exact respects_pure ()
  | cons x xs ih =>
    exact respects_bind (hf x List.mem_cons_self)
      fun _ => ih fun y hy => hf y (List.mem_cons_of_mem x hy)

/-! ### Steps that only look -/

theorem respects_demand (value : Option α) : Respects R (demand value) := by
  cases value with
  | none => exact respects_throw _
  | some a => exact respects_pure a

theorem respects_query (look : FlowGraph → Option α) : Respects R (query look) :=
  respects_bind respects_get fun _ => respects_demand _

theorem respects_survey (look : Workspace → Option α) : Respects R (survey look) :=
  respects_bind respects_get fun _ => respects_demand _

/-- What a query sees is there. -/
theorem query_eq_ok {look : FlowGraph → Option α} {w w' : Workspace} {a : α}
    (h : query look w = .ok a w') : look w.graph = some a ∧ w' = w := by
  change demand (look w.graph) w = .ok a w' at h
  cases hlook : look w.graph with
  | none =>
    rw [hlook] at h
    injection h
  | some b =>
    rw [hlook] at h
    injection h with h₁ h₂
    exact ⟨congrArg some h₁, h₂.symm⟩

/-- What a survey sees is there. -/
theorem survey_eq_ok {look : Workspace → Option α} {w w' : Workspace} {a : α}
    (h : survey look w = .ok a w') : look w = some a ∧ w' = w := by
  change demand (look w) w = .ok a w' at h
  cases hlook : look w with
  | none =>
    rw [hlook] at h
    injection h
  | some b =>
    rw [hlook] at h
    injection h with h₁ h₂
    exact ⟨congrArg some h₁, h₂.symm⟩

/-! ### Steps that change the graph -/

theorem respects_edit {change : Edit α}
    (h : ∀ w a g', change w.graph = .ok a g' → R.Rel w { w with graph := g' }) :
    Respects R (edit change) := by
  intro w a w' heq
  simp only [edit] at heq
  split at heq
  next b g' hchange =>
    injection heq with _ heq
    exact heq ▸ h w b g' hchange
  next => injection heq

theorem respects_markAncestors (h : ∀ w m, R.Rel w { w with marker := m }) (l : Level) (n : Nat) :
    Respects R (markAncestors l n) := by
  intro w a w' heq
  simp only [markAncestors] at heq
  split at heq
  next m _ =>
    injection heq with _ heq
    exact heq ▸ h w m
  next => injection heq

end Pass

end KernelIntervals
