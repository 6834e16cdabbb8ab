/-
Steps that end well.

* `Ends` — a step does not break off, and what then holds,
* `Ends.bind`, `ends_forM` — steps one after the other,
* `drain_ends` — if every visit ends well and keeps a property, so does the loop
  over the worklist,
* `Turn`, `turns_of_drain` — the loop goes from round to round, one visit each.

Unlike `Pass.Respects`, which speaks of a step that does not break off, `Ends`
says that it does not.
-/
import Mathlib.Logic.Relation
import KernelIntervals.Flow.EditLemmas
import KernelIntervals.Grouping.Respects

namespace KernelIntervals

open Relation

variable {σ α β : Type}

/-- A step does not break off, and its result and the state after it are as
described. -/
def Ends (act : EStateM Fault σ α) (s : σ) (post : α → σ → Prop) : Prop :=
  ∃ a s', act s = .ok a s' ∧ post a s'

variable {s : σ} {post post' : α → σ → Prop}

theorem Ends.mono {act : EStateM Fault σ α} (h : Ends act s post)
    (himp : ∀ a s', post a s' → post' a s') : Ends act s post' := by
  obtain ⟨a, s', hact, hpost⟩ := h
  exact ⟨a, s', hact, himp a s' hpost⟩

/-- A step has one outcome. -/
theorem Ends.of_eq_ok {act : EStateM Fault σ α} {a : α} {s' : σ} (h : Ends act s post)
    (hact : act s = .ok a s') : post a s' := by
  obtain ⟨b, t, hb, hpost⟩ := h
  rw [hact] at hb
  injection hb with h₁ h₂
  rw [h₁, h₂]
  exact hpost

theorem ends_pure {a : α} (h : post a s) : Ends (pure a) s post :=
  ⟨a, s, rfl, h⟩

theorem Ends.bind {x : EStateM Fault σ α} {f : α → EStateM Fault σ β} {post : β → σ → Prop}
    (h : Ends x s fun a s' => Ends (f a) s' post) : Ends (x >>= f) s post := by
  obtain ⟨a, s₁, hx, b, s₂, hf, hpost⟩ := h
  refine ⟨b, s₂, ?_, hpost⟩
  show EStateM.bind x f s = _
  rw [EStateM.bind, hx]
  exact hf

/-- A step that ends well is followed by the next one. -/
theorem bind_of_eq_ok {x : EStateM Fault σ α} {f : α → EStateM Fault σ β} {a : α} {s' : σ}
    (h : x s = .ok a s') : (x >>= f) s = f a s' := by
  show EStateM.bind x f s = _
  rw [EStateM.bind, h]

theorem ends_get {post : σ → σ → Prop} (h : post s s) : Ends get s post :=
  ⟨s, s, rfl, h⟩

theorem ends_modify {f : σ → σ} {post : Unit → σ → Prop} (h : post () (f s)) :
    Ends (modify f) s post :=
  ⟨(), f s, rfl, h⟩

/-- Steps for the elements of a list, one after the other: what holds before a
step depends on the elements that are left. -/
theorem ends_forM {f : α → EStateM Fault σ Unit} {P : List α → σ → Prop} {xs : List α}
    (hstep : ∀ x xs s, P (x :: xs) s → Ends (f x) s fun _ s' => P xs s') (h : P xs s) :
    Ends (xs.forM f) s fun _ s' => P [] s' := by
  induction xs generalizing s with
  | nil => exact ends_pure h
  | cons x xs ih => exact (Ends.mono (hstep x xs s h) fun _ s' hs' => ih hs').bind

/-- What every step keeps is kept by all. -/
theorem ends_forM_inv {f : α → EStateM Fault σ Unit} {P : σ → Prop} {xs : List α}
    (hstep : ∀ x ∈ xs, ∀ s, P s → Ends (f x) s fun _ s' => P s') (h : P s) :
    Ends (xs.forM f) s fun _ s' => P s' := by
  have hend : Ends (xs.forM f) s fun _ s' => P s' ∧ ∀ x ∈ ([] : List α), x ∈ xs := by
    refine ends_forM (P := fun ys s => P s ∧ ∀ x ∈ ys, x ∈ xs) ?_ ⟨h, fun _ hx => hx⟩
    intro x ys s ⟨hs, hys⟩
    refine (hstep x (hys x List.mem_cons_self) s hs).mono fun _ s' hs' => ⟨hs', fun y hy => ?_⟩
    exact hys y (List.mem_cons_of_mem x hy)
  exact hend.mono fun _ _ h => h.1

/-! ### Looking -/

namespace Edit

variable {post : α → FlowGraph → Prop}

theorem ends_query {look : FlowGraph → Option α} {g : FlowGraph} {a : α}
    (hlook : look g = some a) (h : post a g) : Ends (query look) g post := by
  refine Ends.bind (ends_get ?_)
  rw [hlook]
  exact ends_pure h

theorem ends_updateBlock {n : BlockId} {f : Block → Block} {g : FlowGraph} {b : Block}
    {post : Unit → FlowGraph → Prop} (hb : g.block? n = some b) (h : post () (g.modifyBlock n f)) :
    Ends (updateBlock n f) g post :=
  Ends.bind (ends_query hb (ends_modify h))

theorem ends_updateInterval {i : IntervalId} {f : Interval → Interval} {g : FlowGraph}
    {v : Interval} {post : Unit → FlowGraph → Prop} (hv : g.interval? i = some v)
    (h : post () (g.modifyInterval i f)) : Ends (updateInterval i f) g post :=
  Ends.bind (ends_query hv (ends_modify h))

end Edit

namespace Pass

variable {w : Workspace} {post : α → Workspace → Prop}

theorem ends_query {look : FlowGraph → Option α} {a : α} (hlook : look w.graph = some a)
    (h : post a w) : Ends (query look) w post := by
  refine Ends.bind (ends_get ?_)
  rw [hlook]
  exact ends_pure h

theorem ends_survey {look : Workspace → Option α} {a : α} (hlook : look w = some a)
    (h : post a w) : Ends (survey look) w post := by
  refine Ends.bind (ends_get ?_)
  rw [hlook]
  exact ends_pure h

theorem ends_edit {change : Edit α}
    (h : Ends change w.graph fun a g => post a { w with graph := g }) :
    Ends (edit change) w post := by
  obtain ⟨a, g, hchange, hpost⟩ := h
  refine ⟨a, { w with graph := g }, ?_, hpost⟩
  rw [edit, hchange]

end Pass

/-! ### The worklist -/

theorem drain_of_nil {v : Visit} {w : Workspace} (hwork : w.worklist = []) :
    drain v w = .ok () w := by
  rw [drain]
  split
  · rfl
  next n rest hcons =>
    rw [hwork] at hcons
    injection hcons

/-- The loop goes on from where a visit has led. -/
theorem drain_of_cons {v : Visit} {w w' : Workspace} {n : Nat} {rest : List Nat}
    (hwork : w.worklist = n :: rest) (hvisit : v.visit n { w with worklist := rest } = .ok () w') :
    drain v w = drain v w' := by
  conv => lhs; rw [drain]
  split
  next hnil =>
    rw [hwork] at hnil
    injection hnil
  next n' rest' hwork' =>
    rw [hwork] at hwork'
    injection hwork' with hn hrest
    subst hn hrest
    split
    next e w₁ herror =>
      rw [hvisit] at herror
      injection herror
    next w₁ hok =>
      rw [hvisit] at hok
      injection hok with _ hw
      rw [hw]

/-- If every visit ends well and keeps a property, the loop over the worklist
ends, with the property and nothing waiting. -/
theorem drain_ends {v : Visit} {P : Workspace → Prop} {w : Workspace}
    (hstep : ∀ n rest w, w.worklist = n :: rest → P w →
      Ends (v.visit n) { w with worklist := rest } fun _ w' => P w')
    (h : P w) : Ends (drain v) w fun _ w' => P w' ∧ w'.worklist = [] := by
  show ∃ a w', drain v w = .ok a w' ∧ P w' ∧ w'.worklist = []
  fun_induction drain v w with
  | case1 w hwork => exact ⟨(), w, rfl, h, hwork⟩
  | case2 w n rest hwork e w₁ hvisit =>
    obtain ⟨a, w₂, hok, _⟩ := hstep n rest w hwork h
    rw [hvisit] at hok
    injection hok
  | case3 w n rest hwork w₁ hvisit _ ih => exact ih ((hstep n rest w hwork h).of_eq_ok hvisit)

/-! ### Rounds of the loop -/

/-- A round of a loop: the first waiting node is visited. -/
def Turn (v : Visit) (w w' : Workspace) : Prop :=
  ∃ n rest, w.worklist = n :: rest ∧ v.visit n { w with worklist := rest } = .ok () w'

/-- The loop goes from round to round. -/
theorem turns_of_drain {v : Visit} {w w' : Workspace} (h : drain v w = .ok () w') :
    ReflTransGen (Turn v) w w' := by
  refine (drain_induction (P := ReflTransGen (Turn v) w) ?_ .refl h).1
  intro n rest w₁ w₂ hwork hpath hvisit
  exact hpath.tail ⟨n, rest, hwork, hvisit⟩

/-- From every round the loop goes on to the same end. -/
theorem drain_of_turns {v : Visit} {w w' : Workspace} (h : ReflTransGen (Turn v) w w') :
    drain v w' = drain v w := by
  induction h with
  | refl => rfl
  | tail _ hturn ih =>
    obtain ⟨n, rest, hwork, hvisit⟩ := hturn
    exact (drain_of_cons hwork hvisit).symm.trans ih

end KernelIntervals
