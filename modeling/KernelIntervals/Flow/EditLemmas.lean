/-
Edits that did not break off.

* `bind_eq_ok` — two steps one after the other end well if both do,
* `Edit.query_eq_ok`, `Edit.updateBlock_eq_ok` and the like — what the graph
  holds before and after each kind of edit.
-/
import KernelIntervals.Flow.Graph

namespace KernelIntervals

/-- Two steps one after the other end well if both do. -/
theorem bind_eq_ok {σ α β : Type} {x : EStateM Fault σ α} {f : α → EStateM Fault σ β}
    {s s' : σ} {b : β} (h : (x >>= f) s = .ok b s') :
    ∃ a s₁, x s = .ok a s₁ ∧ f a s₁ = .ok b s' := by
  simp only [bind, EStateM.bind] at h
  split at h
  next a s₁ hx => exact ⟨a, s₁, hx, h⟩
  next => injection h

/-- A step that only returns a value keeps the state. -/
theorem pure_eq_ok {σ α : Type} {a b : α} {s s' : σ}
    (h : (pure a : EStateM Fault σ α) s = .ok b s') : b = a ∧ s' = s := by
  injection h with h₁ h₂
  exact ⟨h₁.symm, h₂.symm⟩

namespace Edit

theorem query_eq_ok {α : Type} {look : FlowGraph → Option α} {g g' : FlowGraph} {a : α}
    (h : query look g = .ok a g') : look g = some a ∧ g' = g := by
  obtain ⟨g₀, g₁, hget, h⟩ := bind_eq_ok h
  injection hget with h₀ h₁
  subst h₀ h₁
  cases hlook : look g with
  | none =>
    rw [hlook] at h
    injection h
  | some b =>
    rw [hlook] at h
    obtain ⟨rfl, rfl⟩ := pure_eq_ok h
    exact ⟨rfl, rfl⟩

theorem updateBlock_eq_ok {n : BlockId} {f : Block → Block} {g g' : FlowGraph} {a : Unit}
    (h : updateBlock n f g = .ok a g') :
    g' = g.modifyBlock n f ∧ ∃ b, g.block? n = some b := by
  obtain ⟨b, g₁, hquery, hmodify⟩ := bind_eq_ok h
  obtain ⟨hb, rfl⟩ := query_eq_ok hquery
  injection hmodify with _ hmodify
  exact ⟨hmodify.symm, b, hb⟩

theorem updateInterval_eq_ok {i : IntervalId} {f : Interval → Interval} {g g' : FlowGraph}
    {a : Unit} (h : updateInterval i f g = .ok a g') :
    g' = g.modifyInterval i f ∧ ∃ b, g.interval? i = some b := by
  obtain ⟨b, g₁, hquery, hmodify⟩ := bind_eq_ok h
  obtain ⟨hb, rfl⟩ := query_eq_ok hquery
  injection hmodify with _ hmodify
  exact ⟨hmodify.symm, b, hb⟩

theorem newBlock_eq_ok {b : Block} {g g' : FlowGraph} {n : BlockId}
    (h : newBlock b g = .ok n g') : n = g.blocks.size ∧ g' = g.addBlock b := by
  injection h with h₁ h₂
  exact ⟨h₁.symm, h₂.symm⟩

end Edit

end KernelIntervals
