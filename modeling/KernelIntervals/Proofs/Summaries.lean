/-
What the members of an interval amount to.

* `FlowGraph.summaryOf` — the summary of an interval, for nodes that exist,
* `FlowGraph.summary?_eq_some` — it is what a pass finds,
* `FlowGraph.insts_summaryOf`, `FlowGraph.mem_regs_summaryOf`,
  `FlowGraph.mem_preds_summaryOf`, `FlowGraph.mem_succs_summaryOf` — its parts,
* `FlowGraph.summaryOf_congr` — it depends on the members only.
-/
import Mathlib.Data.List.Basic
import KernelIntervals.Proofs.Observe

namespace KernelIntervals

namespace FlowGraph

variable {g g' : FlowGraph} {l : Level} {i j : IntervalId} {nodes : List Nat} {s : Summary}

/-- The intervals found so far with the owner of one more node, unless it is `i`. -/
def addOwner (g : FlowGraph) (l : Level) (i : IntervalId) (found : List IntervalId) (n : Nat) :
    List IntervalId :=
  match g.owner l n with
  | some owner => if owner = i then found else addNew found owner
  | none => found

/-- A summary with one more node, if it is a member. -/
def gather (g : FlowGraph) (l : Level) (i : IntervalId) (s : Summary) (n : Nat) : Summary :=
  if g.owner l n = some i then {
    insts := s.insts ++ g.insts l n
    regs := s.regs ∪ g.regs l n
    preds := (g.preds l n).foldl (g.addOwner l i) s.preds
    succs := (g.succs l n).foldl (g.addOwner l i) s.succs }
  else s

/-- The summary of an interval whose members are among some nodes. -/
def summaryOf (g : FlowGraph) (l : Level) (i : IntervalId) (nodes : List Nat) : Summary :=
  nodes.foldl (g.gather l i) {}

theorem owners?_eq_some {found : List IntervalId} (h : ∀ n ∈ nodes, n < g.extent l) :
    g.owners? l i found nodes = some (nodes.foldl (g.addOwner l i) found) := by
  refine foldlM_eq_some_foldl (fun n hn found => ?_) found
  rw [node?_eq_some (h n hn), addOwner]
  cases g.owner l n with
  | none => rfl
  | some j => rfl

/-- The summary is what a pass finds. -/
theorem summary?_eq_some (h : ∀ n ∈ nodes, n < g.extent l)
    (hpreds : ∀ n ∈ nodes, ∀ p ∈ g.preds l n, p < g.extent l)
    (hsuccs : ∀ n ∈ nodes, ∀ s ∈ g.succs l n, s < g.extent l) :
    g.summary? l i nodes = some (g.summaryOf l i nodes) := by
  refine foldlM_eq_some_foldl (fun n hn s => ?_) ({} : Summary)
  rw [summarize?, node?_eq_some (h n hn), gather]
  show (if g.owner l n = some i then _ else _) = _
  split
  · dsimp only
    rw [owners?_eq_some (hpreds n hn), owners?_eq_some (hsuccs n hn)]
    rfl
  · rfl

/-- The summary depends on the members only. -/
theorem summaryOf_congr (howner : g'.owner l = g.owner l)
    (h : ∀ n ∈ nodes, g'.insts l n = g.insts l n ∧ g'.regs l n = g.regs l n ∧
      g'.preds l n = g.preds l n ∧ g'.succs l n = g.succs l n) :
    g'.summaryOf l i nodes = g.summaryOf l i nodes := by
  have haddOwner : g'.addOwner l i = g.addOwner l i := by
    funext found n
    rw [addOwner, addOwner, howner]
  refine List.foldl_ext _ _ _ fun s n hn => ?_
  obtain ⟨hinsts, hregs, hpreds, hsuccs⟩ := h n hn
  rw [gather, gather, howner, haddOwner, hinsts, hregs, hpreds, hsuccs]

/-! ### The parts of a summary -/

theorem insts_foldl_gather (g : FlowGraph) (l : Level) (i : IntervalId) (nodes : List Nat)
    (s : Summary) : (nodes.foldl (g.gather l i) s).insts =
      s.insts ++ (nodes.filter fun n => g.owner l n = some i).flatMap (g.insts l) := by
  induction nodes generalizing s with
  | nil => exact (List.append_nil _).symm
  | cons n nodes ih =>
    rw [List.foldl_cons, ih, gather]
    by_cases hn : g.owner l n = some i
    · rw [if_pos hn, List.filter_cons_of_pos (by simpa using hn), List.flatMap_cons,
        List.append_assoc]
    · rw [if_neg hn, List.filter_cons_of_neg (by simpa using hn)]

/-- The instructions of the members, in their order. -/
theorem insts_summaryOf : (g.summaryOf l i nodes).insts =
    (nodes.filter fun n => g.owner l n = some i).flatMap (g.insts l) :=
  insts_foldl_gather g l i nodes {}

/-- A part of a summary to which each member adds. -/
theorem mem_part_summaryOf {ρ γ : Type} [Membership ρ γ] {part : Summary → γ}
    (adds : Nat → ρ → Prop) (hempty : ∀ r, r ∉ part {})
    (hadds : ∀ s n r, g.owner l n = some i →
      (r ∈ part (g.gather l i s n) ↔ r ∈ part s ∨ adds n r)) (r : ρ) :
    r ∈ part (g.summaryOf l i nodes) ↔ ∃ n ∈ nodes, g.owner l n = some i ∧ adds n r := by
  have hstep : ∀ s n, r ∈ part (g.gather l i s n) ↔
      r ∈ part s ∨ g.owner l n = some i ∧ adds n r := by
    intro s n
    by_cases hn : g.owner l n = some i
    · rw [hadds s n r hn, and_iff_right hn]
    · rw [gather, if_neg hn, or_iff_left (fun h => hn h.1)]
  -- The induction is for any summary to start from.
  have hfold : ∀ s, r ∈ part (nodes.foldl (g.gather l i) s) ↔
      r ∈ part s ∨ ∃ n ∈ nodes, g.owner l n = some i ∧ adds n r := by
    induction nodes with
    | nil => intro s; simp
    | cons n nodes ih =>
      intro s
      rw [List.foldl_cons, ih, hstep, or_assoc]
      simp only [List.mem_cons, exists_eq_or_imp]
  rw [summaryOf, hfold, or_iff_right (hempty r)]

theorem mem_regs_summaryOf {r : Reg} : r ∈ (g.summaryOf l i nodes).regs ↔
    ∃ n ∈ nodes, g.owner l n = some i ∧ r ∈ g.regs l n := by
  refine mem_part_summaryOf (fun n r => r ∈ g.regs l n) RegSet.not_mem_empty ?_ r
  intro s n r hn
  rw [gather, if_pos hn, RegSet.mem_union]

theorem mem_foldl_addOwner {found : List IntervalId} :
    j ∈ nodes.foldl (g.addOwner l i) found ↔
      j ∈ found ∨ j ≠ i ∧ ∃ n ∈ nodes, g.owner l n = some j := by
  have hstep : ∀ found n j, j ∈ g.addOwner l i found n ↔
      j ∈ found ∨ j ≠ i ∧ g.owner l n = some j := by
    intro found n j
    rw [addOwner]
    cases g.owner l n with
    | none => simp
    | some k =>
      by_cases hk : k = i
      · simp only [if_pos hk, Option.some.injEq]
        exact (or_iff_left fun h => h.1 (h.2.symm.trans hk)).symm
      · simp only [if_neg hk, mem_addNew, Option.some.injEq]
        refine or_congr_right ⟨fun h => ⟨h ▸ hk, h.symm⟩, fun h => h.2.symm⟩
  rw [mem_foldl_iff hstep nodes found j]
  constructor
  · rintro (h | ⟨n, hn, hne, hown⟩)
    · exact .inl h
    · exact .inr ⟨hne, n, hn, hown⟩
  · rintro (h | ⟨hne, n, hn, hown⟩)
    · exact .inl h
    · exact .inr ⟨n, hn, hne, hown⟩

theorem mem_preds_summaryOf : j ∈ (g.summaryOf l i nodes).preds ↔
    ∃ n ∈ nodes, g.owner l n = some i ∧ j ≠ i ∧ ∃ p ∈ g.preds l n, g.owner l p = some j := by
  refine mem_part_summaryOf (fun n j => j ≠ i ∧ ∃ p ∈ g.preds l n, g.owner l p = some j)
    (fun _ => List.not_mem_nil) ?_ j
  intro s n j hn
  rw [gather, if_pos hn, mem_foldl_addOwner]

theorem mem_succs_summaryOf : j ∈ (g.summaryOf l i nodes).succs ↔
    ∃ n ∈ nodes, g.owner l n = some i ∧ j ≠ i ∧ ∃ s ∈ g.succs l n, g.owner l s = some j := by
  refine mem_part_summaryOf (fun n j => j ≠ i ∧ ∃ s ∈ g.succs l n, g.owner l s = some j)
    (fun _ => List.not_mem_nil) ?_ j
  intro s n j hn
  rw [gather, if_pos hn, mem_foldl_addOwner]

end FlowGraph

end KernelIntervals
