/-
How a pass ends.

* `Fits` — registers that an interval may have: fewer than the budget, and each
  with a bit in a vector,
* `Completion`, `completeAll_result` — the new intervals are filled in if the registers
  of each fit, and else the pass is refused because of one of them,
* `Filled` — what a graph is like after the new intervals were filled in,
* `andThen` — what a pass comes to that goes on after it has filled them in.
-/
import KernelIntervals.Proofs.Ends
import KernelIntervals.Proofs.Summaries

namespace KernelIntervals

variable {l : Level} {budget : Nat} {w w₁ w' : Workspace} {i : IntervalId}
  {is : List IntervalId}

/-- An interval may have these registers. -/
def Fits (budget : Nat) (regs : RegSet) : Prop :=
  regs.size < budget ∧ ∀ r ∈ regs, r.num < vectorWidth

theorem ofSet_eq_ok {s : RegSet} {v : RegVector} (h : RegVector.ofSet s = .ok v) :
    ∀ r ∈ s, r.num < vectorWidth := by
  rw [RegVector.ofSet] at h
  split at h
  next => injection h
  next hnone =>
    intro r hr
    have hfalse := List.find?_eq_none.mp hnone r hr
    simpa using hfalse

theorem ofSet_eq_error {s : RegSet} {e : RegOutOfRange} (h : RegVector.ofSet s = .error e) :
    ∃ r ∈ s, vectorWidth ≤ r.num := by
  rw [RegVector.ofSet] at h
  split at h
  next r hr => exact ⟨r, List.mem_of_find?_eq_some hr, by simpa using List.find?_some hr⟩
  next => injection h

/-- What the members of an interval amount to in a workspace. -/
def Workspace.summaryOf (w : Workspace) (l : Level) (i : IntervalId) : Summary :=
  w.graph.summaryOf l i w.members

/-- The members of a workspace and what is next to them exist, and so do some
intervals that are no members. -/
structure Ready (l : Level) (is : List IntervalId) (w : Workspace) : Prop where
  exists_node : ∀ n ∈ w.members, n < w.graph.extent l
  exists_pred : ∀ n ∈ w.members, ∀ p ∈ w.graph.preds l n, p < w.graph.extent l
  exists_succ : ∀ n ∈ w.members, ∀ s ∈ w.graph.succs l n, s < w.graph.extent l
  exists_interval : ∀ i ∈ is, i < w.graph.intervals.size
  ne : l = .interval → ∀ n ∈ w.members, ∀ i ∈ is, n ≠ i

/-- Some intervals are filled in, and nothing else is changed. -/
structure Filled (l : Level) (is : List IntervalId) (w w' : Workspace) : Prop where
  members : w'.members = w.members
  opened : w'.opened = w.opened
  blocks : w'.graph.blocks = w.graph.blocks
  size : w'.graph.intervals.size = w.graph.intervals.size
  filled : ∀ i ∈ is, ∃ vector, RegVector.ofSet (w.summaryOf l i).regs = .ok vector ∧
    w'.graph.interval? i = (w.graph.interval? i).map (Interval.fill (w.summaryOf l i) vector)
  other : ∀ i, i ∉ is → w'.graph.interval? i = w.graph.interval? i

/-- What filling in some intervals comes to. -/
inductive Completion (l : Level) (budget : Nat) (is : List IntervalId) (w : Workspace) :
    EStateM.Result Fault Workspace Unit → Prop
  | filled {w' : Workspace} (hfits : ∀ i ∈ is, Fits budget (w.summaryOf l i).regs)
      (h : Filled l is w w') : Completion l budget is w (.ok () w')
  | outOfRange {i : IntervalId} {source : RegOutOfRange} {w' : Workspace} (hi : i ∈ is)
      (h : ∃ r ∈ (w.summaryOf l i).regs, vectorWidth ≤ r.num) :
      Completion l budget is w (.error (.interval (.registerOutOfRange i source)) w')
  | overBudget {i : IntervalId} {w' : Workspace} (hi : i ∈ is)
      (h : budget ≤ (w.summaryOf l i).regs.size) :
      Completion l budget is w
        (.error (.interval (.budgetViolation i (w.summaryOf l i).regs.size budget)) w')

/-- What a pass comes to that goes on with `next` after the result `r`. -/
def andThen {α : Type} (r : EStateM.Result Fault Workspace Unit) (next : Pass α) :
    EStateM.Result Fault Workspace α :=
  match r with
  | .error e w => .error e w
  | .ok _ w => next w

theorem bind_eq_andThen {α : Type} (act : Pass Unit) (next : Pass α) (w : Workspace) :
    (act >>= fun _ => next) w = andThen (act w) next := by
  show EStateM.bind act (fun _ => next) w = _
  unfold EStateM.bind
  cases act w with
  | error e w' => rfl
  | ok a w' => rfl

/-- The workspace with an interval filled in. -/
def Workspace.fill (w : Workspace) (l : Level) (i : IntervalId) (vector : RegVector) : Workspace :=
  { w with graph := w.graph.modifyInterval i (Interval.fill (w.summaryOf l i) vector) }

/-- Filling in an interval that is no member changes no summary. -/
theorem summaryOf_fill (hne : l = .interval → ∀ n ∈ w.members, n ≠ i) (vector : RegVector)
    (j : IntervalId) : (w.fill l i vector).summaryOf l j = w.summaryOf l j := by
  refine FlowGraph.summaryOf_congr (FlowGraph.see_modifyInterval fun _ => rfl) fun n hn => ?_
  cases l with
  | block => exact ⟨rfl, rfl, rfl, rfl⟩
  | interval =>
    have hin : i ≠ n := Ne.symm (hne rfl n hn)
    exact ⟨FlowGraph.see_modifyInterval_of_ne hin, FlowGraph.see_modifyInterval_of_ne hin,
      FlowGraph.see_modifyInterval_of_ne hin, FlowGraph.see_modifyInterval_of_ne hin⟩

theorem Ready.fill (h : Ready l (i :: is) w) (vector : RegVector) :
    Ready l is (w.fill l i vector) := by
  have hextent : (w.fill l i vector).graph.extent = w.graph.extent :=
    funext fun _ => FlowGraph.extent_modifyInterval _
  have hsame : ∀ n ∈ w.members, (w.fill l i vector).graph.preds l n = w.graph.preds l n ∧
      (w.fill l i vector).graph.succs l n = w.graph.succs l n := by
    intro n hn
    cases l with
    | block => exact ⟨rfl, rfl⟩
    | interval =>
      have hin : i ≠ n := Ne.symm (h.ne rfl n hn i List.mem_cons_self)
      exact ⟨FlowGraph.see_modifyInterval_of_ne hin, FlowGraph.see_modifyInterval_of_ne hin⟩
  refine ⟨?_, fun n hn => ?_, fun n hn => ?_, fun j hj => ?_, fun hl n hn j hj => ?_⟩
  · rw [hextent]
    exact h.exists_node
  · rw [(hsame n hn).1, hextent]
    exact h.exists_pred n hn
  · rw [(hsame n hn).2, hextent]
    exact h.exists_succ n hn
  · rw [show (w.fill l i vector).graph.intervals.size = w.graph.intervals.size from
      congrFun hextent .interval]
    exact h.exists_interval j (List.mem_cons_of_mem i hj)
  · exact h.ne hl n hn j (List.mem_cons_of_mem i hj)

/-- One interval is filled in, unless its registers do not fit. -/
theorem completeOne_eq (h : Ready l (i :: is) w) :
    Pass.completeOne l budget i w = match RegVector.ofSet (w.summaryOf l i).regs with
      | .error source => .error (.interval (.registerOutOfRange i source)) w
      | .ok vector =>
        if budget ≤ (w.summaryOf l i).regs.size then
          .error (.interval (.budgetViolation i (w.summaryOf l i).regs.size budget)) w
        else .ok () (w.fill l i vector) := by
  have hsummary : w.graph.summary? l i w.members = some (w.summaryOf l i) :=
    FlowGraph.summary?_eq_some h.exists_node h.exists_pred h.exists_succ
  obtain ⟨v, hv⟩ : ∃ v, w.graph.interval? i = some v :=
    Arena.exists_get? (h.exists_interval i List.mem_cons_self)
  have hsurvey : Pass.survey (fun w => w.graph.summary? l i w.members) w =
      .ok (w.summaryOf l i) w := by
    show Pass.demand (w.graph.summary? l i w.members) w = _
    rw [hsummary]
    rfl
  rw [Pass.completeOne, bind_of_eq_ok hsurvey]
  cases RegVector.ofSet (w.summaryOf l i).regs with
  | error source => rfl
  | ok vector =>
    dsimp only
    split
    next => rfl
    next =>
      have hedit : Ends (Pass.edit (Edit.updateInterval i (Interval.fill (w.summaryOf l i) vector)))
          w fun _ w' => w' = w.fill l i vector :=
        Pass.ends_edit (Edit.ends_updateInterval hv rfl)
      obtain ⟨_, _, hok, rfl⟩ := hedit
      exact hok

/-- The first of some intervals is filled in, and then the others. -/
theorem Filled.cons {vector : RegVector} (hne : l = .interval → ∀ n ∈ w.members, n ≠ i)
    (hi : i ∉ is) (hvector : RegVector.ofSet (w.summaryOf l i).regs = .ok vector)
    (h : Filled l is (w.fill l i vector) w') : Filled l (i :: is) w w' := by
  have hinterval : ∀ j, (w.fill l i vector).graph.interval? j = if i = j then
      (w.graph.interval? j).map (Interval.fill (w.summaryOf l i) vector)
      else w.graph.interval? j := fun j => FlowGraph.interval?_modifyInterval ..
  refine ⟨h.members, h.opened, h.blocks, h.size.trans (Arena.size_modify ..), ?_, ?_⟩
  · intro j hj
    rcases List.mem_cons.mp hj with rfl | hj
    · refine ⟨vector, hvector, ?_⟩
      -- The first interval is not filled in again.
      rw [h.other j hi, hinterval, if_pos rfl]
    · obtain ⟨v, hv, hfilled⟩ := h.filled j hj
      rw [summaryOf_fill hne] at hv hfilled
      refine ⟨v, hv, ?_⟩
      rw [hfilled, hinterval, if_neg (ne_of_mem_of_not_mem hj hi).symm]
  · intro j hj
    rw [h.other j fun hmem => hj (List.mem_cons_of_mem i hmem), hinterval,
      if_neg fun hij : i = j => hj (hij ▸ List.mem_cons_self)]

/-- The intervals are filled in if the registers of each fit, and else the pass is
refused because of one of them. -/
theorem completeAll_result (hready : Ready l is w) (hnodup : is.Nodup) :
    Completion l budget is w (is.forM (Pass.completeOne l budget) w) := by
  induction is generalizing w with
  | nil =>
    exact .filled (fun i hi => absurd hi List.not_mem_nil)
      ⟨rfl, rfl, rfl, rfl, fun i hi => absurd hi List.not_mem_nil, fun _ _ => rfl⟩
  | cons i is ih =>
    obtain ⟨hi, hnodup⟩ := List.nodup_cons.mp hnodup
    have hne : l = .interval → ∀ n ∈ w.members, n ≠ i :=
      fun hl n hn => hready.ne hl n hn i List.mem_cons_self
    show Completion l budget (i :: is) w
      (EStateM.bind (Pass.completeOne l budget i) (fun _ => is.forM (Pass.completeOne l budget)) w)
    rw [EStateM.bind, completeOne_eq hready]
    cases hvector : RegVector.ofSet (w.summaryOf l i).regs with
    | error source => exact .outOfRange List.mem_cons_self (ofSet_eq_error hvector)
    | ok vector =>
      dsimp only
      by_cases hsize : budget ≤ (w.summaryOf l i).regs.size
      · rw [if_pos hsize]
        exact .overBudget List.mem_cons_self hsize
      · rw [if_neg hsize]
        -- Filling in this interval changes no summary of those that are left.
        have hrest := ih (hready.fill vector) hnodup
        show Completion l budget (i :: is) w
          (is.forM (Pass.completeOne l budget) (w.fill l i vector))
        generalize is.forM (Pass.completeOne l budget) (w.fill l i vector) = result at hrest
        cases hrest with
        | @filled w' hfits hfilled =>
          refine .filled (fun j hj => ?_) (hfilled.cons hne hi hvector)
          rcases List.mem_cons.mp hj with rfl | hj
          · exact ⟨Nat.lt_of_not_le hsize, ofSet_eq_ok hvector⟩
          · rw [← summaryOf_fill hne vector j]
            exact hfits j hj
        | @outOfRange j source w' hj hwide =>
          rw [summaryOf_fill hne] at hwide
          exact .outOfRange (List.mem_cons_of_mem i hj) hwide
        | @overBudget j w' hj hover =>
          rw [summaryOf_fill hne] at hover ⊢
          exact .overBudget (List.mem_cons_of_mem i hj) hover

end KernelIntervals
