/-
Which blocks a pass admits.

* `Synced`, `syncRegs_ends` — an interval gets the registers of its members,
* `Admitted`, `Declined` — what holds of a block that a pass lets into an interval, and of one
  that it keeps out,
* `Upstream`, `LiveIn` — the registers live on entry to a block that is let in,
* `admission_ends` — the decision ends well, and changes no more than the marks.
-/
import KernelIntervals.Proofs.Marking
import KernelIntervals.Proofs.Opening
import KernelIntervals.Proofs.SplitPoints

namespace KernelIntervals

variable {l : Level} {base : Nat} {current : Option IntervalId} {w w' : Workspace} {n : Nat}
  {i : IntervalId} {budget : Nat} {opener : IntervalId → Nat}

/-! ### Registers of intervals -/

/-- The interval `i` gets the registers of its members. -/
def Synced (l : Level) (i : IntervalId) (w w' : Workspace) : Prop :=
  ∃ regs : RegSet, (∀ r, r ∈ regs ↔
    ∃ m ∈ w.members, w.graph.owner l m = some i ∧ r ∈ w.graph.regs l m) ∧
    w' = { w with graph := w.graph.modifyInterval i ({ · with regs }) }

theorem syncRegs_ends (h : Underway .block base current opener w)
    (hi : i < w.graph.intervals.size) : Ends (Pass.syncRegs i) w fun _ w' =>
      Synced .block i w w' := by
  obtain ⟨regs, hregs, hmem⟩ :=
    FlowGraph.memberRegs?_eq_some (i := i) (fun _ => true) h.exists_node
  obtain ⟨v, hv⟩ : ∃ v, w.graph.interval? i = some v := Arena.exists_get? hi
  refine Ends.bind (Pass.ends_survey hregs (Pass.ends_edit (Edit.ends_updateInterval hv ?_)))
  refine ⟨regs, fun r => (hmem r).trans ?_, rfl⟩
  simp only [and_true]

/-- Setting the registers of an interval that is no member does not matter. -/
theorem alike_setRegs (l : Level) (w : Workspace) (i : IntervalId) (regs : RegSet) :
    Alike l w { w with graph := w.graph.modifyInterval i ({ · with regs }) } where
  members := rfl
  opened := rfl
  worklist := rfl
  extent := funext fun _ => FlowGraph.extent_modifyInterval _
  preds := funext fun _ => FlowGraph.see_modifyInterval fun _ => rfl
  succs := funext fun _ => FlowGraph.see_modifyInterval fun _ => rfl
  owner := FlowGraph.see_modifyInterval fun _ => rfl

theorem alike_marker (l : Level) (w : Workspace) (marker : Marker) :
    Alike l w { w with marker } := ⟨rfl, rfl, rfl, rfl, rfl, rfl, rfl⟩

theorem Synced.alike (h : Synced l i w w') : Alike l w w' := by
  obtain ⟨regs, _, rfl⟩ := h
  exact alike_setRegs l w i regs

/-! ### Admission -/

/-- A block may join an interval: it is free, its predecessors are all in the
interval, and there is room for its registers. -/
structure Admitted (budget : Nat) (i : IntervalId) (n : BlockId) (g : FlowGraph) : Prop where
  free : g.owner .block n = none
  preds : ∀ p ∈ g.preds .block n, g.owner .block p = some i
  room : (g.regs .interval i ∪ g.regs .block n).size < budget

/-- If a block could join the interval `i`, which has at least the registers of its members,
there is no room for it. -/
def Declined (budget : Nat) (i : IntervalId) (n : BlockId) (w : Workspace) : Prop :=
  w.graph.owner .block n = none →
    (∀ p ∈ w.graph.preds .block n, w.graph.owner .block p = some i) →
    (∀ m ∈ w.members, w.graph.owner .block m = some i →
      ∀ r ∈ w.graph.regs .block m, r ∈ w.graph.regs .interval i) →
    budget ≤ (w.graph.regs .interval i ∪ w.graph.regs .block n).size

/-- A member of the interval `i` among `nodes` that reaches the block `n` has the register `r`. -/
def Upstream (g : FlowGraph) (nodes : List BlockId) (i : IntervalId) (n : BlockId) (r : Reg) :
    Prop :=
  ∃ m ∈ nodes, (g.owner .block m = some i ∧ g.Reaches .block m n) ∧ r ∈ g.regs .block m

/-- The registers `live` are those of the block `n` and of the members of the interval `i` among
`nodes` that reach it, and fewer than the budget. -/
structure LiveIn (budget : Nat) (i : IntervalId) (n : BlockId) (nodes : List BlockId)
    (g : FlowGraph) (live : RegSet) : Prop where
  few : live.size < budget
  mem_iff : ∀ r, r ∈ live ↔ r ∈ g.regs .block n ∨ Upstream g nodes i n r

/-- What the decision about a block comes to. -/
inductive Admission (budget : Nat) (i : IntervalId) (n : BlockId) (w : Workspace) :
    Option RegSet → Prop
  | accept {live : RegSet} (h : Admitted budget i n w.graph)
      (hlive : LiveIn budget i n w.members w.graph live) : Admission budget i n w (some live)
  | decline (h : Declined budget i n w) : Admission budget i n w none

/-- Whether a block may join an interval is decided, and only the marks change. -/
theorem admission_ends (h : Underway .block base current opener w) (hn : n ∈ w.members)
    (hi : i < w.graph.intervals.size) :
    Ends (Pass.admission budget i n) w fun live w' =>
      (∃ marker, w' = { w with marker }) ∧ Admission budget i n w live := by
  have hlt := h.exists_node n hn
  refine Ends.bind (Pass.ends_query (FlowGraph.node?_eq_some hlt) ?_)
  show Ends (if (w.graph.owner .block n).isSome then _ else _) w _
  cases hfree : w.graph.owner .block n with
  | some j =>
    refine ends_pure ⟨⟨w.marker, rfl⟩, .decline fun hnone => ?_⟩
    rw [hfree] at hnone
    injection hnone
  | none =>
    have hinside : (w.graph.preds .block n).allM (w.graph.ownedBy? .block i) =
        some ((w.graph.preds .block n).all fun p => w.graph.owner .block p == some i) :=
      allM_eq_some_all fun p hp => FlowGraph.ownedBy?_eq_some (h.exists_pred hn hp).2
    refine Ends.bind (Pass.ends_query hinside ?_)
    cases hall : (w.graph.preds .block n).all fun p => w.graph.owner .block p == some i with
    | false =>
      refine ends_pure ⟨⟨w.marker, rfl⟩, .decline fun _ hpreds _ => ?_⟩
      have hall' : (w.graph.preds .block n).all (fun p => w.graph.owner .block p == some i) = true :=
        List.all_eq_true.mpr fun p hp => beq_iff_eq.mpr (hpreds p hp)
      rw [hall] at hall'
      injection hall'
    | true =>
      have hpreds : ∀ p ∈ w.graph.preds .block n, w.graph.owner .block p = some i :=
        fun p hp => beq_iff_eq.mp (List.all_eq_true.mp hall p hp)
      -- All that is looked at is listed, because the net is closed.
      have hlisted : ∀ x ∈ w.members, ∀ p ∈ w.graph.preds .block x, p ∈ w.members :=
        fun x hx p hp => (h.exists_pred hx hp).1
      refine Ends.bind ((markAncestors_exact h.exists_node hlisted hn).mono ?_)
      rintro _ _ ⟨marker, rfl, hmarked⟩
      obtain ⟨above, habove, hmem⟩ :=
        FlowGraph.memberRegs?_eq_some (i := i) marker.isMarked h.exists_node
      refine Ends.bind (Pass.ends_survey habove ?_)
      show Ends (if budget ≤ (w.graph.regs .block n ∪ above).size then _ else _) _ _
      split
      next hlive =>
        -- The ancestors that are members have no registers that the interval has not.
        refine ends_pure ⟨⟨marker, rfl⟩, .decline fun _ _ hmembers => ?_⟩
        refine Nat.le_trans hlive (RegSet.size_le fun r hr => RegSet.mem_union.mpr ?_)
        rcases RegSet.mem_union.mp hr with hr | hr
        · exact .inr hr
        · obtain ⟨m, hm, ⟨hown, _⟩, hr⟩ := (hmem r).mp hr
          exact .inl (hmembers m hm hown r hr)
      next hfew =>
        obtain ⟨v, hv⟩ : ∃ v, w.graph.interval? i = some v := Arena.exists_get? hi
        have hregs : w.graph.regs .interval i = v.regs := FlowGraph.see_of_interval? hv _ _
        refine Ends.bind (Pass.ends_query hv ?_)
        rw [← hregs]
        show Ends (if budget ≤
          (w.graph.regs .interval i ∪ w.graph.regs .block n).size then _ else _) _ _
        split
        next hroom => exact ends_pure ⟨⟨marker, rfl⟩, .decline fun _ _ _ => hroom⟩
        next hroom =>
          have hlive : LiveIn budget i n w.members w.graph (w.graph.regs .block n ∪ above) := by
            refine ⟨Nat.lt_of_not_le hfew, fun r => ?_⟩
            rw [RegSet.mem_union, hmem]
            simp only [hmarked]
            rfl
          exact ends_pure
            ⟨⟨marker, rfl⟩, .accept ⟨hfree, hpreds, Nat.lt_of_not_le hroom⟩ hlive⟩

end KernelIntervals
