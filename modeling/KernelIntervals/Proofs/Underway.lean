/-
The state of a pass that is under way.

* `Underway` — the invariant of both passes: the nodes exist and form a closed net,
  the regions made so far have one entry each, waiting nodes are alone in theirs,
  and the only regions with free nodes behind them are those still to be visited,
* `Seeded` — every entry has an owner, as it has once a pass has started,
* `Underway.openGroup`, `Underway.assign`, `Underway.pop` — the steps of a pass keep
  it,
* `Alike`, `Underway.alike` — it does not depend on registers, instructions, marks or
  the log.

Design notes: the openers of the regions are not part of a workspace, so the
invariant speaks of them through a function that grows with every region. New
intervals have numbers from `base` on; when intervals are grouped, those that are
grouped lie below it.
-/
import KernelIntervals.Proofs.Observe
import KernelIntervals.Proofs.Regions

namespace KernelIntervals

open Function

namespace Workspace

/-- The members of a workspace with their edges. -/
def net (w : Workspace) (l : Level) : Net := w.graph.net l w.members

/-- The regions still to be visited: the one of the current visit, and those of
the waiting nodes. -/
def Busy (w : Workspace) (l : Level) (current : Option IntervalId) (j : IntervalId) : Prop :=
  current = some j ∨ ∃ m ∈ w.worklist, w.graph.owner l m = some j

end Workspace

/-- A pass is under way, in a visit of the region `current` if there is one. -/
structure Underway (l : Level) (base : Nat) (current : Option IntervalId)
    (opener : IntervalId → Nat) (w : Workspace) : Prop where
  exists_node : ∀ n ∈ w.members, n < w.graph.extent l
  nodup : w.members.Nodup
  closed : (w.net l).Closed
  grouped : Grouped (w.net l) (w.graph.owner l) opener w.opened
  waiting : Waiting (w.net l) (w.graph.owner l) w.worklist
  covers : Covers (w.net l) (w.graph.owner l) (w.Busy l current)
  idle : ∀ i, current = some i → i ∈ w.opened ∧ ∀ m ∈ w.worklist, w.graph.owner l m ≠ some i
  opened_range : ∀ i ∈ w.opened, base ≤ i ∧ i < w.graph.intervals.size
  base_le : base ≤ w.graph.intervals.size
  below_base : l = .interval → ∀ n ∈ w.members, n < base
  blank : ∀ i ∈ w.opened, w.graph.preds .interval i = [] ∧ w.graph.succs .interval i = []

/-- Every entry has an owner. -/
def Seeded (l : Level) (w : Workspace) : Prop :=
  ∀ r, (w.net l).IsEntry r → w.graph.owner l r ≠ none

/-! ### Changes that do not matter -/

/-- Two workspaces that differ in registers, instructions, marks and log only. -/
structure Alike (l : Level) (w w' : Workspace) : Prop where
  members : w'.members = w.members
  opened : w'.opened = w.opened
  worklist : w'.worklist = w.worklist
  extent : w'.graph.extent = w.graph.extent
  preds : w'.graph.preds = w.graph.preds
  succs : w'.graph.succs = w.graph.succs
  owner : w'.graph.owner l = w.graph.owner l

variable {l : Level} {base : Nat} {current : Option IntervalId} {opener : IntervalId → Nat}
  {w w' : Workspace} {n : Nat} {i : IntervalId}

theorem Alike.trans {w₁ : Workspace} (h : Alike l w w₁) (h' : Alike l w₁ w') : Alike l w w' where
  members := h'.members.trans h.members
  opened := h'.opened.trans h.opened
  worklist := h'.worklist.trans h.worklist
  extent := h'.extent.trans h.extent
  preds := h'.preds.trans h.preds
  succs := h'.succs.trans h.succs
  owner := h'.owner.trans h.owner

theorem Alike.net (h : Alike l w w') : w'.net l = w.net l := by
  rw [Workspace.net, Workspace.net, FlowGraph.net, FlowGraph.net, h.members, h.preds, h.succs]

theorem Alike.busy (h : Alike l w w') : w'.Busy l current = w.Busy l current := by
  funext j
  rw [Workspace.Busy, Workspace.Busy, h.worklist, h.owner]

theorem Underway.alike (h : Underway l base current opener w) (ha : Alike l w w') :
    Underway l base current opener w' := by
  have hsize : w'.graph.intervals.size = w.graph.intervals.size :=
    congrFun ha.extent .interval
  refine ⟨?_, ?_, ?_, ?_, ?_, ?_, ?_, ?_, ?_, ?_, ?_⟩
  · rw [ha.members, ha.extent]
    exact h.exists_node
  · rw [ha.members]
    exact h.nodup
  · rw [ha.net]
    exact h.closed
  · rw [ha.net, ha.owner, ha.opened]
    exact h.grouped
  · rw [ha.net, ha.owner, ha.worklist]
    exact h.waiting
  · rw [ha.net, ha.owner, ha.busy]
    exact h.covers
  · rw [ha.opened, ha.worklist, ha.owner]
    exact h.idle
  · rw [ha.opened, hsize]
    exact h.opened_range
  · rw [hsize]
    exact h.base_le
  · rw [ha.members]
    exact h.below_base
  · rw [ha.opened, ha.preds, ha.succs]
    exact h.blank

theorem Seeded.alike (h : Seeded l w) (ha : Alike l w w') : Seeded l w' := by
  rw [Seeded, ha.net, ha.owner]
  exact h

/-! ### What the invariant gives -/

namespace Underway

variable (h : Underway l base current opener w)

include h

theorem exists_succ (hn : n ∈ w.members) {s : Nat} (hs : s ∈ w.graph.succs l n) :
    s ∈ w.members ∧ s < w.graph.extent l :=
  have hmem := h.closed.succ_mem hn hs
  ⟨hmem, h.exists_node s hmem⟩

theorem exists_pred (hn : n ∈ w.members) {p : Nat} (hp : p ∈ w.graph.preds l n) :
    p ∈ w.members ∧ p < w.graph.extent l :=
  have hmem := h.closed.pred_mem hn hp
  ⟨hmem, h.exists_node p hmem⟩

/-- The number of the next interval is new. -/
theorem size_not_mem_opened : w.graph.intervals.size ∉ w.opened := fun hmem =>
  Nat.lt_irrefl _ (h.opened_range _ hmem).2

/-- A member is no new interval. -/
theorem ne_of_opened (hl : l = .interval) (hn : n ∈ w.members) (hi : i ∈ w.opened) : n ≠ i := by
  have hlt := h.below_base hl n hn
  have hle := (h.opened_range i hi).1
  omega

end Underway

/-- A node whose region is still to be visited is alone in it, when no visit is going on. -/
theorem Underway.alone_of_busy (h : Underway l base none opener w) {j : IntervalId}
    (hbusy : w.Busy l none j) : ∃ n ∈ w.members, w.graph.owner l n = some j ∧
      ∀ m ∈ w.members, w.graph.owner l m = some j → m = n := by
  rcases hbusy with hj | ⟨n, hn, hown⟩
  · injection hj
  · obtain ⟨k, hk, halone⟩ := h.waiting.alone hn
    have hkj : k = j := Option.some.inj (hk.symm.trans hown)
    subst hkj
    exact ⟨n, h.waiting.mem hn, hown, halone⟩

theorem Underway.eq_of_busy (h : Underway l base none opener w) {j : IntervalId}
    (hbusy : w.Busy l none j) {m : Nat} (hm : m ∈ w.members) (hn : n ∈ w.members)
    (hmj : w.graph.owner l m = some j) (hnj : w.graph.owner l n = some j) : m = n := by
  obtain ⟨x, _, _, halone⟩ := h.alone_of_busy hbusy
  exact (halone m hm hmj).trans (halone n hn hnj).symm

/-! ### Opening a region -/

theorem net_openGroup : (w.openGroup l n).net l = w.net l := by
  show (((w.graph.addInterval {}).assign l n _).net l w.members) = _
  rw [FlowGraph.net, FlowGraph.preds_assign, FlowGraph.succs_assign, FlowGraph.preds_addInterval,
    FlowGraph.succs_addInterval]
  rfl

theorem extent_le_addInterval (g : FlowGraph) (l : Level) :
    g.extent l ≤ (g.addInterval {}).extent l := by
  cases l with
  | block => exact Nat.le_refl _
  | interval =>
    rw [FlowGraph.extent_addInterval_interval]
    exact Nat.le_succ _

theorem owner_openGroup (hn : n < w.graph.extent l) :
    (w.openGroup l n).graph.owner l =
      update (w.graph.owner l) n (some w.graph.intervals.size) := by
  show ((w.graph.addInterval {}).assign l n _).owner l = _
  rw [FlowGraph.owner_assign _ (Nat.lt_of_lt_of_le hn (extent_le_addInterval _ _)),
    FlowGraph.owner_addInterval]

theorem size_openGroup : (w.openGroup l n).graph.intervals.size = w.graph.intervals.size + 1 := by
  show ((w.graph.addInterval {}).assign l n _).extent .interval = _
  rw [FlowGraph.extent_assign, FlowGraph.extent_addInterval_interval]
  rfl

/-- A reachable free node may open a region. -/
theorem Underway.openGroup (h : Underway l base current opener w) (hn : n ∈ w.members)
    (hfree : w.graph.owner l n = none) (hreach : (w.net l).Reachable n) :
    Underway l base current (update opener w.graph.intervals.size n) (w.openGroup l n) := by
  have howner := owner_openGroup (h.exists_node n hn)
  have hfresh : ∀ m ∈ w.members, w.graph.owner l m ≠ some w.graph.intervals.size :=
    fun m hm hown => h.size_not_mem_opened (h.grouped.mem_opened hm hown)
  refine ⟨?_, h.nodup, ?_, ?_, ?_, ?_, ?_, ?_, ?_, h.below_base, ?_⟩
  · intro m hm
    show m < ((w.graph.addInterval {}).assign l n _).extent l
    rw [FlowGraph.extent_assign]
    exact Nat.lt_of_lt_of_le (h.exists_node m hm) (extent_le_addInterval _ _)
  · rw [net_openGroup]
    exact h.closed
  · rw [net_openGroup, howner]
    exact h.grouped.start hn hfree h.size_not_mem_opened hreach
  · rw [net_openGroup, howner]
    exact h.waiting.start hn hfree hfresh
  · rw [net_openGroup, howner]
    -- What is behind the new region is covered, because its opener waits.
    refine h.covers.claim ?_ ?_
    · refine .inr ⟨n, List.mem_append_right _ (List.mem_singleton_self n), ?_⟩
      rw [howner, update_self]
    · rintro j (hj | ⟨m, hm, hown⟩)
      · exact .inl hj
      · refine .inr ⟨m, List.mem_append_left _ hm, ?_⟩
        rw [howner]
        exact owner_update hfree hown
  · intro j hj
    obtain ⟨hopened, hidle⟩ := h.idle j hj
    refine ⟨List.mem_append_left _ hopened, fun m hm hown => ?_⟩
    rw [howner] at hown
    by_cases hmn : m = n
    · rw [hmn, update_self] at hown
      exact h.size_not_mem_opened (Option.some.inj hown ▸ hopened)
    · rw [update_of_ne hmn] at hown
      rcases List.mem_append.mp hm with hm | hm
      · exact hidle m hm hown
      · exact hmn (List.mem_singleton.mp hm)
  · intro j hj
    rw [size_openGroup]
    rcases List.mem_append.mp hj with hj | hj
    · obtain ⟨hle, hlt⟩ := h.opened_range j hj
      exact ⟨hle, Nat.lt_succ_of_lt hlt⟩
    · rw [List.mem_singleton.mp hj]
      exact ⟨h.base_le, Nat.lt_succ_self _⟩
  · rw [size_openGroup]
    exact Nat.le_succ_of_le h.base_le
  · intro j hj
    show ((w.graph.addInterval {}).assign l n _).preds .interval j = [] ∧
      ((w.graph.addInterval {}).assign l n _).succs .interval j = []
    rw [FlowGraph.preds_assign, FlowGraph.succs_assign, FlowGraph.preds_addInterval,
      FlowGraph.succs_addInterval]
    rcases List.mem_append.mp hj with hj | hj
    · exact h.blank j hj
    · rw [List.mem_singleton.mp hj]
      exact ⟨FlowGraph.see_eq_default (Nat.le_refl _) _ _,
        FlowGraph.see_eq_default (Nat.le_refl _) _ _⟩

theorem Seeded.openGroup (h : Seeded l w) (hn : n < w.graph.extent l) :
    Seeded l (w.openGroup l n) := by
  intro r hr
  rw [net_openGroup] at hr
  rw [owner_openGroup hn]
  exact owner_update_ne_none fun _ => h r hr

/-! ### Joining a region -/

namespace Workspace

/-- The workspace with a node as a member of an interval. -/
def assign (w : Workspace) (l : Level) (n : Nat) (i : IntervalId) : Workspace :=
  { w with graph := w.graph.assign l n (some i) }

end Workspace

theorem net_assign : (w.assign l n i).net l = w.net l := by
  show (w.graph.assign l n _).net l w.members = _
  rw [FlowGraph.net, FlowGraph.preds_assign, FlowGraph.succs_assign]
  rfl

theorem Seeded.preds_ne_nil (h : Seeded l w) (hn : n ∈ w.members)
    (hfree : w.graph.owner l n = none) : w.graph.preds l n ≠ [] := fun hnil =>
  h n ⟨hn, hnil⟩ hfree

/-- A free node may join the region of the current visit if its predecessors are
all in it. -/
theorem Underway.assign (h : Underway l base (some i) opener w) (hn : n ∈ w.members)
    (hfree : w.graph.owner l n = none) (hne : w.graph.preds l n ≠ [])
    (hpreds : ∀ p ∈ w.graph.preds l n, w.graph.owner l p = some i) :
    Underway l base (some i) opener (w.assign l n i) := by
  have howner : (w.assign l n i).graph.owner l = update (w.graph.owner l) n (some i) :=
    FlowGraph.owner_assign _ (h.exists_node n hn)
  obtain ⟨hopened, hidle⟩ := h.idle i rfl
  have hextent : (w.assign l n i).graph.extent = w.graph.extent := by
    funext l'
    exact FlowGraph.extent_assign _
  have hsize : (w.assign l n i).graph.intervals.size = w.graph.intervals.size :=
    congrFun hextent .interval
  refine ⟨?_, h.nodup, ?_, ?_, ?_, ?_, ?_, ?_, ?_, h.below_base, ?_⟩
  · rw [hextent]
    exact h.exists_node
  · rw [net_assign]
    exact h.closed
  · rw [net_assign, howner]
    exact h.grouped.join h.closed hn hfree hopened hne hpreds
  · rw [net_assign, howner]
    exact h.waiting.join hfree hidle
  · rw [net_assign, howner]
    refine h.covers.claim (.inl rfl) ?_
    rintro j (hj | ⟨m, hm, hown⟩)
    · exact .inl hj
    · refine .inr ⟨m, hm, ?_⟩
      rw [howner]
      exact owner_update hfree hown
  · intro j hj
    injection hj with hj
    rw [← hj, howner]
    exact ⟨hopened, h.waiting.idle_claim hfree hidle⟩
  · rw [hsize]
    exact h.opened_range
  · rw [hsize]
    exact h.base_le
  · intro j hj
    show (w.graph.assign l n _).preds .interval j = [] ∧
      (w.graph.assign l n _).succs .interval j = []
    rw [FlowGraph.preds_assign, FlowGraph.succs_assign]
    exact h.blank j hj

theorem Seeded.assign (h : Seeded l w) (hn : n < w.graph.extent l) : Seeded l (w.assign l n i) := by
  intro r hr
  rw [net_assign] at hr
  show (w.graph.assign l n (some i)).owner l r ≠ none
  rw [FlowGraph.owner_assign _ hn]
  exact owner_update_ne_none fun _ => h r hr

/-! ### A visit begins and ends -/

/-- The first waiting node is taken: its region, in which it is alone, is visited. -/
theorem Underway.pop {rest : List Nat} (h : Underway l base none opener w)
    (hwork : w.worklist = n :: rest) :
    ∃ i, n ∈ w.members ∧ w.graph.owner l n = some i ∧
      (∀ m ∈ w.members, w.graph.owner l m = some i → m = n) ∧
      Underway l base (some i) opener { w with worklist := rest } := by
  have hwaiting := h.waiting
  rw [hwork] at hwaiting
  obtain ⟨hrest, hn, i, hi, halone, hidle⟩ := hwaiting.pop
  refine ⟨i, hn, hi, halone, ?_⟩
  refine ⟨h.exists_node, h.nodup, h.closed, h.grouped, hrest, ?_, ?_, h.opened_range, h.base_le,
    h.below_base, h.blank⟩
  · intro m hm j hown s hs hfree
    rcases h.covers m hm j hown s hs hfree with hj | ⟨k, hk, hkown⟩
    · injection hj
    · rw [hwork] at hk
      rcases List.mem_cons.mp hk with rfl | hk
      · exact .inl (hi.symm.trans hkown)
      · exact .inr ⟨k, hk, hkown⟩
  · intro j hj
    injection hj with hj
    rw [← hj]
    exact ⟨h.grouped.mem_opened hn hi, hidle⟩

/-- A visit ends when no free nodes are left behind its region. -/
theorem Underway.leave (h : Underway l base (some i) opener w)
    (hdone : ∀ m ∈ w.members, w.graph.owner l m = some i → ∀ s ∈ w.graph.succs l m,
      w.graph.owner l s ≠ none) : Underway l base none opener w := by
  refine ⟨h.exists_node, h.nodup, h.closed, h.grouped, h.waiting, ?_, ?_, h.opened_range, h.base_le,
    h.below_base, h.blank⟩
  · intro m hm j hown s hs hfree
    rcases h.covers m hm j hown s hs hfree with hj | hj
    · injection hj with hj
      exact absurd hfree (hdone m hm (hj ▸ hown) s hs)
    · exact .inr hj
  · intro j hj
    injection hj

/-- When no visit is going on and nothing waits, the nodes with an owner are the
reachable ones. -/
theorem Underway.owner_isSome_iff (h : Underway l base none opener w) (hs : Seeded l w)
    (hwork : w.worklist = []) (hn : n ∈ w.members) :
    (w.graph.owner l n).isSome ↔ (w.net l).Reachable n := by
  refine h.grouped.owner_isSome_iff h.closed hs ?_ hn
  intro m hm j hown s hsucc hfree
  rcases h.covers m hm j hown s hsucc hfree with hj | ⟨k, hk, _⟩
  · injection hj
  · rw [hwork] at hk
    exact List.not_mem_nil hk

end KernelIntervals
