/-
The second pass as a sequence of moves.

* `CoarsenLimits.Full` — registers that leave no room,
* `Foldable` — what holds of an interval that a pass folds into a coarse one,
* `IntervalMove` — what a pass over intervals does at a time: take a waiting interval,
  mark ancestors, fold an interval, or open the coarse intervals behind the one it
  visits,
* `Under` — a pass over intervals is under way, and none of them follows itself,
* `Underway.intervalMove`, `Underway.intervalMoves` — every move keeps the pass under way,
  and makes its regions grow,
* `Under.move`, `Under.moves` — every move keeps this,
* `FlowGraph.Eligible`, `eligible_ends` — an interval that may be folded, and how a pass
  looks it up before it looks for room,
* `Scanning`, `scan_ends` — the scan that grows a coarse interval, one interval after the
  other,
* `IntervalTurn`, `visitInterval_ends` — a visit ends well, and is made of a move that takes
  an interval, moves that grow its coarse interval, and a move that leaves,
* `intervalLoop_ends` — the loop over the waiting intervals ends well as a sequence of moves.

Design notes: the pass lets an interval follow itself and still be folded. As the
intervals of a pass never do, the rule comes to the one for blocks. A visit is one scan
of the intervals, so it says nothing of those that become foldable behind it; all it
leaves is that an interval that stayed alone was too full for the others (`Scanned`).
-/
import KernelIntervals.Grouping.Intervals
import KernelIntervals.Proofs.BlockMoves
import KernelIntervals.Proofs.SplitPoints

namespace KernelIntervals

open Relation

/-- Registers leave no room: there are as many as the budget, or those of all intervals
are, and the scope asks for them. -/
def CoarsenLimits.Full (limits : CoarsenLimits) (regs : RegSet) : Prop :=
  limits.budget ≤ regs.size ∨ limits.scope = .global ∧ limits.budget ≤ limits.everything.size

theorem CoarsenLimits.Full.mono {limits : CoarsenLimits} {regs regs' : RegSet}
    (h : limits.Full regs) (hsub : ∀ r ∈ regs, r ∈ regs') : limits.Full regs' :=
  h.imp_left fun hle => Nat.le_trans hle (RegSet.size_le hsub)

/-- An interval may be folded into a coarse one: it is free, its predecessors are all in
the coarse interval, and there is room for its registers. -/
structure Foldable (limits : CoarsenLimits) (i n : IntervalId) (g : FlowGraph) : Prop where
  free : g.owner .interval n = none
  preds : ∀ p ∈ g.preds .interval n, g.owner .interval p = some i
  room : ¬ limits.Full (g.regs .interval i ∪ g.regs .interval n)

/-- If an interval is alone in the coarse interval `i`, there is no room with it for any
of those that it alone is before. -/
def Scanned (limits : CoarsenLimits) (i : IntervalId) (w : Workspace) : Prop :=
  ∀ n ∈ w.members, w.graph.owner .interval n = some i →
    (∀ m ∈ w.members, w.graph.owner .interval m = some i → m = n) →
    ∀ c ∈ w.members, w.graph.owner .interval c = none →
      (∀ p ∈ w.graph.preds .interval c, w.graph.owner .interval p = some i) →
      limits.Full (w.graph.regs .interval n ∪ w.graph.regs .interval c)

namespace Workspace

/-- The workspace with some registers noted for an interval. -/
def setRegs (w : Workspace) (i : IntervalId) (regs : RegSet) : Workspace :=
  { w with graph := w.graph.modifyInterval i ({ · with regs }) }

end Workspace

/-- What a pass over intervals does at a time. -/
inductive IntervalMove (limits : CoarsenLimits) : Moment → Moment → Prop
  | take {w : Workspace} {n : IntervalId} {rest : List IntervalId} {i : IntervalId}
      (hwork : w.worklist = n :: rest) (hown : w.graph.owner .interval n = some i)
      (hroom : (w.graph.regs .interval n).size < limits.budget) :
      IntervalMove limits (none, w)
        (some i, Workspace.setRegs { w with worklist := rest } i (w.graph.regs .interval n))
  | skip {w : Workspace} {n : IntervalId} {rest : List IntervalId} {i : IntervalId}
      (hwork : w.worklist = n :: rest) (hown : w.graph.owner .interval n = some i)
      (hfull : limits.budget ≤ (w.graph.regs .interval n).size) :
      IntervalMove limits (none, w) (some i, { w with worklist := rest })
  | mark {w : Workspace} {i : IntervalId} (marker : Marker) :
      IntervalMove limits (some i, w) (some i, { w with marker })
  | fold {w : Workspace} {n i : IntervalId} (hn : n ∈ w.members)
      (hfold : Foldable limits i n w.graph) : IntervalMove limits (some i, w)
        (some i, w.fold i n (w.graph.regs .interval i ∪ w.graph.regs .interval n))
  | leave {w w' : Workspace} {i : IntervalId} (hleaves : Leaves .interval i w w')
      (hscanned : Scanned limits i w) : IntervalMove limits (some i, w) (none, w')

/-- A pass over intervals is under way, and none of them follows itself. -/
structure Under (base : Nat) (current : Option IntervalId) (w : Workspace) : Prop where
  sound : Sound .interval base current w
  loopless : ∀ n ∈ w.members, n ∉ w.graph.preds .interval n

variable {base : Nat} {current : Option IntervalId} {w w' : Workspace} {m m' : Moment}
  {n i : IntervalId} {limits : CoarsenLimits} {opener : IntervalId → Nat}

/-! ### Every move keeps the pass under way -/

theorem Under.alike (h : Under base current w) (ha : Alike .interval w w') :
    Under base current w' := by
  refine ⟨h.sound.alike ha, ?_⟩
  rw [ha.members, ha.preds]
  exact h.loopless

theorem alike_fold (w : Workspace) (i n : IntervalId) (regs : RegSet) :
    Alike .interval (w.assign .interval n i) (w.fold i n regs) where
  members := rfl
  opened := rfl
  worklist := rfl
  extent := funext fun _ => FlowGraph.extent_modifyInterval _
  preds := funext fun _ => FlowGraph.see_modifyInterval fun _ => rfl
  succs := funext fun _ => FlowGraph.see_modifyInterval fun _ => rfl
  owner := FlowGraph.see_modifyInterval fun _ => rfl

/-- The first waiting interval is taken: it is alone in its coarse interval. -/
theorem Under.pop {rest : List IntervalId} (h : Under base none w)
    (hwork : w.worklist = n :: rest) :
    ∃ i, n ∈ w.members ∧ w.graph.owner .interval n = some i ∧
      (∀ m ∈ w.members, w.graph.owner .interval m = some i → m = n) ∧
      Under base (some i) { w with worklist := rest } := by
  obtain ⟨⟨⟨opener, hu⟩, hs⟩, hloopless⟩ := h
  obtain ⟨i, hn, hi, halone, hu'⟩ := hu.pop hwork
  exact ⟨i, hn, hi, halone, ⟨⟨opener, hu'⟩, hs⟩, hloopless⟩

theorem Under.taken {rest : List IntervalId} (h : Under base none w)
    (hwork : w.worklist = n :: rest) (hown : w.graph.owner .interval n = some i) :
    Under base (some i) { w with worklist := rest } := by
  obtain ⟨j, _, hj, _, hunder⟩ := h.pop hwork
  have hij : j = i := Option.some.inj (hj.symm.trans hown)
  exact hij ▸ hunder

/-- After a move the pass is still under way, and its regions have grown. -/
theorem Underway.intervalMove (h : Underway .interval base m.1 opener m.2)
    (hs : Seeded .interval m.2) (hm : IntervalMove limits m m') :
    GoesOn .interval base opener m.2 m'.1 m'.2 := by
  have hpop : ∀ {w n rest i}, m = (none, w) → w.worklist = n :: rest →
      w.graph.owner .interval n = some i →
      GoesOn .interval base opener w (some i) { w with worklist := rest } := by
    rintro w n rest i rfl hwork hown
    obtain ⟨j, _, hj, _, hu⟩ := h.pop hwork
    have hij : j = i := Option.some.inj (hj.symm.trans hown)
    have hs' : Seeded .interval { w with worklist := rest } := hs
    exact hij ▸ (hu.goesOn hs').after .refl
  cases hm with
  | take hwork hown hroom => exact (hpop rfl hwork hown).alike (alike_setRegs ..)
  | skip hwork hown hfull => exact hpop rfl hwork hown
  | mark marker => exact (h.goesOn hs).alike (alike_marker ..)
  | @fold w n i hn hfold =>
    have hne := hs.preds_ne_nil hn hfold.free
    have hjoined : GoesOn .interval base opener w (some i) (w.assign .interval n i) :=
      ⟨⟨opener, h.assign hn hfold.free hne hfold.preds,
        .single (h.grows_assign hn hfold.free hne hfold.preds)⟩, hs.assign (h.exists_node n hn)⟩
    exact hjoined.alike (alike_fold ..)
  | leave hleaves hscanned => exact ((h.goesOn hs).opens hleaves.opens).leave hleaves.done

theorem Underway.intervalMoves (h : Underway .interval base m.1 opener m.2)
    (hs : Seeded .interval m.2) (hm : ReflTransGen (IntervalMove limits) m m') :
    GoesOn .interval base opener m.2 m'.1 m'.2 := by
  induction hm with
  | refl => exact h.goesOn hs
  | tail _ hstep ih =>
    obtain ⟨⟨opener', hu, hgrown⟩, hs'⟩ := ih
    exact (hu.intervalMove hs' hstep).after hgrown

theorem IntervalMove.net (hm : IntervalMove limits m m') :
    m'.2.net .interval = m.2.net .interval := by
  cases hm with
  | take hwork hown hroom => exact (alike_setRegs ..).net
  | skip hwork hown hfull => rfl
  | mark marker => rfl
  | fold hn hfold => exact (alike_fold ..).net.trans net_assign
  | leave hleaves hscanned => exact hleaves.opens.net

theorem net_of_moves (hm : ReflTransGen (IntervalMove limits) m m') :
    m'.2.net .interval = m.2.net .interval := by
  induction hm with
  | refl => rfl
  | tail _ hstep ih => exact hstep.net.trans ih

theorem Under.move (h : Under base m.1 m.2) (hm : IntervalMove limits m m') :
    Under base m'.1 m'.2 := by
  obtain ⟨⟨⟨opener, hu⟩, hs⟩, hloopless⟩ := h
  have hnodes : m'.2.members = m.2.members := congrArg Net.nodes hm.net
  have hpreds : m'.2.graph.preds .interval = m.2.graph.preds .interval :=
    congrArg Net.preds hm.net
  refine ⟨(hu.intervalMove hs hm).sound, ?_⟩
  rw [hnodes, hpreds]
  exact hloopless

theorem Under.moves (h : Under base m.1 m.2) (hm : ReflTransGen (IntervalMove limits) m m') :
    Under base m'.1 m'.2 := by
  induction hm with
  | refl => exact h
  | tail _ hstep ih => exact ih.move hstep

theorem IntervalMove.members (hm : IntervalMove limits m m') : m'.2.members = m.2.members := by
  cases hm with
  | take hwork hown hroom => rfl
  | skip hwork hown hfull => rfl
  | mark marker => rfl
  | fold hn hfold => rfl
  | leave hleaves hscanned => exact hleaves.opens.members

theorem members_of_moves (hm : ReflTransGen (IntervalMove limits) m m') :
    m'.2.members = m.2.members := by
  induction hm with
  | refl => rfl
  | tail _ hstep ih => exact hstep.members.trans ih

/-! ### What is seen in a visit -/

theorem Under.current_lt (h : Under base (some i) w) : i < w.graph.intervals.size := by
  obtain ⟨⟨⟨opener, hu⟩, _⟩, _⟩ := h
  exact (hu.opened_range i (hu.idle i rfl).1).2

/-- The coarse interval that is visited is none of the intervals that are grouped. -/
theorem Under.ne_current (h : Under base (some i) w) (hn : n ∈ w.members) : i ≠ n := by
  obtain ⟨⟨⟨opener, hu⟩, _⟩, _⟩ := h
  exact (hu.ne_of_opened rfl hn (hu.idle i rfl).1).symm

theorem regs_setRegs_self (hi : i < w.graph.intervals.size) (regs : RegSet) :
    (w.setRegs i regs).graph.regs .interval i = regs := by
  obtain ⟨v, hv⟩ : ∃ v, w.graph.interval? i = some v := Arena.exists_get? hi
  have hv' : (w.setRegs i regs).graph.interval? i = some { v with regs } := by
    show (w.graph.modifyInterval i ({ · with regs })).interval? i = _
    rw [FlowGraph.interval?_modifyInterval, if_pos rfl, hv]
    rfl
  exact FlowGraph.see_of_interval? hv' _ _

theorem regs_setRegs_of_ne (hne : i ≠ n) (regs : RegSet) :
    (w.setRegs i regs).graph.regs .interval n = w.graph.regs .interval n :=
  FlowGraph.see_modifyInterval_of_ne hne

theorem regs_fold_self (hi : i < w.graph.intervals.size) (regs : RegSet) :
    (w.fold i n regs).graph.regs .interval i = regs := by
  have hi' : i < (w.assign .interval n i).graph.intervals.size := by
    show i < (w.graph.assign .interval n (some i)).extent .interval
    rw [FlowGraph.extent_assign]
    exact hi
  exact regs_setRegs_self hi' regs

theorem regs_fold_of_ne {m : IntervalId} (hne : i ≠ m) (regs : RegSet) :
    (w.fold i n regs).graph.regs .interval m = w.graph.regs .interval m := by
  refine (regs_setRegs_of_ne (w := w.assign .interval n i) hne regs).trans ?_
  show (w.graph.assign .interval n (some i)).regs .interval m = _
  rw [FlowGraph.regs_assign]

theorem owner_fold (hn : n < w.graph.intervals.size) (regs : RegSet) :
    (w.fold i n regs).graph.owner .interval =
      Function.update (w.graph.owner .interval) n (some i) := by
  rw [(alike_fold w i n regs).owner]
  show (w.graph.assign .interval n (some i)).owner .interval = _
  exact FlowGraph.owner_assign (some i) hn

/-! ### A visit is a sequence of moves -/

/-- The registers `held` are held against the budget before an interval with some registers
is folded into the coarse interval `i`: those of all intervals, or of the interval and of
members of the coarse one. -/
structure HeldAgainst (limits : CoarsenLimits) (i : IntervalId) (w : Workspace)
    (regs held : RegSet) : Prop where
  global : limits.scope = .global → held = limits.everything
  ancestors : limits.scope = .ancestors → ∀ r ∈ held, r ∈ regs ∨
    ∃ m ∈ w.members, w.graph.owner .interval m = some i ∧ r ∈ w.graph.regs .interval m

/-- Too many registers are held against an interval: there is no room for it. -/
theorem HeldAgainst.full {regs held : RegSet} (h : HeldAgainst limits i w regs held)
    (hle : limits.budget ≤ held.size)
    (hmembers : ∀ m ∈ w.members, w.graph.owner .interval m = some i →
      ∀ r ∈ w.graph.regs .interval m, r ∈ w.graph.regs .interval i) :
    limits.Full (w.graph.regs .interval i ∪ regs) := by
  cases hscope : limits.scope with
  | global => exact .inr ⟨hscope, h.global hscope ▸ hle⟩
  | ancestors =>
    refine CoarsenLimits.Full.mono (.inl hle) fun r hr => RegSet.mem_union.mpr ?_
    rcases h.ancestors hscope r hr with hr | ⟨m, hm, hown, hr⟩
    · exact .inr hr
    · exact .inl (hmembers m hm hown r hr)

/-- There is room if neither what is held nor what there would be is too much. -/
theorem HeldAgainst.not_full {regs held all : RegSet} (h : HeldAgainst limits i w regs held)
    (hheld : ¬ limits.budget ≤ held.size) (hall : ¬ limits.budget ≤ all.size) :
    ¬ limits.Full all := by
  rintro (hfull | ⟨hscope, hfull⟩)
  · exact hall hfull
  · exact hheld (h.global hscope ▸ hfull)

/-- The registers that are held against the budget are found if the predecessors of listed
intervals are listed, and only the marks change. -/
theorem scopeRegs_ends_of_listed (hexist : ∀ x ∈ w.members, x < w.graph.intervals.size)
    (hpreds : ∀ x ∈ w.members, ∀ p ∈ w.graph.preds .interval x, p ∈ w.members)
    (hn : n ∈ w.members) (node : Node) :
    Ends (Pass.scopeRegs limits i n node) w fun held w' =>
      (∃ marker, w' = { w with marker }) ∧ HeldAgainst limits i w node.regs held := by
  rw [Pass.scopeRegs]
  cases hlimits : limits.scope with
  | global =>
    refine ends_pure ⟨⟨w.marker, rfl⟩, fun _ => rfl, fun hscope => ?_⟩
    rw [hlimits] at hscope
    injection hscope
  | ancestors =>
    refine Ends.bind ((markAncestors_ends_of_listed hexist hpreds hn).mono ?_)
    rintro _ _ ⟨marker, rfl⟩
    obtain ⟨above, habove, hmem⟩ :=
      FlowGraph.memberRegs?_eq_some (l := .interval) (i := i) marker.isMarked hexist
    refine Ends.bind (Pass.ends_survey habove (ends_pure ⟨⟨marker, rfl⟩, ?_, ?_⟩))
    · intro hscope
      rw [hlimits] at hscope
      injection hscope
    · intro _ r hr
      refine (RegSet.mem_union.mp hr).imp_right fun hr => ?_
      obtain ⟨m, hm, ⟨hown, _⟩, hr⟩ := (hmem r).mp hr
      exact ⟨m, hm, hown, hr⟩

theorem scopeRegs_ends (h : Underway .interval base current opener w) (hn : n ∈ w.members)
    (node : Node) : Ends (Pass.scopeRegs limits i n node) w fun held w' =>
      (∃ marker, w' = { w with marker }) ∧ HeldAgainst limits i w node.regs held :=
  scopeRegs_ends_of_listed h.exists_node (fun _ hx _ hp => (h.exists_pred hx hp).1) hn node

namespace FlowGraph

/-- A free interval may be folded into a coarse one that all its predecessors are in, itself
apart. -/
def Eligible (g : FlowGraph) (i n : IntervalId) : Prop :=
  g.owner .interval n = none ∧ ∀ p ∈ g.preds .interval n, p = n ∨ g.owner .interval p = some i

instance (g : FlowGraph) (i n : IntervalId) : Decidable (g.Eligible i n) :=
  inferInstanceAs (Decidable (_ ∧ _))

end FlowGraph

/-- Whether an interval may be folded is looked up, and then it is looked for room. -/
theorem eligible_ends {next : Node → Pass (Option RegSet)}
    {post : Option RegSet → Workspace → Prop} (hexist : ∀ x ∈ w.members, x < w.graph.intervals.size)
    (hpreds : ∀ x ∈ w.members, ∀ p ∈ w.graph.preds .interval x, p ∈ w.members)
    (hn : n ∈ w.members)
    (hnot : ¬ w.graph.Eligible i n → post none w)
    (hnext : w.graph.Eligible i n → ∀ node : Node, node.regs = w.graph.regs .interval n →
      Ends (next node) w post) :
    Ends (do
      let node ← Pass.query (·.node? .interval n)
      if node.owner.isSome then return none
      let inside ← Pass.query fun g =>
        node.preds.allM fun p => if p = n then some true else g.ownedBy? .interval i p
      if !inside then return none
      next node) w post := by
  refine Ends.bind (Pass.ends_query (FlowGraph.node?_eq_some (hexist n hn)) ?_)
  show Ends (if (w.graph.owner .interval n).isSome then _ else _) w _
  cases hfree : w.graph.owner .interval n with
  | some j =>
    refine ends_pure (hnot fun heligible => ?_)
    rw [heligible.1] at hfree
    injection hfree
  | none =>
    have hinside : (w.graph.preds .interval n).allM
        (fun p => if p = n then some true else w.graph.ownedBy? .interval i p) =
        some ((w.graph.preds .interval n).all
          fun p => p == n || w.graph.owner .interval p == some i) := by
      refine allM_eq_some_all fun p hp => ?_
      by_cases hpn : p = n
      · rw [if_pos hpn, hpn, beq_self_eq_true, Bool.true_or]
      · rw [if_neg hpn, beq_eq_false_iff_ne.mpr hpn, Bool.false_or]
        exact FlowGraph.ownedBy?_eq_some (hexist p (hpreds n hn p hp))
    refine Ends.bind (Pass.ends_query hinside ?_)
    have hiff : ((w.graph.preds .interval n).all
        fun p => p == n || w.graph.owner .interval p == some i) = true ↔ w.graph.Eligible i n := by
      rw [FlowGraph.Eligible, and_iff_right hfree, List.all_eq_true]
      refine forall₂_congr fun p _ => ?_
      rw [Bool.or_eq_true, beq_iff_eq, beq_iff_eq]
    cases hall : (w.graph.preds .interval n).all
        fun p => p == n || w.graph.owner .interval p == some i with
    | false =>
      refine ends_pure (hnot fun heligible => ?_)
      rw [hiff.mpr heligible] at hall
      injection hall
    | true => exact hnext (hiff.mp hall) _ rfl

/-- If an interval could be folded into the coarse interval `i`, which has at least the
registers of its members, there is no room for it. -/
def Refused (limits : CoarsenLimits) (i n : IntervalId) (w : Workspace) : Prop :=
  w.graph.owner .interval n = none →
    (∀ p ∈ w.graph.preds .interval n, w.graph.owner .interval p = some i) →
    (∀ m ∈ w.members, w.graph.owner .interval m = some i →
      ∀ r ∈ w.graph.regs .interval m, r ∈ w.graph.regs .interval i) →
    limits.Full (w.graph.regs .interval i ∪ w.graph.regs .interval n)

/-- What the decision about an interval comes to. -/
inductive Verdict (limits : CoarsenLimits) (i n : IntervalId) (w : Workspace) :
    Option RegSet → Prop
  | fold (h : Foldable limits i n w.graph) :
      Verdict limits i n w (some (w.graph.regs .interval i ∪ w.graph.regs .interval n))
  | refuse (h : Refused limits i n w) : Verdict limits i n w none

/-- Whether an interval may be folded is decided, and only the marks change. -/
theorem footprint_ends (h : Under base (some i) w) (hn : n ∈ w.members) :
    Ends (Pass.footprint limits i n) w fun regs w' =>
      (∃ marker, w' = { w with marker }) ∧ Verdict limits i n w regs := by
  obtain ⟨⟨⟨opener, hu⟩, _⟩, hloopless⟩ := id h
  refine eligible_ends hu.exists_node (fun _ hx _ hp => (hu.exists_pred hx hp).1) hn
    (fun hnot => ⟨⟨w.marker, rfl⟩, .refuse fun hfree hpreds _ => ?_⟩) ?_
  · exact absurd ⟨hfree, fun p hp => .inr (hpreds p hp)⟩ hnot
  rintro ⟨hfree, hinside⟩ node hnode
  -- An edge of the interval to itself would not keep it out, but there is none.
  have hpreds : ∀ p ∈ w.graph.preds .interval n, w.graph.owner .interval p = some i :=
    fun p hp => (hinside p hp).resolve_left fun hpn => hloopless n hn (hpn ▸ hp)
  refine Ends.bind ((scopeRegs_ends hu hn node).mono ?_)
  rintro held _ ⟨⟨marker, rfl⟩, hagainst⟩
  rw [hnode] at hagainst
  show Ends (if limits.budget ≤ held.size then _ else _) _ _
  split
  next hheld =>
    exact ends_pure ⟨⟨marker, rfl⟩, .refuse fun _ _ hmembers => hagainst.full hheld hmembers⟩
  next hheld =>
    obtain ⟨v, hv⟩ : ∃ v, w.graph.interval? i = some v := Arena.exists_get? h.current_lt
    have hregs : w.graph.regs .interval i = v.regs := FlowGraph.see_of_interval? hv _ _
    refine Ends.bind (Pass.ends_query hv ?_)
    rw [← hregs, hnode]
    show Ends (if limits.budget ≤
      (w.graph.regs .interval i ∪ w.graph.regs .interval n).size then _ else _) _ _
    split
    next hsize => exact ends_pure ⟨⟨marker, rfl⟩, .refuse fun _ _ _ => .inl hsize⟩
    next hsize =>
      exact ends_pure ⟨⟨marker, rfl⟩, .fold ⟨hfree, hpreds, hagainst.not_full hheld hsize⟩⟩

/-- An interval is folded, or it is refused and only the marks change. -/
theorem foldIfAdmitted_ends (h : Under base (some i) w) (hn : n ∈ w.members) :
    Ends (Pass.foldIfAdmitted limits i n) w fun _ w' => ∃ marker,
      Refused limits i n w ∧ w' = { w with marker } ∨
      Foldable limits i n w.graph ∧ w' = Workspace.fold i n
        (w.graph.regs .interval i ∪ w.graph.regs .interval n) { w with marker } := by
  refine Ends.bind ((footprint_ends h hn).mono ?_)
  rintro regs _ ⟨⟨marker, rfl⟩, hverdict⟩
  cases hverdict with
  | fold hfold => exact ends_modify ⟨marker, .inr ⟨hfold, rfl⟩⟩
  | refuse hrefused => exact ends_pure ⟨marker, .inl ⟨hrefused, rfl⟩⟩

/-- The coarse interval `i` that is visited has grown. -/
def IntervalGrowth (limits : CoarsenLimits) (i : IntervalId) : Workspace → Workspace → Prop :=
  ReflTransGen fun w w' => IntervalMove limits (some i, w) (some i, w')

theorem IntervalGrowth.moves (h : IntervalGrowth limits i w w') :
    ReflTransGen (IntervalMove limits) (some i, w) (some i, w') := by
  induction h with
  | refl => exact .refl
  | tail _ hstep ih => exact ih.tail hstep

/-- How far the scan of a coarse interval has come, with `rest` still to be scanned: as long
as its first member `n` is its only one, those scanned so far were refused. -/
structure Scanning (limits : CoarsenLimits) (i n : IntervalId) (w : Workspace)
    (rest : List IntervalId) (w' : Workspace) : Prop where
  grown : IntervalGrowth limits i w w'
  listed : ∀ c ∈ rest, c ∈ w.members
  refused : (∃ marker, w' = { w with marker }) ∧
      (∀ c ∈ w.members, c ∈ rest ∨ Refused limits i c w) ∨
    ∃ c ∈ w.members, c ≠ n ∧ w'.graph.owner .interval n = some i ∧
      w'.graph.owner .interval c = some i

/-- The scan goes on to the next interval. -/
theorem Scanning.step {c : IntervalId} {rest : List IntervalId} (h : Under base (some i) w)
    (hown : w.graph.owner .interval n = some i) (hs : Scanning limits i n w (c :: rest) w') :
    Ends (Pass.foldIfAdmitted limits i c) w' fun _ w₂ => Scanning limits i n w rest w₂ := by
  have h' : Under base (some i) w' := h.moves hs.grown.moves
  have hc : c ∈ w.members := hs.listed c List.mem_cons_self
  have hc' : c ∈ w'.members := by
    rw [members_of_moves hs.grown.moves]
    exact hc
  have hrest : ∀ x ∈ rest, x ∈ w.members := fun x hx => hs.listed x (List.mem_cons_of_mem c hx)
  refine (foldIfAdmitted_ends h' hc').mono ?_
  rintro _ w₂ ⟨marker, ⟨hrefused, rfl⟩ | ⟨hfold, rfl⟩⟩
  · refine ⟨hs.grown.tail (.mark marker), hrest, hs.refused.imp ?_ id⟩
    rintro ⟨⟨marker', rfl⟩, hall⟩
    refine ⟨⟨marker, rfl⟩, fun x hx => (hall x hx).elim (fun hx => ?_) .inr⟩
    rcases List.mem_cons.mp hx with rfl | hx
    · exact .inr hrefused
    · exact .inl hx
  · refine ⟨(hs.grown.tail (.mark marker)).tail (.fold hc' hfold), hrest, .inr ?_⟩
    obtain ⟨⟨⟨opener, hu⟩, _⟩, _⟩ := id h'
    have howner := owner_fold (w := { w' with marker }) (i := i) (hu.exists_node c hc')
      (w'.graph.regs .interval i ∪ w'.graph.regs .interval c)
    rw [howner]
    -- The first member keeps its owner, so it is not the one that is folded.
    rcases hs.refused with ⟨⟨marker', rfl⟩, _⟩ | ⟨x, hx, hxn, hn, hxi⟩
    · exact ⟨c, hc, (ne_of_owner hfold.free hown).symm, owner_update hfold.free hown,
        Function.update_self ..⟩
    · exact ⟨x, hx, hxn, owner_update hfold.free hn, owner_update hfold.free hxi⟩

/-- If the first member of a coarse interval is still alone after the scan, there is no room
with it for the others. -/
theorem Scanning.scanned (hn : n ∈ w.members)
    (halone : ∀ m ∈ w.members, w.graph.owner .interval m = some i → m = n)
    (hregs : w.graph.regs .interval i = w.graph.regs .interval n)
    (hs : Scanning limits i n w [] w') : Scanned limits i w' := by
  intro n' hn' hown' halone' c hc hfree hpreds
  rcases hs.refused with ⟨⟨marker, rfl⟩, hall⟩ | ⟨x, hx, hxn, hni, hxi⟩
  · have hn'' : n' = n := halone n' hn' hown'
    rw [hn'']
    show limits.Full (w.graph.regs .interval n ∪ w.graph.regs .interval c)
    rw [← hregs]
    refine ((hall c hc).resolve_left List.not_mem_nil) hfree hpreds fun m hm hm' r hr => ?_
    rw [hregs, ← halone m hm hm']
    exact hr
  · have hmembers : w'.members = w.members := members_of_moves hs.grown.moves
    have hxn' : x = n := (halone' x (hmembers ▸ hx) hxi).trans (halone' n (hmembers ▸ hn) hni).symm
    exact absurd hxn' hxn

/-- A coarse interval with one member, whose registers it has, is grown in one scan. -/
theorem scan_ends (h : Under base (some i) w) (hn : n ∈ w.members)
    (hown : w.graph.owner .interval n = some i)
    (halone : ∀ m ∈ w.members, w.graph.owner .interval m = some i → m = n)
    (hregs : w.graph.regs .interval i = w.graph.regs .interval n) :
    Ends (w.members.forM (Pass.foldIfAdmitted limits i)) w fun _ w' =>
      IntervalGrowth limits i w w' ∧ Scanned limits i w' := by
  have hstart : Scanning limits i n w w.members w :=
    ⟨.refl, fun _ hc => hc, .inl ⟨⟨w.marker, rfl⟩, fun _ hc => .inl hc⟩⟩
  refine (ends_forM (P := Scanning limits i n w) (fun c rest w₁ hs => hs.step h hown) hstart).mono ?_
  exact fun _ w' hs => ⟨hs.grown, hs.scanned hn halone hregs⟩

/-- The coarse interval of an interval that is taken is grown from its registers. -/
theorem growCoarse_ends (h : Under base (some i) w) (hn : n ∈ w.members)
    (hown : w.graph.owner .interval n = some i)
    (halone : ∀ m ∈ w.members, w.graph.owner .interval m = some i → m = n) :
    Ends (Pass.growCoarse limits i (w.graph.regs .interval n)) w fun _ w' =>
      IntervalGrowth limits i (w.setRegs i (w.graph.regs .interval n)) w' ∧
        Scanned limits i w' := by
  obtain ⟨v, hv⟩ : ∃ v, w.graph.interval? i = some v := Arena.exists_get? h.current_lt
  refine Ends.bind (Pass.ends_edit (Edit.ends_updateInterval hv (Ends.bind (ends_get ?_))))
  have halike := alike_setRegs .interval w i (w.graph.regs .interval n)
  refine scan_ends (w := w.setRegs i (w.graph.regs .interval n)) (h.alike halike) hn ?_ ?_ ?_
  · exact (congrFun halike.owner n).trans hown
  · intro m hm hm'
    exact halone m hm ((congrFun halike.owner m).symm.trans hm')
  · rw [regs_setRegs_self h.current_lt, regs_setRegs_of_ne (h.ne_current hn)]

theorem scanned_of_full
    (halone : ∀ m ∈ w.members, w.graph.owner .interval m = some i → m = n)
    (hfull : limits.budget ≤ (w.graph.regs .interval n).size) : Scanned limits i w := by
  intro n' hn' hown _ c _ _ _
  rw [halone n' hn' hown]
  exact CoarsenLimits.Full.mono (.inl hfull) fun r hr => RegSet.mem_union.mpr (.inl hr)

/-- The visit of a waiting interval with the coarse interval `i`: it is taken, which leads to
`w₁`; the coarse interval grows, which leads to `w₂`; and others are opened behind it. -/
structure IntervalTurn (limits : CoarsenLimits) (i : IntervalId) (w w₁ w₂ w' : Workspace) :
    Prop where
  taken : IntervalMove limits (none, w) (some i, w₁)
  grown : IntervalGrowth limits i w₁ w₂
  left : IntervalMove limits (some i, w₂) (none, w')

theorem IntervalTurn.moves {w₁ w₂ : Workspace} (h : IntervalTurn limits i w w₁ w₂ w') :
    ReflTransGen (IntervalMove limits) (none, w) (none, w') :=
  (ReflTransGen.head h.taken h.grown.moves).tail h.left

/-- A visit ends well. -/
theorem visitInterval_ends {rest : List IntervalId} (h : Under base none w)
    (hwork : w.worklist = n :: rest) :
    Ends (Pass.visitInterval limits n) { w with worklist := rest } fun _ w' =>
      ∃ i w₁ w₂, IntervalTurn limits i w w₁ w₂ w' := by
  obtain ⟨i, hn, hown, halone, hunder⟩ := h.pop hwork
  obtain ⟨⟨⟨opener, hu⟩, _⟩, _⟩ := id hunder
  obtain ⟨v, hv⟩ : ∃ v, w.graph.interval? n = some v := Arena.exists_get? (hu.exists_node n hn)
  have hnext : v.nextLevel = some i := (FlowGraph.see_of_interval? hv _ _).symm.trans hown
  have hregs : w.graph.regs .interval n = v.regs := FlowGraph.see_of_interval? hv _ _
  -- However far the interval grows, its frontier is opened last.
  have hlast : ∀ w₁ w₂, IntervalMove limits (none, w) (some i, w₁) →
      IntervalGrowth limits i w₁ w₂ → Scanned limits i w₂ →
      Ends (Pass.openFrontier .interval i) w₂ fun _ w' =>
        ∃ i w₁ w₂, IntervalTurn limits i w w₁ w₂ w' := by
    intro w₁ w₂ htake hgrown hscanned
    have h₂ : Under base (some i) w₂ := h.moves (.head htake hgrown.moves)
    refine (openFrontier_ends h₂.sound).mono fun _ w' hleaves => ?_
    exact ⟨i, w₁, w₂, htake, hgrown, .leave hleaves hscanned⟩
  refine Ends.bind (Pass.ends_query hv ?_)
  rw [hnext, ← hregs]
  show Ends (if (w.graph.regs .interval n).size < limits.budget then _ else _) _ _
  by_cases hroom : (w.graph.regs .interval n).size < limits.budget
  · rw [if_pos hroom]
    refine Ends.bind ((growCoarse_ends hunder hn hown halone).mono ?_)
    rintro _ w₂ ⟨hgrown, hscanned⟩
    exact hlast _ w₂ (.take hwork hown hroom) hgrown hscanned
  · rw [if_neg hroom]
    have hfull : limits.budget ≤ (w.graph.regs .interval n).size := Nat.le_of_not_lt hroom
    exact hlast _ _ (.skip hwork hown hfull) .refl (scanned_of_full halone hfull)

/-- The loop over the waiting intervals ends well, as a sequence of moves, and nothing
waits then. -/
theorem intervalLoop_ends (limits : CoarsenLimits) (h : Under base none w) :
    Ends (drain (intervalVisit limits)) w fun _ w' =>
      ReflTransGen (IntervalMove limits) (none, w) (none, w') ∧ w'.worklist = [] := by
  refine drain_ends (P := fun w' => ReflTransGen (IntervalMove limits) (none, w) (none, w')) ?_ .refl
  intro n rest w₁ hwork hpath
  exact (visitInterval_ends (h.moves hpath) hwork).mono fun _ _ ⟨_, _, _, hturn⟩ =>
    hpath.trans hturn.moves

end KernelIntervals
