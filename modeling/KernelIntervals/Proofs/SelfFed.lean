/-
Coarse intervals over any closed list of intervals.

* `Net.SelfFed` — a node that has itself as its only predecessor,
* `Attached` — a member of a group is reached inside it from its opener or from a member that
  feeds itself, and by the net from an entry or from such a node,
* `Attached.opens`, `Attached.joins` — the two ways in which a pass groups a node,
* `Gathering`, `Gathering.loop_ends` — a pass over a closed list keeps the members of groups
  attached,
* `coarsening_attached` — so a run leaves attached members behind,
* `not_attached_strays` — an interval that feeds itself is folded into an unrelated one.

Design notes: an interval may be folded into a coarse one if all its predecessors are itself or
members there. Of an interval with no other predecessor than itself this asks nothing, so such an
interval, which no path leads to, is folded wherever there is room. That is the only way in which
groups come apart. The first pass asks for a predecessor in the group, so it needs no such clause.
The opener of a group is told from its other members by where its predecessors are, and need not
be remembered by the pass.
-/
import KernelIntervals.Proofs.IntervalFootprint
import KernelIntervals.Proofs.Outcomes
import KernelIntervals.Proofs.SecondPass

namespace KernelIntervals

open Function Relation

variable {net : Net} {owner : Nat → Option IntervalId} {opener : IntervalId → Nat}
  {base : Nat} {current : Option IntervalId} {w w' : Workspace} {n i j : IntervalId}
  {limits : CoarsenLimits} {rest intervals coarser : List IntervalId}

/-! ### Attached groups -/

/-- A node whose only predecessor is itself. -/
def Net.SelfFed (net : Net) (n : Nat) : Prop :=
  n ∈ net.nodes ∧ net.preds n ≠ [] ∧ ∀ p ∈ net.preds n, p = n

/-- A node feeds itself, or has a predecessor that is another node. -/
theorem Net.selfFed_or (hn : n ∈ net.nodes) (hne : net.preds n ≠ []) :
    net.SelfFed n ∨ ∃ p ∈ net.preds n, p ≠ n := by
  by_cases hall : ∀ p ∈ net.preds n, p = n
  · exact .inl ⟨hn, hne, hall⟩
  · simp only [not_forall] at hall
    obtain ⟨p, hp, hpn⟩ := hall
    exact .inr ⟨p, hp, hpn⟩

/-- Nothing is reached from a node that no other node follows. -/
theorem Net.eq_of_path {m : Nat} (hsuccs : ∀ s ∈ net.succs n, s = n)
    (hpath : ReflTransGen net.Edge n m) : m = n := by
  induction hpath with
  | refl => rfl
  | tail _ hedge ih => exact hsuccs _ (ih ▸ hedge)

/-- The node `n` is a member of the group `i`, which the node `o` opened. The opener has no
predecessors or one in another group; all other members have predecessors, none outside the group
but themselves. -/
structure Attached (net : Net) (owner : Nat → Option IntervalId) (o : Nat) (i : IntervalId)
    (n : Nat) : Prop where
  opener_mem : o ∈ net.nodes
  owner_opener : owner o = some i
  entered : net.preds o = [] ∨ ∃ p ∈ net.preds o, ∃ j, owner p = some j ∧ j ≠ i
  inside : n ≠ o → net.preds n ≠ [] ∧ ∀ p ∈ net.preds n, p = n ∨ owner p = some i
  rooted : ∃ m, (m = o ∨ net.SelfFed m) ∧ owner m = some i ∧ ReflTransGen (net.Inside owner i) m n
  fed : ∃ m, (net.IsEntry m ∨ net.SelfFed m) ∧ ReflTransGen net.Edge m n

namespace Attached

variable {o m p : Nat}

/-- Members stay attached when a free node is grouped. -/
theorem update (h : Attached net owner o i n) (hfree : owner m = none) :
    Attached net (update owner m (some j)) o i n where
  opener_mem := h.opener_mem
  owner_opener := owner_update hfree h.owner_opener
  entered := h.entered.imp_right fun ⟨p, hp, k, hk, hne⟩ => ⟨p, hp, k, owner_update hfree hk, hne⟩
  inside hne := (h.inside hne).imp_right fun hpreds p hp =>
    (hpreds p hp).imp_right (owner_update hfree)
  rooted := by
    obtain ⟨r, hr, hown, hpath⟩ := h.rooted
    exact ⟨r, hr, owner_update hfree hown, connected_update hfree hpath⟩
  fed := h.fed

/-- A free node behind a group opens a group of its own. -/
theorem opens (h : Attached net owner o j p) (hc : net.Closed) (hn : n ∈ net.nodes)
    (hfree : owner n = none) (hp : p ∈ net.nodes) (hpj : owner p = some j)
    (hedge : net.Edge p n) (hne : j ≠ i) :
    Attached net (Function.update owner n (some i)) n i n where
  opener_mem := hn
  owner_opener := update_self ..
  entered := .inr ⟨p, hc.mem_preds hp hedge, j, owner_update hfree hpj, hne⟩
  inside hne := absurd rfl hne
  rooted := ⟨n, .inl rfl, update_self .., .refl⟩
  fed := by
    obtain ⟨r, hr, hpath⟩ := h.fed
    exact ⟨r, hr, hpath.tail hedge⟩

/-- A free node with no predecessors but itself and members of a group joins the group, which has
the member `x`. -/
theorem joins (hall : ∀ p ∈ net.nodes, owner p = some i → Attached net owner o i p) {x : Nat}
    (hx : x ∈ net.nodes) (hxi : owner x = some i) (hc : net.Closed) (hn : n ∈ net.nodes)
    (hfree : owner n = none) (hne : net.preds n ≠ [])
    (hpreds : ∀ p ∈ net.preds n, p = n ∨ owner p = some i) :
    Attached net (Function.update owner n (some i)) o i n := by
  obtain ⟨hmem, hown, hentered, -, -, -⟩ := (hall x hx hxi).update (j := i) hfree
  have hinside : n ≠ o → net.preds n ≠ [] ∧ ∀ p ∈ net.preds n,
      p = n ∨ Function.update owner n (some i) p = some i :=
    fun _ => ⟨hne, fun p hp => (hpreds p hp).imp_right (owner_update hfree)⟩
  rcases Net.selfFed_or hn hne with hself | ⟨p, hp, hpn⟩
  · exact ⟨hmem, hown, hentered, hinside, ⟨n, .inr hself, update_self .., .refl⟩,
      ⟨n, .inr hself, .refl⟩⟩
  -- The node is behind a member.
  have hpi : owner p = some i := (hpreds p hp).resolve_left hpn
  have hedge : net.Edge p n := hc.mem_succs hn hp
  have hattached := hall p (hc.pred_mem hn hp) hpi
  refine ⟨hmem, hown, hentered, hinside, ?_, ?_⟩
  · obtain ⟨r, hr, hri, hpath⟩ := (hattached.update (j := i) hfree).rooted
    exact ⟨r, hr, hri, hpath.tail ⟨hedge, owner_update hfree hpi, update_self ..⟩⟩
  · obtain ⟨r, hr, hpath⟩ := hattached.fed
    exact ⟨r, hr, hpath.tail hedge⟩

/-- Where no node feeds itself, groups are connected and all their members are reachable. -/
theorem connected (h : Attached net owner o i n) (hno : ∀ m, ¬ net.SelfFed m) :
    ReflTransGen (net.Inside owner i) o n ∧ net.Reachable n := by
  obtain ⟨m, rfl | hm, _, hinside⟩ := h.rooted
  · obtain ⟨r, hr, hpath⟩ := h.fed
    exact ⟨hinside, r, hr.resolve_right (hno r), hpath⟩
  · exact absurd hm (hno m)

/-- Where a pass starts, each entry is grouped for itself. -/
theorem of_grouped {opened : List IntervalId} (h : Grouped net owner opener opened)
    (hentries : ∀ n ∈ net.nodes, owner n ≠ none → net.preds n = []) (hn : n ∈ net.nodes)
    (hown : owner n = some i) : Attached net owner (opener i) i n := by
  have hopened := h.mem_opened hn hown
  have hopener := h.owner_opener hopened
  refine ⟨h.opener_mem hopened, hopener, .inl (hentries _ (h.opener_mem hopened) ?_), fun hne => ?_,
    ⟨_, .inl rfl, hopener, h.connected hn hown⟩, ?_⟩
  · rw [hopener]
    exact Option.some_ne_none i
  · exact ⟨h.preds_ne_nil hn hown hne, fun _ hp => .inr (h.owner_pred hn hown hne hp)⟩
  · obtain ⟨r, hr, hpath⟩ := h.reachable hn hown
    exact ⟨r, .inl hr, hpath⟩

end Attached

/-- All members of groups are attached. -/
def AllAttached (net : Net) (owner : Nat → Option IntervalId) (opener : IntervalId → Nat) : Prop :=
  ∀ n ∈ net.nodes, ∀ i, owner n = some i → Attached net owner (opener i) i n

/-! ### A pass over a closed list -/

/-- A pass over the closed net of some intervals is under way, in a visit of the coarse interval
`current` if there is one, and the members of its groups are attached. -/
structure Gathering (net : Net) (base : Nat) (current : Option IntervalId) (w : Workspace) :
    Prop where
  same : w.net .interval = net
  loose : Loose base current w
  seeded : Seeded .interval w
  attached : ∃ opener, AllAttached net (w.graph.owner .interval) opener
  inhabited : ∀ i, current = some i → ∃ x ∈ net.nodes, w.graph.owner .interval x = some i

namespace Gathering

theorem closed (h : Gathering net base current w) : net.Closed := h.same ▸ h.loose.closed

theorem mem_iff (h : Gathering net base current w) : n ∈ w.members ↔ n ∈ net.nodes := by
  rw [← h.same]
  rfl

theorem lt_extent (h : Gathering net base current w) (hn : n ∈ net.nodes) :
    n < w.graph.extent .interval :=
  h.loose.lt_extent (h.mem_iff.mpr hn)

theorem alike (h : Gathering net base current w) (ha : Alike .interval w w') :
    Gathering net base current w' := by
  refine ⟨ha.net.trans h.same, h.loose.alike ha, h.seeded.alike ha, ?_, ?_⟩
  · rw [ha.owner]
    exact h.attached
  · rw [ha.owner]
    exact h.inhabited

theorem leave (h : Gathering net base current w) : Gathering net base none w := by
  refine ⟨h.same, h.loose.leave, h.seeded, h.attached, ?_⟩
  rintro i ⟨⟩

/-- The first waiting interval is taken. -/
theorem pop (h : Gathering net base none w) (hwork : w.worklist = n :: rest) :
    ∃ i, n ∈ net.nodes ∧ w.graph.owner .interval n = some i ∧
      Gathering net base (some i) { w with worklist := rest } := by
  obtain ⟨i, hn, hown, _, hloose⟩ := h.loose.pop hwork
  have hn := h.mem_iff.mp hn
  refine ⟨i, hn, hown, h.same, hloose, h.seeded, h.attached, ?_⟩
  rintro _ ⟨⟩
  exact ⟨n, hn, hown⟩

/-- A free interval behind a coarse one opens one of its own. -/
theorem openGroup (h : Gathering net base current w) (hn : n ∈ net.nodes)
    (hfree : w.graph.owner .interval n = none) {p : IntervalId} (hp : p ∈ net.nodes)
    (hpj : w.graph.owner .interval p = some j) (hedge : net.Edge p n) :
    Gathering net base current (w.openGroup .interval n) := by
  have hlt := h.lt_extent hn
  obtain ⟨opener, hall⟩ := h.attached
  have hne : ∀ m ∈ net.nodes, ∀ k, w.graph.owner .interval m = some k →
      k ≠ w.graph.intervals.size :=
    fun m hm k hk => Nat.ne_of_lt (h.loose.owners m (h.mem_iff.mpr hm) k hk).2
  refine ⟨net_openGroup.trans h.same, h.loose.openGroup (h.mem_iff.mpr hn) hfree,
    h.seeded.openGroup hlt, ⟨update opener w.graph.intervals.size n, ?_⟩, fun i hi => ?_⟩
  · rw [owner_openGroup hlt]
    intro m hm k hk
    by_cases hmn : m = n
    · rw [hmn, update_self] at hk
      obtain rfl := Option.some.inj hk
      rw [hmn, update_self]
      exact (hall p hp j hpj).opens h.closed hn hfree hp hpj hedge (hne p hp j hpj)
    · rw [update_of_ne hmn] at hk
      rw [update_of_ne (hne m hm k hk)]
      exact (hall m hm k hk).update hfree
  · obtain ⟨x, hx, hxi⟩ := h.inhabited i hi
    rw [owner_openGroup hlt]
    exact ⟨x, hx, owner_update hfree hxi⟩

/-- An interval that may be folded is folded. -/
theorem fold (h : Gathering net base (some i) w) (hn : n ∈ net.nodes)
    (heligible : w.graph.Eligible i n) (regs : RegSet) :
    Gathering net base (some i) (w.fold i n regs) := by
  obtain ⟨hfree, hpreds⟩ := heligible
  have hmem := h.mem_iff.mpr hn
  have hlt := h.lt_extent hn
  have hne : net.preds n ≠ [] := by
    rw [← h.same]
    exact h.seeded.preds_ne_nil hmem hfree
  have hpreds : ∀ p ∈ net.preds n, p = n ∨ w.graph.owner .interval p = some i := by
    rw [← h.same]
    exact hpreds
  obtain ⟨opener, hall⟩ := h.attached
  obtain ⟨x, hx, hxi⟩ := h.inhabited i rfl
  refine ⟨((alike_fold w i n regs).net.trans net_assign).trans h.same,
    h.loose.fold hmem hfree regs, (h.seeded.assign hlt).alike (alike_fold ..), ⟨opener, ?_⟩, ?_⟩
  · rw [owner_fold hlt]
    intro m hm k hk
    by_cases hmn : m = n
    · rw [hmn, update_self] at hk
      obtain rfl := Option.some.inj hk
      rw [hmn]
      exact Attached.joins (fun p hp hpi => hall p hp i hpi) hx hxi h.closed hn hfree hne hpreds
    · rw [update_of_ne hmn] at hk
      exact (hall m hm k hk).update hfree
  · rintro _ ⟨⟩
    rw [owner_fold hlt]
    exact ⟨x, hx, owner_update hfree hxi⟩

end Gathering

/-! ### What a visit comes to -/

/-- Only an interval that may be folded is let in, and only the marks change. -/
theorem Loose.footprint_ends (h : Loose base (some i) w) (hn : n ∈ w.members)
    (limits : CoarsenLimits) :
    Ends (Pass.footprint limits i n) w fun found w' =>
      (∃ marker, w' = { w with marker }) ∧ ∀ regs, found = some regs → w.graph.Eligible i n := by
  refine eligible_ends (fun _ => h.lt_extent) h.pred_mem hn
    (fun _ => ⟨⟨w.marker, rfl⟩, by rintro _ ⟨⟩⟩) fun heligible node _ => ?_
  refine Ends.bind ((scopeRegs_ends_of_listed (fun _ => h.lt_extent) h.pred_mem hn node).mono ?_)
  rintro held _ ⟨⟨marker, rfl⟩, -⟩
  obtain ⟨v, hv⟩ : ∃ v, w.graph.interval? i = some v := Arena.exists_get? (h.idle i rfl).1.2
  show Ends (if limits.budget ≤ held.size then _ else _) _ _
  split
  · exact ends_pure ⟨⟨marker, rfl⟩, fun _ _ => heligible⟩
  · refine Ends.bind (Pass.ends_query hv ?_)
    show Ends (if limits.budget ≤ (v.regs ∪ node.regs).size then _ else _) _ _
    split
    · exact ends_pure ⟨⟨marker, rfl⟩, fun _ _ => heligible⟩
    · exact ends_pure ⟨⟨marker, rfl⟩, fun _ _ => heligible⟩

namespace Gathering

/-- One interval is looked at: it is folded, or nothing but the marks changes. -/
theorem foldIfAdmitted_ends (h : Gathering net base (some i) w) (hn : n ∈ net.nodes)
    (limits : CoarsenLimits) :
    Ends (Pass.foldIfAdmitted limits i n) w fun _ w' => Gathering net base (some i) w' := by
  refine Ends.bind ((h.loose.footprint_ends (h.mem_iff.mpr hn) limits).mono ?_)
  rintro found _ ⟨⟨marker, rfl⟩, heligible⟩
  have hmarked : Gathering net base (some i) { w with marker } := h.alike (alike_marker ..)
  cases found with
  | none => exact ends_pure hmarked
  | some regs => exact ends_modify (hmarked.fold hn (heligible regs rfl) regs)

theorem growCoarse_ends (h : Gathering net base (some i) w) (limits : CoarsenLimits)
    (regs : RegSet) :
    Ends (Pass.growCoarse limits i regs) w fun _ w' => Gathering net base (some i) w' := by
  obtain ⟨v, hv⟩ : ∃ v, w.graph.interval? i = some v := Arena.exists_get? (h.loose.idle i rfl).1.2
  refine Ends.bind (Pass.ends_edit (Edit.ends_updateInterval hv (Ends.bind (ends_get ?_))))
  have hstart : Gathering net base (some i) (w.setRegs i regs) := h.alike (alike_setRegs ..)
  exact ends_forM_inv (fun n hn u hu => hu.foldIfAdmitted_ends (h.mem_iff.mp hn) limits) hstart

/-- What is behind a coarse interval opens coarse intervals of its own. -/
theorem openFrontier_ends (h : Gathering net base (some i) w) :
    Ends (Pass.openFrontier .interval i) w fun _ w' => Gathering net base none w' := by
  obtain ⟨found, hsurvey, hmem⟩ := FlowGraph.frontier?_eq_some (i := i)
    (fun _ => h.loose.lt_extent) fun n hn s hs => h.loose.lt_extent (h.loose.closed.succ_mem hn hs)
  refine Ends.bind (Pass.ends_survey hsurvey ?_)
  -- The members of the coarse interval, which what was found is behind, stay its members.
  refine (ends_forM_inv (P := fun u => Gathering net base (some i) u ∧ ∀ m,
    w.graph.owner .interval m = some i → u.graph.owner .interval m = some i) ?_
    ⟨h, fun _ => id⟩).mono fun _ _ hu => hu.1.leave
  rintro s hs u ⟨hu, hkept⟩
  obtain ⟨p, hp, hpi, hsucc, _⟩ := (hmem s).mp hs
  have hp : p ∈ net.nodes := h.mem_iff.mp hp
  have hedge : net.Edge p s := by
    rw [← h.same]
    exact hsucc
  have hs : s ∈ net.nodes := h.closed.succ_mem hp hedge
  have hlt := hu.lt_extent hs
  refine (KernelIntervals.openFree_ends hlt).mono ?_
  rintro _ _ (⟨hfree, rfl⟩ | ⟨_, rfl⟩)
  · refine ⟨hu.openGroup hs hfree hp (hkept p hpi) hedge, fun m hm => ?_⟩
    rw [owner_openGroup hlt]
    exact owner_update hfree (hkept m hm)
  · exact ⟨hu, hkept⟩

theorem visitInterval_ends (h : Gathering net base none w) (hwork : w.worklist = n :: rest)
    (limits : CoarsenLimits) :
    Ends (Pass.visitInterval limits n) { w with worklist := rest } fun _ w' =>
      Gathering net base none w' := by
  obtain ⟨i, hn, hown, hpopped⟩ := h.pop hwork
  obtain ⟨v, hv⟩ : ∃ v, w.graph.interval? n = some v := Arena.exists_get? (h.lt_extent hn)
  have hnext : v.nextLevel = some i := (FlowGraph.see_of_interval? hv _ _).symm.trans hown
  refine Ends.bind (Pass.ends_query hv ?_)
  rw [hnext]
  show Ends (if v.regs.size < limits.budget then _ else _) _ _
  split
  · refine Ends.bind ((hpopped.growCoarse_ends limits v.regs).mono ?_)
    exact fun _ _ hu => hu.openFrontier_ends
  · exact hpopped.openFrontier_ends

/-- The loop over the waiting intervals keeps the members of groups attached. -/
theorem loop_ends (h : Gathering net base none w) (limits : CoarsenLimits) :
    Ends (drain (intervalVisit limits)) w fun _ w' => Gathering net base none w' :=
  (drain_ends (fun _ _ _ hwork hu => hu.visitInterval_ends hwork limits) h).mono fun _ _ h => h.1

end Gathering

/-- The pass starts with each entry in a group of its own. -/
theorem gathering_start (hexist : ∀ i ∈ intervals, i < w.graph.intervals.size)
    (hnodup : intervals.Nodup) (hclosed : (w.graph.net .interval intervals).Closed) :
    Ends (Pass.start .interval intervals) w fun _ w' =>
      Gathering (w.graph.net .interval intervals) w.graph.intervals.size none w' := by
  refine (start_ends (l := .interval) hexist hnodup hclosed).mono ?_
  rintro _ w₁ ⟨hsound, ⟨w₀, hcleared, hopens⟩, hentries⟩
  have hmembers : w₁.members = intervals := hopens.members.trans hcleared.members
  have hsame : w₁.net .interval = w.graph.net .interval intervals := by
    rw [Workspace.net, hmembers]
    exact (hcleared.bodies.trans hopens.sameBodies).net .interval intervals
  refine ⟨hsame, hsound.loose, ?_, ?_, by rintro i ⟨⟩⟩
  · obtain ⟨_, hseeded⟩ := hsound
    exact hseeded
  · obtain ⟨⟨opener, hu⟩, _⟩ := hsound
    refine ⟨opener, ?_⟩
    rw [← hsame]
    intro n hn i hown
    refine Attached.of_grouped hu.grouped (fun m hm hne => ?_) hn hown
    exact hentries m (hmembers ▸ hm) hne

/-- Filling in the coarse intervals changes no owners. -/
theorem keeps_owner_complete (budget : Nat) (owner : Nat → Option IntervalId) :
    Pass.KeepsGraph (·.owner .interval = owner) (Pass.complete .interval budget) := by
  refine Pass.keeps_complete (P := (·.owner .interval = owner)) ?_ .interval budget
  intro g i s vector hg
  have hsame : (g.modifyInterval i (Interval.fill s vector)).owner .interval = g.owner .interval :=
    FlowGraph.see_modifyInterval fun _ => rfl
  exact hsame.trans hg

/-- A pass over a closed list leaves the members of all groups attached. -/
theorem coarsen_attached {budget : Nat} {scope : UnionScope} (hnodup : intervals.Nodup)
    (hclosed : (w.graph.net .interval intervals).Closed)
    (hok : Pass.coarsen budget scope intervals w = .ok coarser w') : ∃ opener,
      AllAttached (w.graph.net .interval intervals) (w'.graph.owner .interval) opener := by
  have hbudget := budget_of_coarsen_eq_ok hok
  rw [Pass.coarsen, if_neg hbudget] at hok
  obtain ⟨_, w₁, hstart, hok₁⟩ := bind_eq_ok hok
  have h₁ := (gathering_start (exist_of_start_eq_ok hstart) hnodup hclosed).of_eq_ok hstart
  obtain ⟨limits, w₂, hlimits, hok₂⟩ := bind_eq_ok hok₁
  obtain ⟨rfl, -⟩ := (coarsenLimits_ends budget scope fun i hi => h₁.lt_extent hi).of_eq_ok hlimits
  obtain ⟨_, w₃, hloop, hok₃⟩ := bind_eq_ok hok₂
  obtain ⟨opener, hall⟩ := ((h₁.loop_ends limits).of_eq_ok hloop).attached
  obtain ⟨_, w₄, hcomplete, hok₄⟩ := bind_eq_ok hok₃
  have howner : w₄.graph.owner .interval = w₃.graph.owner .interval :=
    (keeps_owner_complete budget _ w₃ rfl).of_eq_ok hcomplete
  refine ⟨opener, ?_⟩
  -- What is left to do is to return the coarse intervals and to log them.
  injection hok₄ with _ hlast
  rw [← hlast]
  show AllAttached _ (w₄.graph.owner .interval) opener
  rw [howner]
  exact hall

/-! ### Runs -/

/-- Whatever is folded into a coarse interval by a run over a closed list, in which intervals may
follow themselves, is attached: inside the coarse interval it is reached from the opener or from an
interval that is its own only predecessor, and by the edges of the list from an interval without
predecessors or from such an interval. If there are no such intervals, coarse intervals are
connected, and only reachable intervals are folded. -/
theorem coarsening_attached {q : IntervalGrouper} {state : LoggedGraph} (hnodup : intervals.Nodup)
    (hclosed : (state.graph.net .interval intervals).Closed)
    (hrun : (q.run intervals state).result = .ok coarser) :
    let net := state.graph.net .interval intervals
    let owner := (q.run intervals state).state.graph.owner .interval
    ∃ opener, AllAttached net owner opener ∧ ((∀ m, ¬ net.SelfFed m) →
      ∀ n ∈ intervals, ∀ i, owner n = some i →
        ReflTransGen (net.Inside owner i) (opener i) n ∧ net.Reachable n) := by
  obtain ⟨w, hok, hgraph⟩ := ofResult_result_eq_ok hrun
  obtain ⟨opener, hall⟩ := coarsen_attached (w := state.workspace q.scratch) hnodup hclosed hok
  have hgraph : (q.run intervals state).state.graph = w.graph := hgraph
  rw [hgraph]
  exact ⟨opener, hall, fun hno n hn i hown => (hall n hn i hown).connected hno⟩

/-- Two intervals without an edge between them, the second of which follows itself. -/
def strays : LoggedGraph where
  graph := (FlowGraph.addInterval {} { regs := .ofList [{ num := 1 }] }).addInterval
    { regs := .ofList [{ num := 2 }], preds := [1], succs := [1] }
  log := #[]

theorem closed_strays : (strays.graph.net .interval [0, 1]).Closed := by
  have hsuccs : ∀ n ∈ [0, 1], ∀ s ∈ strays.graph.succs .interval n,
      s ∈ [0, 1] ∧ n ∈ strays.graph.preds .interval s := by decide +kernel
  have hpreds : ∀ n ∈ [0, 1], ∀ p ∈ strays.graph.preds .interval n,
      p ∈ [0, 1] ∧ n ∈ strays.graph.succs .interval p := by decide +kernel
  exact ⟨fun hn hs => (hsuccs _ hn _ hs).1, fun hn hs => (hsuccs _ hn _ hs).2,
    fun hn hp => (hpreds _ hn _ hp).1, fun hn hp => (hpreds _ hn _ hp).2⟩

theorem run_strays : (IntervalGrouper.run ⟨4, .global, {}⟩ [0, 1] strays).result = .ok [2] := by
  decide +kernel

theorem coarsening_attached_strays :
    let net := strays.graph.net .interval [0, 1]
    let run := IntervalGrouper.run ⟨4, .global, {}⟩ [0, 1] strays
    [0, 1].Nodup ∧ net.Closed ∧ run.result = .ok [2] ∧
      ∃ opener, AllAttached net (run.state.graph.owner .interval) opener := by
  obtain ⟨opener, hall, _⟩ := coarsening_attached (by decide) closed_strays run_strays
  exact ⟨by decide, closed_strays, run_strays, opener, hall⟩

/-- Both intervals are folded into one, though neither is reached from the other, and the second
is not reachable at all. -/
theorem not_attached_strays :
    let net := strays.graph.net .interval [0, 1]
    let run := IntervalGrouper.run ⟨4, .global, {}⟩ [0, 1] strays
    [0, 1].Nodup ∧ net.Closed ∧ run.result = .ok [2] ∧
      (∀ n ∈ [0, 1], run.state.graph.owner .interval n = some 2) ∧
      ¬ ReflTransGen net.Edge 0 1 ∧ ¬ ReflTransGen net.Edge 1 0 ∧ ¬ net.Reachable 1 := by
  intro net run
  have hstay : ∀ b, ReflTransGen net.Edge 0 b → b = 0 :=
    fun _ => Net.eq_of_path (by decide +kernel)
  have hround : ∀ b, ReflTransGen net.Edge 1 b → b = 1 :=
    fun _ => Net.eq_of_path (by decide +kernel)
  refine ⟨by decide, closed_strays, run_strays, by decide +kernel, ?_, ?_, ?_⟩
  · exact fun hpath => absurd (hstay 1 hpath) (by decide)
  · exact fun hpath => absurd (hround 0 hpath) (by decide)
  · rintro ⟨r, ⟨hr, hnil⟩, hpath⟩
    have hr : r ∈ [0, 1] := hr
    have hr : r = 0 ∨ r = 1 := by simpa using hr
    rcases hr with rfl | rfl
    · exact absurd (hstay 1 hpath) (by decide)
    · have hpreds : net.preds 1 ≠ [] := by decide +kernel
      exact hpreds hnil

end KernelIntervals
