/-
When a pass over intervals has nothing to fold.

* `Unfoldable` — no listed interval has room for one that it alone is before,
* `Packed` — the same with the limits of a pass,
* `Exhausted` — coarse intervals that were visited have no room either, as long as their
  member is alone,
* `Under.exhausted_move`, `Under.exhausted_moves` — every move keeps this,
* `Valid.unfoldable_of_length` — so a list that a pass leaves as long as it was is
  unfoldable.

Design notes: a pass folds an interval in the one scan that it makes when its coarse
interval is visited. An interval whose only predecessor stays alone is still free then,
because only the coarse interval of a predecessor can open one for it.
-/
import KernelIntervals.Proofs.CoarseBudget

namespace KernelIntervals

open Function Relation

/-- No listed interval has room for one whose only predecessor it is: the registers of the
two are too many, or those of all listed intervals, as the scope has it. -/
def Unfoldable (budget : Nat) (scope : UnionScope) (g : FlowGraph)
    (intervals : List IntervalId) : Prop :=
  ∀ c ∈ intervals, ∀ e, (∀ p, p ∈ g.preds .interval c ↔ p = e) →
    match scope with
    | .ancestors => budget ≤ (g.regs .interval e ∪ g.regs .interval c).size
    | .global => budget ≤ (g.unionRegs intervals).size

/-- With the limits of a pass, no listed interval has room for one whose only predecessor it
is. -/
def Packed (limits : CoarsenLimits) (g : FlowGraph) (intervals : List IntervalId) : Prop :=
  ∀ c ∈ intervals, ∀ e, (∀ p, p ∈ g.preds .interval c ↔ p = e) →
    limits.Full (g.regs .interval e ∪ g.regs .interval c)

/-- An interval with an owner and predecessors has one among these whose coarse interval is
its own or is no longer busy, and a coarse interval that is no longer busy and has one
member has no room for those that this alone is before. -/
structure Exhausted (limits : CoarsenLimits) (current : Option IntervalId) (w : Workspace) :
    Prop where
  led : ∀ c ∈ w.members, ∀ k, w.graph.owner .interval c = some k →
    w.graph.preds .interval c ≠ [] → ∃ p ∈ w.graph.preds .interval c, ∃ j,
      w.graph.owner .interval p = some j ∧ (j = k ∨ ¬ w.Busy .interval current j)
  full : ∀ k ∈ w.opened, ¬ w.Busy .interval current k → ∀ n ∈ w.members,
    w.graph.owner .interval n = some k →
    (∀ m ∈ w.members, w.graph.owner .interval m = some k → m = n) →
    ∀ c ∈ w.members, (∀ p, p ∈ w.graph.preds .interval c ↔ p = n) →
      limits.Full (w.graph.regs .interval n ∪ w.graph.regs .interval c)

variable {l : Level} {base budget : Nat} {current : Option IntervalId} {w w' w₁ w₂ : Workspace}
  {m m' : Moment} {n i : IntervalId} {opener : IntervalId → Nat} {scope : UnionScope}
  {limits : CoarsenLimits} {intervals coarser : List IntervalId}

/-! ### Every move keeps visited coarse intervals exhausted -/

/-- What is exhausted depends on edges, owners, registers of members, and on what is
busy. -/
theorem Exhausted.congr {current' : Option IntervalId} (h : Exhausted limits current w)
    (hmembers : w'.members = w.members) (hopened : w'.opened = w.opened)
    (hpreds : w'.graph.preds .interval = w.graph.preds .interval)
    (howner : w'.graph.owner .interval = w.graph.owner .interval)
    (hregs : ∀ x ∈ w.members, w'.graph.regs .interval x = w.graph.regs .interval x)
    (hbusy : w'.Busy .interval current' = w.Busy .interval current) :
    Exhausted limits current' w' := by
  constructor
  · rw [hmembers, hpreds, howner, hbusy]
    exact h.led
  · rw [hmembers, hopened, hpreds, howner, hbusy]
    intro k hk hidle n hn hown halone c hc hpred
    rw [hregs n hn, hregs c hc]
    exact h.full k hk hidle n hn hown halone c hc hpred

/-- Taking a waiting interval makes nothing more or less busy. -/
theorem busy_taken {rest : List IntervalId} (hwork : w.worklist = n :: rest)
    (hown : w.graph.owner l n = some i) (hwork' : w'.worklist = rest)
    (howner : w'.graph.owner l = w.graph.owner l) : w'.Busy l (some i) = w.Busy l none := by
  funext j
  refine propext ⟨?_, ?_⟩
  · rintro (hj | ⟨m, hm, hmj⟩)
    · exact .inr ⟨n, hwork ▸ List.mem_cons_self, hown.trans hj⟩
    · rw [hwork'] at hm
      exact .inr ⟨m, hwork ▸ List.mem_cons_of_mem n hm, howner ▸ hmj⟩
  · rintro (hj | ⟨m, hm, hmj⟩)
    · injection hj
    · rw [hwork] at hm
      rcases List.mem_cons.mp hm with rfl | hm
      · exact .inl (hown.symm.trans hmj)
      · exact .inr ⟨m, hwork' ▸ hm, howner ▸ hmj⟩

/-- Waiting intervals have owners, so folding a free one makes nothing more or less busy. -/
theorem Under.busy_fold (h : Under base (some i) w) (hn : n ∈ w.members)
    (hfree : w.graph.owner .interval n = none) (regs : RegSet) :
    (w.fold i n regs).Busy .interval (some i) = w.Busy .interval (some i) := by
  obtain ⟨⟨⟨opener, hu⟩, _⟩, _⟩ := id h
  funext j
  refine propext (or_congr_right (exists_congr fun m => and_congr_right fun hm => ?_))
  obtain ⟨k, hk, _⟩ := hu.waiting.alone hm
  rw [owner_fold (hu.exists_node n hn), update_of_ne (ne_of_owner hfree hk)]

theorem Under.exhausted_fold (h : Under base (some i) w) (he : Exhausted limits (some i) w)
    (hn : n ∈ w.members) (hfold : Foldable limits i n w.graph) (regs : RegSet) :
    Exhausted limits (some i) (w.fold i n regs) := by
  obtain ⟨⟨⟨opener, hu⟩, hs⟩, _⟩ := id h
  have howner := owner_fold (i := i) (hu.exists_node n hn) regs
  have hbusy := h.busy_fold hn hfold.free regs
  have hpreds : (w.fold i n regs).graph.preds .interval = w.graph.preds .interval := by
    rw [(alike_fold w i n regs).preds]
    show (w.graph.assign .interval n (some i)).preds .interval = _
    rw [FlowGraph.preds_assign]
  have hregs : ∀ x ∈ w.members,
      (w.fold i n regs).graph.regs .interval x = w.graph.regs .interval x :=
    fun x hx => regs_fold_of_ne (h.ne_current hx) _
  constructor
  · intro c hc k hown hne
    rw [hpreds] at hne ⊢
    rw [howner] at hown
    rw [hbusy]
    by_cases hcn : c = n
    · -- The interval that is folded follows members of the coarse interval.
      rw [hcn, update_self] at hown
      rw [hcn] at hne ⊢
      obtain ⟨p, hp⟩ := List.exists_mem_of_ne_nil _ hne
      refine ⟨p, hp, i, ?_, .inl (Option.some.inj hown)⟩
      rw [howner]
      exact owner_update hfold.free (hfold.preds p hp)
    · rw [update_of_ne hcn] at hown
      obtain ⟨p, hp, j, hj, hjk⟩ := he.led c hc k hown hne
      refine ⟨p, hp, j, ?_, hjk⟩
      rw [howner]
      exact owner_update hfold.free hj
  · intro k hk hidle x hx hown halone c hc hpred
    rw [hbusy] at hidle
    have hik : i ≠ k := fun hik => hidle (.inl (congrArg some hik))
    rw [howner] at hown halone
    rw [hpreds] at hpred
    rw [hregs x hx, hregs c hc]
    refine he.full k hk hidle x hx ((owner_update_iff hfold.free hik).mp hown) ?_ c hc hpred
    exact fun y hy hy' => halone y hy ((owner_update_iff hfold.free hik).mpr hy')

/-- What was no longer busy before the coarse interval of a visit is left stays so, and
that coarse interval becomes so. -/
theorem Under.idle_leave (h : Under base (some i) w) (hopens : Opens .interval w w')
    {j : IntervalId} (hj : j ∈ w.opened) (hidle : j = i ∨ ¬ w.Busy .interval (some i) j) :
    ¬ w'.Busy .interval none j := by
  obtain ⟨⟨⟨opener, hu⟩, _⟩, _⟩ := id h
  intro hbusy
  have hbusy' : w.Busy .interval none j := hopens.busy_of_lt (hu.opened_range j hj).2 hbusy
  rcases hbusy' with hj' | ⟨m, hm, hown⟩
  · injection hj'
  · rcases hidle with rfl | hidle
    · exact (hu.idle _ rfl).2 m hm hown
    · exact hidle (.inr ⟨m, hm, hown⟩)

/-- An interval that only follows one that is alone in the coarse interval of a visit is
free: had it an owner, the visit of that coarse interval would be over. -/
theorem Under.free_of_alone (h : Under base (some i) w) (he : Exhausted limits (some i) w)
    {c : IntervalId} (hn : n ∈ w.members) (hown : w.graph.owner .interval n = some i)
    (halone : ∀ m ∈ w.members, w.graph.owner .interval m = some i → m = n) (hc : c ∈ w.members)
    (hpred : ∀ p, p ∈ w.graph.preds .interval c ↔ p = n) :
    w.graph.owner .interval c = none := by
  by_contra howned
  obtain ⟨k, hk⟩ := Option.ne_none_iff_exists'.mp howned
  obtain ⟨p, hp, j, hj, hjk⟩ := he.led c hc k hk (List.ne_nil_of_mem ((hpred n).mpr rfl))
  rw [(hpred p).mp hp, hown] at hj
  rcases hjk with rfl | hbusy
  · have hcn : c = n := halone c hc (hk.trans hj.symm)
    exact h.loopless n hn (hcn ▸ (hpred n).mpr rfl)
  · exact hbusy (.inl hj)

/-- A visit ends when the coarse interval has no room for more, and others are opened
behind it. -/
theorem Under.exhausted_leave (h : Under base (some i) w) (he : Exhausted limits (some i) w)
    (hleaves : Leaves .interval i w w') (hscanned : Scanned limits i w) :
    Exhausted limits none w' := by
  obtain ⟨⟨⟨opener, hu⟩, _⟩, _⟩ := id h
  obtain ⟨hopens, _, hbehind⟩ := hleaves
  have hmembers : w'.members = w.members := hopens.members
  have hpreds : w'.graph.preds = w.graph.preds := hopens.sameBodies.preds
  have hregs : w'.graph.regs = w.graph.regs := hopens.sameBodies.regs
  constructor
  · intro c hc k hown hne
    rw [hmembers] at hc
    rw [hpreds] at hne ⊢
    cases hold : w.graph.owner .interval c with
    | none =>
      -- The interval opened its coarse interval because it is behind the one that is left.
      have hnew : w'.graph.owner .interval c ≠ none := by
        rw [hown]
        exact Option.some_ne_none k
      obtain ⟨p, hp, hpi, hsucc⟩ := hbehind c hold hnew
      have hpc : p ∈ w.graph.preds .interval c := hu.closed.mem_preds hp hsucc
      have hidle := h.idle_leave hopens (hu.idle i rfl).1 (.inl rfl)
      exact ⟨p, hpc, i, hopens.owner_eq hpi, .inr hidle⟩
    | some k₀ =>
      obtain rfl : k₀ = k := Option.some.inj ((hopens.owner_eq hold).symm.trans hown)
      obtain ⟨p, hp, j, hj, hjk⟩ := he.led c hc k₀ hold hne
      have hjmem : j ∈ w.opened := hu.grouped.mem_opened (hu.exists_pred hc hp).1 hj
      exact ⟨p, hp, j, hopens.owner_eq hj, hjk.imp_right fun hidle =>
        h.idle_leave hopens hjmem (.inr hidle)⟩
  · intro k hk hidle n hn hown halone c hc hpred
    rw [hmembers] at hn hc halone
    rw [hpreds] at hpred
    rw [hregs]
    have hold : k ∈ w.opened := by
      by_contra hnew
      exact hidle (hopens.busy_of_new hk hnew)
    have hown₀ := hopens.owner_of_lt (hu.opened_range k hold).2 hown
    have halone₀ : ∀ m ∈ w.members, w.graph.owner .interval m = some k → m = n :=
      fun m hm hm' => halone m hm (hopens.owner_eq hm')
    by_cases hki : k = i
    · subst hki
      refine hscanned n hn hown₀ halone₀ c hc (h.free_of_alone he hn hown₀ halone₀ hc hpred)
        fun p hp => ?_
      rw [(hpred p).mp hp]
      exact hown₀
    · refine he.full k hold (fun hbusy => hidle ?_) n hn hown₀ halone₀ c hc hpred
      rcases hbusy with hk' | ⟨m, hm, hmk⟩
      · exact absurd (Option.some.inj hk').symm hki
      · exact hopens.busy_mono (.inr ⟨m, hm, hmk⟩)

theorem Under.exhausted_move (h : Under base m.1 m.2) (he : Exhausted limits m.1 m.2)
    (hm : IntervalMove limits m m') : Exhausted limits m'.1 m'.2 := by
  cases hm with
  | @take w n rest i hwork hown hroom =>
    have halike := alike_setRegs .interval { w with worklist := rest } i (w.graph.regs .interval n)
    refine he.congr rfl rfl (congrFun halike.preds .interval) halike.owner (fun x hx => ?_)
      (busy_taken hwork hown rfl halike.owner)
    exact regs_setRegs_of_ne ((h.taken hwork hown).ne_current hx) _
  | skip hwork hown hfull =>
    exact he.congr rfl rfl rfl rfl (fun _ _ => rfl) (busy_taken hwork hown rfl rfl)
  | mark marker => exact he.congr rfl rfl rfl rfl (fun _ _ => rfl) rfl
  | fold hn hfold => exact h.exhausted_fold he hn hfold _
  | leave hleaves hscanned => exact h.exhausted_leave he hleaves hscanned

theorem Under.exhausted_moves (h : Under base m.1 m.2) (he : Exhausted limits m.1 m.2)
    (hm : ReflTransGen (IntervalMove limits) m m') : Exhausted limits m'.1 m'.2 := by
  induction hm with
  | refl => exact he
  | tail hpath hstep ih => exact (h.moves hpath).exhausted_move ih hstep

/-! ### The whole pass -/

namespace SecondPass

variable (h : SecondPass budget scope intervals w w₁ limits w₂)

include h

theorem exhausted_start : Exhausted limits none w₁ := by
  constructor
  · -- Only intervals without predecessors have owners.
    intro c hc k hown hne
    rw [h.members.1] at hc
    refine absurd (h.entries c hc ?_) hne
    rw [hown]
    exact Option.some_ne_none k
  · exact fun k hk hidle => absurd (h.busy_start hk) hidle

theorem exhausted : Exhausted limits none w₂ :=
  h.under.exhausted_moves h.exhausted_start h.moves

/-- The limits of a pass are those of its scope. -/
theorem packed_iff (hexist : ∀ i ∈ intervals, i < w.graph.intervals.size)
    (hclosed : (w.graph.net .interval intervals).Closed) :
    Packed limits w.graph intervals ↔ Unfoldable budget scope w.graph intervals := by
  obtain ⟨hbudget, hscope, heverything⟩ := h.limits_eq hexist
  refine forall₂_congr fun c hc => forall₂_congr fun e hpred => ?_
  rw [CoarsenLimits.Full, hbudget, hscope]
  cases scope with
  | ancestors =>
    refine or_iff_left ?_
    rintro ⟨hglobal, _⟩
    injection hglobal
  | global =>
    rw [heverything rfl]
    refine ⟨?_, fun hle => .inr ⟨rfl, hle⟩⟩
    rintro (hle | ⟨_, hle⟩)
    · -- The registers of the two are among those of all.
      have he : e ∈ intervals := hclosed.pred_mem hc ((hpred e).mpr rfl)
      refine Nat.le_trans hle (RegSet.size_le fun r hr => FlowGraph.mem_unionRegs.mpr ?_)
      rcases RegSet.mem_union.mp hr with hr | hr
      · exact ⟨e, he, hr⟩
      · exact ⟨c, hc, hr⟩
    · exact hle

end SecondPass

/-- With as many regions as nodes, every node is alone in its region. -/
theorem Grouped.eq_opener_of_length {net : Net} {owner : Nat → Option IntervalId}
    {opened : List IntervalId} (h : Grouped net owner opener opened)
    (hlen : net.nodes.length ≤ opened.length) {n : Nat} (hn : n ∈ net.nodes)
    (hown : owner n = some i) : n = opener i := by
  have hperm : (opened.map opener).Perm net.nodes := by
    refine h.openers_subperm.perm_of_length_le ?_
    rwa [List.length_map]
  obtain ⟨j, hj, rfl⟩ := List.mem_map.mp (hperm.mem_iff.mpr hn)
  have hji : j = i := Option.some.inj ((h.owner_opener hj).symm.trans hown)
  rw [hji]

/-- If a pass makes as many intervals as it was given, none of these had room for another. -/
theorem Valid.unfoldable_of_length (hv : Valid w.graph intervals)
    (hok : Pass.coarsen budget scope intervals w = .ok coarser w')
    (hlen : intervals.length ≤ coarser.length) : Unfoldable budget scope w.graph intervals := by
  obtain ⟨w₁, limits, w₂, hpass⟩ := hv.secondPass_exists budget scope
  obtain ⟨rfl, _⟩ := hpass.filled hok
  obtain ⟨⟨⟨opener, hu⟩, hs⟩, _⟩ := hpass.under_end
  have hnet : w₂.net .interval = w.graph.net .interval intervals := hpass.net_eq
  have hmembers : w₂.members = intervals := hpass.members.2
  have hregs : ∀ i ∈ intervals, w₂.graph.regs .interval i = w.graph.regs .interval i :=
    fun i hi => hpass.kept.regs i (hv.exist i hi)
  refine (hpass.packed_iff hv.exist hv.closed).mp fun c hc e hpred => ?_
  have he : e ∈ intervals := hv.closed.pred_mem hc ((hpred e).mpr rfl)
  have he₂ : e ∈ w₂.members := hmembers ▸ he
  obtain ⟨k, hk⟩ : ∃ k, w₂.graph.owner .interval e = some k := by
    refine Option.isSome_iff_exists.mp ((hu.owner_isSome_iff hs hpass.idle he₂).mpr ?_)
    rw [hnet]
    exact hv.reachable e he
  have halone : ∀ m ∈ w₂.members, w₂.graph.owner .interval m = some k → m = e := by
    have hlen₂ : (w₂.net .interval).nodes.length ≤ w₂.opened.length := by
      show w₂.members.length ≤ _
      rwa [hmembers]
    intro m hm hm'
    exact (hu.grouped.eq_opener_of_length hlen₂ hm hm').trans
      (hu.grouped.eq_opener_of_length hlen₂ he₂ hk).symm
  -- Nothing waits at the end, so no coarse interval is still to be visited.
  have hidle : ¬ w₂.Busy .interval none k := by
    rintro (hk' | ⟨m, hm, _⟩)
    · injection hk'
    · rw [hpass.idle] at hm
      exact List.not_mem_nil hm
  rw [← hregs e he, ← hregs c hc]
  refine hpass.exhausted.full k (hu.grouped.mem_opened he₂ hk) hidle e he₂ hk halone c
    (hmembers ▸ hc) fun p => ?_
  rw [hpass.kept.preds c (hv.exist c hc)]
  exact hpred p

end KernelIntervals
