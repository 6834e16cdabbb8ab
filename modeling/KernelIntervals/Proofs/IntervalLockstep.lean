/-
Two second passes side by side.

* `CoarsenLimits.Akin` — the limits of two passes correspond,
* `Abreast.footprint`, `Abreast.visitInterval` — second passes that are abreast remain so,
* `coarsenAbreast`, `Kin.releasing` — two second passes over intervals that correspond end alike,
* `fixpointsAbreast` — so do two that are repeated until they no longer help.
-/
import KernelIntervals.Grouping.Fixpoint
import KernelIntervals.Proofs.Lockstep

namespace KernelIntervals

open Function List

/-- The limits of two passes correspond. -/
structure CoarsenLimits.Akin (C : Kinship) (limits limits' : CoarsenLimits) : Prop where
  budget : limits'.budget = limits.budget
  scope : limits'.scope = limits.scope
  everything : C.regs limits.everything limits'.everything

variable {C : Kinship} {p : Program} {w w' : Workspace} {n i : IntervalId}
  {limits limits' : CoarsenLimits} {breaks : Fault → Workspace → Fault → Workspace → Prop}

/-- The registers of intervals that correspond. -/
theorem Kin.regsOf {blocks : List BlockId} {g g' : FlowGraph} {intervals : List IntervalId}
    (hk : Kin C blocks g g') (h : ∀ i ∈ intervals, C.Knows blocks g .interval i) :
    ∃ regs regs', g.regsOf? intervals = some regs ∧
      g'.regsOf? (intervals.map (C.num .interval)) = some regs' ∧ C.regs regs regs' := by
  refine foldlM_agree (R := C.regs) (fun i hi s s' hs => ?_) C.regs_empty
  obtain ⟨v, v', hv, hv', hakin⟩ := hk.interval (h i hi)
  refine ⟨s ∪ v.regs, s' ∪ v'.regs, ?_, ?_, C.regs_union hs hakin.regs⟩
  · rw [hv]
    rfl
  · rw [hv']
    rfl

namespace Abreast

variable (h : Abreast C p .interval w w')

include h

/-! ### Growing -/

theorem scopeRegs {a a' : Node} (hlim : limits.Akin C limits') (i : IntervalId)
    (hn : w.Knows C p .interval n) (hregs : C.regs a.regs a'.regs) :
    Agree (fun held u held' u' => C.regs held held' ∧ Onward C p .interval w u u') breaks
      (Pass.scopeRegs limits i n a w)
      (Pass.scopeRegs limits' (C.num .interval i) (C.num .interval n) a' w') := by
  rw [Pass.scopeRegs, Pass.scopeRegs, hlim.scope]
  cases limits.scope with
  | global => exact agree_pure ⟨hlim.everything, h.onward⟩
  | ancestors =>
    refine Agree.bind ((h.markAncestors hn).mono_ends ?_)
    rintro _ _ _ _ ⟨m, m', hmarks, rfl, rfl⟩
    obtain ⟨above, above', habove, habove', hrel⟩ := h.kin.memberRegs .interval i
      m.isMarked m'.isMarked h.knows fun x hx => hmarks x (h.knows x hx)
    rw [← h.members] at habove'
    refine Agree.bind (Pass.agree_survey habove habove' (agree_pure ?_))
    exact ⟨C.regs_union hregs hrel, h.remark m m'⟩

/-- Whether an interval may be folded does not depend on the pass, and with corresponding
registers of the coarse interval. -/
theorem footprint (hlim : limits.Akin C limits') (hi : C.New w.graph i)
    (hn : w.Knows C p .interval n) :
    Agree (fun regs u regs' u' => Onward C p .interval w u u' ∧ Option.Rel C.regs regs regs') breaks
      (Pass.footprint limits i n w)
      (Pass.footprint limits' (C.num .interval i) (C.num .interval n) w') := by
  obtain ⟨a, a', ha, ha', hakin⟩ := h.kin.node .interval n hn
  refine Agree.bind (Pass.agree_query ha ha' (agree_ite ?_ (fun _ => ?_) fun _ => ?_))
  · rw [hakin.owner, Option.isSome_map]
  · exact agree_pure ⟨h.onward, .none⟩
  obtain ⟨inside, hinside, hinside'⟩ : ∃ b,
      (a.preds.allM fun p => if p = n then some true else w.graph.ownedBy? .interval i p) =
        some b ∧
      ((a.preds.map (C.num .interval)).allM fun p => if p = C.num .interval n then some true
        else w'.graph.ownedBy? .interval (C.num .interval i) p) = some b := by
    refine allM_agree (C.num .interval) a.preds fun p hp => ?_
    by_cases hpn : p = n
    · rw [if_pos hpn, if_pos (congrArg _ hpn)]
      exact ⟨true, rfl, rfl⟩
    · rw [if_neg hpn, if_neg ((C.num_injective .interval).ne hpn)]
      exact h.kin.ownedBy i (hakin.pred_known p hp)
  rw [← hakin.preds] at hinside'
  refine Agree.bind
    (Pass.agree_query hinside hinside' (agree_ite Iff.rfl (fun _ => ?_) fun _ => ?_))
  · exact agree_pure ⟨h.onward, .none⟩
  refine Agree.bind ((h.scopeRegs hlim i hn hakin.regs).mono_ends ?_)
  rintro held u held' u' ⟨hheld, hu⟩
  refine agree_ite ?_ (fun _ => ?_) fun _ => ?_
  · rw [hlim.budget, C.size_eq hheld]
  · exact agree_pure ⟨hu, .none⟩
  obtain ⟨v, v', hv, hv', hvakin⟩ := hu.abreast.kin.interval (hu.new i hi).knows
  have hunion : C.regs (v.regs ∪ a.regs) (v'.regs ∪ a'.regs) :=
    C.regs_union hvakin.regs hakin.regs
  refine Agree.bind (Pass.agree_query hv hv' (agree_ite ?_ (fun _ => ?_) fun _ => ?_))
  · rw [hlim.budget, C.size_eq hunion]
  · exact agree_pure ⟨hu, .none⟩
  · exact agree_pure ⟨hu, .some hunion⟩

/-- An interval is folded into corresponding ones. -/
theorem fold {regs regs' : RegSet} (hi : C.New w.graph i) (hn : w.Knows C p .interval n)
    (hregs : C.regs regs regs') : Onward C p .interval w (w.fold i n regs)
      (w'.fold (C.num .interval i) (C.num .interval n) regs') := by
  have hassign : Kin C p.blocks (w.graph.assign .interval n (some i))
      (w'.graph.assign .interval (C.num .interval n) (some (C.num .interval i))) :=
    h.kin.assign hn fun _ hj => Option.some.inj hj ▸ hi
  have hkin : Kin C p.blocks (w.fold i n regs).graph
      (w'.fold (C.num .interval i) (C.num .interval n) regs').graph := hassign.setRegs i hregs
  have hassigned : Spares C w.graph (w.graph.assign .interval n (some i)) .interval :=
    spares_assign hn (h.lt_extent hn) _
  have hfolded : Spares C (w.graph.assign .interval n (some i)) (w.fold i n regs).graph .interval :=
    spares_modifyInterval _ hi.1 _
  refine h.change hkin rfl rfl rfl rfl rfl rfl ?_ (fun m hm => ?_) (Kept.trans hassigned hfolded)
  · exact (Arena.size_modify ..).trans (Arena.size_modify ..)
  · have howner : (w.fold i n regs).graph.owner .interval =
        (w.graph.assign .interval n (some i)).owner .interval :=
      FlowGraph.see_modifyInterval fun _ => rfl
    rw [howner, FlowGraph.owner_assign _ (h.lt_extent hn)]
    exact owner_update_ne_none fun _ => hm

theorem foldIfAdmitted (hlim : limits.Akin C limits') (hi : C.New w.graph i)
    (hn : w.Knows C p .interval n) : Agree (fun _ u _ u' => Onward C p .interval w u u') breaks
      (Pass.foldIfAdmitted limits i n w)
      (Pass.foldIfAdmitted limits' (C.num .interval i) (C.num .interval n) w') := by
  refine Agree.bind ((h.footprint hlim hi hn).mono_ends ?_)
  rintro _ u _ u' ⟨hu, hregs⟩
  cases hregs with
  | none => exact agree_pure hu
  | some hregs =>
    exact agree_modify (hu.trans (hu.abreast.fold (hu.new i hi) (hu.knows n hn) hregs))

/-- Corresponding coarse intervals are grown by corresponding intervals. -/
theorem growCoarse {regs regs' : RegSet} (hlim : limits.Akin C limits') (hi : C.New w.graph i)
    (hregs : C.regs regs regs') : Agree (fun _ u _ u' => Onward C p .interval w u u') breaks
      (Pass.growCoarse limits i regs w) (Pass.growCoarse limits' (C.num .interval i) regs' w') := by
  refine Agree.bind ((h.setRegs hi hregs).mono_ends fun _ u _ u' hu => Agree.bind (agree_get ?_))
  rw [hu.abreast.members]
  refine hu.agree (Abreast.forM (fun x v v' hv hx => ?_) hu.abreast hu.abreast.knows)
  exact hv.abreast.foldIfAdmitted hlim (hv.new i (hu.new i hi)) hx

/-! ### Visits -/

/-- Corresponding intervals are visited. -/
theorem visitInterval (hlim : limits.Akin C limits') (hn : w.Knows C p .interval n)
    (hown : w.graph.owner .interval n ≠ none) :
    Agree (fun _ u _ u' => Onward C p .interval w u u') breaks (Pass.visitInterval limits n w)
      (Pass.visitInterval limits' (C.num .interval n) w') := by
  obtain ⟨v, v', hv, hv', hakin⟩ := h.kin.interval hn
  obtain ⟨i, hi⟩ := Option.ne_none_iff_exists'.mp hown
  have hlevel : v.nextLevel = some i :=
    (FlowGraph.see_of_interval? hv Node.owner none).symm.trans hi
  have hlevel' : v'.nextLevel = some (C.num .interval i) :=
    hakin.owner.trans (congrArg (Option.map _) hlevel)
  have hnew : C.New w.graph i := hakin.owner_new i hlevel
  refine Agree.bind (Pass.agree_query hv hv' ?_)
  rw [hlevel, hlevel']
  refine agree_ite ?_ (fun _ => Agree.bind ?_) fun _ => h.openFrontier i
  · have hsize : v'.regs.size = v.regs.size := C.size_eq hakin.regs
    rw [hlim.budget, hsize]
  · refine (h.growCoarse hlim hnew hakin.regs).mono_ends fun _ u _ u' hu => ?_
    exact hu.agree (hu.abreast.openFrontier i)

/-- All waiting intervals are visited. -/
theorem drainIntervals (hlim : limits.Akin C limits') :
    Agree (fun _ u _ u' => Abreast C p .interval u u' ∧ u.worklist = []) breaks
      (drain (intervalVisit limits) w) (drain (intervalVisit limits') w') := by
  refine agree_drain (C.num .interval) (fun _ _ hu => hu.worklist) ?_ h
  intro n rest u u' hwork hu
  obtain ⟨hn, hown⟩ := hu.waiting n (hwork ▸ List.mem_cons_self)
  exact ((hu.pop hwork).visitInterval hlim hn hown).mono_ends fun _ _ _ _ hv => hv.abreast

/-! ### The pass -/

theorem coarsenLimits (budget : Nat) (scope : UnionScope) {intervals : List IntervalId}
    (hintervals : ∀ i ∈ intervals, w.Knows C p .interval i) :
    Agree (fun limits u limits' u' => limits.Akin C limits' ∧ Abreast C p .interval u u') breaks
      (Pass.coarsenLimits budget scope intervals w)
      (Pass.coarsenLimits budget scope (intervals.map (C.num .interval)) w') := by
  cases scope with
  | ancestors => exact agree_pure ⟨⟨rfl, rfl, C.regs_empty⟩, h⟩
  | global =>
    obtain ⟨regs, regs', hregs, hregs', hrel⟩ := h.kin.regsOf hintervals
    exact Agree.bind (Pass.agree_query hregs hregs' (agree_pure ⟨⟨rfl, rfl, hrel⟩, h⟩))

end Abreast

/-- What two second passes come to that are abreast when they end well. -/
structure CoarsenedAbreast (C : Kinship) (p : Program) (a : List IntervalId) (u : Workspace)
    (a' : List IntervalId) (u' : Workspace) : Prop where
  kin : Kin C p.blocks u.graph u'.graph
  intervals : a' = a.map (C.num .interval)
  made : ∀ i ∈ a, C.New u.graph i
  kept : Kept C.base C.old p.graph u.graph

/-- Two second passes over graphs that correspond, but for the owners of intervals, end alike. -/
theorem coarsenAbreast {budget : Nat} {intervals : List IntervalId} (hbudget : budget ≠ 0)
    (scope : UnionScope)
    (h : Releasing C p .interval intervals intervals
      { w with members := intervals, opened := [], worklist := [] }
      { w' with members := intervals.map (C.num .interval), opened := [], worklist := [] }) :
    Agree (CoarsenedAbreast C p) (RefusedAbreast C p .interval budget)
      (Pass.coarsen budget scope intervals w)
      (Pass.coarsen budget scope (intervals.map (C.num .interval)) w') := by
  rw [Pass.coarsen, Pass.coarsen, if_neg hbudget, if_neg hbudget]
  have hstart : Agree _ (RefusedAbreast C p .interval budget) _ _ := startsAbreast h
  refine Agree.bind (hstart.mono_ends fun _ u _ u' hu => Agree.bind ?_)
  refine (hu.1.coarsenLimits budget scope hu.2).mono_ends fun limits v limits' v' hv =>
    Agree.bind ?_
  refine (hv.2.drainIntervals hv.1).mono_ends fun _ x _ x' hx => Agree.bind ?_
  refine (hx.1.complete budget).mono_ends fun _ y _ y' hy => .ends ?_
  exact ⟨hy.abreast.kin, hy.abreast.opened, hy.abreast.made, hy.abreast.past⟩

/-- Two second passes over known intervals of graphs that correspond start abreast. -/
theorem Kin.releasing {blocks : List BlockId} {intervals : List IntervalId}
    (hk : Kin C blocks w.graph w'.graph)
    (hintervals : ∀ i ∈ intervals, C.Knows blocks w.graph .interval i) :
    Releasing C ⟨w.graph, blocks⟩ .interval intervals intervals
      { w with members := intervals, opened := [], worklist := [] }
      { w' with members := intervals.map (C.num .interval), opened := [], worklist := [] } :=
  ⟨hk.clear hintervals, ⟨rfl, rfl⟩, ⟨rfl, rfl⟩, ⟨rfl, rfl⟩, hintervals, fun _ => id, .refl ..⟩

/-! ### Fixpoints -/

/-- What two passes came to corresponds. -/
structure Round.Akin (C : Kinship) (blocks : List BlockId) (r r' : Round) : Prop where
  iteration : r'.iteration = r.iteration
  intervals : r'.intervals = r.intervals.map (C.num .interval)
  kin : Kin C blocks r.graph r'.graph

/-- What the passes came to in the end corresponds. -/
structure Fixpoint.Akin (C : Kinship) (blocks : List BlockId) (fp : Fixpoint) (u : Workspace)
    (fp' : Fixpoint) (u' : Workspace) : Prop where
  iterations : fp'.iterations = fp.iterations
  intervals : fp'.intervals = fp.intervals.map (C.num .interval)
  kin : Kin C blocks u.graph u'.graph

/-- Two passes over intervals of graphs that correspond are repeated as often, with what
corresponds in every round, and end alike. -/
theorem fixpointsAbreast {blocks : List BlockId} {budget : Nat} (hbudget : budget ≠ 0)
    (scope : UnionScope) (done : Nat) {intervals : List IntervalId}
    (hk : Kin C blocks w.graph w'.graph)
    (hintervals : ∀ i ∈ intervals, C.Knows blocks w.graph .interval i) :
    let passes := coarsenToFixpoint budget scope (fun _ => none) done intervals w
    let passes' := coarsenToFixpoint budget scope (fun _ => none) done
      (intervals.map (C.num .interval)) w'
    Forall₂ (Round.Akin C blocks) passes.1 passes'.1 ∧
      Agree (Fixpoint.Akin C blocks)
        (fun e u f u' => Kin C blocks u.graph u'.graph ∧ f = e.renumber (C.num .interval))
        passes.2 passes'.2 := by
  dsimp only
  induction hlen : intervals.length using Nat.strongRecOn generalizing done intervals w w'
  next k ih =>
  have hagree := coarsenAbreast hbudget scope (hk.releasing hintervals)
  generalize hpass : Pass.coarsen budget scope intervals w = r at hagree
  generalize hpass' : Pass.coarsen budget scope (intervals.map (C.num .interval)) w' = r' at hagree
  cases hagree with
  | breaks hb =>
    rw [coarsenToFixpoint_eq_error hpass, coarsenToFixpoint_eq_error hpass']
    exact ⟨.nil, .breaks ⟨hb.abreast.kin, hb.renumbered⟩⟩
  | @ends coarser u coarser' u' hc =>
    obtain rfl := hc.intervals
    have hround : Round.Akin C blocks ⟨done + 1, coarser, u.graph⟩
        ⟨done + 1, coarser.map (C.num .interval), u'.graph⟩ := ⟨rfl, rfl, hc.kin⟩
    have hiff : (coarser.map (C.num .interval)).length < (intervals.map (C.num .interval)).length ↔
        coarser.length < intervals.length := by rw [List.length_map, List.length_map]
    by_cases hless : coarser.length < intervals.length
    · rw [coarsenToFixpoint_eq_cons hpass rfl hless,
        coarsenToFixpoint_eq_cons hpass' rfl (hiff.mpr hless)]
      refine And.imp_left (.cons hround) (ih coarser.length (hlen ▸ hless) (done + 1) hc.kin
        (fun i hi => (hc.made i hi).knows) rfl)
    · rw [coarsenToFixpoint_eq_last hpass rfl hless,
        coarsenToFixpoint_eq_last hpass' rfl (mt hiff.mp hless)]
      exact ⟨.cons hround .nil, .ends ⟨rfl, rfl, hc.kin⟩⟩

end KernelIntervals
