/-
When a pass over intervals returns intervals.

* `Bounded` — the registers of every coarse interval stay below the budget, if those of
  the intervals that are grouped do,
* `Under.bounded_move`, `Under.bounded_moves` — every move keeps this,
* `coarsen_isOk_iff` — a pass over a valid list returns intervals iff the registers of
  every listed interval fit,
* `Coarsened` — what it has made of the list then,
* `coarsening_contract` — so it is for the intervals of every first pass, and again for
  those of every pass over them.

Design notes: a coarse interval that was visited before is bounded by some registers, not
by those that it has, because they are noted when it is visited and set again at the end.
-/
import Mathlib.Data.List.Nodup
import KernelIntervals.Proofs.Quotients
import KernelIntervals.Proofs.SecondPass
import KernelIntervals.Proofs.SingleEntry

namespace KernelIntervals

open Function Relation

/-- Every listed interval has registers below the budget, and what the members of a coarse
interval have together is below it too. The coarse interval that is visited has what its
members have. -/
structure Bounded (budget : Nat) (current : Option IntervalId) (w : Workspace) : Prop where
  narrow : ∀ n ∈ w.members, (w.graph.regs .interval n).size < budget
  bound : ∀ k ∈ w.opened, ∃ regs : RegSet, regs.size < budget ∧ ∀ n ∈ w.members,
    w.graph.owner .interval n = some k → ∀ r ∈ w.graph.regs .interval n, r ∈ regs
  held : ∀ i, current = some i → (w.graph.regs .interval i).size < budget ∧ ∀ n ∈ w.members,
    w.graph.owner .interval n = some i →
      ∀ r ∈ w.graph.regs .interval n, r ∈ w.graph.regs .interval i

variable {l : Level} {base budget : Nat} {current : Option IntervalId} {w w' w₁ w₂ : Workspace}
  {m m' : Moment} {n i : IntervalId} {opener : IntervalId → Nat} {scope : UnionScope}
  {limits : CoarsenLimits} {intervals coarser : List IntervalId} {g g' : FlowGraph}

/-! ### Every move keeps the bounds -/

/-- Opening coarse intervals keeps the bounds when no visit is going on. -/
theorem Bounded.opens (hb : Bounded budget none w) (ho : Opens .interval w w')
    (hlt : ∀ k ∈ w.opened, k < w.graph.intervals.size)
    (hu : Underway .interval base none opener w') : Bounded budget none w' := by
  have hmembers := ho.members
  have hregs : w'.graph.regs = w.graph.regs := ho.sameBodies.regs
  refine ⟨?_, fun k hk => ?_, fun i hi => ?_⟩
  · rw [hmembers, hregs]
    exact hb.narrow
  · by_cases hold : k ∈ w.opened
    · obtain ⟨regs, hsize, hbound⟩ := hb.bound k hold
      refine ⟨regs, hsize, fun n hn hown => ?_⟩
      rw [hregs]
      exact hbound n (hmembers ▸ hn) (ho.owner_of_lt (hlt k hold) hown)
    · -- A new coarse interval has one member.
      obtain ⟨n, hn, hown, halone⟩ := hu.alone_of_busy (ho.busy_of_new hk hold)
      refine ⟨w.graph.regs .interval n, hb.narrow n (hmembers ▸ hn), fun m hm hown => ?_⟩
      rw [hregs, halone m hm hown]
      exact fun _ hr => hr
  · injection hi

theorem Bounded.leave (hb : Bounded budget current w) : Bounded budget none w :=
  ⟨hb.narrow, hb.bound, fun _ hi => nomatch hi⟩

/-- The coarse interval of an interval that is taken starts with its registers. -/
theorem Under.bounded_take {rest : List IntervalId} (h : Under base none w)
    (hb : Bounded budget none w) (hwork : w.worklist = n :: rest)
    (hown : w.graph.owner .interval n = some i)
    (hroom : (w.graph.regs .interval n).size < budget) : Bounded budget (some i)
      (Workspace.setRegs { w with worklist := rest } i (w.graph.regs .interval n)) := by
  obtain ⟨j, hn, hj, halone, hunder⟩ := h.pop hwork
  have hij : j = i := Option.some.inj (hj.symm.trans hown)
  subst hij
  generalize hw' : Workspace.setRegs { w with worklist := rest } j (w.graph.regs .interval n) = w'
  have howner : w'.graph.owner .interval = w.graph.owner .interval :=
    hw' ▸ (alike_setRegs .interval { w with worklist := rest } j _).owner
  have hregs : ∀ x ∈ w.members, w'.graph.regs .interval x = w.graph.regs .interval x :=
    fun x hx => hw' ▸ regs_setRegs_of_ne (hunder.ne_current hx) _
  have hself : w'.graph.regs .interval j = w.graph.regs .interval n :=
    hw' ▸ regs_setRegs_self hunder.current_lt _
  have hmembers : w'.members = w.members := hw' ▸ rfl
  have hopened : w'.opened = w.opened := hw' ▸ rfl
  refine ⟨fun x hx => ?_, fun k hk => ?_, fun i hi => ?_⟩
  · rw [hmembers] at hx
    rw [hregs x hx]
    exact hb.narrow x hx
  · obtain ⟨regs, hsize, hbound⟩ := hb.bound k (hopened ▸ hk)
    refine ⟨regs, hsize, fun x hx hx' => ?_⟩
    rw [hmembers] at hx
    rw [hregs x hx]
    exact hbound x hx (howner ▸ hx')
  · injection hi with hi
    rw [← hi, hself]
    refine ⟨hroom, fun x hx hx' => ?_⟩
    rw [hmembers] at hx
    rw [hregs x hx, halone x hx (howner ▸ hx')]
    exact fun _ hr => hr

/-- An interval is only folded into a coarse one that has room for its registers. -/
theorem Under.bounded_fold (h : Under base (some i) w) (hb : Bounded limits.budget (some i) w)
    (hn : n ∈ w.members) (hfold : Foldable limits i n w.graph) :
    Bounded limits.budget (some i)
      (w.fold i n (w.graph.regs .interval i ∪ w.graph.regs .interval n)) := by
  obtain ⟨⟨⟨opener, hu⟩, _⟩, _⟩ := id h
  have hroom : (w.graph.regs .interval i ∪ w.graph.regs .interval n).size < limits.budget :=
    Nat.lt_of_not_le fun hle => hfold.room (.inl hle)
  have hheld : ∀ x ∈ w.members, update (w.graph.owner .interval) n (some i) x = some i →
      ∀ r ∈ w.graph.regs .interval x,
        r ∈ w.graph.regs .interval i ∪ w.graph.regs .interval n := by
    intro x hx hown r hr
    rw [RegSet.mem_union]
    by_cases hxn : x = n
    · exact .inr (hxn ▸ hr)
    · rw [update_of_ne hxn] at hown
      exact .inl ((hb.held i rfl).2 x hx hown r hr)
  generalize w.graph.regs .interval i ∪ w.graph.regs .interval n = regs at hroom hheld
  have howner := owner_fold (i := i) (hu.exists_node n hn) regs
  have hregs : ∀ x ∈ w.members,
      (w.fold i n regs).graph.regs .interval x = w.graph.regs .interval x :=
    fun x hx => regs_fold_of_ne (h.ne_current hx) _
  refine ⟨fun x hx => ?_, fun k hk => ?_, fun j hj => ?_⟩
  · rw [hregs x hx]
    exact hb.narrow x hx
  · by_cases hik : i = k
    · refine ⟨regs, hroom, fun x hx hown => ?_⟩
      rw [howner, ← hik] at hown
      rw [hregs x hx]
      exact hheld x hx hown
    · obtain ⟨regs', hsize, hbound⟩ := hb.bound k hk
      refine ⟨regs', hsize, fun x hx hown => ?_⟩
      rw [howner, owner_update_iff hfold.free hik] at hown
      rw [hregs x hx]
      exact hbound x hx hown
  · injection hj with hj
    subst hj
    rw [regs_fold_self h.current_lt, howner]
    refine ⟨hroom, fun x hx hown => ?_⟩
    rw [hregs x hx]
    exact hheld x hx hown

theorem Under.bounded_move (h : Under base m.1 m.2) (hb : Bounded limits.budget m.1 m.2)
    (hm : IntervalMove limits m m') : Bounded limits.budget m'.1 m'.2 := by
  have h' := h.move hm
  cases hm with
  | take hwork hown hroom => exact h.bounded_take hb hwork hown hroom
  | skip hwork hown hfull =>
    obtain ⟨_, hn, _⟩ := h.pop hwork
    exact absurd (hb.narrow _ hn) (Nat.not_lt.mpr hfull)
  | mark marker => exact ⟨hb.narrow, hb.bound, hb.held⟩
  | fold hn hfold => exact h.bounded_fold hb hn hfold
  | leave hleaves hscanned =>
    obtain ⟨⟨⟨opener, hu⟩, _⟩, _⟩ := id h
    obtain ⟨⟨⟨opener', hu'⟩, _⟩, _⟩ := id h'
    exact hb.leave.opens hleaves.opens (fun k hk => (hu.opened_range k hk).2) hu'

theorem Under.bounded_moves (h : Under base m.1 m.2) (hb : Bounded limits.budget m.1 m.2)
    (hm : ReflTransGen (IntervalMove limits) m m') : Bounded limits.budget m'.1 m'.2 := by
  induction hm with
  | refl => exact hb
  | tail hpath hstep ih => exact (h.moves hpath).bounded_move ih hstep

/-! ### When a pass returns intervals -/

theorem Fits.mono {regs regs' : RegSet} (h : Fits budget regs') (hsub : ∀ r ∈ regs, r ∈ regs') :
    Fits budget regs :=
  ⟨Nat.lt_of_le_of_lt (RegSet.size_le hsub) h.1, fun r hr => h.2 r (hsub r hr)⟩

namespace SecondPass

variable (h : SecondPass budget scope intervals w w₁ limits w₂)
  (hexist : ∀ i ∈ intervals, i < w.graph.intervals.size)
  (hfits : ∀ i ∈ intervals, Fits budget (w.graph.regs .interval i))

include h hexist hfits

theorem bounded_start : Bounded limits.budget none w₁ := by
  obtain ⟨w₀, hcleared, hopens⟩ := h.cleared
  obtain ⟨⟨⟨opener, hu⟩, _⟩, _⟩ := h.under
  have hbudget := (h.limits_eq hexist).1
  -- Before coarse intervals are opened there is nothing to bound but the registers.
  have hb : Bounded limits.budget none w₀ := by
    refine ⟨fun n hn => ?_, fun k hk => ?_, fun i hi => ?_⟩
    · rw [hcleared.members] at hn
      rw [hcleared.bodies.regs, hbudget]
      exact (hfits n hn).1
    · rw [hcleared.opened] at hk
      exact absurd hk List.not_mem_nil
    · injection hi
  refine hb.opens hopens (fun k hk => ?_) hu
  rw [hcleared.opened] at hk
  exact absurd hk List.not_mem_nil

theorem bounded : Bounded limits.budget none w₂ :=
  h.under.bounded_moves (h.bounded_start hexist hfits) h.moves

/-- The registers of all coarse intervals fit at the end. -/
theorem fits : ∀ k ∈ w₂.opened, Fits budget (w₂.summaryOf .interval k).regs := by
  intro k hk
  obtain ⟨regs, hsize, hbound⟩ := (h.bounded hexist hfits).bound k hk
  rw [(h.limits_eq hexist).1] at hsize
  constructor
  · refine Nat.lt_of_le_of_lt (RegSet.size_le fun r hr => ?_) hsize
    obtain ⟨n, hn, hown, hr⟩ := FlowGraph.mem_regs_summaryOf.mp hr
    exact hbound n hn hown r hr
  · intro r hr
    obtain ⟨n, hn, _, hr⟩ := FlowGraph.mem_regs_summaryOf.mp hr
    rw [h.members.2] at hn
    rw [h.kept.regs n (hexist n hn)] at hr
    exact (hfits n hn).2 r hr

/-- The pass returns intervals if the registers of all listed ones fit. -/
theorem coarsen_ok (hbudget : budget ≠ 0) :
    ∃ coarser w', Pass.coarsen budget scope intervals w = .ok coarser w' := by
  have hcompletion := h.completion
  have hfits₂ := h.fits hexist hfits
  rw [h.coarsen_eq hbudget]
  generalize Pass.complete .interval budget w₂ = r at hcompletion
  cases hcompletion with
  | filled _ _ => exact ⟨_, _, rfl⟩
  | outOfRange hi hwide =>
    obtain ⟨r, hr, hle⟩ := hwide
    exact absurd ((hfits₂ _ hi).2 r hr) (Nat.not_lt.mpr hle)
  | overBudget hi hover => exact absurd (hfits₂ _ hi).1 (Nat.not_lt.mpr hover)

end SecondPass

namespace Valid

variable (hv : Valid w.graph intervals)

include hv

theorem secondPass_exists (budget : Nat) (scope : UnionScope) :
    ∃ w₁ limits w₂, SecondPass budget scope intervals w w₁ limits w₂ :=
  KernelIntervals.secondPass_exists budget scope hv.exist hv.nodup hv.closed
    fun i hi => (hv.loopless i hi).1

theorem coarsen_eq_ok (h : Pass.coarsen budget scope intervals w = .ok coarser w') :
    Kept w.graph.intervals.size intervals w.graph w'.graph ∧
      ∃ opener, Regrouped .interval w.graph.intervals.size budget
        (w.graph.net .interval intervals) coarser opener w'.graph :=
  KernelIntervals.coarsen_eq_ok hv.exist hv.nodup hv.closed (fun i hi => (hv.loopless i hi).1) h

/-- A pass over a valid list returns intervals iff the registers of all listed intervals
fit. -/
theorem coarsen_isOk_iff (scope : UnionScope) (hbudget : 1 ≤ budget) :
    (∃ coarser w', Pass.coarsen budget scope intervals w = .ok coarser w') ↔
      ∀ i ∈ intervals, Fits budget (w.graph.regs .interval i) := by
  constructor
  · rintro ⟨coarser, w', hok⟩ i hi
    obtain ⟨hkept, opener, hend⟩ := hv.coarsen_eq_ok hok
    -- The interval is reachable, so some coarse one has its registers.
    obtain ⟨j, hmem, hj⟩ := hend.exists_owner (hv.reachable i hi)
    refine (hend.fits j hmem).mono fun r hr => (hend.regs j hmem r).mpr ⟨i, hi, hj, ?_⟩
    rw [hkept.regs i (hv.exist i hi)]
    exact hr
  · intro hfits
    obtain ⟨w₁, limits, w₂, hpass⟩ := hv.secondPass_exists budget scope
    exact hpass.coarsen_ok hv.exist hfits (Nat.ne_of_gt hbudget)

end Valid

/-- The intervals have only registers of some set. -/
def Within (s : RegSet) (g : FlowGraph) (intervals : List IntervalId) : Prop :=
  ∀ i ∈ intervals, ∀ r ∈ g.regs .interval i, r ∈ s

/-- A pass brings in no registers. -/
theorem Valid.within {s : RegSet} (hv : Valid w.graph intervals)
    (hok : Pass.coarsen budget scope intervals w = .ok coarser w')
    (hs : Within s w.graph intervals) : Within s w'.graph coarser := by
  obtain ⟨hkept, opener, hend⟩ := hv.coarsen_eq_ok hok
  intro j hj r hr
  obtain ⟨i, hi, _, hr⟩ := (hend.regs j hj r).mp hr
  rw [hkept.regs i (hv.exist i hi)] at hr
  exact hs i hi r hr

/-! ### What a pass makes of a valid list -/

/-- The listed intervals of `g` keep their edges in `g'`, and are grouped there into the
intervals of `coarser`, which can be grouped again. -/
structure Coarsened (g : FlowGraph) (intervals : List IntervalId) (g' : FlowGraph)
    (coarser : List IntervalId) : Prop where
  edges : ∀ i ∈ intervals, g'.preds .interval i = g.preds .interval i ∧
    g'.succs .interval i = g.succs .interval i
  owner : ∀ i ∈ intervals, ∃! j, j ∈ coarser ∧ g'.owner .interval i = some j
  exists_member : ∀ j ∈ coarser, ∃ i ∈ intervals, g'.owner .interval i = some j
  length_le : coarser.length ≤ intervals.length
  entry : ∀ j ∈ coarser, ∃! e,
    SingleEntry (g.net .interval intervals) (g'.owner .interval) j e
  valid : Valid g' coarser

/-- The openers of regions are as many different nodes. -/
theorem Grouped.openers_subperm {net : Net} {owner : Nat → Option IntervalId}
    {opened : List IntervalId} (h : Grouped net owner opener opened) :
    (opened.map opener).Subperm net.nodes := by
  refine List.Nodup.subperm ?_ fun n hn => ?_
  · refine List.Nodup.map_on (fun i hi j hj hij => ?_) h.nodup
    have hi' := h.owner_opener hi
    rw [hij, h.owner_opener hj] at hi'
    exact (Option.some.inj hi').symm
  · obtain ⟨i, hi, rfl⟩ := List.mem_map.mp hn
    exact h.opener_mem hi

theorem Valid.coarsened (hv : Valid w.graph intervals)
    (h : Pass.coarsen budget scope intervals w = .ok coarser w') :
    Coarsened w.graph intervals w'.graph coarser := by
  obtain ⟨hkept, opener, hend⟩ := hv.coarsen_eq_ok h
  refine ⟨fun i hi => ?_, fun i hi => ?_, fun j hj => ?_, ?_, fun j hj => ?_, hend.valid⟩
  · exact ⟨hkept.preds i (hv.exist i hi), hkept.succs i (hv.exist i hi)⟩
  · obtain ⟨j, hmem, hj⟩ := hend.exists_owner (hv.reachable i hi)
    refine ⟨j, ⟨hmem, hj⟩, fun k hk => ?_⟩
    exact Option.some.inj (hk.2.symm.trans hj)
  · exact ⟨opener j, hend.grouped.opener_mem hj, hend.grouped.owner_opener hj⟩
  · have hle := hend.grouped.openers_subperm.length_le
    rwa [List.length_map] at hle
  · have hentry := hend.grouped.singleEntry hend.closed hj
    refine ⟨opener j, hentry, fun e he => ?_⟩
    exact (hentry.unique he (hend.grouped.reachable hentry.mem hentry.owner_eq)).symm

/-! ### The contract of the second pass -/

theorem ofResult_isOk_iff {α : Type} {r : EStateM.Result Fault Workspace α} :
    (∃ a, (Outcome.ofResult r).result = .ok a) ↔ ∃ a w, r = .ok a w := by
  constructor
  · rintro ⟨a, ha⟩
    obtain ⟨w, hw, _⟩ := ofResult_result_eq_ok ha
    exact ⟨a, w, hw⟩
  · rintro ⟨a, w, rfl⟩
    exact ⟨a, rfl⟩

/-- The intervals of a first pass are a valid list. A pass over a valid list returns
intervals iff the registers of all listed intervals fit, and then these are a valid list
again, of groups with one entry each. -/
theorem coarsening_contract :
    (∀ (p : BlockGrouper) (blocks : List BlockId) (state : LoggedGraph) (ig : IntervalGraph),
      blocks.Nodup → (p.run blocks state).result = .ok ig →
        Valid (p.run blocks state).state.graph ig.intervals) ∧
    ∀ (q : IntervalGrouper) (intervals : List IntervalId) (state : LoggedGraph),
      1 ≤ q.budget → Valid state.graph intervals →
        ((∃ coarser, (q.run intervals state).result = .ok coarser) ↔
          ∀ i ∈ intervals, Fits q.budget (state.graph.regs .interval i)) ∧
        ∀ coarser, (q.run intervals state).result = .ok coarser →
          Coarsened state.graph intervals (q.run intervals state).state.graph coarser := by
  refine ⟨fun p blocks state ig hnodup hrun => ?_, fun q intervals state hbudget hv => ?_⟩
  · obtain ⟨_, _, _, _, _, _, opener, hend⟩ := run_eq_ok hnodup hrun
    exact hend.valid
  · have hv : Valid (state.workspace q.scratch).graph intervals := hv
    refine ⟨ofResult_isOk_iff.trans (hv.coarsen_isOk_iff q.scope hbudget), fun coarser hrun => ?_⟩
    obtain ⟨w, hok, hgraph⟩ := ofResult_result_eq_ok hrun
    have hgraph : (q.run intervals state).state.graph = w.graph := hgraph
    rw [hgraph]
    exact hv.coarsened hok

/-- Of the three intervals of the first pass, two are grouped into one. -/
theorem contract_carvedLoops :
    let state := (BlockGrouper.run ⟨4, {}⟩ [0, 1, 2] carvedLoops).state
    let outcome := IntervalGrouper.run ⟨4, .ancestors, {}⟩ [0, 1, 2] state
    Valid state.graph [0, 1, 2] ∧
    ((∃ coarser, outcome.result = .ok coarser) ↔
      ∀ i ∈ [0, 1, 2], Fits 4 (state.graph.regs .interval i)) ∧
    outcome.result = .ok [3, 4] ∧
    Coarsened state.graph [0, 1, 2] outcome.state.graph [3, 4] := by
  intro state outcome
  have hvalid : Valid state.graph [0, 1, 2] :=
    coarsening_contract.1 ⟨4, {}⟩ [0, 1, 2] carvedLoops ⟨[0, 1, 2, 3], [0, 1, 2]⟩ (by decide)
      run_carvedLoops
  have hok : outcome.result = .ok [3, 4] := by decide +kernel
  obtain ⟨hiff, hcoarsened⟩ := coarsening_contract.2 ⟨4, .ancestors, {}⟩ [0, 1, 2] state
    (by decide) hvalid
  exact ⟨hvalid, hiff, hok, hcoarsened _ hok⟩

end KernelIntervals
