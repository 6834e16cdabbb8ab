/-
What a pass over intervals makes of a list with nothing to fold.

* `Apart` — nodes that have no owner in common,
* `Lone` — every listed interval is alone in its coarse interval, and none has room for
  another,
* `Under.lone_move`, `Under.lone_moves` — every move keeps this,
* `Valid.apart_of_unfoldable` — so over an unfoldable list a pass folds nothing,
* `Copied` — the list that a pass returns is a copy of the one that it was given, with
  the same registers and edges,
* `Valid.copied` — so it is if nothing was folded,
* `Copied.unfoldable` — a copy of an unfoldable list is unfoldable.

Design notes: a pass lists the intervals that it makes in the order in which it opens
them, so a copy is the list up to its order.
-/
import KernelIntervals.Proofs.Unfoldable

namespace KernelIntervals

open Relation

/-- No two of the nodes have one owner. -/
def Apart (nodes : List Nat) (owner : Nat → Option IntervalId) : Prop :=
  ∀ m ∈ nodes, ∀ n ∈ nodes, ∀ k, owner m = some k → owner n = some k → m = n

/-- Every listed interval is alone in its coarse interval, and has no room for one that it
alone is before. -/
structure Lone (limits : CoarsenLimits) (w : Workspace) : Prop where
  packed : Packed limits w.graph w.members
  apart : Apart w.members (w.graph.owner .interval)

/-- The intervals of `coarser` are copies of those of `intervals`, which they are the coarse
intervals of: no two have the same copy, a copy has the registers of its original, and
its edges are those to the copies of the neighbours of its original. -/
structure Copied (g : FlowGraph) (intervals : List IntervalId) (g' : FlowGraph)
    (coarser : List IntervalId) (copy : IntervalId → IntervalId) : Prop where
  owner : ∀ i ∈ intervals, g'.owner .interval i = some (copy i)
  inj : ∀ i ∈ intervals, ∀ j ∈ intervals, copy i = copy j → i = j
  perm : coarser.Perm (intervals.map copy)
  regs : ∀ i ∈ intervals, g'.regs .interval (copy i) = g.regs .interval i
  preds : ∀ i ∈ intervals, ∀ k, k ∈ g'.preds .interval (copy i) ↔
    ∃ p ∈ g.preds .interval i, copy p = k
  succs : ∀ i ∈ intervals, ∀ k, k ∈ g'.succs .interval (copy i) ↔
    ∃ s ∈ g.succs .interval i, copy s = k

variable {base budget : Nat} {w w' w₁ w₂ : Workspace} {m m' : Moment} {scope : UnionScope}
  {limits : CoarsenLimits} {intervals coarser : List IntervalId} {g g' : FlowGraph}
  {copy : IntervalId → IntervalId} {opener : IntervalId → Nat} {i n : IntervalId}

/-! ### Nothing is folded -/

/-- Packed intervals remain so as long as they keep their registers and edges. -/
theorem Packed.congr (h : Packed limits g intervals)
    (hclosed : (g.net .interval intervals).Closed)
    (hregs : ∀ i ∈ intervals, g'.regs .interval i = g.regs .interval i)
    (hpreds : ∀ i ∈ intervals, g'.preds .interval i = g.preds .interval i) :
    Packed limits g' intervals := by
  intro c hc e hpred
  rw [hpreds c hc] at hpred
  have he : e ∈ intervals := hclosed.pred_mem hc ((hpred e).mpr rfl)
  rw [hregs e he, hregs c hc]
  exact h c hc e hpred

/-- If intervals are alone, one that may be folded has one predecessor, and this would have
room for it. -/
theorem Under.not_foldable (h : Under base (some i) w) (hl : Lone limits w)
    (hheld : ∀ m ∈ w.members, w.graph.owner .interval m = some i →
      ∀ r ∈ w.graph.regs .interval m, r ∈ w.graph.regs .interval i)
    (hn : n ∈ w.members) : ¬ Foldable limits i n w.graph := by
  intro hfold
  obtain ⟨⟨⟨opener, hu⟩, hs⟩, _⟩ := id h
  obtain ⟨e, he⟩ := List.exists_mem_of_ne_nil _ (hs.preds_ne_nil hn hfold.free)
  have hemem : e ∈ w.members := (hu.exists_pred hn he).1
  have hown := hfold.preds e he
  refine hfold.room ((hl.packed n hn e fun p => ⟨fun hp => ?_, fun hp => hp ▸ he⟩).mono ?_)
  · exact hl.apart p (hu.exists_pred hn hp).1 e hemem i (hfold.preds p hp) hown
  · intro r hr
    exact RegSet.mem_union.mpr ((RegSet.mem_union.mp hr).imp_left (hheld e hemem hown r))

/-- Opening coarse intervals leaves intervals alone when no visit is going on. -/
theorem Apart.opens (h : Apart w.members (w.graph.owner .interval)) (ho : Opens .interval w w')
    (hlt : ∀ k ∈ w.opened, k < w.graph.intervals.size)
    (hu : Underway .interval base none opener w') :
    Apart w'.members (w'.graph.owner .interval) := by
  intro m hm n hn k hmk hnk
  by_cases hold : k ∈ w.opened
  · rw [ho.members] at hm hn
    exact h m hm n hn k (ho.owner_of_lt (hlt k hold) hmk) (ho.owner_of_lt (hlt k hold) hnk)
  · -- A new coarse interval has one member.
    exact hu.eq_of_busy (ho.busy_of_new (hu.grouped.mem_opened hm hmk) hold) hm hn hmk hnk

theorem Under.lone_move (h : Under base m.1 m.2) (hb : Bounded limits.budget m.1 m.2)
    (hl : Lone limits m.2) (hm : IntervalMove limits m m') : Lone limits m'.2 := by
  have h' := h.move hm
  have hkept := h.kept_move hm
  obtain ⟨⟨⟨opener, hu⟩, _⟩, _⟩ := id h
  obtain ⟨⟨⟨opener', hu'⟩, _⟩, _⟩ := id h'
  have hbelow : ∀ x ∈ m.2.members, x < base := hu.below_base rfl
  constructor
  · rw [hm.members]
    exact hl.packed.congr hu.closed (fun x hx => hkept.regs x (hbelow x hx))
      fun x hx => hkept.preds x (hbelow x hx)
  · cases hm with
    | @take w n rest i hwork hown hroom =>
      have howner := (alike_setRegs .interval { w with worklist := rest } i
        (w.graph.regs .interval n)).owner
      exact (congrArg (Apart w.members) howner).mpr hl.apart
    | skip hwork hown hfull => exact hl.apart
    | mark marker => exact hl.apart
    | fold hn hfold => exact absurd hfold (h.not_foldable hl (hb.held _ rfl).2 hn)
    | leave hleaves hscanned =>
      exact hl.apart.opens hleaves.opens (fun k hk => (hu.opened_range k hk).2) hu'

theorem Under.lone_moves (h : Under base m.1 m.2) (hb : Bounded limits.budget m.1 m.2)
    (hl : Lone limits m.2) (hm : ReflTransGen (IntervalMove limits) m m') : Lone limits m'.2 := by
  induction hm with
  | refl => exact hl
  | tail hpath hstep ih => exact (h.moves hpath).lone_move (h.bounded_moves hb hpath) ih hstep

/-- A pass over an unfoldable list starts with every interval alone. -/
theorem SecondPass.lone_start (h : SecondPass budget scope intervals w w₁ limits w₂)
    (hv : Valid w.graph intervals) (hu : Unfoldable budget scope w.graph intervals) :
    Lone limits w₁ := by
  obtain ⟨w₀, hcleared, hopens⟩ := h.cleared
  obtain ⟨⟨⟨opener, hunder⟩, _⟩, _⟩ := id h.under
  constructor
  · rw [h.members.1]
    refine ((h.packed_iff hv.exist hv.closed).mpr hu).congr hv.closed (fun i _ => ?_) fun i _ => ?_
    · rw [h.regs_start]
    · rw [hopens.sameBodies.preds, hcleared.bodies.preds]
  · intro m hm n hn k hmk hnk
    exact hunder.eq_of_busy (h.busy_start (hunder.grouped.mem_opened hm hmk)) hm hn hmk hnk

/-- A pass over an unfoldable list folds nothing: no two intervals are in one coarse
interval. -/
theorem Valid.apart_of_unfoldable (hv : Valid w.graph intervals)
    (hfits : ∀ i ∈ intervals, Fits budget (w.graph.regs .interval i))
    (hu : Unfoldable budget scope w.graph intervals)
    (hok : Pass.coarsen budget scope intervals w = .ok coarser w') :
    Apart intervals (w'.graph.owner .interval) := by
  obtain ⟨w₁, limits, w₂, hpass⟩ := hv.secondPass_exists budget scope
  obtain ⟨_, _, w₃, hfilled, hgraph⟩ := hpass.filled hok
  have hlone : Lone limits w₂ := hpass.under.lone_moves (hpass.bounded_start hv.exist hfits)
    (hpass.lone_start hv hu) hpass.moves
  rw [hgraph, hfilled.owner_eq, ← hpass.members.2]
  exact hlone.apart

/-! ### Copies -/

/-- If nodes are alone, edges between their owners are edges between them. -/
theorem Apart.exists_near_iff {nodes : List Nat} {owner : Nat → Option IntervalId}
    (h : Apart nodes owner) (howner : ∀ n ∈ nodes, owner n = some (copy n))
    {near : Nat → List Nat} (hnear : ∀ n ∈ nodes, n ∉ near n ∧ ∀ p ∈ near n, p ∈ nodes)
    (hi : i ∈ nodes) (k : IntervalId) :
    (∃ n ∈ nodes, owner n = some (copy i) ∧ k ≠ copy i ∧ ∃ p ∈ near n, owner p = some k) ↔
      ∃ p ∈ near i, copy p = k := by
  obtain ⟨hself, hmem⟩ := hnear i hi
  constructor
  · rintro ⟨n, hn, hni, _, p, hp, hpk⟩
    obtain rfl : n = i := h n hn i hi _ hni (howner i hi)
    exact ⟨p, hp, Option.some.inj ((howner p (hmem p hp)).symm.trans hpk)⟩
  · rintro ⟨p, hp, rfl⟩
    refine ⟨i, hi, howner i hi, fun hpi => ?_, p, hp, howner p (hmem p hp)⟩
    have hpi' : p = i := h p (hmem p hp) i hi _ (hpi ▸ howner p (hmem p hp)) (howner i hi)
    exact hself (hpi' ▸ hp)

/-- A pass that folds nothing makes a copy of every interval. -/
theorem Valid.copied (hv : Valid w.graph intervals)
    (hok : Pass.coarsen budget scope intervals w = .ok coarser w')
    (hapart : Apart intervals (w'.graph.owner .interval)) :
    ∃ copy, Copied w.graph intervals w'.graph coarser copy := by
  obtain ⟨hkept, opener, hend⟩ := hv.coarsen_eq_ok hok
  have howner : ∀ i ∈ intervals, ∃ j ∈ coarser, w'.graph.owner .interval i = some j :=
    fun i hi => hend.exists_owner (hv.reachable i hi)
  choose! copy hmem howner using howner
  have hinj : ∀ i ∈ intervals, ∀ j ∈ intervals, copy i = copy j → i = j := by
    intro i hi j hj hij
    exact hapart i hi j hj (copy i) (howner i hi) (hij ▸ howner j hj)
  refine ⟨copy, howner, hinj, ?_, fun i hi => ?_, fun i hi k => ?_, fun i hi k => ?_⟩
  · refine (List.perm_ext_iff_of_nodup hend.grouped.nodup (hv.nodup.map_on hinj)).mpr fun k => ?_
    rw [List.mem_map]
    constructor
    · intro hk
      have hopener := hend.grouped.opener_mem hk
      refine ⟨opener k, hopener, ?_⟩
      exact Option.some.inj ((howner _ hopener).symm.trans (hend.grouped.owner_opener hk))
    · rintro ⟨i, hi, rfl⟩
      exact hmem i hi
  · refine RegSet.ext_mem fun r => (hend.regs _ (hmem i hi) r).trans ?_
    rw [← hkept.regs i (hv.exist i hi)]
    constructor
    · rintro ⟨n, hn, hni, hr⟩
      rwa [hapart n hn i hi _ hni (howner i hi)] at hr
    · exact fun hr => ⟨i, hi, howner i hi, hr⟩
  · refine (hend.preds _ (hmem i hi) k).trans (hapart.exists_near_iff howner ?_ hi k)
    exact fun n hn => ⟨(hv.loopless n hn).1, fun p hp => hv.closed.pred_mem hn hp⟩
  · refine (hend.succs _ (hmem i hi) k).trans (hapart.exists_near_iff howner ?_ hi k)
    exact fun n hn => ⟨(hv.loopless n hn).2, fun p hp => hv.closed.succ_mem hn hp⟩

/-- A copy is as long as the list. -/
theorem Copied.length_eq (h : Copied g intervals g' coarser copy) :
    coarser.length = intervals.length := by
  rw [h.perm.length_eq, List.length_map]

/-- A copy of an unfoldable list is unfoldable. -/
theorem Copied.unfoldable (h : Copied g intervals g' coarser copy)
    (hclosed : (g.net .interval intervals).Closed) (hu : Unfoldable budget scope g intervals) :
    Unfoldable budget scope g' coarser := by
  intro c' hc' e' hpred
  obtain ⟨c, hc, rfl⟩ := List.mem_map.mp (h.perm.mem_iff.mp hc')
  obtain ⟨e, he, rfl⟩ := (h.preds c hc e').mp ((hpred e').mpr rfl)
  have hmem : ∀ p ∈ g.preds .interval c, p ∈ intervals := fun p hp => hclosed.pred_mem hc hp
  -- The original has one predecessor, because no two have the same copy.
  have hroom := hu c hc e fun p => by
    refine ⟨fun hp => h.inj p (hmem p hp) e (hmem e he) ?_, fun hp => hp ▸ he⟩
    exact (hpred _).mp ((h.preds c hc _).mpr ⟨p, hp, rfl⟩)
  cases scope with
  | ancestors =>
    rw [h.regs e (hmem e he), h.regs c hc]
    exact hroom
  | global =>
    refine Nat.le_trans hroom (RegSet.size_le fun r hr => ?_)
    obtain ⟨i, hi, hr⟩ := FlowGraph.mem_unionRegs.mp hr
    refine FlowGraph.mem_unionRegs.mpr ⟨copy i, ?_, ?_⟩
    · exact h.perm.mem_iff.mpr (List.mem_map_of_mem hi)
    · rw [h.regs i hi]
      exact hr

end KernelIntervals
