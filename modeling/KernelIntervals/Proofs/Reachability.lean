/-
Reachability between intervals.

* `Regrouped.reachable_iff` — an interval is reached from another over edges between intervals
  iff its opener is reached from the opener of the other,
* `BlockGrouper.Opens`, `IntervalGrouper.Opens` — the node that opens an interval in a run,
* `BlockGrouper.opens_iff` — in a first pass that returns intervals it is the opener of a region,
* `Obtained` — the intervals of a first pass, or of coarsening passes over them,
* `Reflects`, `reachability_reflected` — the intervals that a run returns reach each other iff
  the nodes that opened them do.

Design notes: grouping nodes adds paths as a rule, because an edge may lead into a group at
one node and another edge out of it at a node that is not reached from there. Here no path
is added: edges from other intervals lead to the opener, which reaches all other members.
-/
import KernelIntervals.Proofs.Openers

namespace KernelIntervals

open Relation

variable {l : Level} {base budget : Nat} {net : Net} {intervals coarser : List IntervalId}
  {opener : IntervalId → Nat} {g : FlowGraph} {i j : IntervalId} {m n : Nat} {p : BlockGrouper}
  {q : IntervalGrouper} {blocks : List BlockId} {state : LoggedGraph} {ig : IntervalGraph}

/-! ### Paths between openers -/

namespace Regrouped

variable (h : Regrouped l base budget net intervals opener g)

include h

/-- The opener of an interval reaches all of its members. -/
theorem opener_reaches (hn : n ∈ net.nodes) (hown : g.owner l n = some i) :
    ReflTransGen net.Edge (opener i) n :=
  ReflTransGen.mono (fun _ _ hinside => hinside.1) _ _ (h.grouped.connected hn hown)

/-- Along an edge between intervals there is a path between their openers. -/
theorem opener_reaches_of_edge (hi : i ∈ intervals) (hedge : j ∈ g.succs .interval i) :
    ReflTransGen net.Edge (opener i) (opener j) := by
  obtain ⟨n, hn, hni, hji, s, hs, hsj⟩ := (h.succs i hi j).mp hedge
  have hentry : s = opener j :=
    h.classes.eq_entry (h.closed.succ_mem hn hs) hsj (h.closed.mem_preds hn hs) hni hji.symm
  exact (h.opener_reaches hn hni).tail (hentry ▸ hs)

/-- Along a path between intervals there is a path between their openers. -/
theorem opener_reaches_of_path (hi : i ∈ intervals)
    (hpath : ReflTransGen (g.net .interval intervals).Edge i j) :
    j ∈ intervals ∧ ReflTransGen net.Edge (opener i) (opener j) := by
  induction hpath with
  | refl => exact ⟨hi, .refl⟩
  | tail _ hedge ih =>
    obtain ⟨ha, hind⟩ := ih
    have hb := (h.classes.closed h.closed).succ_mem ha hedge
    exact ⟨hb, hind.trans (h.opener_reaches_of_edge ha hedge)⟩

/-- Along a path between nodes there is a path between their intervals. -/
theorem reaches_of_path (hm : net.Reachable m) (hmi : g.owner l m = some i)
    (hpath : ReflTransGen net.Edge m n) : net.Reachable n ∧ ∀ j, g.owner l n = some j →
      ReflTransGen (g.net .interval intervals).Edge i j := by
  induction hpath with
  | refl => exact ⟨hm, fun j hj => Option.some.inj (hmi.symm.trans hj) ▸ .refl⟩
  | @tail a b _ hedge ih =>
    obtain ⟨ha, hind⟩ := ih
    refine ⟨ha.step hedge, fun j hj => ?_⟩
    obtain ⟨k, hk, hak⟩ := h.exists_owner ha
    -- The edge stays in an interval, or is one between two.
    by_cases hjk : j = k
    · exact hjk ▸ hind k hak
    · exact (hind k hak).tail ((h.succs k hk j).mpr ⟨a, ha.mem h.closed, hak, hjk, b, hedge, hj⟩)

/-- Intervals reach each other iff their openers do. -/
theorem reachable_iff (hi : i ∈ intervals) (hj : j ∈ intervals) :
    ReflTransGen (g.net .interval intervals).Edge i j ↔
      ReflTransGen net.Edge (opener i) (opener j) := by
  refine ⟨fun hpath => (h.opener_reaches_of_path hi hpath).2, fun hpath => ?_⟩
  have hmem := h.grouped.opener_mem hi
  have hown := h.grouped.owner_opener hi
  exact (h.reaches_of_path (h.grouped.reachable hmem hown) hown hpath).2 j
    (h.grouped.owner_opener hj)

end Regrouped

/-! ### Runs -/

/-- The block that opens an interval in a run of the first pass. -/
def BlockGrouper.Opens (p : BlockGrouper) (blocks : List BlockId) (state : LoggedGraph)
    (i : IntervalId) (n : BlockId) : Prop :=
  ∃ w, Pass.start .block blocks (state.workspace p.scratch) = .ok () w ∧
    OpenedBy .block (blockVisit p.budget) w i n

/-- The interval that opens a coarse interval in a run of the second pass. -/
def IntervalGrouper.Opens (q : IntervalGrouper) (intervals : List IntervalId)
    (state : LoggedGraph) (i : IntervalId) (n : IntervalId) : Prop :=
  ∃ w limits, Pass.start .interval intervals (state.workspace q.scratch) = .ok () w ∧
    Pass.coarsenLimits q.budget q.scope intervals w = .ok limits w ∧
    OpenedBy .interval (intervalVisit limits) w i n

/-- Each of the nodes of `coarse` is opened by one node of `fine`, and they reach each other
iff these do. -/
structure Reflects (fine coarse : Net) (opens : Nat → Nat → Prop) : Prop where
  opener : ∀ i ∈ coarse.nodes, ∃! n, opens i n
  reachable_iff : ∀ i ∈ coarse.nodes, ∀ j ∈ coarse.nodes, ∀ m n, opens i m → opens j n →
    (ReflTransGen coarse.Edge i j ↔ ReflTransGen fine.Edge m n)

/-- These are the intervals that some first pass has returned, or the last of some passes
over those, one after the other. -/
inductive Obtained : List IntervalId → LoggedGraph → Prop
  | first {p : BlockGrouper} {blocks : List BlockId} {state : LoggedGraph} {ig : IntervalGraph}
      (hnodup : blocks.Nodup) (hrun : (p.run blocks state).result = .ok ig) :
      Obtained ig.intervals (p.run blocks state).state
  | again {q : IntervalGrouper} {intervals coarser : List IntervalId} {state : LoggedGraph}
      (h : Obtained intervals state) (hrun : (q.run intervals state).result = .ok coarser) :
      Obtained coarser (q.run intervals state).state

theorem Regrouped.reflects {opens : Nat → Nat → Prop}
    (h : Regrouped l base budget net intervals opener g)
    (hopens : ∀ i ∈ intervals, ∀ n, opens i n ↔ n = opener i) :
    Reflects net (g.net .interval intervals) opens := by
  refine ⟨fun i hi => ⟨opener i, (hopens i hi _).mpr rfl, fun n hn => (hopens i hi n).mp hn⟩, ?_⟩
  intro i hi j hj m n hm hn
  rw [(hopens i hi m).mp hm, (hopens j hj n).mp hn]
  exact h.reachable_iff hi hj

/-- The block that opened an interval that a run of the first pass returns is the opener of its
region. -/
theorem BlockGrouper.opens_iff {base budget : Nat} (hnodup : blocks.Nodup)
    (hrun : (p.run blocks state).result = .ok ig)
    (hend : Regrouped .block base budget ((p.run blocks state).state.graph.net .block ig.blocks)
      ig.intervals opener (p.run blocks state).state.graph) (hi : i ∈ ig.intervals) :
    p.Opens blocks state i n ↔ n = opener i := by
  obtain ⟨w₁, w₂, hpass, hblocks, hintervals, hsame, _⟩ := run_eq_ok hnodup hrun
  obtain ⟨⟨opener₁, hu₁⟩, _⟩ := id hpass.sound
  obtain ⟨⟨opener₂, hu₂⟩, _⟩ := hpass.sound_end
  have hnet : (p.run blocks state).state.graph.net .block ig.blocks = w₂.net .block :=
    hblocks ▸ FlowGraph.net_block_congr hsame w₂.members
  have howner : (p.run blocks state).state.graph.owner .block = w₂.graph.owner .block :=
    FlowGraph.see_block_congr hsame
  have hi₂ : i ∈ w₂.opened := hintervals ▸ hi
  have hopener : opener₂ i = opener i := by
    have hgrouped := hend.grouped
    rw [hnet, howner, hintervals] at hgrouped
    exact hu₂.grouped.opener_unique hgrouped hu₂.closed hi₂
  have hiff := (blockRounds _ p.budget).openedBy_iff hpass.sound hu₁
    (fun _ hj => hpass.busy_start hj) hpass.looped hu₂ hi₂ (n := n)
  rw [← hopener, ← hiff]
  constructor
  · rintro ⟨w, hw, hopened⟩
    rw [hpass.started] at hw
    injection hw with _ hw
    exact hw ▸ hopened
  · exact fun hopened => ⟨w₁, hpass.started, hopened⟩

/-- A run of the first pass returns intervals that were opened by the openers of their
regions. -/
theorem BlockGrouper.reflects (hnodup : blocks.Nodup)
    (hrun : (p.run blocks state).result = .ok ig) :
    Reflects ((p.run blocks state).state.graph.net .block ig.blocks)
      ((p.run blocks state).state.graph.net .interval ig.intervals) (p.Opens blocks state) := by
  obtain ⟨_, _, _, _, _, _, opener, hend⟩ := run_eq_ok hnodup hrun
  exact hend.reflects fun _ hi _ => BlockGrouper.opens_iff hnodup hrun hend hi

/-- A run of the second pass returns intervals that were opened by the openers of their
regions. -/
theorem IntervalGrouper.reflects (hv : Valid state.graph intervals)
    (hrun : (q.run intervals state).result = .ok coarser) :
    Reflects (state.graph.net .interval intervals)
      ((q.run intervals state).state.graph.net .interval coarser) (q.Opens intervals state) := by
  obtain ⟨w, hok, hgraph⟩ := ofResult_result_eq_ok hrun
  have hgraph : (q.run intervals state).state.graph = w.graph := hgraph
  have hv : Valid (state.workspace q.scratch).graph intervals := hv
  obtain ⟨w₁, limits, w₂, hpass⟩ := hv.secondPass_exists q.budget q.scope
  obtain ⟨⟨⟨opener₁, hu₁⟩, _⟩, _⟩ := id hpass.under
  obtain ⟨⟨⟨opener, hu₂⟩, hs₂⟩, _⟩ := hpass.under_end
  obtain ⟨rfl, hfits, w₃, hf, hgraph₃⟩ := hpass.filled hok
  have hend := hu₂.regrouped hs₂ hpass.idle hfits hf
  rw [hpass.net_eq] at hend
  rw [hgraph, hgraph₃]
  refine hend.reflects fun i hi n => ?_
  have hiff := (intervalRounds _ limits).openedBy_iff hpass.under hu₁
    (fun _ hj => hpass.busy_start hj) hpass.looped hu₂ hi (n := n)
  rw [← hiff]
  constructor
  · rintro ⟨w, limits', hw, hlimits, hopened⟩
    rw [hpass.started] at hw
    injection hw with _ hw
    subst hw
    rw [hpass.limited] at hlimits
    injection hlimits with hlimits
    exact hlimits ▸ hopened
  · exact fun hopened => ⟨w₁, limits, hpass.started, hpass.limited, hopened⟩

/-- The intervals that were obtained can be grouped. -/
theorem Obtained.valid (h : Obtained intervals state) : Valid state.graph intervals := by
  induction h with
  | first hnodup hrun =>
    obtain ⟨_, _, _, _, _, _, opener, hend⟩ := run_eq_ok hnodup hrun
    exact hend.valid
  | @again q intervals coarser state _ hrun ih =>
    have hv : Valid (state.workspace q.scratch).graph intervals := ih
    obtain ⟨w, hok, hgraph⟩ := ofResult_result_eq_ok hrun
    have hgraph : (q.run intervals state).state.graph = w.graph := hgraph
    obtain ⟨_, opener, hend⟩ := hv.coarsen_eq_ok hok
    exact hgraph ▸ hend.valid

/-- The intervals of a first pass reach each other iff the blocks that opened them do, and
those of a pass over obtained intervals iff the intervals that opened them do. -/
theorem reachability_reflected :
    (∀ (p : BlockGrouper) (blocks : List BlockId) (state : LoggedGraph) (ig : IntervalGraph),
      blocks.Nodup → (p.run blocks state).result = .ok ig →
        let g := (p.run blocks state).state.graph
        Reflects (g.net .block ig.blocks) (g.net .interval ig.intervals) (p.Opens blocks state)) ∧
    ∀ (intervals : List IntervalId) (state : LoggedGraph), Obtained intervals state →
      ∀ (q : IntervalGrouper) (coarser : List IntervalId),
        (q.run intervals state).result = .ok coarser →
          Reflects (state.graph.net .interval intervals)
            ((q.run intervals state).state.graph.net .interval coarser)
            (q.Opens intervals state) :=
  ⟨fun _ _ _ _ hnodup hrun => BlockGrouper.reflects hnodup hrun,
    fun _ _ hobtained _ _ hrun => IntervalGrouper.reflects hobtained.valid hrun⟩

/-- Of the three intervals of the first pass, two are grouped into one, and the two that
are left reach each other iff their openers do. -/
theorem reflected_carvedLoops :
    let first := BlockGrouper.run ⟨4, {}⟩ [0, 1, 2] carvedLoops
    let second := IntervalGrouper.run ⟨4, .ancestors, {}⟩ [0, 1, 2] first.state
    [0, 1, 2].Nodup ∧ first.result = .ok ⟨[0, 1, 2, 3], [0, 1, 2]⟩ ∧
    Reflects (first.state.graph.net .block [0, 1, 2, 3])
      (first.state.graph.net .interval [0, 1, 2]) (BlockGrouper.Opens ⟨4, {}⟩ [0, 1, 2] carvedLoops)
      ∧
    Obtained [0, 1, 2] first.state ∧ second.result = .ok [3, 4] ∧
    Reflects (first.state.graph.net .interval [0, 1, 2])
      (second.state.graph.net .interval [3, 4])
      (IntervalGrouper.Opens ⟨4, .ancestors, {}⟩ [0, 1, 2] first.state) := by
  intro first second
  have hobtained : Obtained [0, 1, 2] first.state := .first (by decide) run_carvedLoops
  have hok : second.result = .ok [3, 4] := by decide +kernel
  exact ⟨by decide, run_carvedLoops,
    reachability_reflected.1 ⟨4, {}⟩ [0, 1, 2] carvedLoops _ (by decide) run_carvedLoops,
    hobtained, hok, reachability_reflected.2 [0, 1, 2] first.state hobtained _ _ hok⟩

end KernelIntervals
