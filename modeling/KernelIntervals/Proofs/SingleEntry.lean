/-
The intervals of the first pass have one entry each.

* `SingleEntry` — a node of a region that is the only way into it,
* `Grouped.singleEntry` — the opener of a region is one,
* `SingleEntry.unique` — and there is no other,
* `intervals_singleEntry` — so every interval that a first pass returns has exactly
  one.
-/
import KernelIntervals.Proofs.FirstPass

namespace KernelIntervals

open Relation

/-- The node `e` of the region `i` is the only way into it: all other nodes of the
region have predecessors, all of them in the region, and are reached from `e` inside
it, and what leads to the region from an entry of the net leads through `e`. -/
structure SingleEntry (net : Net) (owner : Nat → Option IntervalId) (i : IntervalId) (e : Nat) :
    Prop where
  mem : e ∈ net.nodes
  owner_eq : owner e = some i
  preds_ne_nil : ∀ n ∈ net.nodes, owner n = some i → n ≠ e → net.preds n ≠ []
  owner_pred : ∀ n ∈ net.nodes, owner n = some i → n ≠ e → ∀ p ∈ net.preds n, owner p = some i
  connected : ∀ n ∈ net.nodes, owner n = some i → ReflTransGen (net.Inside owner i) e n
  dominates : ∀ n ∈ net.nodes, owner n = some i → net.Dominates e n

variable {net : Net} {owner : Nat → Option IntervalId} {opener : IntervalId → Nat}
  {opened : List IntervalId} {i : IntervalId} {e e' : Nat}

/-- The opener of a region is the only way into it. -/
theorem Grouped.singleEntry (h : Grouped net owner opener opened) (hc : net.Closed)
    (hi : i ∈ opened) : SingleEntry net owner i (opener i) where
  mem := h.opener_mem hi
  owner_eq := h.owner_opener hi
  preds_ne_nil := fun _ hn hown hne => h.preds_ne_nil hn hown hne
  owner_pred := fun _ hn hown hne _ hp => h.owner_pred hn hown hne hp
  connected := fun _ hn hown => h.connected hn hown
  dominates := fun _ hn hown => h.opener_dominates hc hn hown

/-- A region has no two ways into it. -/
theorem SingleEntry.unique (h : SingleEntry net owner i e) (h' : SingleEntry net owner i e')
    (hreach : net.Reachable e) : e = e' :=
  (h.dominates e' h'.mem h'.owner_eq).antisymm (h'.dominates e h.mem h.owner_eq) hreach

/-- A region has one opener. -/
theorem Grouped.opener_unique {opener' : IntervalId → Nat}
    (h : Grouped net owner opener opened) (h' : Grouped net owner opener' opened)
    (hc : net.Closed) (hi : i ∈ opened) : opener i = opener' i :=
  (h.singleEntry hc hi).unique (h'.singleEntry hc hi)
    (h.reachable (h.opener_mem hi) (h.owner_opener hi))

/-- Every interval that a first pass returns has exactly one block that is the only
way into it. -/
theorem intervals_singleEntry (p : BlockGrouper) (blocks : List BlockId) (state : LoggedGraph)
    (ig : IntervalGraph) (hnodup : blocks.Nodup) (hrun : (p.run blocks state).result = .ok ig) :
    let g := (p.run blocks state).state.graph
    ∀ i ∈ ig.intervals, ∃! e, SingleEntry (g.net .block ig.blocks) (g.owner .block) i e := by
  intro g i hi
  obtain ⟨_, _, _, _, _, _, opener, hend⟩ := run_eq_ok hnodup hrun
  have hentry := hend.grouped.singleEntry hend.closed hi
  refine ⟨opener i, hentry, fun e he => ?_⟩
  exact (hentry.unique he (hend.grouped.reachable hentry.mem hentry.owner_eq)).symm

theorem singleEntry_carvedLoops :
    [0, 1, 2].Nodup ∧
    (BlockGrouper.run ⟨4, {}⟩ [0, 1, 2] carvedLoops).result = .ok ⟨[0, 1, 2, 3], [0, 1, 2]⟩ ∧
    let g := (BlockGrouper.run ⟨4, {}⟩ [0, 1, 2] carvedLoops).state.graph
    ∀ i ∈ [0, 1, 2], ∃! e, SingleEntry (g.net .block [0, 1, 2, 3]) (g.owner .block) i e :=
  ⟨by decide, run_carvedLoops,
    intervals_singleEntry ⟨4, {}⟩ [0, 1, 2] carvedLoops _ (by decide) run_carvedLoops⟩

end KernelIntervals
