/-
The net that the regions of another net form.

* `Classes` — the reachable nodes of a net are in classes with one entry each, and these
  classes have the edges between their nodes,
* `Classes.closed`, `Classes.loopless`, `Classes.reachable` — then the classes form a
  closed net, no class follows itself, and each is reachable,
* `Valid` — a list of intervals that a pass over intervals can group,
* `Regrouped.valid` — the intervals that a pass of either level makes form such a list.

Design notes: a class may have nodes behind unreachable ones, which are in no class, so
the entries of classes are told from the other nodes by the predecessors that have a
class.
-/
import KernelIntervals.Proofs.Regrouped

namespace KernelIntervals

open Relation

/-- The reachable nodes of a net are in the classes that are the nodes of `coarse`: `ψ`
tells the class of a node, and `entry` the only node of a class that edges from other
classes lead to. -/
structure Classes (net : Net) (ψ : Nat → Option Nat) (entry : Nat → Nat) (coarse : Net) :
    Prop where
  isSome_iff : ∀ n ∈ net.nodes, (ψ n).isSome ↔ net.Reachable n
  mem : ∀ n ∈ net.nodes, ∀ i, ψ n = some i → i ∈ coarse.nodes
  entry_mem : ∀ i ∈ coarse.nodes, entry i ∈ net.nodes ∧ ψ (entry i) = some i
  entry_only : ∀ n ∈ net.nodes, ∀ i, ψ n = some i → n ≠ entry i →
    net.preds n ≠ [] ∧ ∀ p ∈ net.preds n, ψ p = some i ∨ ψ p = none
  preds : ∀ i ∈ coarse.nodes, ∀ j, j ∈ coarse.preds i ↔
    ∃ n ∈ net.nodes, ψ n = some i ∧ j ≠ i ∧ ∃ p ∈ net.preds n, ψ p = some j
  succs : ∀ i ∈ coarse.nodes, ∀ j, j ∈ coarse.succs i ↔
    ∃ n ∈ net.nodes, ψ n = some i ∧ j ≠ i ∧ ∃ s ∈ net.succs n, ψ s = some j

namespace Classes

variable {net coarse : Net} {ψ : Nat → Option Nat} {entry : Nat → Nat} {n i j : Nat}
  (h : Classes net ψ entry coarse)

include h

/-- The classes with their edges form a closed net. -/
theorem closed (hc : net.Closed) : coarse.Closed where
  succ_mem := by
    intro i j hi hj
    obtain ⟨n, hn, _, _, s, hs, hsj⟩ := (h.succs i hi j).mp hj
    exact h.mem s (hc.succ_mem hn hs) j hsj
  mem_preds := by
    intro i j hi hj
    obtain ⟨n, hn, hni, hji, s, hs, hsj⟩ := (h.succs i hi j).mp hj
    have hs' := hc.succ_mem hn hs
    exact (h.preds j (h.mem s hs' j hsj) i).mpr
      ⟨s, hs', hsj, hji.symm, n, hc.mem_preds hn hs, hni⟩
  pred_mem := by
    intro i j hi hj
    obtain ⟨n, hn, _, _, p, hp, hpj⟩ := (h.preds i hi j).mp hj
    exact h.mem p (hc.pred_mem hn hp) j hpj
  mem_succs := by
    intro i j hi hj
    obtain ⟨n, hn, hni, hji, p, hp, hpj⟩ := (h.preds i hi j).mp hj
    have hp' := hc.pred_mem hn hp
    exact (h.succs j (h.mem p hp' j hpj) i).mpr
      ⟨p, hp', hpj, hji.symm, n, hc.mem_succs hn hp, hni⟩

theorem loopless (hi : i ∈ coarse.nodes) : i ∉ coarse.preds i := by
  intro hmem
  obtain ⟨_, _, _, hne, _⟩ := (h.preds i hi i).mp hmem
  exact hne rfl

/-- An edge from another class leads to the entry. -/
theorem eq_entry (hn : n ∈ net.nodes) (hni : ψ n = some i) {p : Nat} (hp : p ∈ net.preds n)
    (hpj : ψ p = some j) (hne : j ≠ i) : n = entry i := by
  by_contra hentry
  rcases (h.entry_only n hn i hni hentry).2 p hp with hpi | hpn
  · exact hne (Option.some.inj (hpj.symm.trans hpi))
  · rw [hpn] at hpj
    injection hpj

/-- The class of a reachable node is reachable. -/
theorem reachable (hc : net.Closed) (hreach : net.Reachable n) :
    ∀ i, ψ n = some i → coarse.Reachable i := by
  refine hreach.induction (P := fun n => ∀ i, ψ n = some i → coarse.Reachable i) ?_ ?_
  · rintro r ⟨hr, hnil⟩ i hri
    have hi := h.mem r hr i hri
    have hentry : r = entry i := by
      by_contra hne
      exact (h.entry_only r hr i hri hne).1 hnil
    refine Net.IsEntry.reachable ⟨hi, List.eq_nil_iff_forall_not_mem.mpr fun j hj => ?_⟩
    obtain ⟨n, hn, hni, hji, p, hp, hpj⟩ := (h.preds i hi j).mp hj
    rw [h.eq_entry hn hni hp hpj hji, ← hentry, hnil] at hp
    exact List.not_mem_nil hp
  · intro a b ha hind hedge i hbi
    -- An edge between nodes stays in a class or is an edge between two.
    obtain ⟨ia, hia⟩ := Option.isSome_iff_exists.mp ((h.isSome_iff a (ha.mem hc)).mpr ha)
    by_cases hne : i = ia
    · exact hind i (hne ▸ hia)
    · refine (hind ia hia).step ?_
      exact (h.succs ia (h.mem a (ha.mem hc) ia hia) i).mpr
        ⟨a, ha.mem hc, hia, hne, b, hedge, hbi⟩

/-- Every class is reachable, as its entry is. -/
theorem reachable_of_mem (hc : net.Closed) (hi : i ∈ coarse.nodes) : coarse.Reachable i := by
  obtain ⟨hmem, hentry⟩ := h.entry_mem i hi
  refine h.reachable hc ((h.isSome_iff _ hmem).mp ?_) i hentry
  rw [hentry]
  rfl

end Classes

/-! ### Intervals that can be grouped -/

/-- The listed intervals exist, are distinct and form a closed net, in which none is its
own neighbour and each can be reached from one without predecessors. -/
structure Valid (g : FlowGraph) (intervals : List IntervalId) : Prop where
  exist : ∀ i ∈ intervals, i < g.intervals.size
  nodup : intervals.Nodup
  closed : (g.net .interval intervals).Closed
  loopless : ∀ i ∈ intervals, i ∉ g.preds .interval i ∧ i ∉ g.succs .interval i
  reachable : ∀ i ∈ intervals, (g.net .interval intervals).Reachable i

variable {l : Level} {base budget : Nat} {net : Net} {intervals : List IntervalId}
  {opener : IntervalId → Nat} {g : FlowGraph}

theorem Regrouped.classes (h : Regrouped l base budget net intervals opener g) :
    Classes net (g.owner l) opener (g.net .interval intervals) where
  isSome_iff := h.owner_isSome_iff
  mem := fun _ hn _ hown => h.grouped.mem_opened hn hown
  entry_mem := fun _ hi => ⟨h.grouped.opener_mem hi, h.grouped.owner_opener hi⟩
  entry_only := fun _ hn _ hown hne => ⟨h.grouped.preds_ne_nil hn hown hne,
    fun _ hp => .inl (h.grouped.owner_pred hn hown hne hp)⟩
  preds := h.preds
  succs := h.succs

/-- The intervals that a pass has made can be grouped. -/
theorem Regrouped.valid (h : Regrouped l base budget net intervals opener g) :
    Valid g intervals where
  exist := fun i hi => (h.range i hi).2
  nodup := h.grouped.nodup
  closed := h.classes.closed h.closed
  loopless := fun i hi => by
    have hpreds := h.classes.loopless hi
    exact ⟨hpreds, fun hsucc => hpreds ((h.classes.closed h.closed).mem_preds hi hsucc)⟩
  reachable := fun _ hi => h.classes.reachable_of_mem h.closed hi

end KernelIntervals
