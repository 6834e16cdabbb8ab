/-
How the regions of a pass grow.

* `Regions` — a net with the regions that were made in it so far, and their openers,
* `Growth` — a single change: a free node starts a region, a free node joins one, or a
  node is cut in two,
* `Grown` — any number of changes, one after the other,
* `Grown.opener_eq` — regions keep their openers,
* `GoesOn` — a pass that is under way is still so later on, and its regions have grown,
* `Underway.grows_openGroup`, `Underway.grows_assign` — a pass grows its regions so.

Design notes: both passes change their regions in these three ways only, whatever else
they do to registers, marks and the log. What holds of all groupings that come about so
is shown for `Growth`, and holds for both.
-/
import KernelIntervals.Proofs.Opening

namespace KernelIntervals

open Function Relation

/-- A net, and the regions that were made in it so far with their openers. -/
structure Regions where
  net : Net
  owner : Nat → Option IntervalId
  opener : IntervalId → Nat
  opened : List IntervalId

/-- A single change of the regions of a net. -/
inductive Growth : Regions → Regions → Prop
  /-- A reachable free node starts a region. -/
  | start {r : Regions} {n : Nat} {i : IntervalId} (hn : n ∈ r.net.nodes)
      (hfree : r.owner n = none) (hi : i ∉ r.opened) (hreach : r.net.Reachable n) :
      Growth r ⟨r.net, update r.owner n (some i), update r.opener i n, r.opened ++ [i]⟩
  /-- A free node joins the region that all its predecessors are in. -/
  | join {r : Regions} {n : Nat} {i : IntervalId} (hn : n ∈ r.net.nodes)
      (hfree : r.owner n = none) (hi : i ∈ r.opened) (hne : r.net.preds n ≠ [])
      (hpreds : ∀ p ∈ r.net.preds n, r.owner p = some i) :
      Growth r { r with owner := update r.owner n (some i) }
  /-- A node is cut in two that none behind it shares a region with, openers apart. -/
  | cut {r : Regions} {head tail : Nat} (hhead : head ∈ r.net.nodes)
      (htail : tail ∉ r.net.nodes) (hnone : r.owner tail = none)
      (hbehind : ∀ x ∈ r.net.nodes, head ∈ r.net.preds x → ∀ j, r.owner x = some j →
        x = r.opener j) :
      Growth r { r with net := r.net.cut head tail }

/-- Changes of the regions of a net, one after the other. -/
def Grown : Regions → Regions → Prop := ReflTransGen Growth

variable {r r' : Regions} {n : Nat} {i j : IntervalId}

/-! ### What growth keeps -/

/-- The net is closed, and its regions have one entry each. -/
structure Regions.Proper (r : Regions) : Prop where
  closed : r.net.Closed
  grouped : Grouped r.net r.owner r.opener r.opened

theorem Growth.proper (h : Growth r r') (hr : r.Proper) : r'.Proper := by
  cases h with
  | start hn hfree hi hreach => exact ⟨hr.closed, hr.grouped.start hn hfree hi hreach⟩
  | join hn hfree hi hne hpreds =>
    exact ⟨hr.closed, hr.grouped.join hr.closed hn hfree hi hne hpreds⟩
  | cut hhead htail hnone hbehind =>
    exact ⟨Net.closed_cut hr.closed hhead htail,
      hr.grouped.cut hr.closed hhead htail hnone hbehind⟩

/-- Regions stay, with their openers. -/
theorem Growth.opener_eq (h : Growth r r') (hi : i ∈ r.opened) :
    i ∈ r'.opened ∧ r'.opener i = r.opener i := by
  cases h with
  | start hn hfree hi' hreach =>
    exact ⟨List.mem_append_left _ hi, update_of_ne (ne_of_mem_of_not_mem hi hi') _ _⟩
  | join => exact ⟨hi, rfl⟩
  | cut => exact ⟨hi, rfl⟩

namespace Grown

theorem proper (h : Grown r r') (hr : r.Proper) : r'.Proper := by
  induction h with
  | refl => exact hr
  | tail _ hstep ih => exact hstep.proper ih

theorem opener_eq (h : Grown r r') (hi : i ∈ r.opened) :
    i ∈ r'.opened ∧ r'.opener i = r.opener i := by
  induction h with
  | refl => exact ⟨hi, rfl⟩
  | tail _ hstep ih =>
    obtain ⟨hmem, heq⟩ := hstep.opener_eq ih.1
    exact ⟨hmem, heq.trans ih.2⟩

end Grown

/-! ### The regions of a pass -/

/-- The regions of a pass, with their openers. -/
def Workspace.regions (w : Workspace) (l : Level) (opener : IntervalId → Nat) : Regions :=
  ⟨w.net l, w.graph.owner l, opener, w.opened⟩

variable {l : Level} {base : Nat} {current : Option IntervalId} {opener : IntervalId → Nat}
  {w w' w'' : Workspace}

theorem Underway.proper (h : Underway l base current opener w) : (w.regions l opener).Proper :=
  ⟨h.closed, h.grouped⟩

theorem Alike.regions (h : Alike l w w') : w'.regions l opener = w.regions l opener := by
  rw [Workspace.regions, Workspace.regions, h.net, h.owner, h.opened]

/-- From `w` on, where its regions had the openers `opener`, a pass has gone on to `w'`. -/
structure GoesOn (l : Level) (base : Nat) (opener : IntervalId → Nat) (w : Workspace)
    (current : Option IntervalId) (w' : Workspace) : Prop where
  grown : ∃ opener', Underway l base current opener' w' ∧
    Grown (w.regions l opener) (w'.regions l opener')
  seeded : Seeded l w'

theorem Underway.goesOn (h : Underway l base current opener w) (hs : Seeded l w) :
    GoesOn l base opener w current w :=
  ⟨⟨opener, h, .refl⟩, hs⟩

theorem GoesOn.sound (h : GoesOn l base opener w current w') : Sound l base current w' := by
  obtain ⟨⟨opener', hu, _⟩, hs⟩ := h
  exact ⟨⟨opener', hu⟩, hs⟩

theorem GoesOn.alike (h : GoesOn l base opener w current w') (ha : Alike l w' w'') :
    GoesOn l base opener w current w'' := by
  obtain ⟨⟨opener', hu, hgrown⟩, hs⟩ := h
  exact ⟨⟨opener', hu.alike ha, ha.regions ▸ hgrown⟩, hs.alike ha⟩

/-- A reachable free node opens a region: the regions grow by it. -/
theorem Underway.grows_openGroup (h : Underway l base current opener w) (hn : n ∈ w.members)
    (hfree : w.graph.owner l n = none) (hreach : (w.net l).Reachable n) :
    Growth (w.regions l opener)
      ((w.openGroup l n).regions l (update opener w.graph.intervals.size n)) := by
  have hregions : (w.openGroup l n).regions l (update opener w.graph.intervals.size n) =
      ⟨w.net l, update (w.graph.owner l) n (some w.graph.intervals.size),
        update opener w.graph.intervals.size n, w.opened ++ [w.graph.intervals.size]⟩ := by
    rw [← net_openGroup, ← owner_openGroup (h.exists_node n hn)]
    rfl
  rw [hregions]
  exact .start hn hfree h.size_not_mem_opened hreach

/-- A free node joins the region of the current visit: the regions grow by it. -/
theorem Underway.grows_assign (h : Underway l base (some i) opener w) (hn : n ∈ w.members)
    (hfree : w.graph.owner l n = none) (hne : w.graph.preds l n ≠ [])
    (hpreds : ∀ p ∈ w.graph.preds l n, w.graph.owner l p = some i) :
    Growth (w.regions l opener) ((w.assign l n i).regions l opener) := by
  have hregions : (w.assign l n i).regions l opener =
      ⟨w.net l, update (w.graph.owner l) n (some i), opener, w.opened⟩ := by
    rw [← net_assign, ← FlowGraph.owner_assign _ (h.exists_node n hn)]
    rfl
  rw [hregions]
  exact .join hn hfree (h.idle i rfl).1 hne hpreds

namespace GoesOn

theorem openGroup (h : GoesOn l base opener w current w') (hn : n ∈ w'.members)
    (hfree : w'.graph.owner l n = none) (hreach : (w'.net l).Reachable n) :
    GoesOn l base opener w current (w'.openGroup l n) := by
  obtain ⟨⟨opener', hu, hgrown⟩, hs⟩ := h
  exact ⟨⟨_, hu.openGroup hn hfree hreach, hgrown.tail (hu.grows_openGroup hn hfree hreach)⟩,
    hs.openGroup (hu.exists_node n hn)⟩

theorem opens (h : GoesOn l base opener w current w') (ho : Opens l w' w'') :
    GoesOn l base opener w current w'' := by
  induction ho with
  | refl => exact h
  | tail _ hstep ih =>
    obtain ⟨n, hn, _, hfree, hreach, rfl⟩ := hstep
    exact ih.openGroup hn hfree hreach

/-- A visit ends when no free nodes are left behind its region. -/
theorem leave (h : GoesOn l base opener w (some i) w')
    (hdone : ∀ m ∈ w'.members, w'.graph.owner l m = some i → ∀ s ∈ w'.graph.succs l m,
      w'.graph.owner l s ≠ none) : GoesOn l base opener w none w' := by
  obtain ⟨⟨opener', hu, hgrown⟩, hs⟩ := h
  exact ⟨⟨opener', hu.leave hdone, hgrown⟩, hs⟩

/-- What has grown before and goes on has gone on from the start. -/
theorem after {opener₀ : IntervalId → Nat} {w₀ : Workspace}
    (h : GoesOn l base opener w current w')
    (hbefore : Grown (w₀.regions l opener₀) (w.regions l opener)) :
    GoesOn l base opener₀ w₀ current w' := by
  obtain ⟨⟨opener', hu, hgrown⟩, hs⟩ := h
  exact ⟨⟨opener', hu, hbefore.trans hgrown⟩, hs⟩

end GoesOn

end KernelIntervals
