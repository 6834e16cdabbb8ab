/-
How a pass starts, and how it goes on to new regions.

* `Sound` — a pass is under way and every entry has an owner,
* `Opens` — some free members opened regions, and nothing else happened,
* `Advancing`, `openFrontier_ends` — the free nodes behind a region open regions of their
  own, one after the other, and no others do (`Leaves`),
* `Sound.leave` — which ends the visit of the region,
* `Entering`, `start_ends` — a pass over a closed net starts, with a region for every entry
  and for no other node.
-/
import KernelIntervals.Proofs.Ends
import KernelIntervals.Proofs.Underway

namespace KernelIntervals

open Function Relation

variable {l : Level} {base : Nat} {current : Option IntervalId} {opener : IntervalId → Nat}
  {w w' : Workspace} {n : Nat} {i : IntervalId}

/-- A pass is under way and every entry has an owner. -/
structure Sound (l : Level) (base : Nat) (current : Option IntervalId) (w : Workspace) : Prop where
  underway : ∃ opener, Underway l base current opener w
  seeded : Seeded l w

theorem Sound.alike (h : Sound l base current w) (ha : Alike l w w') : Sound l base current w' := by
  obtain ⟨⟨opener, hu⟩, hs⟩ := h
  exact ⟨⟨opener, hu.alike ha⟩, hs.alike ha⟩

/-- A reachable free node may open a region. -/
theorem Sound.openGroup (h : Sound l base current w) (hn : n ∈ w.members)
    (hfree : w.graph.owner l n = none) (hreach : (w.net l).Reachable n) :
    Sound l base current (w.openGroup l n) := by
  obtain ⟨⟨opener, hu⟩, hs⟩ := h
  exact ⟨⟨_, hu.openGroup hn hfree hreach⟩, hs.openGroup (hu.exists_node n hn)⟩

/-! ### What opening regions leaves alone -/

/-- Instructions, registers, edges and links of all nodes are the same. -/
structure SameBodies (g g' : FlowGraph) : Prop where
  size : g'.blocks.size = g.blocks.size
  links : g'.links = g.links
  insts : g'.insts = g.insts
  regs : g'.regs = g.regs
  preds : g'.preds = g.preds
  succs : g'.succs = g.succs

theorem SameBodies.refl (g : FlowGraph) : SameBodies g g := ⟨rfl, rfl, rfl, rfl, rfl, rfl⟩

theorem SameBodies.trans {g g' g'' : FlowGraph} (h : SameBodies g g') (h' : SameBodies g' g'') :
    SameBodies g g'' where
  size := h'.size.trans h.size
  links := h'.links.trans h.links
  insts := h'.insts.trans h.insts
  regs := h'.regs.trans h.regs
  preds := h'.preds.trans h.preds
  succs := h'.succs.trans h.succs

theorem SameBodies.net {g g' : FlowGraph} (h : SameBodies g g') (l : Level) (nodes : List Nat) :
    g'.net l nodes = g.net l nodes := by
  rw [FlowGraph.net, FlowGraph.net, h.preds, h.succs]

theorem sameBodies_assign (g : FlowGraph) (l : Level) (n : Nat) (o : Option IntervalId) :
    SameBodies g (g.assign l n o) :=
  ⟨(FlowGraph.extent_assign o : (g.assign l n o).extent .block = _), FlowGraph.links_assign o,
    funext fun _ => FlowGraph.insts_assign o, funext fun _ => FlowGraph.regs_assign o,
    funext fun _ => FlowGraph.preds_assign o, funext fun _ => FlowGraph.succs_assign o⟩

theorem sameBodies_addInterval (g : FlowGraph) : SameBodies g (g.addInterval {}) :=
  ⟨rfl, rfl, funext fun _ => FlowGraph.insts_addInterval,
    funext fun _ => FlowGraph.regs_addInterval,
    funext fun _ => FlowGraph.preds_addInterval, funext fun _ => FlowGraph.succs_addInterval⟩

theorem sameBodies_openGroup (w : Workspace) (l : Level) (n : Nat) :
    SameBodies w.graph (w.openGroup l n).graph :=
  (sameBodies_addInterval w.graph).trans (sameBodies_assign ..)

/-- A free member that is reachable opens a region. -/
def OpenStep (l : Level) (w w' : Workspace) : Prop :=
  ∃ n ∈ w.members, n < w.graph.extent l ∧ w.graph.owner l n = none ∧ (w.net l).Reachable n ∧
    w' = w.openGroup l n

/-- Some free members open regions, one after the other. -/
def Opens (l : Level) : Workspace → Workspace → Prop := ReflTransGen (OpenStep l)

namespace Opens

theorem members (h : Opens l w w') : w'.members = w.members := by
  induction h with
  | refl => rfl
  | tail _ hstep ih =>
    obtain ⟨n, _, _, _, _, rfl⟩ := hstep
    exact ih

theorem sameBodies (h : Opens l w w') : SameBodies w.graph w'.graph := by
  induction h with
  | refl => exact .refl _
  | @tail w₁ _ _ hstep ih =>
    obtain ⟨n, _, _, _, _, rfl⟩ := hstep
    exact ih.trans (sameBodies_openGroup w₁ l n)

theorem net (h : Opens l w w') : w'.net l = w.net l := by
  rw [Workspace.net, Workspace.net, h.members, h.sameBodies.net]

theorem size_le (h : Opens l w w') : w.graph.intervals.size ≤ w'.graph.intervals.size := by
  induction h with
  | refl => exact Nat.le_refl _
  | tail _ hstep ih =>
    obtain ⟨n, _, _, _, _, rfl⟩ := hstep
    rw [size_openGroup]
    omega

/-- The intervals that were made have numbers below that of the next one. -/
theorem opened_lt (h : Opens l w w') (hlt : ∀ i ∈ w.opened, i < w.graph.intervals.size) :
    ∀ i ∈ w'.opened, i < w'.graph.intervals.size := by
  induction h with
  | refl => exact hlt
  | tail _ hstep ih =>
    obtain ⟨n, _, _, _, _, rfl⟩ := hstep
    intro i hi
    rw [size_openGroup]
    rcases List.mem_append.mp hi with hi | hi
    · exact Nat.lt_succ_of_lt (ih i hi)
    · rw [List.mem_singleton.mp hi]
      exact Nat.lt_succ_self _

/-- Nodes keep their owners. -/
theorem owner_eq (h : Opens l w w') {m : Nat} {j : IntervalId} (hm : w.graph.owner l m = some j) :
    w'.graph.owner l m = some j := by
  induction h with
  | refl => exact hm
  | tail _ hstep ih =>
    obtain ⟨n, _, hlt, hfree, _, rfl⟩ := hstep
    rw [owner_openGroup hlt]
    exact owner_update hfree ih

/-- The regions that were there get no new nodes. -/
theorem owner_of_lt (h : Opens l w w') {m : Nat} {j : IntervalId} (hj : j < w.graph.intervals.size)
    (hm : w'.graph.owner l m = some j) : w.graph.owner l m = some j := by
  induction h with
  | refl => exact hm
  | @tail w₁ _ hpath hstep ih =>
    obtain ⟨n, _, hlt, hfree, _, rfl⟩ := hstep
    apply ih
    rw [owner_openGroup hlt] at hm
    by_cases hmn : m = n
    · rw [hmn, update_self] at hm
      -- A new region has a number that was not taken at the start.
      have hle : w.graph.intervals.size ≤ w₁.graph.intervals.size := size_le hpath
      rw [Option.some.inj hm] at hle
      exact absurd hj (Nat.not_lt.mpr hle)
    · rwa [update_of_ne hmn] at hm

/-- A node that waits was waiting before, or was free. -/
theorem waits (h : Opens l w w') {x : Nat} (hx : x ∈ w'.worklist) :
    x ∈ w.worklist ∨ w.graph.owner l x = none := by
  induction h with
  | refl => exact .inl hx
  | tail hpath hstep ih =>
    obtain ⟨n, _, _, hfree, _, rfl⟩ := hstep
    rcases List.mem_append.mp hx with hx | hx
    · exact ih hx
    · rw [List.mem_singleton.mp hx]
      exact .inr (owner_eq_none (fun _ => owner_eq hpath) hfree)

/-- The regions still to be visited remain so. -/
theorem busy_mono (h : Opens l w w') {j : IntervalId} (hj : w.Busy l current j) :
    w'.Busy l current j := by
  induction h with
  | refl => exact hj
  | tail _ hstep ih =>
    obtain ⟨n, _, hn, hfree, _, rfl⟩ := hstep
    rcases ih with hj | ⟨m, hm, hown⟩
    · exact .inl hj
    · refine .inr ⟨m, List.mem_append_left _ hm, ?_⟩
      rw [owner_openGroup hn]
      exact owner_update hfree hown

/-- No region that was there becomes one still to be visited. -/
theorem busy_of_lt (h : Opens l w w') {j : IntervalId} (hj : j < w.graph.intervals.size)
    (hbusy : w'.Busy l current j) : w.Busy l current j := by
  induction h with
  | refl => exact hbusy
  | @tail w₁ _ hpath hstep ih =>
    obtain ⟨n, _, hn, _, _, rfl⟩ := hstep
    refine ih (hbusy.imp_right fun ⟨m, hm, hown⟩ => ?_)
    rw [owner_openGroup hn] at hown
    have hmn : m ≠ n := by
      intro hmn
      rw [hmn, update_self] at hown
      have hle : w.graph.intervals.size ≤ w₁.graph.intervals.size := size_le hpath
      rw [← Option.some.inj hown] at hj
      exact absurd hj (Nat.not_lt.mpr hle)
    rw [update_of_ne hmn] at hown
    exact ⟨m, Net.mem_of_ne_last hm hmn, hown⟩

/-- The regions that were opened are still to be visited. -/
theorem busy_of_new (h : Opens l w w') {j : IntervalId} (hj : j ∈ w'.opened)
    (hnew : j ∉ w.opened) : w'.Busy l current j := by
  induction h with
  | refl => exact absurd hj hnew
  | @tail w₁ _ _ hstep ih =>
    obtain ⟨n, _, hn, hfree, _, rfl⟩ := hstep
    rcases List.mem_append.mp hj with hj | hj
    · rcases ih hj with hj | ⟨m, hm, hown⟩
      · exact .inl hj
      · refine .inr ⟨m, List.mem_append_left _ hm, ?_⟩
        rw [owner_openGroup hn]
        exact owner_update hfree hown
    · refine .inr ⟨n, List.mem_append_right _ (List.mem_singleton_self n), ?_⟩
      rw [owner_openGroup hn, update_self, List.mem_singleton.mp hj]

end Opens

/-- Opening regions keeps the invariant. -/
theorem Opens.underway (ho : Opens l w w') (h : Underway l base current opener w) :
    ∃ opener', Underway l base current opener' w' := by
  induction ho with
  | refl => exact ⟨opener, h⟩
  | tail _ hstep ih =>
    obtain ⟨opener', hu⟩ := ih
    obtain ⟨n, hn, _, hfree, hreach, rfl⟩ := hstep
    exact ⟨_, hu.openGroup hn hfree hreach⟩

theorem Opens.seeded (ho : Opens l w w') (h : Seeded l w) : Seeded l w' := by
  induction ho with
  | refl => exact h
  | tail _ hstep ih =>
    obtain ⟨n, _, hlt, _, _, rfl⟩ := hstep
    exact ih.openGroup hlt

theorem Sound.opens (h : Sound l base current w) (ho : Opens l w w') : Sound l base current w' := by
  obtain ⟨⟨opener, hu⟩, hs⟩ := h
  exact ⟨ho.underway hu, ho.seeded hs⟩

/-- A visit ends when no free nodes are left behind its region. -/
theorem Sound.leave (h : Sound l base (some i) w)
    (hdone : ∀ m ∈ w.members, w.graph.owner l m = some i → ∀ s ∈ w.graph.succs l m,
      w.graph.owner l s ≠ none) : Sound l base none w := by
  obtain ⟨⟨opener, hu⟩, hs⟩ := h
  exact ⟨⟨opener, hu.leave hdone⟩, hs⟩

/-! ### The frontier -/

theorem openFree_ends (hn : n < w.graph.extent l) :
    Ends (Pass.openFree l n) w fun _ w' =>
      w.graph.owner l n = none ∧ w' = w.openGroup l n ∨ w.graph.owner l n ≠ none ∧ w' = w := by
  refine Ends.bind (Pass.ends_query (FlowGraph.unowned?_eq_some hn) ?_)
  cases howner : w.graph.owner l n with
  | none => exact ends_modify (.inl ⟨rfl, rfl⟩)
  | some j => exact ends_pure (.inr ⟨Option.some_ne_none j, rfl⟩)

/-- A visit of the region `i` comes to its end: the free nodes behind the region, and
no others, open regions of their own. -/
structure Leaves (l : Level) (i : IntervalId) (w w' : Workspace) : Prop where
  opens : Opens l w w'
  done : ∀ m ∈ w'.members, w'.graph.owner l m = some i → ∀ s ∈ w'.graph.succs l m,
    w'.graph.owner l s ≠ none
  behind : ∀ s, w.graph.owner l s = none → w'.graph.owner l s ≠ none →
    ∃ m ∈ w.members, w.graph.owner l m = some i ∧ s ∈ w.graph.succs l m

/-- How far the opening of regions for the nodes `found` has come, with `rest` of them still
to be dealt with: no other nodes got owners, and those done with have one. -/
structure Advancing (l : Level) (found : List Nat) (w : Workspace) (rest : List Nat)
    (w' : Workspace) : Prop where
  opens : Opens l w w'
  listed : ∀ s ∈ rest, s ∈ found
  done : ∀ s ∈ found, s ∈ rest ∨ w'.graph.owner l s ≠ none
  origin : ∀ s, w.graph.owner l s = none → w'.graph.owner l s ≠ none → s ∈ found

/-- The next node is dealt with. -/
theorem Advancing.step {found rest : List Nat} {s : Nat} (h : Sound l base current w)
    (hfound : ∀ s ∈ found, s ∈ w.members ∧ (w.net l).Reachable s)
    (ha : Advancing l found w (s :: rest) w') :
    Ends (Pass.openFree l s) w' fun _ w₂ => Advancing l found w rest w₂ := by
  obtain ⟨hmem, hreach⟩ := hfound s (ha.listed s List.mem_cons_self)
  have hmem' : s ∈ w'.members := by
    rw [ha.opens.members]
    exact hmem
  obtain ⟨⟨opener, hu⟩, _⟩ := h.opens ha.opens
  have hlt : s < w'.graph.extent l := hu.exists_node s hmem'
  have hrest : ∀ x ∈ rest, x ∈ found := fun x hx => ha.listed x (List.mem_cons_of_mem s hx)
  refine (openFree_ends hlt).mono ?_
  rintro _ w₂ (⟨hfree, rfl⟩ | ⟨hown, rfl⟩)
  · have hreach' : (w'.net l).Reachable s := by
      rw [ha.opens.net]
      exact hreach
    refine ⟨ha.opens.tail ⟨s, hmem', hlt, hfree, hreach', rfl⟩, hrest, fun x hx => ?_,
      fun x hx hx' => ?_⟩
    · rw [owner_openGroup hlt]
      by_cases hxs : x = s
      · rw [hxs, update_self]
        exact .inr (Option.some_ne_none _)
      · rw [update_of_ne hxs]
        exact (ha.done x hx).imp_left fun hx => (List.mem_cons.mp hx).resolve_left hxs
    · by_cases hxs : x = s
      · rw [hxs]
        exact ha.listed s List.mem_cons_self
      · rw [owner_openGroup hlt, update_of_ne hxs] at hx'
        exact ha.origin x hx hx'
  · refine ⟨ha.opens, hrest, fun x hx => ?_, ha.origin⟩
    by_cases hxs : x = s
    · rw [hxs]
      exact .inr hown
    · exact (ha.done x hx).imp_left fun hx => (List.mem_cons.mp hx).resolve_left hxs

/-- The free nodes behind the region of a visit open regions, until there are none. -/
theorem openFrontier_ends (h : Sound l base (some i) w) :
    Ends (Pass.openFrontier l i) w fun _ w' => Leaves l i w w' := by
  obtain ⟨⟨opener, hu⟩, _⟩ := id h
  obtain ⟨found, hsurvey, hmem⟩ := FlowGraph.frontier?_eq_some (i := i) hu.exists_node
    fun n hn s hs => (hu.exists_succ hn hs).2
  have hfound : ∀ s ∈ found, s ∈ w.members ∧ (w.net l).Reachable s := by
    intro s hs
    obtain ⟨n, hn, hown, hsucc, _⟩ := (hmem s).mp hs
    exact ⟨(hu.exists_succ hn hsucc).1, (hu.grouped.reachable hn hown).step hsucc⟩
  have hstart : Advancing l found w found w :=
    ⟨.refl, fun _ hs => hs, fun _ hs => .inl hs, fun _ hs hs' => absurd hs hs'⟩
  refine Ends.bind (Pass.ends_survey hsurvey ?_)
  refine (ends_forM (P := Advancing l found w) (fun s rest w₁ ha => ha.step h hfound)
    hstart).mono ?_
  rintro _ w₁ ⟨hopens, _, hdone, horigin⟩
  refine ⟨hopens, fun m hm hown s hsucc hfree => ?_, fun s hs hs' => ?_⟩
  · have hlt : i < w.graph.intervals.size := (hu.opened_range i (hu.idle i rfl).1).2
    have hm₀ : m ∈ w.members := by rwa [hopens.members] at hm
    have hown₀ : w.graph.owner l m = some i := hopens.owner_of_lt hlt hown
    have hsucc₀ : s ∈ w.graph.succs l m := by rwa [hopens.sameBodies.succs] at hsucc
    -- Either the node was found, and has been dealt with, or it had an owner before.
    cases hs₀ : w.graph.owner l s with
    | none =>
      have hs : s ∈ found := (hmem s).mpr ⟨m, hm₀, hown₀, hsucc₀, hs₀⟩
      exact (hdone s hs).elim List.not_mem_nil fun hne => hne hfree
    | some j =>
      have hkeep := hopens.owner_eq hs₀
      rw [hfree] at hkeep
      injection hkeep
  · obtain ⟨m, hm, hown, hsucc, _⟩ := (hmem s).mp (horigin s hs hs')
    exact ⟨m, hm, hown, hsucc⟩

/-! ### The start -/

theorem release_ends (hn : n < w.graph.extent l) :
    Ends (Pass.release l n) w fun _ w' => w' = { w with graph := w.graph.assign l n none } :=
  Ends.bind (Pass.ends_query (FlowGraph.node?_eq_some hn) (ends_modify rfl))

theorem openEntry_ends (hn : n < w.graph.extent l) :
    Ends (Pass.openEntry l n) w fun _ w' =>
      w.graph.preds l n = [] ∧ w' = w.openGroup l n ∨ w.graph.preds l n ≠ [] ∧ w' = w := by
  refine Ends.bind (Pass.ends_query (FlowGraph.node?_eq_some hn) ?_)
  show Ends (if (w.graph.preds l n).isEmpty then _ else _) w _
  by_cases hnil : w.graph.preds l n = []
  · rw [hnil]
    exact ends_modify (.inl ⟨rfl, rfl⟩)
  · rw [if_neg (fun h => hnil (List.isEmpty_iff.mp h))]
    exact ends_pure (.inr ⟨hnil, rfl⟩)

/-- A workspace whose members are some nodes of a graph without owners, before any
region is opened. -/
structure Cleared (l : Level) (nodes : List Nat) (g : FlowGraph) (w : Workspace) : Prop where
  members : w.members = nodes
  opened : w.opened = []
  worklist : w.worklist = []
  extent : w.graph.extent = g.extent
  bodies : SameBodies g w.graph
  owner : ∀ m, m ∉ nodes → w.graph.owner l m = g.owner l m
  blocks : l = .interval → w.graph.blocks = g.blocks

/-- The nodes lose their owners. -/
theorem release_all_ends {nodes : List Nat} {g : FlowGraph} (h : Cleared l nodes g w)
    (hex : ∀ n ∈ nodes, n < g.extent l) :
    Ends (nodes.forM (Pass.release l)) w fun _ w' =>
      Cleared l nodes g w' ∧ ∀ n ∈ nodes, w'.graph.owner l n = none := by
  refine (ends_forM (P := fun rest w' => Cleared l nodes g w' ∧ (∀ n ∈ rest, n ∈ nodes) ∧
    ∀ n ∈ nodes, n ∈ rest ∨ w'.graph.owner l n = none) ?_
    ⟨h, fun _ hn => hn, fun _ hn => .inl hn⟩).mono ?_
  · intro n rest w₁ ⟨hc, hrest, hdone⟩
    have hn : n ∈ nodes := hrest n List.mem_cons_self
    have hlt : n < w₁.graph.extent l := by
      rw [hc.extent]
      exact hex n hn
    refine (release_ends hlt).mono ?_
    rintro _ w₂ rfl
    refine ⟨⟨hc.members, hc.opened, hc.worklist, ?_, hc.bodies.trans (sameBodies_assign ..), ?_,
      ?_⟩, fun x hx => hrest x (List.mem_cons_of_mem n hx), ?_⟩
    · rw [← hc.extent]
      exact funext fun _ => FlowGraph.extent_assign _
    · intro m hm
      show (w₁.graph.assign l n none).owner l m = _
      rw [FlowGraph.owner_assign _ hlt, update_of_ne (ne_of_mem_of_not_mem hn hm).symm]
      exact hc.owner m hm
    · rintro rfl
      exact hc.blocks rfl
    · intro m hm
      show _ ∨ (w₁.graph.assign l n none).owner l m = none
      rw [FlowGraph.owner_assign _ hlt]
      by_cases hmn : m = n
      · rw [hmn, update_self]
        exact .inr rfl
      · rw [update_of_ne hmn]
        exact (hdone m hm).imp_left fun hm => (List.mem_cons.mp hm).resolve_left hmn
  · rintro _ w₁ ⟨hc, _, hdone⟩
    exact ⟨hc, fun n hn => (hdone n hn).resolve_left List.not_mem_nil⟩

/-- Without owners and regions the invariant holds as far as the net is closed. -/
theorem Cleared.underway {nodes : List Nat} {g : FlowGraph} (h : Cleared l nodes g w)
    (hex : ∀ n ∈ nodes, n < g.extent l) (hnodup : nodes.Nodup) (hclosed : (g.net l nodes).Closed)
    (hfree : ∀ n ∈ nodes, w.graph.owner l n = none) :
    Underway l g.intervals.size none (fun _ => 0) w := by
  have hnet : w.net l = g.net l nodes := by
    rw [Workspace.net, h.members, h.bodies.net]
  have hno : ∀ n ∈ (w.net l).nodes, ∀ i, w.graph.owner l n ≠ some i := by
    intro n hn i hown
    rw [hnet] at hn
    rw [hfree n hn] at hown
    injection hown
  have hsize : w.graph.intervals.size = g.intervals.size := congrFun h.extent .interval
  refine ⟨?_, ?_, ?_, ?_, ?_, ?_, ?_, ?_, ?_, ?_, ?_⟩
  · rw [h.members, h.extent]
    exact hex
  · rw [h.members]
    exact hnodup
  · rw [hnet]
    exact hclosed
  · rw [h.opened]
    exact ⟨.nil, fun hn hi => absurd hi (hno _ hn _), fun hi => absurd hi List.not_mem_nil,
      fun hi => absurd hi List.not_mem_nil, fun hn hi => absurd hi (hno _ hn _),
      fun hn hi => absurd hi (hno _ hn _), fun hn hi => absurd hi (hno _ hn _),
      fun hn hi => absurd hi (hno _ hn _)⟩
  · rw [h.worklist]
    exact ⟨.nil, fun hn => absurd hn List.not_mem_nil, fun hn => absurd hn List.not_mem_nil⟩
  · exact fun n hn i hi => absurd hi (hno n hn i)
  · intro i hi
    injection hi
  · rw [h.opened]
    exact fun i hi => absurd hi List.not_mem_nil
  · exact Nat.le_of_eq hsize.symm
  · rintro rfl n hn
    rw [h.members] at hn
    exact hex n hn
  · rw [h.opened]
    exact fun i hi => absurd hi List.not_mem_nil

/-- How far the opening of regions for the entries among `nodes` has come, with `rest` of
them still to be looked at: the entries among the others have owners, and nothing else
has. -/
structure Entering (l : Level) (nodes : List Nat) (w : Workspace) (rest : List Nat)
    (w' : Workspace) : Prop where
  opens : Opens l w w'
  nodup : rest.Nodup
  free : ∀ n ∈ rest, n ∈ nodes ∧ w'.graph.owner l n = none
  done : ∀ n ∈ nodes, w'.graph.preds l n = [] → n ∈ rest ∨ w'.graph.owner l n ≠ none
  entries : ∀ n ∈ nodes, w'.graph.owner l n ≠ none → w'.graph.preds l n = []

/-- The next node is looked at. -/
theorem Entering.step {nodes rest : List Nat} (h : Underway l base current opener w)
    (hmembers : w.members = nodes) (he : Entering l nodes w (n :: rest) w') :
    Ends (Pass.openEntry l n) w' fun _ w₂ => Entering l nodes w rest w₂ := by
  obtain ⟨hnotin, hnodup⟩ := List.nodup_cons.mp he.nodup
  obtain ⟨hn, hfree⟩ := he.free n List.mem_cons_self
  obtain ⟨opener', hu⟩ := he.opens.underway h
  have hmem : n ∈ w'.members := by
    rw [he.opens.members, hmembers]
    exact hn
  have hlt := hu.exists_node n hmem
  refine (openEntry_ends hlt).mono ?_
  rintro _ w₂ (⟨hnil, rfl⟩ | ⟨hne, rfl⟩)
  · have hreach : (w'.net l).Reachable n := Net.IsEntry.reachable ⟨hmem, hnil⟩
    refine ⟨he.opens.tail ⟨n, hmem, hlt, hfree, hreach, rfl⟩, hnodup, fun m hm => ?_,
      fun m hm hmnil => ?_, fun m hm hown => ?_⟩
    · rw [owner_openGroup hlt, update_of_ne (ne_of_mem_of_not_mem hm hnotin)]
      exact he.free m (List.mem_cons_of_mem n hm)
    · rw [owner_openGroup hlt]
      by_cases hmn : m = n
      · rw [hmn, update_self]
        exact .inr (Option.some_ne_none _)
      · rw [update_of_ne hmn]
        rw [(sameBodies_openGroup w' l n).preds] at hmnil
        exact (he.done m hm hmnil).imp_left fun hm => (List.mem_cons.mp hm).resolve_left hmn
    · rw [(sameBodies_openGroup w' l n).preds]
      by_cases hmn : m = n
      · rw [hmn]
        exact hnil
      · rw [owner_openGroup hlt, update_of_ne hmn] at hown
        exact he.entries m hm hown
  · refine ⟨he.opens, hnodup, fun m hm => he.free m (List.mem_cons_of_mem n hm),
      fun m hm hmnil => ?_, he.entries⟩
    refine (he.done m hm hmnil).imp_left fun hm => (List.mem_cons.mp hm).resolve_left ?_
    rintro rfl
    exact hne hmnil

/-- A pass starts over nodes that exist and form a closed net, whatever its
workspace was used for before. -/
theorem start_ends {nodes : List Nat} (hex : ∀ n ∈ nodes, n < w.graph.extent l)
    (hnodup : nodes.Nodup) (hclosed : (w.graph.net l nodes).Closed) :
    Ends (Pass.start l nodes) w fun _ w' => Sound l w.graph.intervals.size none w' ∧
      (∃ w₀, Cleared l nodes w.graph w₀ ∧ Opens l w₀ w') ∧
      ∀ n ∈ nodes, w'.graph.owner l n ≠ none → w'.graph.preds l n = [] := by
  have hclear : Cleared l nodes w.graph
      { w with members := nodes, opened := [], worklist := [] } :=
    ⟨rfl, rfl, rfl, rfl, .refl _, fun _ _ => rfl, fun _ => rfl⟩
  refine Ends.bind (ends_modify (Ends.bind ?_))
  refine (release_all_ends hclear hex).mono ?_
  rintro _ w₀ ⟨hcleared, hfree⟩
  have hu := hcleared.underway hex hnodup hclosed hfree
  have hmembers : w₀.members = nodes := hcleared.members
  have hstart : Entering l nodes w₀ nodes w₀ := ⟨.refl, hnodup, fun n hn => ⟨hn, hfree n hn⟩,
    fun n hn _ => .inl hn, fun n hn hown => absurd (hfree n hn) hown⟩
  refine (ends_forM (P := Entering l nodes w₀) (fun n rest w₁ he => he.step hu hmembers)
    hstart).mono ?_
  rintro _ w₁ ⟨hopens, _, _, hdone, hentries⟩
  refine ⟨⟨hopens.underway hu, fun r hr => ?_⟩, ⟨w₀, hcleared, hopens⟩, hentries⟩
  have hr' : r ∈ nodes := by
    rw [← hmembers, ← hopens.members]
    exact hr.1
  exact (hdone r hr' hr.2).resolve_left List.not_mem_nil

end KernelIntervals
