/-
The blocks and edges of a graph.

* `Connects`, `Carve.edges_endsIff` — the edges between blocks that those of a graph are made to,
* `exists_site`, `exists_carved`, `blocks_row` — the nodes of a graph and their blocks, in order,
* `Built`, `carve_built` — the blocks of a graph, and then its edges, were made,
* `FlowGraph.ofGroup`, `Built.ofGroup_eq` — the basic blocks of one of its nodes.

Design notes: nodes and ports are looked up by name, and of several ones of a name the last one is
found. So the blocks and edges that are made are known without a word on names; that the edges are
those of the graph needs that no name is used twice.
-/
import KernelIntervals.Proofs.Layout

namespace KernelIntervals

/-! ### Parts of lists -/

theorem mem_zip_map {α β : Type} {f : α → β} {xs : List α} {a : α} {b : β} :
    (a, b) ∈ xs.zip (xs.map f) ↔ a ∈ xs ∧ f a = b := by
  induction xs with
  | nil => simp
  | cons x xs ih =>
    rw [List.map_cons, List.zip_cons_cons, List.mem_cons, ih, List.mem_cons, Prod.mk.injEq]
    constructor
    · rintro (⟨rfl, rfl⟩ | ⟨hmem, hf⟩)
      · exact ⟨.inl rfl, rfl⟩
      · exact ⟨.inr hmem, hf⟩
    · rintro ⟨rfl | hmem, rfl⟩
      · exact .inl ⟨rfl, rfl⟩
      · exact .inr ⟨hmem, rfl⟩

/-- Of some parts with distinct keys, whose elements are marked with these, the one of a key. -/
theorem filter_flatMap {τ κ α : Type} [DecidableEq κ] {ts : List τ} {key : τ → κ}
    {part : τ → List α} {mark : α → κ} (hnodup : (ts.map key).Nodup)
    (hmark : ∀ t ∈ ts, ∀ x ∈ part t, mark x = key t) {t : τ} (ht : t ∈ ts) :
    (ts.flatMap part).filter (mark · = key t) = part t := by
  induction ts with
  | nil => exact absurd ht List.not_mem_nil
  | cons u ts ih =>
    rw [List.map_cons, List.nodup_cons] at hnodup
    obtain ⟨hu, hrest⟩ := List.forall_mem_cons.mp hmark
    rw [List.flatMap_cons, List.filter_append]
    -- The elements of other parts are marked with other keys.
    rcases List.mem_cons.mp ht with rfl | ht
    · have hnone : (ts.flatMap part).filter (mark · = key t) = [] := by
        refine List.filter_eq_nil_iff.mpr fun x hx => ?_
        obtain ⟨v, hv, hx⟩ := List.mem_flatMap.mp hx
        rw [hrest v hv x hx, decide_eq_true_eq]
        exact fun heq => hnodup.1 (heq ▸ List.mem_map_of_mem hv)
      rw [hnone, List.append_nil]
      exact List.filter_eq_self.mpr fun x hx => decide_eq_true (hu x hx)
    · have hnone : (part u).filter (mark · = key t) = [] := by
        refine List.filter_eq_nil_iff.mpr fun x hx => ?_
        rw [hu x hx, decide_eq_true_eq]
        exact fun heq => hnodup.1 (heq ▸ List.mem_map_of_mem ht)
      rw [hnone, List.nil_append, ih hnodup.2 hrest ht]

/-! ### Edges -/

/-- An edge of a graph is made between two blocks. -/
def Connects (cs : List CarvedNode) (e : Dot.Edge) (x y : BlockId) : Prop :=
  ∃ source target, cs.reverse.find? (·.name == e.source) = some source ∧
    cs.reverse.find? (·.name == e.target) = some target ∧
      source.exit? e.port = some x ∧ target.blocks.head? = some y

theorem Connects.unique {cs : List CarvedNode} {e : Dot.Edge} {x y x' y' : BlockId}
    (h : Connects cs e x y) (h' : Connects cs e x' y') : x' = x ∧ y' = y := by
  obtain ⟨source, target, hsource, htarget, hx, hy⟩ := h
  obtain ⟨source', target', hsource', htarget', hx', hy'⟩ := h'
  obtain rfl : source = source' := Option.some.inj (hsource.symm.trans hsource')
  obtain rfl : target = target' := Option.some.inj (htarget.symm.trans htarget')
  exact ⟨Option.some.inj (hx'.symm.trans hx), Option.some.inj (hy'.symm.trans hy)⟩

/-- Some edges were made between blocks, and nothing else. -/
structure Joined (mid : FlowGraph) (cs : List CarvedNode) (edges : List Dot.Edge)
    (g : FlowGraph) : Prop where
  size : g.blocks.size = mid.blocks.size
  face : g.face? = mid.face?
  links : g.links = mid.links
  succs : ∀ x y, y ∈ g.succs .block x ↔ y ∈ mid.succs .block x ∨ ∃ e ∈ edges, Connects cs e x y

namespace Joined

variable {mid g : FlowGraph} {cs : List CarvedNode} {edges : List Dot.Edge} {e : Dot.Edge}
  {x y : BlockId}

theorem refl (mid : FlowGraph) (cs : List CarvedNode) : Joined mid cs [] mid :=
  ⟨rfl, rfl, rfl, fun _ _ => by simp⟩

theorem link (h : Joined mid cs edges g) (he : Connects cs e x y) (hx : x < mid.blocks.size) :
    Joined mid cs (edges ++ [e]) (g.link x y) where
  size := by simp [FlowGraph.link, FlowGraph.modifyBlock, h.size]
  face := FlowGraph.face?_link.trans h.face
  links := FlowGraph.links_link.trans h.links
  succs x' y' := by
    have hiff : x' = x ∧ y' = y ↔ Connects cs e x' y' := by
      refine ⟨?_, fun h' => he.unique h'⟩
      rintro ⟨rfl, rfl⟩
      exact he
    rw [FlowGraph.mem_succs_link (h.size ▸ hx), h.succs, hiff, or_assoc]
    simp [or_and_right, exists_or]

end Joined

namespace Carve

variable {s : CarveState} {cs : List CarvedNode} {e : Dot.Edge}

theorem edge_endsIff (cs : List CarvedNode) (e : Dot.Edge) :
    EndsIff (edge cs e) s (∃ x y, Connects cs e x y) fun _ s' =>
      ∃ x y, Connects cs e x y ∧ s'.graph = s.graph.link x y := by
  rw [edge]
  split
  next source target hsource htarget =>
    split
    next exit entry hexit hentry =>
      have hconnects : Connects cs e exit entry := ⟨source, target, hsource, htarget, hexit, hentry⟩
      refine (endsIff_modify ?_).congr (iff_of_true trivial ⟨exit, entry, hconnects⟩)
      exact ⟨exit, entry, hconnects, rfl⟩
    next hno =>
      refine endsIff_throw.congr (iff_of_false id ?_)
      rintro ⟨x, y, source', target', hsource', htarget', hx, hy⟩
      obtain rfl : source = source' := Option.some.inj (hsource.symm.trans hsource')
      obtain rfl : target = target' := Option.some.inj (htarget.symm.trans htarget')
      exact hno x y hx hy
  next hno =>
    refine endsIff_throw.congr (iff_of_false id ?_)
    rintro ⟨_, _, source, target, hsource, htarget, -⟩
    exact hno source target hsource htarget

/-- Edges are made one after the other, each between two blocks. -/
theorem edges_endsIff (edges : List Dot.Edge)
    (hexist : ∀ e x y, Connects cs e x y → x < s.graph.blocks.size) :
    EndsIff (edges.forM (edge cs)) s (∀ e ∈ edges, ∃ x y, Connects cs e x y) fun _ s' =>
      Joined s.graph cs edges s'.graph := by
  refine endsIff_forM (I := fun done s' => Joined s.graph cs done s'.graph)
    (fun done e s₁ hjoined => ?_) [] edges (.refl ..)
  refine (edge_endsIff cs e).mono ?_
  rintro - s' ⟨x, y, hconnects, hgraph⟩
  rw [hgraph]
  exact hjoined.link hconnects (hexist e x y hconnects)

end Carve

/-! ### Nodes in a row -/

section Row

variable {mid : FlowGraph} {nodes : List Dot.Node} {cs : List CarvedNode} {c : CarvedNode}
  {t u : Site} {n : Dot.Node} {a base number lo : Nat} {x : BlockId}

theorem Stands.lt_size (h : Stands t c mid) (hx : x ∈ c.blocks) : x < mid.blocks.size := by
  rw [h.blocks_eq] at hx
  obtain ⟨k, hk, rfl⟩ := List.mem_map.mp hx
  obtain ⟨b, hb, -⟩ := Option.map_eq_some_iff.mp (h.face k (.inl hk))
  exact Arena.lt_size_of_get? hb

theorem Stands.exit_mem (h : Stands t c mid) {port : Option String}
    (hexit : c.exit? port = some x) : x ∈ c.blocks := by
  refine CarvedNode.exit_mem ?_ hexit
  rintro ⟨name, last⟩ hp id hid
  obtain ⟨k, -, p, -, -, hlast⟩ := (h.ported.mem_ports name last).mp hp
  obtain ⟨m, hm, rfl⟩ := Option.map_eq_some_iff.mp (hlast.symm.trans hid)
  exact h.blocks_eq ▸ Site.blockOf_mem_blocks (lastBody?_eq_some.mp hm).1.2

theorem groups_sites (base number lo : Nat) (nodes : List Dot.Node) :
    (sites base number lo nodes).map (·.group) = List.range' lo nodes.length := by
  induction nodes generalizing base number lo with
  | nil => rfl
  | cons n nodes ih => rw [sites, List.map_cons, ih, List.length_cons, List.range'_succ]

theorem nodup_groups : ((sites base number lo nodes).map fun t => some t.group).Nodup := by
  have hsome : (((sites base number lo nodes).map (·.group)).map some).Nodup := by
    rw [groups_sites]
    exact List.Nodup.map (Option.some_injective Nat) List.nodup_range'
  rw [List.map_map] at hsome
  exact hsome

/-- The blocks of some nodes follow each other without gaps. -/
theorem bases_sites (base number lo : Nat) (nodes : List Dot.Node) :
    (sites base number lo nodes).flatMap
        (fun t => List.range' t.base (blockCount t.listings)) =
      List.range' base (total (fun n => blockCount n.listings) nodes) := by
  induction nodes generalizing base number lo with
  | nil => rfl
  | cons n nodes ih =>
    rw [sites, List.flatMap_cons, ih, total_cons, List.range'_append_1]

/-- The controlling blocks of some nodes are numbered without gaps. -/
theorem numbers_sites (base number lo : Nat) (nodes : List Dot.Node) :
    (sites base number lo nodes).flatMap
        (fun t => List.range' t.number (guardCount t.listings)) =
      List.range' number (total (fun n => guardCount n.listings) nodes) := by
  induction nodes generalizing base number lo with
  | nil => rfl
  | cons n nodes ih =>
    rw [sites, List.flatMap_cons, ih, total_cons, List.range'_append_1]

/-- The number of a node is its place. -/
theorem getElem?_of_mem_sites (h : t ∈ sites base number lo nodes) :
    lo ≤ t.group ∧ nodes[t.group - lo]? = some t.node := by
  induction nodes generalizing base number lo with
  | nil => exact absurd h List.not_mem_nil
  | cons n nodes ih =>
    rcases List.mem_cons.mp h with rfl | h
    · simp
    · obtain ⟨hle, hn⟩ := ih h
      have hplace : t.group - lo = t.group - (lo + 1) + 1 := by omega
      rw [hplace, List.getElem?_cons_succ]
      exact ⟨by omega, hn⟩

theorem mem_nodes (h : t ∈ sites base number lo nodes) : t.node ∈ nodes :=
  List.mem_of_getElem? (getElem?_of_mem_sites h).2

theorem site_eq_of_group (ht : t ∈ sites base number lo nodes)
    (hu : u ∈ sites base number lo nodes) (h : t.group = u.group) : t = u :=
  List.inj_on_of_nodup_map nodup_groups ht hu (congrArg some h)

theorem exists_site (base number lo : Nat) (h : nodes[a]? = some n) :
    ∃ t ∈ sites base number lo nodes, t.group = lo + a ∧ t.node = n := by
  induction nodes generalizing a base number lo with
  | nil => cases h
  | cons m nodes ih =>
    cases a with
    | zero => exact ⟨_, List.mem_cons_self, rfl, Option.some.inj h⟩
    | succ a =>
      -- The numbers go on behind those of the first node.
      obtain ⟨t, ht, hgroup, hnode⟩ :=
        ih (base + blockCount m.listings) (number + guardCount m.listings) (lo + 1) h
      exact ⟨t, List.mem_cons_of_mem _ ht, by omega, hnode⟩

theorem exists_site_of_mem (base number lo : Nat) (h : n ∈ nodes) :
    ∃ t ∈ sites base number lo nodes, t.node = n := by
  obtain ⟨a, ha⟩ := List.mem_iff_getElem?.mp h
  obtain ⟨t, ht, -, hnode⟩ := exists_site base number lo ha
  exact ⟨t, ht, hnode⟩

variable (hrow : List.Forall₂ (Stands · · mid) (sites base number lo nodes) cs)

include hrow

theorem exists_carved (ht : t ∈ sites base number lo nodes) : ∃ c ∈ cs, Stands t c mid := by
  generalize sites base number lo nodes = ts at hrow ht
  induction hrow with
  | nil => exact absurd ht List.not_mem_nil
  | cons hstands _ ih =>
    rcases List.mem_cons.mp ht with rfl | ht
    · exact ⟨_, List.mem_cons_self, hstands⟩
    · obtain ⟨c, hc, h⟩ := ih ht
      exact ⟨c, List.mem_cons_of_mem _ hc, h⟩

theorem exists_stands (hc : c ∈ cs) : ∃ t ∈ sites base number lo nodes, Stands t c mid := by
  generalize sites base number lo nodes = ts at hrow
  induction hrow with
  | nil => exact absurd hc List.not_mem_nil
  | cons hstands _ ih =>
    rcases List.mem_cons.mp hc with rfl | hc
    · exact ⟨_, List.mem_cons_self, hstands⟩
    · obtain ⟨t, ht, h⟩ := ih hc
      exact ⟨t, List.mem_cons_of_mem _ ht, h⟩

theorem names_row : cs.map (·.name) = nodes.map (·.name) := by
  induction nodes generalizing base number lo cs with
  | nil =>
    cases hrow
    rfl
  | cons n nodes ih =>
    cases hrow with
    | cons hstands hrest => rw [List.map_cons, List.map_cons, ih hrest, hstands.ported.name]

theorem blocks_row :
    cs.flatMap (·.blocks) = (sites base number lo nodes).flatMap Site.blocks := by
  generalize sites base number lo nodes = ts at hrow
  induction hrow with
  | nil => rfl
  | cons hstands _ ih => rw [List.flatMap_cons, List.flatMap_cons, ih, hstands.blocks_eq]

end Row

/-! ### Whole graphs -/

/-- The blocks of a list that belong to the node with a given number. -/
def FlowGraph.ofGroup (g : FlowGraph) (ids : List BlockId) (a : Nat) : List BlockId :=
  ids.filter fun x => (g.links x).group = some a

/-- The blocks of a graph were made, from the number `base` on, and then its edges. -/
structure Built (g : Dot.Graph) (base : Nat) (cs : List CarvedNode) (ids : List BlockId)
    (mid new : FlowGraph) : Prop where
  ids_eq : ids = cs.flatMap (·.blocks)
  row : List.Forall₂ (Stands · · mid) (sites base 0 0 g.nodes) cs
  size : mid.blocks.size = base + total (fun n => blockCount n.listings) g.nodes
  joined : Joined mid cs g.edges new

section

variable {g : Dot.Graph} {base : Nat} {cs : List CarvedNode} {ids : List BlockId}
  {mid new : FlowGraph} {e : Dot.Edge} {x y : BlockId} {state state' : LoggedGraph}
  {s : CarveState}

theorem connects_lt (hrow : List.Forall₂ (Stands · · mid) (sites base 0 0 g.nodes) cs)
    (hconnects : Connects cs e x y) : x < mid.blocks.size := by
  obtain ⟨source, -, hsource, -, hexit, -⟩ := hconnects
  have hmem := List.mem_reverse.mp (List.mem_of_find?_eq_some hsource)
  obtain ⟨t, -, hstands⟩ := exists_stands hrow hmem
  exact hstands.lt_size (hstands.exit_mem hexit)

namespace Carve

/-- Whatever nodes and ports are called, blocks and edges are made as told. -/
theorem graph_built (g : Dot.Graph) (hnumber : s.controlling = 0) :
    Ensures (graph g) s fun ids s' => ∃ cs mid, Built g s.count cs ids mid s'.graph := by
  refine Ensures.bind ((nodes_stand g.nodes 0).ensures.mono ?_)
  rintro cs s₁ ⟨hrow, hsize, -⟩
  rw [hnumber] at hrow
  -- From here on only edges are made.
  have hedges := (edges_endsIff g.edges fun e x y => connects_lt hrow).ensures
  refine Ensures.bind (hedges.mono ?_)
  rintro - s₂ hjoined
  refine Ensures.bind (ensures_get (Ensures.bind (ensures_modify (ensures_pure ?_))))
  exact ⟨cs, s₁.graph, rfl, hrow, hsize, hjoined⟩

end Carve

theorem carve_built (h : carve g state = (.ok ids, state')) :
    ∃ cs mid, Built g state.graph.blocks.size cs ids mid state'.graph := by
  obtain ⟨s, hrun, rfl⟩ := graph_of_carve h
  exact Carve.graph_built g rfl ids s hrun

namespace Built

variable {t : Site} {c : CarvedNode} {k : Nat}

/-- A block was made for a port, and is known as it should be. -/
theorem exists_block (h : Built g base cs ids mid new) (ht : t ∈ sites base 0 0 g.nodes)
    (hk : IsMade t.listings k) :
    ∃ b, new.block? (t.blockOf k) = some b ∧ b.face = t.face k := by
  obtain ⟨c, -, hstands⟩ := exists_carved h.row ht
  have hface := hstands.face k hk
  rw [← h.joined.face] at hface
  exact Option.map_eq_some_iff.mp hface

theorem group_eq (h : Built g base cs ids mid new) (ht : t ∈ sites base 0 0 g.nodes)
    (hk : IsMade t.listings k) : (new.links (t.blockOf k)).group = some t.group := by
  obtain ⟨b, hb, hface⟩ := h.exists_block ht hk
  rw [FlowGraph.links_of_block? hb]
  exact congrArg Face.group hface

theorem insts_eq (h : Built g base cs ids mid new) (ht : t ∈ sites base 0 0 g.nodes)
    (hk : IsMade t.listings k) : new.insts .block (t.blockOf k) = t.listings.getD k [] := by
  obtain ⟨b, hb, hface⟩ := h.exists_block ht hk
  have hinsts : new.insts .block (t.blockOf k) = b.insts := FlowGraph.see_of_block? hb _ _
  exact hinsts.trans (congrArg Face.insts hface)

/-- The new blocks are those that were made for ports of the nodes. -/
theorem exists_blockOf_iff (h : Built g base cs ids mid new) : base ≤ x ∧ x < new.blocks.size ↔
    ∃ t ∈ sites base 0 0 g.nodes, ∃ k, IsMade t.listings k ∧ t.blockOf k = x := by
  rw [h.joined.size, h.size, ← List.mem_range'_1, ← bases_sites base 0 0, List.mem_flatMap]
  refine exists_congr fun t => and_congr_right fun _ => ?_
  rw [List.mem_range'_1]
  constructor
  · rintro ⟨hle, hlt⟩
    exact exists_blockOf hle hlt
  · rintro ⟨k, hk, rfl⟩
    exact ⟨base_le_blockOf, hk.blockOf_lt⟩

/-- A block was made for one port only. -/
theorem blockOf_inj (h : Built g base cs ids mid new) {u : Site} {j : Nat}
    (ht : t ∈ sites base 0 0 g.nodes) (hu : u ∈ sites base 0 0 g.nodes)
    (hk : IsMade t.listings k) (hj : IsMade u.listings j) (heq : u.blockOf j = t.blockOf k) :
    u = t ∧ j = k := by
  have hgroup : some u.group = some t.group := by
    rw [← h.group_eq hu hj, ← h.group_eq ht hk, heq]
  obtain rfl : u = t := site_eq_of_group hu ht (Option.some.inj hgroup)
  exact ⟨rfl, hj.blockOf_inj hk heq⟩

/-- The listed blocks are those that stand for ports of the nodes. -/
theorem mem_ids (h : Built g base cs ids mid new) : x ∈ ids ↔
    ∃ t ∈ sites base 0 0 g.nodes, x ∈ t.blocks := by
  rw [h.ids_eq, blocks_row h.row, List.mem_flatMap]

theorem ofGroup_eq (h : Built g base cs ids mid new) (ht : t ∈ sites base 0 0 g.nodes) :
    new.ofGroup ids t.group = t.blocks := by
  rw [FlowGraph.ofGroup, h.ids_eq, blocks_row h.row]
  refine filter_flatMap nodup_groups (fun u hu x hx => ?_) ht
  obtain ⟨k, hk, rfl⟩ := List.mem_map.mp hx
  exact h.group_eq hu (.inl hk)

end Built

end

end KernelIntervals
