/-
The edges between blocks, told from the graph alone.

* `Dot.Node.Leaves` — the block that edges through a port of a node leave from,
* `Dot.Graph.Sound` — what a graph has to be like to give blocks,
* `Stands.exit?_eq_some`, `find?_row` — ports and nodes are found by their names,
* `carve_wires` — the graphs that give blocks, and the successors of these.

Design notes: that a name is used once only matters where something is looked up by it. What is then
found is told by its place, so no later lemma speaks of look-ups.
-/
import KernelIntervals.Proofs.Rows

namespace KernelIntervals

/-! ### Looking up by name -/

/-- Where no two elements have the same key, the last one with a key is the one with it. -/
theorem find?_reverse_eq_some {α β : Type} [BEq β] [LawfulBEq β] {f : α → β} {xs : List α}
    (hnodup : (xs.map f).Nodup) {key : β} {x : α} :
    xs.reverse.find? (f · == key) = some x ↔ x ∈ xs ∧ f x = key := by
  constructor
  · intro h
    exact ⟨List.mem_reverse.mp (List.mem_of_find?_eq_some h), by simpa using List.find?_some h⟩
  · rintro ⟨hx, rfl⟩
    cases hfind : xs.reverse.find? (f · == f x) with
    | none =>
      have hnone := List.find?_eq_none.mp hfind x (List.mem_reverse.mpr hx)
      simp at hnone
    | some y =>
      have hy := List.mem_reverse.mp (List.mem_of_find?_eq_some hfind)
      have hkey : f y = f x := by simpa using List.find?_some hfind
      rw [List.inj_on_of_nodup_map hnodup hy hx hkey]

/-! ### Ways out of a node -/

namespace Dot

/-- The ports that an edge may leave a node through. -/
def Node.HasExit (n : Node) : Option String → Prop
  | none => True
  | some port => port = "entry" ∨ ∃ p ∈ n.ports, p.name = some port

/-- The one of the basic blocks of a node that edges through a port leave from: the last block, if
there is no port or it is the entry, else the last one that was made of a port up to that one, and
the first one if none was. -/
inductive Node.Leaves (n : Node) (blocks : List BlockId) : Option String → BlockId → Prop
  | plain {x : BlockId} (hx : blocks.getLast? = some x) : Leaves n blocks none x
  | entry {x : BlockId} (hx : blocks.getLast? = some x) : Leaves n blocks (some "entry") x
  | behind {k m : Nat} {p : Port} {port : String} {x : BlockId} (hp : n.ports[k]? = some p)
      (hname : p.name = some port) (hport : port ≠ "entry")
      (hm : lastBody? n.listings k = some m) (hx : (m, x) ∈ (bodies n.listings).zip blocks) :
      Leaves n blocks (some port) x
  | front {k : Nat} {p : Port} {port : String} {x : BlockId} (hp : n.ports[k]? = some p)
      (hname : p.name = some port) (hport : port ≠ "entry")
      (hnone : lastBody? n.listings k = none) (hx : blocks.head? = some x) :
      Leaves n blocks (some port) x

/-- The texts of all ports are instructions, and edges join nodes of the graph, through ports that
their sources have. -/
structure Graph.Sound (g : Graph) : Prop where
  ports : ∀ n ∈ g.nodes, ∀ p ∈ n.ports, ∃ insts, parseStatements p.text = .ok insts
  edges : ∀ e ∈ g.edges, (∃ n ∈ g.nodes, n.name = e.source ∧ n.HasExit e.port) ∧
    ∃ n ∈ g.nodes, n.name = e.target

end Dot

namespace Stands

variable {t : Site} {c : CarvedNode} {g : FlowGraph} {port : Option String} {x : BlockId}

theorem blocks_ne_nil (h : Stands t c g) : c.blocks ≠ [] := by
  rw [h.blocks_eq]
  exact fun hnil => homes_ne_nil (List.map_eq_nil_iff.mp hnil)

/-- The ports of a node are looked up by their names. -/
theorem find?_ports (h : Stands t c g) (hnodup : (t.node.ports.filterMap (·.name)).Nodup)
    {name : String} {last : Option BlockId} :
    c.ports.reverse.find? (·.1 == name) = some (name, last) ↔
      ∃ (k : Nat) (p : Dot.Port), t.node.ports[k]? = some p ∧ p.name = some name ∧
        last = (lastBody? t.listings k).map t.blockOf := by
  have hkeys : (c.ports.map (·.1)).Nodup := by
    rw [h.ported.names, List.take_length]
    exact hnodup
  rw [find?_reverse_eq_some hkeys, and_iff_left rfl, h.ported.mem_ports]
  constructor
  · rintro ⟨k, -, p, hp, hrest⟩
    exact ⟨k, p, hp, hrest⟩
  · rintro ⟨k, p, hp, hrest⟩
    exact ⟨k, (List.getElem?_eq_some_iff.mp hp).1, p, hp, hrest⟩

/-- The block that was made of a port. -/
theorem mem_zip (h : Stands t c g) {m : Nat} :
    (m, x) ∈ (bodies t.listings).zip c.blocks ↔ IsBody t.listings m ∧ t.blockOf m = x := by
  by_cases hnil : bodies t.listings = []
  · rw [hnil, List.zip_nil_left]
    refine iff_of_false List.not_mem_nil fun hm => ?_
    exact bodies_eq_nil_iff.mp hnil m hm.1.1
  · rw [h.blocks_eq, Site.blocks, homes_of_ne_nil hnil, mem_zip_map, mem_bodies]

/-- Edges leave from the block that they should leave from. -/
theorem exit?_eq_some (h : Stands t c g) (hnodup : (t.node.ports.filterMap (·.name)).Nodup) :
    c.exit? port = some x ↔ t.node.Leaves c.blocks port x := by
  cases port with
  | none =>
    constructor
    · exact .plain
    · rintro ⟨hx⟩
      exact hx
  | some name =>
    by_cases hentry : name = "entry"
    · subst hentry
      rw [CarvedNode.exit?, if_pos rfl]
      constructor
      · exact .entry
      · rintro (_ | hx | ⟨-, -, hport, -, -⟩ | ⟨-, -, hport, -, -⟩)
        · exact hx
        · exact absurd rfl hport
        · exact absurd rfl hport
    · rw [CarvedNode.exit?, if_neg hentry]
      constructor
      · intro hexit
        split at hexit
        next key block hfind =>
          obtain rfl : key = name := by simpa using List.find?_some hfind
          obtain rfl := Option.some.inj hexit
          obtain ⟨k, p, hp, hname, hlast⟩ := (h.find?_ports hnodup).mp hfind
          obtain ⟨m, hm, hblock⟩ := Option.map_eq_some_iff.mp hlast.symm
          exact .behind hp hname hentry hm
            (h.mem_zip.mpr ⟨(lastBody?_eq_some.mp hm).1.2, hblock⟩)
        next key hfind =>
          obtain rfl : key = name := by simpa using List.find?_some hfind
          obtain ⟨k, p, hp, hname, hlast⟩ := (h.find?_ports hnodup).mp hfind
          exact .front hp hname hentry (Option.map_eq_none_iff.mp hlast.symm) hexit
        next => cases hexit
      · rintro (_ | _ | ⟨hp, hname, -, hm, hx⟩ | ⟨hp, hname, -, hnone, hx⟩)
        · exact absurd rfl hentry
        · -- No other port has the name, so this one is found.
          rw [(h.find?_ports hnodup).mpr ⟨_, _, hp, hname, rfl⟩, hm]
          exact congrArg some (h.mem_zip.mp hx).2
        · rw [(h.find?_ports hnodup).mpr ⟨_, _, hp, hname, rfl⟩, hnone]
          exact hx

/-- Edges can leave through the ports of a node, and through no others. -/
theorem exists_leaves_iff (h : Stands t c g) :
    (∃ x, t.node.Leaves c.blocks port x) ↔ t.node.HasExit port := by
  have hlast : ∃ x, c.blocks.getLast? = some x := ⟨_, List.getLast?_eq_some_getLast h.blocks_ne_nil⟩
  constructor
  · rintro ⟨x, _ | _ | ⟨hp, hname, -, -, -⟩ | ⟨hp, hname, -, -, -⟩⟩
    · exact trivial
    · exact .inl rfl
    · exact .inr ⟨_, List.mem_of_getElem? hp, hname⟩
    · exact .inr ⟨_, List.mem_of_getElem? hp, hname⟩
  · intro hexit
    cases port with
    | none => exact hlast.imp fun x hx => .plain hx
    | some name =>
      by_cases hentry : name = "entry"
      · subst hentry
        exact hlast.imp fun x hx => .entry hx
      · -- A port leads to the last block made up to it, or to the first one behind it.
        obtain ⟨p, hmem, hname⟩ := hexit.resolve_left hentry
        obtain ⟨k, hk, rfl⟩ := List.mem_iff_getElem.mp hmem
        have hp : t.node.ports[k]? = some t.node.ports[k] := List.getElem?_eq_getElem hk
        cases hm : lastBody? t.listings k with
        | none =>
          obtain ⟨x, hx⟩ : ∃ x, c.blocks.head? = some x :=
            ⟨_, List.head?_eq_some_head h.blocks_ne_nil⟩
          exact ⟨x, .front hp hname hentry hm hx⟩
        | some m =>
          have hbody := (lastBody?_eq_some.mp hm).1.2
          exact ⟨t.blockOf m, .behind hp hname hentry hm (h.mem_zip.mpr ⟨hbody, rfl⟩)⟩

end Stands

/-! ### Graphs that give blocks -/

section

variable {g : Dot.Graph} {base a : Nat} {cs : List CarvedNode} {ids : List BlockId}
  {mid new : FlowGraph} {n : Dot.Node} {e : Dot.Edge} {x y : BlockId} {state state' : LoggedGraph}
  {s : CarveState}

section Names

variable (hrow : List.Forall₂ (Stands · · mid) (sites base 0 0 g.nodes) cs)
  (hnodes : (g.nodes.map (·.name)).Nodup)

include hrow hnodes

/-- The nodes of a graph are looked up by their names. -/
theorem find?_row {c : CarvedNode} {name : String} :
    cs.reverse.find? (·.name == name) = some c ↔ c ∈ cs ∧ c.name = name :=
  find?_reverse_eq_some (f := CarvedNode.name) (names_row hrow ▸ hnodes)

/-- An edge can be made exactly if it joins nodes of the graph, through a port of its source. -/
theorem exists_connects_iff (hports : ∀ n ∈ g.nodes, (n.ports.filterMap (·.name)).Nodup) :
    (∃ x y, Connects cs e x y) ↔ (∃ n ∈ g.nodes, n.name = e.source ∧ n.HasExit e.port) ∧
      ∃ n ∈ g.nodes, n.name = e.target := by
  constructor
  · rintro ⟨x, y, source, target, hsource, htarget, hexit, -⟩
    obtain ⟨hc, hname⟩ := (find?_row hrow hnodes).mp hsource
    obtain ⟨hd, hname'⟩ := (find?_row hrow hnodes).mp htarget
    obtain ⟨t, ht, hstands⟩ := exists_stands hrow hc
    obtain ⟨u, hu, hstands'⟩ := exists_stands hrow hd
    have hn := mem_nodes ht
    have hm := mem_nodes hu
    have hleaves := (hstands.exit?_eq_some (hports _ hn)).mp hexit
    refine ⟨⟨_, hn, ?_, hstands.exists_leaves_iff.mp ⟨x, hleaves⟩⟩, _, hm, ?_⟩
    · rw [← hstands.ported.name, hname]
    · rw [← hstands'.ported.name, hname']
  · rintro ⟨⟨n, hn, hname, hhas⟩, m, hm, hname'⟩
    obtain ⟨t, ht, rfl⟩ := exists_site_of_mem base 0 0 hn
    obtain ⟨u, hu, rfl⟩ := exists_site_of_mem base 0 0 hm
    obtain ⟨source, hc, hstands⟩ := exists_carved hrow ht
    obtain ⟨target, hd, hstands'⟩ := exists_carved hrow hu
    obtain ⟨x, hx⟩ := hstands.exists_leaves_iff.mpr hhas
    have hsource := (find?_row hrow hnodes).mpr ⟨hc, hstands.ported.name.trans hname⟩
    have htarget := (find?_row hrow hnodes).mpr ⟨hd, hstands'.ported.name.trans hname'⟩
    exact ⟨x, _, source, target, hsource, htarget, (hstands.exit?_eq_some (hports _ hn)).mpr hx,
      List.head?_eq_some_head hstands'.blocks_ne_nil⟩

end Names

namespace Carve

theorem endsIff_get {post : CarveState → CarveState → Prop} (h : post s s) :
    EndsIff get s True post :=
  ⟨trivial, h⟩

/-- Where no name is used twice, a graph gives blocks exactly if it is sound. -/
theorem graph_endsIff (hnodes : (g.nodes.map (·.name)).Nodup)
    (hports : ∀ n ∈ g.nodes, (n.ports.filterMap (·.name)).Nodup) (hnumber : s.controlling = 0) :
    EndsIff (graph g) s g.Sound fun _ _ => True := by
  have hsound : g.Sound ↔
      (∀ n ∈ g.nodes, ∀ p ∈ n.ports, ∃ insts, parseStatements p.text = .ok insts) ∧
        ∀ e ∈ g.edges, (∃ n ∈ g.nodes, n.name = e.source ∧ n.HasExit e.port) ∧
          ∃ n ∈ g.nodes, n.name = e.target :=
    ⟨fun h => ⟨h.ports, h.edges⟩, fun h => ⟨h.1, h.2⟩⟩
  rw [hsound]
  refine EndsIff.bind ((nodes_stand g.nodes 0).mono ?_)
  rintro cs s₁ ⟨hrow, -, -⟩
  rw [hnumber] at hrow
  have hedges := edges_endsIff g.edges fun e x y => connects_lt hrow
  simp only [exists_connects_iff hrow hnodes hports] at hedges
  refine (EndsIff.bind (hedges.mono ?_)).congr (iff_of_eq (and_true _))
  rintro - s₂ -
  exact EndsIff.andThen (endsIff_get (EndsIff.andThen (endsIff_modify (endsIff_pure trivial))))

end Carve

/-! ### Successors -/

/-- An edge of a graph, whose nodes have the given blocks, is one between two blocks. -/
def Dot.Graph.Connects (g : Dot.Graph) (blocks : Nat → List BlockId) (e : Dot.Edge)
    (x y : BlockId) : Prop :=
  ∃ (a b : Nat) (source target : Dot.Node), g.nodes[a]? = some source ∧ source.name = e.source ∧
    g.nodes[b]? = some target ∧ target.name = e.target ∧
      source.Leaves (blocks a) e.port x ∧ (blocks b).head? = some y

theorem Built.connects_iff (h : Built g base cs ids mid new)
    (hnodes : (g.nodes.map (·.name)).Nodup)
    (hports : ∀ n ∈ g.nodes, (n.ports.filterMap (·.name)).Nodup) :
    KernelIntervals.Connects cs e x y ↔ g.Connects (new.ofGroup ids) e x y := by
  constructor
  · rintro ⟨c, d, hsource, htarget, hexit, hentry⟩
    obtain ⟨hc, hname⟩ := (find?_row h.row hnodes).mp hsource
    obtain ⟨hd, hname'⟩ := (find?_row h.row hnodes).mp htarget
    obtain ⟨t, ht, hstands⟩ := exists_stands h.row hc
    obtain ⟨u, hu, hstands'⟩ := exists_stands h.row hd
    have hn := (getElem?_of_mem_sites ht).2
    refine ⟨t.group, u.group, t.node, u.node, hn, ?_, (getElem?_of_mem_sites hu).2, ?_, ?_, ?_⟩
    · rw [← hstands.ported.name, hname]
    · rw [← hstands'.ported.name, hname']
    · rw [h.ofGroup_eq ht, ← hstands.blocks_eq]
      exact (hstands.exit?_eq_some (hports _ (List.mem_of_getElem? hn))).mp hexit
    · rw [h.ofGroup_eq hu, ← hstands'.blocks_eq, hentry]
  · rintro ⟨a, b, n, m, hn, hname, hm, hname', hleaves, hentry⟩
    obtain ⟨t, ht, hgroup, rfl⟩ := exists_site base 0 0 hn
    obtain ⟨u, hu, hgroup', rfl⟩ := exists_site base 0 0 hm
    obtain ⟨c, hc, hstands⟩ := exists_carved h.row ht
    obtain ⟨d, hd, hstands'⟩ := exists_carved h.row hu
    rw [Nat.zero_add] at hgroup hgroup'
    rw [← hgroup, h.ofGroup_eq ht, ← hstands.blocks_eq] at hleaves
    rw [← hgroup', h.ofGroup_eq hu, ← hstands'.blocks_eq] at hentry
    have hsource := (find?_row h.row hnodes).mpr ⟨hc, hstands.ported.name.trans hname⟩
    have htarget := (find?_row h.row hnodes).mpr ⟨hd, hstands'.ported.name.trans hname'⟩
    exact ⟨c, d, hsource, htarget,
      (hstands.exit?_eq_some (hports _ (List.mem_of_getElem? hn))).mpr hleaves, hentry⟩

/-- The listed blocks are those of the nodes of a graph, one for each port that blocks stand for,
in order. The blocks of one node follow each other, and for each edge of the graph there is one
from the block that it leaves its source from to the first block of its target; no others. -/
structure Wired (g : Dot.Graph) (ids : List BlockId) (new : FlowGraph) : Prop where
  groups : ∀ x ∈ ids, ∃ a < g.nodes.length, x ∈ new.ofGroup ids a
  insts : ∀ a n, g.nodes[a]? = some n →
    (new.ofGroup ids a).map (new.insts .block) = (homes n.listings).map (n.listings.getD · [])
  succs : ∀ x ∈ ids, ∀ y, y ∈ new.succs .block x ↔
    (∃ a, [x, y] <:+: new.ofGroup ids a) ∨ ∃ e ∈ g.edges, g.Connects (new.ofGroup ids) e x y

theorem Built.wired (h : Built g base cs ids mid new) (hnodes : (g.nodes.map (·.name)).Nodup)
    (hports : ∀ n ∈ g.nodes, (n.ports.filterMap (·.name)).Nodup) : Wired g ids new := by
  refine ⟨fun x hx => ?_, fun a n hn => ?_, fun x hx y => ?_⟩
  · obtain ⟨t, ht, hx⟩ := h.mem_ids.mp hx
    have hn := (getElem?_of_mem_sites ht).2
    exact ⟨t.group, (List.getElem?_eq_some_iff.mp hn).1, h.ofGroup_eq ht ▸ hx⟩
  · obtain ⟨t, ht, hgroup, rfl⟩ := exists_site base 0 0 hn
    rw [Nat.zero_add] at hgroup
    rw [← hgroup, h.ofGroup_eq ht, Site.blocks, List.map_map]
    exact List.map_congr_left fun k hk => h.insts_eq ht (.inl hk)
  · obtain ⟨t, ht, hx⟩ := h.mem_ids.mp hx
    obtain ⟨c, -, hstands⟩ := exists_carved h.row ht
    have hown : y ∈ mid.succs .block x ↔ ∃ a, [x, y] <:+: new.ofGroup ids a := by
      rw [hstands.succs x (hstands.blocks_eq ▸ hx), hstands.blocks_eq, ← h.ofGroup_eq ht]
      refine ⟨fun hpair => ⟨t.group, hpair⟩, ?_⟩
      rintro ⟨b, hpair⟩
      -- The block belongs to one node only.
      have ha := (List.mem_filter.mp (h.ofGroup_eq ht ▸ hx : x ∈ new.ofGroup ids t.group)).2
      have hb := (List.mem_filter.mp (hpair.subset List.mem_cons_self)).2
      simp only [decide_eq_true_eq] at ha hb
      obtain rfl : t.group = b := Option.some.inj (ha.symm.trans hb)
      exact hpair
    rw [h.joined.succs, hown]
    simp only [h.connects_iff hnodes hports]

/-- A graph whose nodes have distinct names, as have the ports of each of them, gives blocks exactly
if it is sound. The edges between the blocks are then those of the graph, and those from one block
of a node to the next one. -/
theorem carve_wires (g : Dot.Graph) (state : LoggedGraph)
    (hnodes : (g.nodes.map (·.name)).Nodup)
    (hports : ∀ n ∈ g.nodes, (n.ports.filterMap (·.name)).Nodup) :
    ((∃ ids, (carve g state).1 = .ok ids) ↔ g.Sound) ∧
      ∀ ids state', carve g state = (.ok ids, state') → Wired g ids state'.graph := by
  refine ⟨?_, fun ids state' h => ?_⟩
  · have hends := Carve.graph_endsIff (s := { state with }) hnodes hports rfl
    rw [carve]
    cases hrun : Carve.graph g { state with } with
    | ok ids s =>
      rw [Carve.EndsIff, hrun] at hends
      exact iff_of_true ⟨ids, rfl⟩ hends.1
    | error e s =>
      rw [Carve.EndsIff, hrun] at hends
      refine iff_of_false ?_ hends
      rintro ⟨ids, hids⟩
      cases hids
  · obtain ⟨cs, mid, hbuilt⟩ := carve_built h
    exact hbuilt.wired hnodes hports

end

/-- A node with empty ports around two blocks and the controlling block of the second one, and a
node without instructions. -/
def wiredPair : Dot.Graph where
  nodes := [⟨"a", [⟨some "early", ""⟩, ⟨some "entry", "MOV R1, R2 ;"⟩, ⟨none, "MOV R3, R4 ;"⟩,
      ⟨some "exit", "@P0 BRA b ;"⟩, ⟨some "late", ""⟩]⟩, ⟨"b", [⟨some "entry", ""⟩]⟩]
  edges := [⟨"a", some "early", "b"⟩, ⟨"a", some "exit", "a"⟩, ⟨"b", none, "b"⟩,
    ⟨"a", some "entry", "b"⟩]

theorem wires_wiredPair :
    (wiredPair.nodes.map (·.name)).Nodup ∧
      (∀ n ∈ wiredPair.nodes, (n.ports.filterMap (·.name)).Nodup) ∧ wiredPair.Sound ∧
      Wired wiredPair [0, 1, 3] (carve wiredPair {}).2.graph ∧
      [0, 1, 3].map ((carve wiredPair {}).2.graph.succs .block) = [[1, 3], [0, 3], [3]] := by
  have hnodes : (wiredPair.nodes.map (·.name)).Nodup := by decide
  have hports : ∀ n ∈ wiredPair.nodes, (n.ports.filterMap (·.name)).Nodup := by decide
  have hok : (carve wiredPair {}).1 = .ok [0, 1, 3] := by decide +kernel
  obtain ⟨hiff, hwired⟩ := carve_wires wiredPair {} hnodes hports
  exact ⟨hnodes, hports, hiff.mp ⟨_, hok⟩, hwired _ _ (Prod.ext hok rfl), by decide +kernel⟩

end KernelIntervals
