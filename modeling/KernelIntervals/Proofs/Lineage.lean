/-
What a first pass does to blocks, whatever is asked about them.

* `SameBlocks` — blocks with the same instructions, edges and links,
* `CleanCut` — a reachable block of a closed net, cut between two of its instructions,
* `Lineage` — a relation between the blocks before and after, known for these two,
* `Lineage.moves`, `Lineage.firstPass`, `Lineage.run` — it then holds of the loop of a
  pass, of the pass, and of a run.

Design notes: a pass cuts blocks and changes them in no other way that a lineage can
see. What is to be shown of all blocks of a pass is therefore shown for one cut.
-/
import KernelIntervals.Proofs.FirstPass

namespace KernelIntervals

open Function Relation

/-- All blocks have the same instructions, edges and links. -/
structure SameBlocks (g g' : FlowGraph) : Prop where
  size : g'.blocks.size = g.blocks.size
  links : g'.links = g.links
  insts : g'.insts .block = g.insts .block
  preds : g'.preds .block = g.preds .block
  succs : g'.succs .block = g.succs .block

/-- The block `b` of the id `head`, one of the reachable `nodes` of `g`, is cut between
two of its instructions. -/
structure CleanCut (nodes : List BlockId) (g : FlowGraph) (head : BlockId) (b : Block)
    (place : Nat) (running : RegSet) (name : String) (g' : FlowGraph) : Prop where
  closed : (g.net .block nodes).Closed
  nodup : nodes.Nodup
  fresh : g.blocks.size ∉ nodes
  mem : head ∈ nodes
  reachable : (g.net .block nodes).Reachable head
  block : g.block? head = some b
  place_pos : 0 < place
  place_lt : place < b.insts.length
  severed : Severed g head b place running name g'
  net : g'.net .block (nodes ++ [g.blocks.size]) = (g.net .block nodes).cut head g.blocks.size

/-- A relation between some blocks of a graph and some blocks of a later one, which holds
if all blocks are the same and if one of them was cut. -/
structure Lineage (R : FlowGraph → List BlockId → FlowGraph → List BlockId → Prop) : Prop where
  same : ∀ {g g' nodes}, SameBlocks g g' → R g nodes g' nodes
  trans : ∀ {g₀ nodes₀ g₁ nodes₁ g nodes}, R g₀ nodes₀ g₁ nodes₁ → R g₁ nodes₁ g nodes →
    R g₀ nodes₀ g nodes
  cut : ∀ {nodes g head b place running name g'},
    CleanCut nodes g head b place running name g' → R g nodes g' (nodes ++ [g.blocks.size])

variable {g g' : FlowGraph} {base budget : Nat} {w w' w₁ w₂ : Workspace} {m m' : Moment}
  {n : BlockId} {i : IntervalId} {b : Block} {opener : IntervalId → Nat}
  {blocks : List BlockId} {R : FlowGraph → List BlockId → FlowGraph → List BlockId → Prop}

/-! ### Blocks that are the same -/

theorem SameBlocks.trans {g₁ : FlowGraph} (h : SameBlocks g g₁) (h' : SameBlocks g₁ g') :
    SameBlocks g g' where
  size := h'.size.trans h.size
  links := h'.links.trans h.links
  insts := h'.insts.trans h.insts
  preds := h'.preds.trans h.preds
  succs := h'.succs.trans h.succs

theorem SameBlocks.net (h : SameBlocks g g') (nodes : List BlockId) :
    g'.net .block nodes = g.net .block nodes := by
  rw [FlowGraph.net, FlowGraph.net, h.preds, h.succs]

theorem SameBodies.sameBlocks (h : SameBodies g g') : SameBlocks g g' :=
  ⟨h.size, h.links, congrFun h.insts .block, congrFun h.preds .block, congrFun h.succs .block⟩

theorem sameBlocks_of_eq (h : g'.blocks = g.blocks) : SameBlocks g g' where
  size := congrArg Arena.size h
  links := by
    funext n
    rw [FlowGraph.links, FlowGraph.links, FlowGraph.block?, FlowGraph.block?, h]
  insts := FlowGraph.see_block_congr h
  preds := FlowGraph.see_block_congr h
  succs := FlowGraph.see_block_congr h

theorem sameBlocks_outputs (g : FlowGraph) (n : BlockId) (regs : RegSet) :
    SameBlocks g (g.modifyBlock n ({ · with outputs := regs })) where
  size := Arena.size_modify ..
  links := FlowGraph.links_modifyBlock fun _ => rfl
  insts := FlowGraph.see_modifyBlock fun _ => rfl
  preds := FlowGraph.see_modifyBlock fun _ => rfl
  succs := FlowGraph.see_modifyBlock fun _ => rfl

/-! ### The moves of a pass -/

/-- A reachable block that is settled is cut between two of its instructions, if it is cut. -/
theorem Lineage.settled (hR : Lineage R) (h : Settled budget n b w w')
    (hu : Underway .block base (some i) opener w) (hb : w.graph.block? n = some b)
    (hn : n ∈ w.members) (hown : w.graph.owner .block n = some i) :
    R w.graph w.members w'.graph w'.members := by
  cases h with
  | whole => exact hR.same (sameBlocks_outputs ..)
  | @parted place name g' log hplace hg =>
    obtain ⟨hpos, hlt⟩ := splitPoint_bounds (Prod.ext hplace rfl)
    have hcut : R w.graph w.members g' (w.members ++ [w.graph.blocks.size]) :=
      hR.cut ⟨hu.closed, hu.nodup, hu.size_not_mem, hn, hu.grouped.reachable hn hown, hb, hpos,
        hlt, hg, hu.net_severed hb hn hg⟩
    -- The tail opens a region, which changes no block.
    exact hR.trans hcut (hR.same (sameBodies_openGroup
      { w with graph := g', log, members := w.members ++ [w.graph.blocks.size] } ..).sameBlocks)

theorem Lineage.synced (hR : Lineage R) (h : Synced .block i w w') :
    R w.graph w.members w'.graph w'.members := by
  obtain ⟨regs, _, rfl⟩ := h
  exact hR.same (sameBlocks_of_eq rfl)

theorem Lineage.move (hR : Lineage R) (h : Sound .block base m.1 m.2)
    (hm : BlockMove budget m m') : R m.2.graph m.2.members m'.2.graph m'.2.members := by
  cases hm with
  | @take w w₁ w₂ n rest i b hwork hown hb hset hsync =>
    obtain ⟨j, hn, hj, _, ⟨opener, hu⟩, _⟩ := h.pop hwork
    have hij : j = i := Option.some.inj (hj.symm.trans hown)
    subst hij
    have hsettled := hR.settled hset hu hb hn hown
    exact hR.trans hsettled (hR.synced hsync)
  | mark marker => exact hR.same (SameBodies.refl _).sameBlocks
  | @join w w₁ w₂ n i b live hn hadm _ hb hset hsync =>
    obtain ⟨⟨opener, hu⟩, _⟩ := h.claim live hn hadm
    have hown : (w.claim i n live).graph.owner .block n = some i := by
      rw [owner_claim live (h.lt_extent hn), update_self]
    have hclaim : R w.graph w.members (w.claim i n live).graph w.members :=
      hR.same (sameBodies_claim w i n live).sameBlocks
    exact hR.trans (hR.trans hclaim (hR.settled hset hu hb hn hown)) (hR.synced hsync)
  | leave hopens hdone =>
    rw [hopens.members]
    exact hR.same hopens.sameBodies.sameBlocks

theorem Lineage.moves (hR : Lineage R) (h : Sound .block base m.1 m.2)
    (hm : ReflTransGen (BlockMove budget) m m') :
    R m.2.graph m.2.members m'.2.graph m'.2.members := by
  induction hm with
  | refl => exact hR.same (SameBodies.refl _).sameBlocks
  | tail hpath hstep ih => exact hR.trans ih (hR.move (h.moves hpath) hstep)

/-! ### Passes and runs -/

theorem Lineage.firstPass (hR : Lineage R) (h : FirstPass budget blocks w w₁ w₂) :
    R w.graph blocks w₂.graph w₂.members := by
  obtain ⟨w₀, hcleared, hopens⟩ := h.cleared
  have hstart : R w.graph blocks w₁.graph w₁.members := by
    rw [hopens.members, hcleared.members]
    exact hR.same (hcleared.bodies.trans hopens.sameBodies).sameBlocks
  exact hR.trans hstart (hR.moves h.sound h.moves)

/-- The blocks that a run returns descend from those that it was given. -/
theorem Lineage.run (hR : Lineage R) {p : BlockGrouper} {state : LoggedGraph}
    {ig : IntervalGraph} (hnodup : blocks.Nodup) (h : (p.run blocks state).result = .ok ig) :
    R state.graph blocks (p.run blocks state).state.graph ig.blocks := by
  obtain ⟨_, _, hpass, hblocks, _, hsame, _⟩ := run_eq_ok hnodup h
  rw [hblocks]
  exact hR.trans (hR.firstPass hpass) (hR.same (sameBlocks_of_eq hsame))

end KernelIntervals
