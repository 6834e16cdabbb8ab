/-
The blocks that controlling blocks guard.

* `segments`, `FlowGraph.createdOf`, `MadeOf` — the blocks that are made of the ports of a node,
* `Built.mem_created`, `Built.madeOf_iff` — which block is made of which port,
* `Built.control_eq_some` — the controlling block of a basic block is the last one behind it,
* `carve_guards` — each controlling block guards the block before it, or no block at all.

Design notes: a block has room for one controlling block. A second one behind the same block takes
the place of the first one, which guards nothing from then on. So what is true of controlling blocks
is told with the ports behind theirs, and all of them are kept exactly if no two stand behind the
same block.
-/
import KernelIntervals.Proofs.Rows

namespace KernelIntervals

/-! ### Blocks made of ports -/

/-- The ports of a node that have instructions. -/
def segments (ls : List (List Inst)) : List Nat := (List.range ls.length).filter (HasInsts ls ·)

/-- The blocks that were made for the node with a given number. -/
def FlowGraph.createdOf (old new : FlowGraph) (a : Nat) : List BlockId :=
  (old.created new).filter fun x => (new.links x).group = some a

/-- A block was made of a port, whose instructions it has. The blocks of a node were made of its
ports with instructions, one of each, in order. -/
def MadeOf (old new : FlowGraph) (a : Nat) (n : Dot.Node) (k : Nat) (x : BlockId) : Prop :=
  (k, x) ∈ (segments n.listings).zip (old.createdOf new a) ∧
    new.insts .block x = n.listings.getD k []

variable {ls : List (List Inst)} {base k m n number lo : Nat} {nodes : List Dot.Node}

theorem map_blockOf_range (base : Nat) (ls : List (List Inst)) (n : Nat) :
    ((List.range n).filter (HasInsts ls ·)).map (blockOf base ls) =
      List.range' base (Nat.count (HasInsts ls) n) := by
  induction n with
  | zero => rfl
  | succ n ih =>
    rw [filter_range_succ, List.map_append, ih, Nat.count_succ]
    split
    · rw [List.range'_concat, Nat.one_mul]
      rfl
    · simp

/-- The blocks of a node with instructions are numbered in the order of the ports. -/
theorem map_blockOf_segments (h : segments ls ≠ []) :
    (segments ls).map (blockOf base ls) = List.range' base (blockCount ls) := by
  have hne : bodies ls ≠ [] := by
    intro hnil
    obtain ⟨k, hk⟩ := List.exists_mem_of_ne_nil _ h
    have hinsts : HasInsts ls k := by simpa using (List.mem_filter.mp hk).2
    exact bodies_eq_nil_iff.mp hnil k hinsts
  rw [segments, map_blockOf_range, blockCount_eq hne]

theorem mem_segments : k ∈ segments ls ↔ HasInsts ls k := by
  simp only [segments, List.mem_filter, List.mem_range, decide_eq_true_eq, and_iff_right_iff_imp]
  exact HasInsts.lt_length

namespace Built

variable {g : Dot.Graph} {old mid new : FlowGraph} {cs : List CarvedNode} {ids : List BlockId}
  {t : Site} {x y : BlockId} {k m : Nat}

theorem created_eq (h : Built g old.blocks.size cs ids mid new) : old.created new =
    (sites old.blocks.size 0 0 g.nodes).flatMap
      fun t => List.range' t.base (blockCount t.listings) := by
  rw [bases_sites, FlowGraph.created, h.joined.size, h.size, Nat.add_sub_cancel_left]

/-- A new block was made for a port of one of the nodes. -/
theorem mem_created (h : Built g old.blocks.size cs ids mid new) : x ∈ old.created new ↔
    ∃ t ∈ sites old.blocks.size 0 0 g.nodes, ∃ k, IsMade t.listings k ∧ t.blockOf k = x := by
  have hle : old.blocks.size ≤ new.blocks.size := by
    rw [h.joined.size, h.size]
    exact Nat.le_add_right ..
  rw [← h.exists_blockOf_iff, FlowGraph.created, List.mem_range'_1, Nat.add_sub_cancel' hle]

theorem createdOf_eq (h : Built g old.blocks.size cs ids mid new)
    (ht : t ∈ sites old.blocks.size 0 0 g.nodes) :
    old.createdOf new t.group = List.range' t.base (blockCount t.listings) := by
  rw [FlowGraph.createdOf, h.created_eq]
  refine filter_flatMap nodup_groups (fun u hu x hx => ?_) ht
  obtain ⟨hle, hlt⟩ := List.mem_range'_1.mp hx
  obtain ⟨k, hk, rfl⟩ := exists_blockOf hle hlt
  exact h.group_eq hu hk

/-- The block that was made of a port. -/
theorem madeOf_iff (h : Built g old.blocks.size cs ids mid new)
    (ht : t ∈ sites old.blocks.size 0 0 g.nodes) :
    MadeOf old new t.group t.node k x ↔ HasInsts t.listings k ∧ t.blockOf k = x := by
  have hzip : (k, x) ∈ (segments t.listings).zip (old.createdOf new t.group) ↔
      HasInsts t.listings k ∧ t.blockOf k = x := by
    rw [h.createdOf_eq ht]
    by_cases hnil : segments t.listings = []
    · rw [hnil, List.zip_nil_left, ← mem_segments, hnil]
      simp
    · rw [← map_blockOf_segments hnil, mem_zip_map, mem_segments]
  rw [MadeOf, hzip, and_iff_left_iff_imp]
  rintro ⟨hinsts, rfl⟩
  exact h.insts_eq ht hinsts.isMade

/-! ### Controlling blocks -/

theorem isControlling_iff (h : Built g old.blocks.size cs ids mid new)
    (ht : t ∈ sites old.blocks.size 0 0 g.nodes) (hk : IsMade t.listings k) :
    new.IsControlling (t.blockOf k) ↔ IsGuard t.listings k := by
  obtain ⟨b, hb, hface⟩ := h.exists_block ht hk
  have hflag : b.controlling = decide (IsGuard t.listings k) := congrArg Face.controlling hface
  constructor
  · rintro ⟨b', hb', hcontrolling⟩
    obtain rfl : b = b' := Option.some.inj (hb.symm.trans hb')
    rw [hflag] at hcontrolling
    exact of_decide_eq_true hcontrolling
  · intro hguard
    exact ⟨b, hb, hflag.trans (decide_eq_true hguard)⟩

/-- A controlling block guards the basic block before it, unless one of a later port does. -/
theorem control_eq_some (h : Built g old.blocks.size cs ids mid new) (hy : y ∈ ids)
    (ht : t ∈ sites old.blocks.size 0 0 g.nodes) (hk : IsGuard t.listings k)
    (hm : lastBody? t.listings k = some m) : (new.links y).control = some (t.blockOf k) ↔
      y = t.blockOf m ∧ ∀ j ∈ guards t.listings, lastBody? t.listings j = some m → j ≤ k := by
  obtain ⟨u, hu, hy⟩ := h.mem_ids.mp hy
  obtain ⟨i, hi, rfl⟩ := List.mem_map.mp hy
  obtain ⟨c, -, hstands⟩ := exists_carved h.row hu
  have hbody := (lastBody?_eq_some.mp hm).1.2
  rw [h.joined.links, hstands.control i hi, Option.map_eq_some_iff]
  simp only [guardBehind?_eq_some]
  constructor
  · rintro ⟨j, ⟨⟨-, hj, hlast⟩, hgreatest⟩, heq⟩
    -- The block is the one of the same port of the same node.
    obtain ⟨rfl, rfl⟩ := h.blockOf_inj ht hu (.inr hk) (.inr hj) heq
    obtain rfl : i = m := Option.some.inj (hlast.symm.trans hm)
    refine ⟨rfl, fun j hj hlast => hgreatest ⟨?_, mem_guards.mp hj, hlast⟩⟩
    exact (mem_guards.mp hj).hasInsts.lt_length
  · rintro ⟨heq, hgreatest⟩
    obtain ⟨rfl, rfl⟩ := h.blockOf_inj ht hu hbody.1.isMade (.inl hi) heq
    refine ⟨k, ⟨⟨hk.hasInsts.lt_length, hk, hm⟩, ?_⟩, rfl⟩
    rintro j ⟨-, hj, hlast⟩
    exact hgreatest j (mem_guards.mpr hj) hlast

/-- A controlling block was made for a port behind one that became a basic block. -/
theorem exists_guard_of_created (h : Built g old.blocks.size cs ids mid new)
    (hx : x ∈ old.created new) (hcontrolling : new.IsControlling x) :
    ∃ t ∈ sites old.blocks.size 0 0 g.nodes, ∃ k m, IsGuard t.listings k ∧
      lastBody? t.listings k = some m ∧ t.blockOf k = x := by
  obtain ⟨t, ht, k, hk, rfl⟩ := h.mem_created.mp hx
  have hguard := (h.isControlling_iff ht hk).mp hcontrolling
  obtain ⟨m, hm⟩ := hguard.exists_lastBody
  exact ⟨t, ht, k, m, hguard, hm, rfl⟩

theorem blockOf_mem_ids (h : Built g old.blocks.size cs ids mid new)
    (ht : t ∈ sites old.blocks.size 0 0 g.nodes) (hm : lastBody? t.listings k = some m) :
    t.blockOf m ∈ ids :=
  h.mem_ids.mpr ⟨t, ht, Site.blockOf_mem_blocks (lastBody?_eq_some.mp hm).1.2⟩

/-- If a controlling block guards a block, it is the last one behind it. -/
theorem le_of_guarded (h : Built g old.blocks.size cs ids mid new)
    (hall : ∀ c ∈ old.created new, new.IsControlling c →
      ∃! y, y ∈ ids ∧ (new.links y).control = some c)
    (ht : t ∈ sites old.blocks.size 0 0 g.nodes) {j : Nat} (hk : k ∈ guards t.listings)
    (hj : j ∈ guards t.listings) (hm : lastBody? t.listings k = some m)
    (hlast : lastBody? t.listings j = some m) : j ≤ k := by
  have hguard := mem_guards.mp hk
  have hcreated := h.mem_created.mpr ⟨t, ht, k, .inr hguard, rfl⟩
  have hcontrolling := (h.isControlling_iff ht (.inr hguard)).mpr hguard
  obtain ⟨y, ⟨hy, hcontrol⟩, -⟩ := hall _ hcreated hcontrolling
  exact ((h.control_eq_some hy ht hguard hm).mp hcontrol).2 j hj hlast

/-- All controlling blocks guard a block if and only if no two stand behind the same one. -/
theorem guard_once_iff (h : Built g old.blocks.size cs ids mid new) :
    (∀ c ∈ old.created new, new.IsControlling c →
        ∃! y, y ∈ ids ∧ (new.links y).control = some c) ↔
      ∀ n ∈ g.nodes, ∀ j ∈ guards n.listings, ∀ k ∈ guards n.listings,
        lastBody? n.listings j = lastBody? n.listings k → j = k := by
  constructor
  · intro hall n hn j hj k hk hsame
    obtain ⟨t, ht, rfl⟩ := exists_site_of_mem old.blocks.size 0 0 hn
    obtain ⟨m, hm⟩ := (mem_guards.mp hk).exists_lastBody
    -- Neither of the two is behind the other.
    have hlast := hsame.trans hm
    exact Nat.le_antisymm (h.le_of_guarded hall ht hk hj hm hlast)
      (h.le_of_guarded hall ht hj hk hlast hm)
  · intro honce c hc hcontrolling
    obtain ⟨t, ht, k, m, hk, hm, rfl⟩ := h.exists_guard_of_created hc hcontrolling
    have hmem := h.blockOf_mem_ids ht hm
    have hlast : ∀ j ∈ guards t.listings, lastBody? t.listings j = some m → j ≤ k := by
      intro j hj hlast
      exact Nat.le_of_eq (honce _ (mem_nodes ht) j hj k (mem_guards.mpr hk) (hlast.trans hm.symm))
    refine ⟨t.blockOf m, ⟨hmem, ?_⟩, fun y hy => ?_⟩
    · exact (h.control_eq_some hmem ht hk hm).mpr ⟨rfl, hlast⟩
    · exact ((h.control_eq_some hy.1 ht hk hm).mp hy.2).1

end Built

/-- Each controlling block that carving makes is made of a port of a node. Of the basic blocks it
guards the one before it in the node and no other, and this one exactly if no later port of the node
gives a controlling block behind the same basic block. So every controlling block guards exactly
one basic block if and only if in no node two of them stand behind the same basic block. -/
theorem carve_guards {g : Dot.Graph} {state state' : LoggedGraph} {ids : List BlockId}
    (h : carve g state = (.ok ids, state')) :
    let old := state.graph
    let new := state'.graph
    (∀ c ∈ old.created new, new.IsControlling c → ∃ (a : Nat) (n : Dot.Node) (k m : Nat)
      (x : BlockId), g.nodes[a]? = some n ∧ k ∈ guards n.listings ∧ MadeOf old new a n k c ∧
        lastBody? n.listings k = some m ∧ MadeOf old new a n m x ∧ x ∈ ids ∧
        ∀ y ∈ ids, (new.links y).control = some c ↔
          y = x ∧ ∀ j ∈ guards n.listings, lastBody? n.listings j = some m → j ≤ k) ∧
    ((∀ c ∈ old.created new, new.IsControlling c →
        ∃! y, y ∈ ids ∧ (new.links y).control = some c) ↔
      ∀ n ∈ g.nodes, ∀ j ∈ guards n.listings, ∀ k ∈ guards n.listings,
        lastBody? n.listings j = lastBody? n.listings k → j = k) := by
  intro old new
  obtain ⟨cs, mid, hbuilt⟩ := carve_built h
  refine ⟨fun c hc hcontrolling => ?_, hbuilt.guard_once_iff⟩
  obtain ⟨t, ht, k, m, hk, hm, rfl⟩ := hbuilt.exists_guard_of_created hc hcontrolling
  refine ⟨t.group, t.node, k, m, t.blockOf m, (getElem?_of_mem_sites ht).2, mem_guards.mpr hk,
    (hbuilt.madeOf_iff ht).mpr ⟨hk.hasInsts, rfl⟩, hm, (hbuilt.madeOf_iff ht).mpr ⟨?_, rfl⟩,
    hbuilt.blockOf_mem_ids ht hm, fun y hy => hbuilt.control_eq_some hy ht hk hm⟩
  exact (lastBody?_eq_some.mp hm).1.2.1

/-- A block with two controlling blocks behind it. -/
def guardedTwice : Dot.Graph where
  nodes := [⟨"a", [⟨some "entry", "MOV R1, R2 ;"⟩, ⟨some "exit0", "@P0 BRA b ;"⟩,
    ⟨some "exit1", "@P1 BRA c ;"⟩]⟩]

/-- The second one guards the block. -/
theorem guards_guardedTwice :
    let new := (carve guardedTwice {}).2.graph
    (carve guardedTwice {}).1 = .ok [0] ∧ new.IsControlling 2 ∧
      (∃ (a : Nat) (n : Dot.Node) (k m : Nat) (x : BlockId), guardedTwice.nodes[a]? = some n ∧
        k ∈ guards n.listings ∧ MadeOf {} new a n k 2 ∧ lastBody? n.listings k = some m ∧
        MadeOf {} new a n m x ∧ x ∈ [0] ∧ ∀ y ∈ [0], (new.links y).control = some 2 ↔
          y = x ∧ ∀ j ∈ guards n.listings, lastBody? n.listings j = some m → j ≤ k) ∧
      (new.links 0).control = some 2 := by
  intro new
  have hok : (carve guardedTwice {}).1 = .ok [0] := by decide +kernel
  have hcontrolling : new.IsControlling 2 :=
    (Option.any_eq_true Block.controlling _).mp (by decide +kernel)
  obtain ⟨hguards, -⟩ := carve_guards (Prod.ext hok rfl)
  exact ⟨hok, hcontrolling, hguards 2 (by decide +kernel) hcontrolling, by decide +kernel⟩

/-- The first one guards nothing. -/
theorem orphan_guardedTwice : ∃ ids state', carve guardedTwice {} = (.ok ids, state') ∧
    ∃ c ∈ ({} : FlowGraph).created state'.graph, state'.graph.IsControlling c ∧
      ¬ ∃ y ∈ ids, (state'.graph.links y).control = some c := by
  have hok : (carve guardedTwice {}).1 = .ok [0] := by decide +kernel
  refine ⟨[0], _, Prod.ext hok rfl, 1, by decide +kernel, ?_, by decide +kernel⟩
  exact (Option.any_eq_true Block.controlling _).mp (by decide +kernel)

end KernelIntervals
