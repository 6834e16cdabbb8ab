/-
The blocks that carving makes.

* `Segment` — the instructions that one block is made of,
* `FlowGraph.pieces` — what the blocks of a graph keep while it is carved,
* `Tidy` — the listed blocks are well formed, and have no edge twice,
* `Adds` — blocks were made of some segments, and the basic ones among them are listed,
* `Adds.mem_iff`, `Adds.regs_eq`, `Adds.instsOfGroup_eq` — what is seen of them then.

Design notes: the instructions of a block stay as they are once it is made, but its edges
do not. So the blocks made are told as a list that only grows, and their edges as an
invariant of those listed so far, whichever were listed before.
-/
import KernelIntervals.Flow.Carve
import KernelIntervals.Proofs.Upkeep

namespace KernelIntervals

variable {g g' : FlowGraph} {b : Block} {n c : BlockId} {ids ids' listed : List BlockId}
  {s s₁ s' : CarveState} {x : Segment} {xs ys : List Segment} {lo m : Nat}

/-! ### Segments and the blocks made of them -/

/-- The instructions of a node that one block is made of. -/
structure Segment where
  group : Nat
  insts : List Inst
  controlling : Bool

/-- What a block keeps while a graph is carved. -/
structure Piece where
  insts : List Inst
  outputs : RegSet
  group : Option Nat
  controlling : Bool

def Segment.piece (x : Segment) : Piece :=
  ⟨x.insts, instRegs x.insts, some x.group, x.controlling⟩

def Block.piece (b : Block) : Piece := ⟨b.insts, b.outputs, b.group, b.controlling⟩

/-- The numbers of the basic blocks, when blocks are made of some segments and get the
numbers from `lo` on. -/
def basics : Nat → List Segment → List Nat
  | _, [] => []
  | lo, x :: xs => if x.controlling then basics (lo + 1) xs else lo :: basics (lo + 1) xs

theorem basics_append (lo : Nat) (xs ys : List Segment) :
    basics lo (xs ++ ys) = basics lo xs ++ basics (lo + xs.length) ys := by
  induction xs generalizing lo with
  | nil => rfl
  | cons x xs ih =>
    have hlo : lo + (x :: xs).length = lo + 1 + xs.length := by
      rw [List.length_cons]
      omega
    rw [List.cons_append, basics, basics, ih, hlo]
    split <;> rfl

theorem mem_basics : m ∈ basics lo xs ↔
    ∃ i x, m = lo + i ∧ xs[i]? = some x ∧ x.controlling = false := by
  induction xs generalizing lo with
  | nil => simp [basics]
  | cons x xs ih =>
    -- The first segment is at 0, the others one further on.
    have hsplit : (∃ i y, m = lo + i ∧ (x :: xs)[i]? = some y ∧ y.controlling = false) ↔
        m = lo ∧ x.controlling = false ∨
          ∃ i y, m = lo + 1 + i ∧ xs[i]? = some y ∧ y.controlling = false := by
      constructor
      · rintro ⟨i, y, hm, hy, hbasic⟩
        cases i with
        | zero => exact .inl ⟨hm, Option.some.inj hy ▸ hbasic⟩
        | succ i => exact .inr ⟨i, y, by omega, hy, hbasic⟩
      · rintro (⟨hm, hbasic⟩ | ⟨i, y, hm, hy, hbasic⟩)
        · exact ⟨0, x, hm, rfl, hbasic⟩
        · exact ⟨i + 1, y, by omega, hy, hbasic⟩
    rw [hsplit, ← ih, basics]
    cases x.controlling with
    | true => simp
    | false => simp

theorem basics_ascending (lo : Nat) (xs : List Segment) : (basics lo xs).Pairwise (· < ·) := by
  induction xs generalizing lo with
  | nil => exact .nil
  | cons x xs ih =>
    rw [basics]
    split
    · exact ih (lo + 1)
    · refine .cons (fun m hm => ?_) (ih (lo + 1))
      obtain ⟨i, _, rfl, _⟩ := mem_basics.mp hm
      omega

namespace FlowGraph

/-- What the blocks of a graph keep while it is carved. -/
def pieces (g : FlowGraph) : List Piece := g.blocks.entries.toList.map Block.piece

theorem getElem?_pieces (n : Nat) : g.pieces[n]? = (g.block? n).map Block.piece := by
  rw [pieces, List.getElem?_map, Array.getElem?_toList]
  rfl

theorem length_pieces : g.pieces.length = g.blocks.size := List.length_map ..

theorem pieces_addBlock : (g.addBlock b).pieces = g.pieces ++ [b.piece] := by
  rw [pieces, addBlock, Arena.alloc, Array.toList_push, List.map_append]
  rfl

theorem pieces_modifyBlock {f : Block → Block} (hf : ∀ b, (f b).piece = b.piece) :
    (g.modifyBlock n f).pieces = g.pieces := by
  refine List.ext_getElem? fun m => ?_
  rw [getElem?_pieces, getElem?_pieces, block?_modifyBlock]
  split
  · rw [Option.map_map]
    exact congrArg (fun h => (g.block? m).map h) (funext hf)
  · rfl

theorem pieces_link (source target : BlockId) : (g.link source target).pieces = g.pieces := by
  rw [link, pieces_modifyBlock, pieces_modifyBlock] <;> exact fun _ => rfl

end FlowGraph

/-! ### Edges of the listed blocks -/

/-- The listed blocks are well formed, and have no edge twice. -/
structure Tidy (g : FlowGraph) (listed : List BlockId) : Prop where
  wellFormed : WellFormed g listed
  duplicateFree : DuplicateFree g listed

theorem tidy_nil (g : FlowGraph) : Tidy g [] where
  wellFormed :=
    ⟨fun _ hn => absurd hn List.not_mem_nil,
      ⟨fun hn => absurd hn List.not_mem_nil, fun hn => absurd hn List.not_mem_nil,
        fun hn => absurd hn List.not_mem_nil, fun hn => absurd hn List.not_mem_nil⟩,
      fun _ hn => absurd hn List.not_mem_nil⟩
  duplicateFree := fun _ hn => absurd hn List.not_mem_nil

namespace Tidy

/-- A change that keeps the edges of the listed blocks, and has them guarded by controlling
blocks. -/
theorem congr (h : Tidy g listed) (hsize : g.blocks.size ≤ g'.blocks.size)
    (hedges : ∀ n ∈ listed, g'.preds .block n = g.preds .block n ∧
      g'.succs .block n = g.succs .block n)
    (hguarded : ∀ n ∈ listed, ∀ c, (g'.links n).control = some c → g'.IsControlling c) :
    Tidy g' listed := by
  obtain ⟨⟨hexist, hclosed, _⟩, hfree⟩ := h
  have hpreds : ∀ n ∈ listed, (g'.net .block listed).preds n = (g.net .block listed).preds n :=
    fun n hn => (hedges n hn).1
  have hsuccs : ∀ n ∈ listed, (g'.net .block listed).succs n = (g.net .block listed).succs n :=
    fun n hn => (hedges n hn).2
  refine ⟨⟨fun n hn => Nat.lt_of_lt_of_le (hexist n hn) hsize, ⟨?_, ?_, ?_, ?_⟩, hguarded⟩,
    fun n hn => ?_⟩
  · intro n s hn hs
    exact hclosed.succ_mem hn (hsuccs n hn ▸ hs)
  · intro n s hn hs
    rw [hsuccs n hn] at hs
    rw [hpreds s (hclosed.succ_mem hn hs)]
    exact hclosed.mem_preds hn hs
  · intro n p hn hp
    exact hclosed.pred_mem hn (hpreds n hn ▸ hp)
  · intro n p hn hp
    rw [hpreds n hn] at hp
    rw [hsuccs p (hclosed.pred_mem hn hp)]
    exact hclosed.mem_succs hn hp
  · rw [(hedges n hn).1, (hedges n hn).2]
    exact hfree n hn

/-- A new block changes nothing for those that are listed. -/
theorem addBlock (h : Tidy g listed) (b : Block) : Tidy (g.addBlock b) listed := by
  have hkept : ∀ m < g.blocks.size, (g.addBlock b).block? m = g.block? m := fun m hm => by
    rw [FlowGraph.block?_addBlock, if_neg (Nat.ne_of_lt hm)]
  have hsize : g.blocks.size ≤ (g.addBlock b).blocks.size :=
    Nat.le_trans (Nat.le_succ _) (Nat.le_of_eq (Arena.size_alloc ..).symm)
  refine h.congr hsize (fun n hn => ?_) fun n hn c hc => ?_
  · simp only [FlowGraph.preds, FlowGraph.succs, FlowGraph.see_block,
      hkept n (h.wellFormed.exist n hn), and_self]
  · rw [FlowGraph.links, hkept n (h.wellFormed.exist n hn)] at hc
    obtain ⟨d, hd, hcontrolling⟩ := h.wellFormed.guarded n hn c hc
    exact ⟨d, (hkept c (Arena.lt_size_of_get? hd)).trans hd, hcontrolling⟩

/-- A block without links may be listed. -/
theorem list (h : Tidy g listed) (hb : g.block? n = some b) (hpreds : b.preds = [])
    (hsuccs : b.succs = []) (hcontrol : b.control = none) : Tidy g (listed ++ [n]) := by
  have hnopreds : g.preds .block n = [] := (FlowGraph.see_of_block? hb _ _).trans hpreds
  have hnosuccs : g.succs .block n = [] := (FlowGraph.see_of_block? hb _ _).trans hsuccs
  obtain ⟨⟨hexist, hclosed, hguarded⟩, hfree⟩ := h
  have hcases : ∀ m ∈ listed ++ [n], m ∈ listed ∨ m = n := fun m hm =>
    (List.mem_append.mp hm).imp_right List.mem_singleton.mp
  -- A listed block with an edge was listed before.
  have hsource : ∀ m ∈ listed ++ [n], ∀ t, t ∈ g.succs .block m → m ∈ listed := by
    intro m hm t ht
    refine (hcases m hm).resolve_right fun heq => ?_
    rw [heq, hnosuccs] at ht
    exact List.not_mem_nil ht
  have htarget : ∀ m ∈ listed ++ [n], ∀ t, t ∈ g.preds .block m → m ∈ listed := by
    intro m hm t ht
    refine (hcases m hm).resolve_right fun heq => ?_
    rw [heq, hnopreds] at ht
    exact List.not_mem_nil ht
  refine ⟨⟨fun m hm => ?_, ⟨fun hm ht => ?_, fun hm ht => ?_, fun hm ht => ?_, fun hm ht => ?_⟩,
    fun m hm c hc => ?_⟩, fun m hm => ?_⟩
  · rcases hcases m hm with hm | rfl
    · exact hexist m hm
    · exact Arena.lt_size_of_get? hb
  · exact List.mem_append_left _ (hclosed.succ_mem (hsource _ hm _ ht) ht)
  · exact hclosed.mem_preds (hsource _ hm _ ht) ht
  · exact List.mem_append_left _ (hclosed.pred_mem (htarget _ hm _ ht) ht)
  · exact hclosed.mem_succs (htarget _ hm _ ht) ht
  · rcases hcases m hm with hm | rfl
    · exact hguarded m hm c hc
    · rw [FlowGraph.links_of_block? hb, Block.links, hcontrol] at hc
      injection hc
  · rcases hcases m hm with hm | rfl
    · exact hfree m hm
    · rw [hnopreds, hnosuccs]
      exact ⟨List.nodup_nil, List.nodup_nil⟩

/-- A block may be guarded by a controlling block. -/
theorem guard (h : Tidy g listed) (hc : g.IsControlling c) (n : BlockId) :
    Tidy (g.modifyBlock n ({ · with control := some c })) listed := by
  have hpreds : (g.modifyBlock n ({ · with control := some c })).preds .block = g.preds .block :=
    FlowGraph.see_modifyBlock fun _ => rfl
  have hsuccs : (g.modifyBlock n ({ · with control := some c })).succs .block = g.succs .block :=
    FlowGraph.see_modifyBlock fun _ => rfl
  refine h.congr (Nat.le_of_eq (Arena.size_modify ..).symm)
    (fun m _ => ⟨congrFun hpreds m, congrFun hsuccs m⟩) fun m hm d hd => ?_
  refine FlowGraph.IsControlling.modifyBlock ?_ fun _ => rfl
  rw [FlowGraph.links, FlowGraph.block?_modifyBlock] at hd
  split at hd
  · obtain ⟨b, hb⟩ := h.wellFormed.exists_block hm
    rw [hb] at hd
    exact Option.some.inj hd ▸ hc
  · exact h.wellFormed.guarded m hm d hd

theorem link (h : Tidy g listed) {source target : BlockId} (hs : source ∈ listed)
    (ht : target ∈ listed) : Tidy (g.link source target) listed := by
  have hupheld := h.wellFormed.upheld_link hs ht
  exact ⟨hupheld.wellFormed, hupheld.duplicateFree h.duplicateFree⟩

end Tidy

/-! ### Blocks that are made -/

/-- The number of blocks made so far. -/
def CarveState.count (s : CarveState) : Nat := s.graph.blocks.size

/-- Since the state `s`, blocks were made of some segments, and `ids` are the basic ones
among them. Listed behind others that were tidy, these are tidy too. -/
structure Adds (s : CarveState) (xs : List Segment) (ids : List BlockId) (s' : CarveState) :
    Prop where
  pieces : s'.graph.pieces = s.graph.pieces ++ xs.map Segment.piece
  ids_eq : ids = basics s.count xs
  tidy : ∀ listed, Tidy s.graph listed → Tidy s'.graph (listed ++ ids)

namespace Adds

theorem refl (s : CarveState) : Adds s [] [] s :=
  ⟨(List.append_nil _).symm, rfl, fun listed h => (List.append_nil listed).symm ▸ h⟩

theorem count_eq (h : Adds s xs ids s') : s'.count = s.count + xs.length := by
  have hlength := congrArg List.length h.pieces
  rwa [List.length_append, List.length_map, FlowGraph.length_pieces, FlowGraph.length_pieces]
    at hlength

theorem trans (h : Adds s xs ids s₁) (h' : Adds s₁ ys ids' s') :
    Adds s (xs ++ ys) (ids ++ ids') s' where
  pieces := by rw [h'.pieces, h.pieces, List.map_append, List.append_assoc]
  ids_eq := by rw [basics_append, ← h.count_eq, ← h.ids_eq, ← h'.ids_eq]
  tidy := fun listed htidy => by
    rw [← List.append_assoc]
    exact h'.tidy _ (h.tidy listed htidy)

/-- The graph is as it was. -/
theorem of_graph_eq (h : Adds s xs ids s₁) (hgraph : s'.graph = s₁.graph) : Adds s xs ids s' := by
  obtain ⟨hpieces, hids, htidy⟩ := h
  exact ⟨hgraph ▸ hpieces, hids, hgraph ▸ htidy⟩

/-- An edge between listed blocks. -/
theorem link (h : Adds s xs ids s₁) {source target : BlockId} (hs : source ∈ ids)
    (ht : target ∈ ids) (hgraph : s'.graph = s₁.graph.link source target) :
    Adds s xs ids s' where
  pieces := by rw [hgraph, FlowGraph.pieces_link, h.pieces]
  ids_eq := h.ids_eq
  tidy := fun listed htidy => by
    rw [hgraph]
    exact (h.tidy listed htidy).link (List.mem_append_right _ hs) (List.mem_append_right _ ht)

/-- A basic block, listed behind the others. -/
theorem basic (hx : x.controlling = false) (hpiece : b.piece = x.piece) (hpreds : b.preds = [])
    (hsuccs : b.succs = []) (hcontrol : b.control = none)
    (hgraph : s'.graph = s.graph.addBlock b) : Adds s [x] [s.count] s' where
  pieces := by
    rw [hgraph, FlowGraph.pieces_addBlock, hpiece]
    rfl
  ids_eq := by
    rw [basics, hx]
    rfl
  tidy := fun listed htidy => by
    rw [hgraph]
    refine (htidy.addBlock b).list (b := b) ?_ hpreds hsuccs hcontrol
    exact (FlowGraph.block?_addBlock ..).trans (if_pos rfl)

/-- A controlling block, which guards another one and is not listed. -/
theorem controlling (hx : x.controlling = true) (hpiece : b.piece = x.piece) (n : BlockId)
    (hgraph : s'.graph =
      (s.graph.addBlock b).modifyBlock n ({ · with control := some s.count })) :
    Adds s [x] [] s' where
  pieces := by
    have hguarded := FlowGraph.pieces_modifyBlock (g := s.graph.addBlock b) (n := n)
      (f := ({ · with control := some s.count })) fun _ => rfl
    rw [hgraph, hguarded, FlowGraph.pieces_addBlock, hpiece]
    rfl
  ids_eq := by
    rw [basics, hx]
    rfl
  tidy := fun listed htidy => by
    rw [hgraph, List.append_nil]
    refine (htidy.addBlock b).guard ⟨b, ?_, ?_⟩ n
    · exact (FlowGraph.block?_addBlock ..).trans (if_pos rfl)
    · exact (congrArg Piece.controlling hpiece).trans hx

end Adds

/-! ### What is seen of the blocks -/

/-- The instructions of the blocks that were made since `old` of the node with the number
`k`, in the order in which they were made. -/
def FlowGraph.instsOfGroup (old new : FlowGraph) (k : Nat) : List Inst :=
  ((old.created new).filter fun n => (new.links n).group = some k).flatMap (new.insts .block)

namespace Adds

variable (h : Adds s xs ids s')

include h

theorem created_eq : s.graph.created s'.graph = List.range' s.count xs.length := by
  have hcount : s'.graph.blocks.size = s.count + xs.length := h.count_eq
  rw [FlowGraph.created, hcount, ← CarveState.count, Nat.add_sub_cancel_left]

/-- The block that was made of a segment. -/
theorem exists_block {i : Nat} (hx : xs[i]? = some x) :
    ∃ b, s'.graph.block? (s.count + i) = some b ∧ b.piece = x.piece := by
  have hpiece : s'.graph.pieces[s.count + i]? = some x.piece := by
    rw [h.pieces, CarveState.count, ← FlowGraph.length_pieces,
      List.getElem?_append_right (Nat.le_add_right ..), Nat.add_sub_cancel_left,
      List.getElem?_map, hx]
    rfl
  rw [FlowGraph.getElem?_pieces] at hpiece
  exact Option.map_eq_some_iff.mp hpiece

theorem mem_iff : n ∈ ids ↔ n ∈ s.graph.created s'.graph ∧ ¬ s'.graph.IsControlling n := by
  rw [h.ids_eq, mem_basics, h.created_eq, List.mem_range'_1]
  constructor
  · rintro ⟨i, x, rfl, hx, hbasic⟩
    obtain ⟨hi, _⟩ := List.getElem?_eq_some_iff.mp hx
    obtain ⟨b, hb, hpiece⟩ := h.exists_block hx
    refine ⟨⟨Nat.le_add_right .., Nat.add_lt_add_left hi _⟩, ?_⟩
    rintro ⟨d, hd, hcontrolling⟩
    obtain rfl := Option.some.inj (hb.symm.trans hd)
    have heq : b.controlling = x.controlling := congrArg Piece.controlling hpiece
    rw [heq, hbasic] at hcontrolling
    exact Bool.false_ne_true hcontrolling
  · rintro ⟨⟨hle, hlt⟩, hnot⟩
    obtain ⟨i, rfl⟩ := Nat.exists_eq_add_of_le hle
    have hi : i < xs.length := Nat.lt_of_add_lt_add_left hlt
    obtain ⟨b, hb, hpiece⟩ := h.exists_block (List.getElem?_eq_getElem hi)
    have heq : b.controlling = xs[i].controlling := congrArg Piece.controlling hpiece
    refine ⟨i, xs[i], rfl, List.getElem?_eq_getElem hi, ?_⟩
    exact Bool.eq_false_iff.mpr fun htrue => hnot ⟨b, hb, heq.trans htrue⟩

theorem nodup : ids.Nodup := by
  rw [h.ids_eq]
  exact (basics_ascending _ _).imp fun hlt => Nat.ne_of_lt hlt

theorem regs_eq (hn : n ∈ ids) :
    s'.graph.regs .block n = instRegs (s'.graph.insts .block n) := by
  rw [h.ids_eq] at hn
  obtain ⟨i, x, rfl, hx, _⟩ := mem_basics.mp hn
  obtain ⟨b, hb, hpiece⟩ := h.exists_block hx
  rw [FlowGraph.regs, FlowGraph.insts, FlowGraph.see_of_block? hb, FlowGraph.see_of_block? hb]
  have houtputs : b.outputs = instRegs x.insts := congrArg Piece.outputs hpiece
  have hinsts : b.insts = x.insts := congrArg Piece.insts hpiece
  exact houtputs.trans (congrArg instRegs hinsts.symm)

theorem instsOfGroup_eq (k : Nat) : s.graph.instsOfGroup s'.graph k =
    (xs.filter (·.group = k)).flatMap Segment.insts := by
  -- Blocks and segments are compared by their groups and instructions.
  let F : BlockId → Option Nat × List Inst :=
    fun n => ((s'.graph.links n).group, s'.graph.insts .block n)
  let G : Segment → Option Nat × List Inst := fun x => (some x.group, x.insts)
  have hmap : (List.range' s.count xs.length).map F = xs.map G := by
    refine List.ext_getElem (by simp) fun i hi hi' => ?_
    have hlt : i < xs.length := by simpa using hi'
    obtain ⟨b, hb, hpiece⟩ := h.exists_block (List.getElem?_eq_getElem hlt)
    rw [List.getElem_map, List.getElem_map, List.getElem_range', Nat.one_mul]
    refine Prod.ext ?_ ?_
    · show (s'.graph.links (s.count + i)).group = some xs[i].group
      rw [FlowGraph.links_of_block? hb]
      exact congrArg Piece.group hpiece
    · show s'.graph.insts .block (s.count + i) = xs[i].insts
      rw [FlowGraph.insts, FlowGraph.see_of_block? hb]
      exact congrArg Piece.insts hpiece
  calc s.graph.instsOfGroup s'.graph k
      = (((List.range' s.count xs.length).map F).filter (·.1 = some k)).flatMap Prod.snd := by
        rw [FlowGraph.instsOfGroup, h.created_eq, List.filter_map, List.flatMap_map]
        rfl
    _ = (xs.filter (·.group = k)).flatMap Segment.insts := by
        rw [hmap, List.filter_map, List.flatMap_map]
        have hfilter : ((fun p : Option Nat × List Inst => decide (p.1 = some k)) ∘ G) =
            fun x => decide (x.group = k) :=
          funext fun x => decide_eq_decide.mpr (Option.some_inj)
        rw [hfilter]

end Adds

end KernelIntervals
