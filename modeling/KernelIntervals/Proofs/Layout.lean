/-
Where the blocks of a node stand.

* `Carve.EndsIff` — a step of carving ends well exactly if something holds, and what then holds,
* `Face` — what a block is known by while a graph is carved,
* `Site` — a node, with the numbers that its first blocks get,
* `Laid` — the blocks of the first ports of a node, with their edges and controlling blocks,
* `Laid.skip`, `Laid.guard`, `Laid.body` — what one port more adds to them,
* `Stands`, `Carve.node_stands` — the blocks of a whole node.

Design notes: what becomes of a port is known from the ports before it, so the blocks of the first
`n` ports of a node are told as a function of `n`, and a port is one step from `n` to `n + 1`. Only
the edges and the controlling blocks change when more ports come.
-/
import KernelIntervals.Measure
import KernelIntervals.Proofs.Handover
import KernelIntervals.Proofs.Ports

namespace KernelIntervals

/-! ### Steps that end well exactly if something holds -/

namespace Carve

variable {α β : Type} {s : CarveState} {P Q : Prop} {post post' : α → CarveState → Prop}

/-- A step ends well exactly if `P` holds, and its result is then as described. -/
def EndsIff (act : Carve α) (s : CarveState) (P : Prop) (post : α → CarveState → Prop) : Prop :=
  match act s with
  | .ok a s' => P ∧ post a s'
  | .error _ _ => ¬ P

theorem endsIff_pure {a : α} (h : post a s) : EndsIff (pure a) s True post := ⟨trivial, h⟩

theorem endsIff_throw {e : CarveError} : EndsIff (throw e) s False post := fun h => h

theorem endsIff_modify {f : CarveState → CarveState} {post : Unit → CarveState → Prop}
    (h : post () (f s)) : EndsIff (modify f) s True post :=
  ⟨trivial, h⟩

theorem EndsIff.mono {act : Carve α} (h : EndsIff act s P post)
    (himp : ∀ a s', post a s' → post' a s') : EndsIff act s P post' := by
  unfold EndsIff at h ⊢
  cases hact : act s with
  | ok a s' =>
    rw [hact] at h
    exact ⟨h.1, himp a s' h.2⟩
  | error e s' =>
    rw [hact] at h
    exact h

theorem EndsIff.ensures {act : Carve α} (h : EndsIff act s P post) : Ensures act s post := by
  intro a s' hact
  rw [EndsIff, hact] at h
  exact h.2

theorem EndsIff.congr {act : Carve α} (h : EndsIff act s P post) (hiff : P ↔ Q) :
    EndsIff act s Q post := propext hiff ▸ h

theorem EndsIff.bind {x : Carve α} {f : α → Carve β} {post : β → CarveState → Prop}
    (h : EndsIff x s P fun a s' => EndsIff (f a) s' Q post) :
    EndsIff (x >>= f) s (P ∧ Q) post := by
  unfold EndsIff at h ⊢
  show match EStateM.bind x f s with
    | .ok b s' => (P ∧ Q) ∧ post b s'
    | .error _ _ => ¬ (P ∧ Q)
  rw [EStateM.bind]
  cases hx : x s with
  | error e s' =>
    rw [hx] at h
    exact fun hboth => h hboth.1
  | ok a s' =>
    rw [hx] at h
    obtain ⟨hP, hf⟩ := h
    dsimp only
    cases hfa : f a s' with
    | error e s'' =>
      rw [hfa] at hf
      exact fun hboth => hf hboth.2
    | ok b s'' =>
      rw [hfa] at hf
      exact ⟨⟨hP, hf.1⟩, hf.2⟩

/-- A step that always ends well, followed by another one. -/
theorem EndsIff.andThen {x : Carve α} {f : α → Carve β} {post : β → CarveState → Prop}
    (h : EndsIff x s True fun a s' => EndsIff (f a) s' Q post) : EndsIff (x >>= f) s Q post :=
  h.bind.congr (iff_of_eq (true_and Q))

/-- Steps for the elements of a list end well if each one does. -/
theorem endsIff_forM {f : α → Carve Unit} {P : α → Prop} {I : List α → CarveState → Prop}
    (hstep : ∀ done x s, I done s → EndsIff (f x) s (P x) fun _ s' => I (done ++ [x]) s')
    (done xs : List α) (h : I done s) :
    EndsIff (xs.forM f) s (∀ x ∈ xs, P x) fun _ s' => I (done ++ xs) s' := by
  induction xs generalizing done s with
  | nil =>
    rw [List.append_nil]
    exact (endsIff_pure h).congr (by simp)
  | cons x xs ih =>
    have hrest : EndsIff (f x) s (P x) fun _ s' =>
        EndsIff (xs.forM f) s' (∀ x ∈ xs, P x) fun _ s' => I (done ++ x :: xs) s' := by
      refine (hstep done x s h).mono fun _ s' hs' => ?_
      rw [List.append_cons]
      exact ih (done ++ [x]) hs'
    exact hrest.bind.congr List.forall_mem_cons.symm

end Carve

/-! ### Faces -/

/-- What a block is known by. -/
structure Face where
  name : String
  insts : List Inst
  group : Option Nat
  controlling : Bool
deriving DecidableEq

def Block.face (b : Block) : Face := ⟨b.name, b.insts, b.group, b.controlling⟩

namespace FlowGraph

variable {g : FlowGraph} {b : Block} {n x y source target : Nat}

def face? (g : FlowGraph) (n : BlockId) : Option Face := (g.block? n).map Block.face

theorem face?_addBlock : (g.addBlock b).face? n =
    if n = g.blocks.size then some b.face else g.face? n := by
  rw [face?, block?_addBlock]
  split <;> rfl

theorem face?_modifyBlock {f : Block → Block} (hf : ∀ b, (f b).face = b.face) :
    (g.modifyBlock n f).face? = g.face? := by
  funext m
  rw [face?, face?, block?_modifyBlock]
  split
  · rw [Option.map_map]
    exact congrArg (fun h => (g.block? m).map h) (funext hf)
  · rfl

theorem face?_link : (g.link source target).face? = g.face? := by
  rw [link, face?_modifyBlock, face?_modifyBlock] <;> exact fun _ => rfl

theorem links_addBlock : (g.addBlock b).links n =
    if n = g.blocks.size then b.links else g.links n := by
  rw [links, block?_addBlock]
  split <;> rfl

theorem links_link : (g.link source target).links = g.links := by
  rw [link, links_modifyBlock, links_modifyBlock] <;> exact fun _ => rfl

theorem control_guard (hx : x < g.blocks.size) (c : BlockId) :
    ((g.modifyBlock n ({ · with control := some c })).links x).control =
      if n = x then some c else (g.links x).control := by
  obtain ⟨b, hb⟩ : ∃ b, g.block? x = some b := Arena.exists_get? hx
  rw [links, links, block?_modifyBlock, hb]
  split <;> rfl

theorem succs_addBlock : (g.addBlock b).succs .block n =
    if n = g.blocks.size then b.succs else g.succs .block n := by
  rw [succs, see_block, block?_addBlock, succs, see_block]
  split <;> rfl

theorem mem_succs_link (hs : source < g.blocks.size) :
    y ∈ (g.link source target).succs .block x ↔
      y ∈ g.succs .block x ∨ x = source ∧ y = target := by
  have hkeep : (g.link source target).succs .block =
      (g.modifyBlock source (·.addSucc target)).succs .block :=
    see_modifyBlock fun _ => rfl
  rw [hkeep]
  by_cases hx : x = source
  · subst hx
    obtain ⟨b, hb⟩ : ∃ b, g.block? x = some b := Arena.exists_get? hs
    have hnew : (g.modifyBlock x (·.addSucc target)).block? x = some (b.addSucc target) := by
      rw [block?_modifyBlock, if_pos rfl, hb]
      rfl
    rw [succs, see_of_block? hnew, succs, see_of_block? hb]
    show y ∈ addNew b.succs target ↔ _
    simp
    rfl
  · rw [succs, see_modifyBlock_of_ne fun h => hx h.symm, succs]
    simp [hx]

end FlowGraph

/-! ### The blocks of the first ports -/

/-- A node, with the number of blocks and that of controlling blocks that are made before its own,
and its place among the nodes. -/
structure Site where
  base : Nat
  number : Nat
  group : Nat
  node : Dot.Node

namespace Site

variable (t : Site)

abbrev listings : List (List Inst) := t.node.listings

/-- The block that is made of the port at a place. -/
abbrev blockOf (k : Nat) : Nat := KernelIntervals.blockOf t.base t.listings k

/-- The basic blocks of the node. -/
def blocks : List BlockId := (homes t.listings).map t.blockOf

/-- What the block made of the port at a place is known by. -/
def face (k : Nat) : Face where
  name :=
    if IsGuard t.listings k then controllingName (t.number + Nat.count (IsGuard t.listings) k)
    else blockName t.node.name (Nat.count (IsBody t.listings) k)
  insts := t.listings.getD k []
  group := some t.group
  controlling := decide (IsGuard t.listings k)

end Site

theorem Site.blockOf_mem_blocks {t : Site} {k : Nat} (h : IsBody t.listings k) :
    t.blockOf k ∈ t.blocks :=
  List.mem_map_of_mem (mem_homes.mpr (.inl h))

/-- The last two of some blocks stand one behind the other, as others did before. -/
theorem pair_infix_concat {blocks : List BlockId} {x y z : BlockId} :
    [x, y] <:+: blocks ++ [z] ↔ [x, y] <:+: blocks ∨ blocks.getLast? = some x ∧ y = z := by
  rw [List.infix_concat_iff, or_comm]
  refine or_congr_right ?_
  constructor
  · rintro ⟨front, heq⟩
    have hsplit : (front ++ [x]) ++ [y] = blocks ++ [z] := by simpa using heq
    obtain ⟨hfront, hlast⟩ := List.append_inj' hsplit rfl
    refine ⟨?_, by simpa using hlast⟩
    rw [← hfront, List.getLast?_concat]
  · rintro ⟨hlast, rfl⟩
    obtain ⟨front, rfl⟩ := List.getLast?_eq_some_iff.mp hlast
    exact ⟨front, by simp⟩

/-- The blocks made of the first `n` ports of a node: the basic ones among them, what all of them
are known by, the edges of the basic ones, and the blocks that guard these. -/
structure Laid (t : Site) (n : Nat) (blocks : List BlockId) (g : FlowGraph) : Prop where
  blocks_eq : blocks = ((List.range n).filter (IsBody t.listings ·)).map t.blockOf
  face : ∀ k < n, HasInsts t.listings k → g.face? (t.blockOf k) = some (t.face k)
  succs : ∀ x ∈ blocks, ∀ y, y ∈ g.succs .block x ↔ [x, y] <:+: blocks
  control : ∀ k < n, IsBody t.listings k →
    (g.links (t.blockOf k)).control = (guardBehind? t.listings n k).map t.blockOf

namespace Laid

variable {t : Site} {n m : Nat} {blocks : List BlockId} {g g' : FlowGraph} {b : Block}

theorem mem_blocks (h : Laid t n blocks g) {x : BlockId} :
    x ∈ blocks ↔ ∃ k < n, IsBody t.listings k ∧ t.blockOf k = x := by
  simp [h.blocks_eq, and_assoc]

theorem lt_blockOf (h : Laid t n blocks g) {x : BlockId} (hx : x ∈ blocks) :
    x < t.blockOf n := by
  obtain ⟨k, hk, hbody, rfl⟩ := h.mem_blocks.mp hx
  exact blockOf_lt hbody.1 hk

/-- A port without instructions leaves no trace. -/
theorem skip (h : Laid t n blocks g) (hempty : ¬ HasInsts t.listings n) :
    Laid t (n + 1) blocks g := by
  have hbody : ¬ IsBody t.listings n := fun hn => hempty hn.1
  have hguard : ¬ IsGuard t.listings n := fun hn => hempty hn.hasInsts
  have hbefore : ∀ k < n + 1, HasInsts t.listings k → k < n :=
    fun k hk hinsts => lt_of_lt_succ_of_not hempty hk hinsts
  refine ⟨?_, fun k hk hinsts => h.face k (hbefore k hk hinsts) hinsts, h.succs,
    fun k hk hk' => ?_⟩
  · rw [filter_range_succ, if_neg hbody, List.append_nil]
    exact h.blocks_eq
  · rw [guardBehind?_succ, if_neg fun hn => hguard hn.1]
    exact h.control k (hbefore k hk hk'.1) hk'

/-- A controlling block is made, and guards the last basic block. -/
theorem guard (h : Laid t n blocks g) (hsize : g.blocks.size = t.blockOf n)
    (hguard : IsGuard t.listings n) (hlast : lastBody? t.listings n = some m)
    (hface : b.face = t.face n)
    (hg' : g' =
      (g.addBlock b).modifyBlock (t.blockOf m) ({ · with control := some (t.blockOf n) })) :
    Laid t (n + 1) blocks g' := by
  have hbody : ¬ IsBody t.listings n := fun hn => hn.2 hguard
  obtain ⟨hm, -⟩ := lastBody?_eq_some.mp hlast
  have hface' : g'.face? = (g.addBlock b).face? := by
    rw [hg']
    exact FlowGraph.face?_modifyBlock fun _ => rfl
  have hsuccs' : g'.succs .block = (g.addBlock b).succs .block := by
    rw [hg']
    exact FlowGraph.see_modifyBlock fun _ => rfl
  refine ⟨?_, fun k hk hinsts => ?_, fun x hx y => ?_, fun k hk hk' => ?_⟩
  · rw [filter_range_succ, if_neg hbody, List.append_nil]
    exact h.blocks_eq
  · rw [hface', FlowGraph.face?_addBlock, hsize]
    rcases Nat.lt_succ_iff_lt_or_eq.mp hk with hk | rfl
    · rw [if_neg (Nat.ne_of_lt (blockOf_lt hinsts hk))]
      exact h.face k hk hinsts
    · rw [if_pos rfl, hface]
  · rw [hsuccs', FlowGraph.succs_addBlock, hsize, if_neg (Nat.ne_of_lt (h.lt_blockOf hx))]
    exact h.succs x hx y
  · -- The block is guarded anew if it is the last basic one, and keeps its guard otherwise.
    have hkn : k < n := lt_of_lt_succ_of_not hbody hk hk'
    have hlt : t.blockOf k < t.blockOf n := blockOf_lt hk'.1 hkn
    have hexist : t.blockOf k < (g.addBlock b).blocks.size := by
      rw [FlowGraph.addBlock, Arena.size_alloc, hsize]
      exact Nat.lt_succ_of_lt hlt
    have hiff : t.blockOf m = t.blockOf k ↔
        IsGuard t.listings n ∧ lastBody? t.listings n = some k := by
      rw [and_iff_right hguard, hlast, Option.some_inj]
      exact ⟨blockOf_inj hm.2.1 hk'.1, fun heq => heq ▸ rfl⟩
    rw [hg', FlowGraph.control_guard hexist, FlowGraph.links_addBlock, hsize,
      if_neg (Nat.ne_of_lt hlt), guardBehind?_succ]
    by_cases hkm : t.blockOf m = t.blockOf k
    · rw [if_pos hkm, if_pos (hiff.mp hkm)]
      rfl
    · rw [if_neg hkm, if_neg (mt hiff.mpr hkm)]
      exact h.control k hkn hk'

/-- A basic block is made, and follows the last one. -/
theorem body (h : Laid t n blocks g) (hsize : g.blocks.size = t.blockOf n)
    (hbody : IsBody t.listings n) (hface : b.face = t.face n) (hsuccs : b.succs = [])
    (hcontrol : b.control = none)
    (hg' : g' = blocks.getLast?.elim (g.addBlock b) ((g.addBlock b).link · (t.blockOf n))) :
    Laid t (n + 1) (blocks ++ [t.blockOf n]) g' := by
  have hface' : g'.face? = (g.addBlock b).face? := by
    rw [hg']
    cases blocks.getLast? with
    | none => rfl
    | some last => exact FlowGraph.face?_link
  have hlinks : g'.links = (g.addBlock b).links := by
    rw [hg']
    cases blocks.getLast? with
    | none => rfl
    | some last => exact FlowGraph.links_link
  have hedges : ∀ x y, y ∈ g'.succs .block x ↔
      y ∈ (g.addBlock b).succs .block x ∨ blocks.getLast? = some x ∧ y = t.blockOf n := by
    intro x y
    rw [hg']
    cases hlast : blocks.getLast? with
    | none => simp
    | some last =>
      have hlt : last < (g.addBlock b).blocks.size := by
        have hlt := h.lt_blockOf (List.mem_of_getLast? hlast)
        rw [FlowGraph.addBlock, Arena.size_alloc, hsize]
        exact Nat.lt_succ_of_lt hlt
      rw [Option.elim, FlowGraph.mem_succs_link hlt, Option.some_inj, eq_comm (a := x)]
  refine ⟨?_, fun k hk hinsts => ?_, fun x hx y => ?_, fun k hk hk' => ?_⟩
  · rw [filter_range_succ, if_pos hbody, List.map_append, ← h.blocks_eq]
    rfl
  · rw [hface', FlowGraph.face?_addBlock, hsize]
    rcases Nat.lt_succ_iff_lt_or_eq.mp hk with hk | rfl
    · rw [if_neg (Nat.ne_of_lt (blockOf_lt hinsts hk))]
      exact h.face k hk hinsts
    · rw [if_pos rfl, hface]
  · rw [hedges, pair_infix_concat, FlowGraph.succs_addBlock, hsize]
    refine or_congr_left ?_
    rcases List.mem_append.mp hx with hx | hx
    · rw [if_neg (Nat.ne_of_lt (h.lt_blockOf hx))]
      exact h.succs x hx y
    · -- Nothing follows the new block yet, and it is none of the old ones.
      obtain rfl := List.mem_singleton.mp hx
      rw [if_pos rfl, hsuccs]
      refine iff_of_false List.not_mem_nil fun hpair => ?_
      exact Nat.lt_irrefl _ (h.lt_blockOf (hpair.subset List.mem_cons_self))
  · have hnone : ¬ (IsGuard t.listings n ∧ lastBody? t.listings n = some k) :=
      fun hn => hbody.2 hn.1
    rw [hlinks, FlowGraph.links_addBlock, hsize, guardBehind?_succ, if_neg hnone]
    rcases Nat.lt_succ_iff_lt_or_eq.mp hk with hk | rfl
    · rw [if_neg (Nat.ne_of_lt (blockOf_lt hk'.1 hk))]
      exact h.control k hk hk'
    · rw [if_pos rfl, guardBehind?_self]
      exact hcontrol

/-- There is a last basic block if a port has become one. -/
theorem getLast?_eq (h : Laid t n blocks g) (hbody : ¬ IsBody t.listings n) :
    blocks.getLast? = (lastBody? t.listings n).map t.blockOf := by
  rw [h.blocks_eq, List.getLast?_map, lastBody?_of_not_isBody hbody]

theorem length_eq (h : Laid t n blocks g) : blocks.length = Nat.count (IsBody t.listings) n := by
  rw [h.blocks_eq, List.length_map, ← List.countP_eq_length_filter]
  rfl

end Laid

/-! ### One port after the other -/

/-- The first `n` ports of a node are done, and the blocks from before are as they were. -/
structure Laying (t : Site) (g₀ : FlowGraph) (n : Nat) (blocks : List BlockId) (s : CarveState) :
    Prop where
  count : s.count = t.blockOf n
  number : s.controlling = t.number + Nat.count (IsGuard t.listings) n
  kept : ∀ x < t.base, s.graph.block? x = g₀.block? x
  laid : Laid t n blocks s.graph

namespace Laying

variable {t : Site} {g₀ : FlowGraph} {n m : Nat} {blocks : List BlockId} {s s' : CarveState}
  {insts : List Inst} {b : Block}

theorem start {s : CarveState} (hbase : t.base = s.count) (hnumber : t.number = s.controlling) :
    Laying t s.graph 0 [] s where
  count := by simp [hbase]
  number := by simp [hnumber]
  kept := fun _ _ => rfl
  laid := ⟨rfl, fun k hk => absurd hk (Nat.not_lt_zero k), fun _ hx => absurd hx List.not_mem_nil,
    fun k hk => absurd hk (Nat.not_lt_zero k)⟩

/-- The blocks from before come first. -/
theorem lt_size (h : Laying t g₀ n blocks s) {x : Nat} (hx : x < t.base) :
    x < s.graph.blocks.size :=
  Nat.lt_of_lt_of_le hx (Nat.le_trans base_le_blockOf (Nat.le_of_eq h.count.symm))

theorem skip (h : Laying t g₀ n blocks s) (hempty : ¬ HasInsts t.listings n) :
    Laying t g₀ (n + 1) blocks s where
  count := by simp [h.count, blockOf_succ, hempty]
  number := by
    have hguard : ¬ IsGuard t.listings n := fun hn => hempty hn.hasInsts
    simp [h.number, Nat.count_succ, hguard]
  kept := h.kept
  laid := h.laid.skip hempty

theorem guard (h : Laying t g₀ n blocks s) (hguard : IsGuard t.listings n)
    (hlast : lastBody? t.listings n = some m) (hface : b.face = t.face n)
    (hgraph : s'.graph =
      (s.graph.addBlock b).modifyBlock (t.blockOf m) ({ · with control := some s.count }))
    (hnumber : s'.controlling = s.controlling + 1) : Laying t g₀ (n + 1) blocks s' where
  count := by
    have hcount : s'.count = s.count + 1 := by
      simp [CarveState.count, hgraph, FlowGraph.modifyBlock, FlowGraph.addBlock]
    simp [hcount, h.count, blockOf_succ, hguard.hasInsts]
  number := by
    rw [hnumber, h.number, Nat.count_succ, if_pos hguard, Nat.add_assoc]
  kept := by
    -- The guarded block is one of this node.
    intro x hx
    have hne : t.blockOf m ≠ x := Nat.ne_of_gt (Nat.lt_of_lt_of_le hx base_le_blockOf)
    rw [hgraph, FlowGraph.block?_modifyBlock, if_neg hne, FlowGraph.block?_addBlock,
      if_neg (Nat.ne_of_lt (h.lt_size hx))]
    exact h.kept x hx
  laid := h.laid.guard h.count hguard hlast hface (h.count ▸ hgraph)

theorem body (h : Laying t g₀ n blocks s) (hbody : IsBody t.listings n)
    (hface : b.face = t.face n) (hsuccs : b.succs = []) (hcontrol : b.control = none)
    (hgraph : s'.graph =
      blocks.getLast?.elim (s.graph.addBlock b) ((s.graph.addBlock b).link · s.count))
    (hnumber : s'.controlling = s.controlling) :
    Laying t g₀ (n + 1) (blocks ++ [s.count]) s' where
  count := by
    have hcount : s'.count = s.count + 1 := by
      rw [CarveState.count, hgraph]
      cases blocks.getLast? <;>
        simp [FlowGraph.link, FlowGraph.modifyBlock, FlowGraph.addBlock, CarveState.count]
    simp [hcount, h.count, blockOf_succ, hbody.1]
  number := by
    rw [hnumber, h.number, Nat.count_succ, if_neg hbody.2, Nat.add_zero]
  kept := by
    intro x hx
    have hold : x < s.graph.blocks.size := h.lt_size hx
    have hcount : s.count ≠ x := Nat.ne_of_gt hold
    have hnew : (s.graph.addBlock b).block? x = s.graph.block? x := by
      rw [FlowGraph.block?_addBlock, if_neg (Nat.ne_of_lt hold)]
    rw [← h.kept x hx, ← hnew, hgraph]
    cases hlast : blocks.getLast? with
    | none => rfl
    | some last =>
      -- The edge is between blocks of this node.
      obtain ⟨k, -, -, rfl⟩ := h.laid.mem_blocks.mp (List.mem_of_getLast? hlast)
      have hne : t.blockOf k ≠ x := Nat.ne_of_gt (Nat.lt_of_lt_of_le hx base_le_blockOf)
      rw [Option.elim, FlowGraph.link, FlowGraph.block?_modifyBlock, if_neg hcount,
        FlowGraph.block?_modifyBlock, if_neg hne]
  laid := by
    rw [h.count]
    exact h.laid.body h.count hbody hface hsuccs hcontrol (h.count ▸ hgraph)

end Laying

/-- The name of a node, and its named ports so far, each with the last basic block then. -/
structure Ported (t : Site) (n : Nat) (c : CarvedNode) : Prop where
  name : c.name = t.node.name
  names : c.ports.map (·.1) = (t.node.ports.take n).filterMap (·.name)
  mem_ports : ∀ name block, (name, block) ∈ c.ports ↔ ∃ k < n, ∃ p, t.node.ports[k]? = some p ∧
    p.name = some name ∧ block = (lastBody? t.listings k).map t.blockOf

namespace Carve

variable {t : Site} {g₀ : FlowGraph} {n : Nat} {blocks : List BlockId} {s : CarveState}
  {insts : List Inst} {c : CarvedNode} {p : Dot.Port}

theorem control_endsIff (group : Nat) (controlled : BlockId) (insts : List Inst) :
    EndsIff (control group controlled insts) s True fun _ s' =>
      s'.graph = (s.graph.addBlock { Block.ofInsts (controllingName s.controlling) insts with
        group := some group, controlling := true }).modifyBlock controlled
          ({ · with control := some s.count }) ∧
      s'.controlling = s.controlling + 1 :=
  ⟨trivial, rfl, rfl⟩

theorem newBlock_endsIff (group : Nat) (b : Block) : EndsIff (newBlock group b) s True
    fun id s' => id = s.count ∧ s'.graph = s.graph.addBlock { b with group := some group } ∧
      s'.controlling = s.controlling :=
  ⟨trivial, rfl, rfl, rfl⟩

/-- One more basic block behind those of a node. -/
theorem append_laying {b : Block} (h : Laying t g₀ n blocks s) (hbody : IsBody t.listings n)
    (hface : Block.face { b with group := some t.group } = t.face n) (hsuccs : b.succs = [])
    (hcontrol : b.control = none) :
    EndsIff (do
      let id ← newBlock t.group b
      if let some last := blocks.getLast? then changeGraph (·.link last id)
      return blocks ++ [id]) s True fun blocks' s' => Laying t g₀ (n + 1) blocks' s' := by
  refine EndsIff.andThen ((newBlock_endsIff t.group b).mono ?_)
  rintro _ s₁ ⟨rfl, hgraph, hnumber⟩
  cases hlast : blocks.getLast? with
  | none =>
    refine endsIff_pure (h.body hbody hface hsuccs hcontrol ?_ hnumber)
    rw [hlast]
    exact hgraph
  | some last =>
    refine EndsIff.andThen (endsIff_modify (endsIff_pure ?_))
    refine h.body hbody hface hsuccs hcontrol ?_ hnumber
    rw [hlast]
    exact congrArg (fun g : FlowGraph => g.link last s.count) hgraph

/-- The instructions of one more port. -/
theorem segment_laying (h : Laying t g₀ n blocks s) (hinsts : t.listings.getD n [] = insts) :
    EndsIff (segment t.group t.node.name blocks insts) s True fun blocks' s' =>
      Laying t g₀ (n + 1) blocks' s' := by
  rw [segment]
  split
  next hempty =>
    refine endsIff_pure (h.skip fun hn => hn ?_)
    rw [hinsts, List.isEmpty_iff.mp hempty]
  next hfull =>
    have hhas : HasInsts t.listings n := fun hn => hfull (by rw [← hinsts, hn]; rfl)
    split
    next last hlast hcontrolling =>
      -- There is a block before, so some port before has instructions.
      obtain ⟨k, hk, hbody, -⟩ := h.laid.mem_blocks.mp (List.mem_of_getLast? hlast)
      have hguard : IsGuard t.listings n := ⟨hinsts ▸ hcontrolling, k, hk, hbody.1⟩
      obtain ⟨m, hm⟩ := hguard.exists_lastBody
      have hblock : t.blockOf m = last := by
        have hsome := h.laid.getLast?_eq fun hn => hn.2 hguard
        rw [hlast, hm] at hsome
        exact (Option.some.inj hsome).symm
      refine EndsIff.andThen ((control_endsIff t.group last insts).mono ?_)
      rintro - s' ⟨hgraph, hnumber⟩
      refine endsIff_pure (h.guard hguard hm ?_ (hblock ▸ hgraph) hnumber)
      rw [Site.face, if_pos hguard, hinsts, decide_eq_true hguard, ← h.number]
      rfl
    next hno =>
      -- A guard would have found a block before it.
      have hbody : IsBody t.listings n := by
        refine ⟨hhas, fun hguard => ?_⟩
        obtain ⟨j, hj, hbefore⟩ := hguard.2
        obtain ⟨k, hk, hbody⟩ := hbefore.exists_isBody
        have hmem := h.laid.mem_blocks.mpr ⟨k, Nat.lt_of_le_of_lt hk hj, hbody, rfl⟩
        cases hlast : blocks.getLast? with
        | none =>
          rw [List.getLast?_eq_none_iff.mp hlast] at hmem
          exact List.not_mem_nil hmem
        | some last => exact hno last hlast (hinsts ▸ hguard.1)
      refine append_laying h hbody ?_ rfl rfl
      rw [Site.face, if_neg hbody.2, hinsts, decide_eq_false hbody.2, ← h.laid.length_eq]
      rfl

/-- One more port. -/
theorem port_laying (h : Laying t g₀ n c.blocks s) (hc : Ported t n c)
    (hp : t.node.ports[n]? = some p) :
    EndsIff (port t.group c p) s (∃ insts, parseStatements p.text = .ok insts) fun c' s' =>
      Laying t g₀ (n + 1) c'.blocks s' ∧ Ported t (n + 1) c' := by
  rw [port]
  split
  next source hsource =>
    refine endsIff_throw.congr (iff_of_false not_false ?_)
    rintro ⟨insts, hinsts⟩
    rw [hsource] at hinsts
    injection hinsts
  next insts hinsts =>
    have hlisting : t.listings.getD n [] = insts := by
      rw [List.getD_eq_getElem?_getD, Site.listings, Dot.Node.listings, List.getElem?_map, hp]
      exact Dot.Port.listing_eq hinsts
    have hsegment := segment_laying h hlisting
    rw [← hc.name] at hsegment
    refine (EndsIff.andThen (hsegment.mono fun blocks' s' hlaying => ?_)).congr
      (iff_of_true trivial ⟨insts, hinsts⟩)
    refine endsIff_pure ⟨hlaying, hc.name, ?_, fun name block => ?_⟩
    · rw [List.take_add_one, hp, List.filterMap_append, ← hc.names]
      cases hname : p.name <;> simp [hname]
    -- The last basic block is now the one of the last port that became one.
    have hlast : blocks'.getLast? = (lastBody? t.listings n).map t.blockOf := by
      rw [hlaying.laid.blocks_eq, List.getLast?_map]
      rfl
    have hsplit : (∃ k < n + 1, ∃ q, t.node.ports[k]? = some q ∧ q.name = some name ∧
          block = (lastBody? t.listings k).map t.blockOf) ↔
        (name, block) ∈ c.ports ∨ p.name = some name ∧ block = blocks'.getLast? := by
      rw [hc.mem_ports, hlast]
      constructor
      · rintro ⟨k, hk, q, hq, hrest⟩
        rcases Nat.lt_succ_iff_lt_or_eq.mp hk with hk | rfl
        · exact .inl ⟨k, hk, q, hq, hrest⟩
        · obtain rfl : p = q := Option.some.inj (hp.symm.trans hq)
          exact .inr hrest
      · rintro (⟨k, hk, hrest⟩ | hrest)
        · exact ⟨k, Nat.lt_succ_of_lt hk, hrest⟩
        · exact ⟨n, Nat.lt_succ_self n, p, hp, hrest⟩
    rw [hsplit]
    cases p.name with
    | none => simp
    | some name' => simp [eq_comm (a := name)]

/-- All ports that are left. -/
theorem ports_laying (rest : List Dot.Port) {done : List Dot.Port}
    (hports : t.node.ports = done ++ rest) (h : Laying t g₀ done.length c.blocks s)
    (hc : Ported t done.length c) :
    EndsIff (rest.foldlM (port t.group) c) s
      (∀ p ∈ rest, ∃ insts, parseStatements p.text = .ok insts) fun c' s' =>
        Laying t g₀ t.node.ports.length c'.blocks s' ∧ Ported t t.node.ports.length c' := by
  induction rest generalizing done c s with
  | nil =>
    rw [List.append_nil] at hports
    subst hports
    exact (endsIff_pure ⟨h, hc⟩).congr (by simp)
  | cons p rest ih =>
    have hp : t.node.ports[done.length]? = some p := by simp [hports]
    have hports' : t.node.ports = (done ++ [p]) ++ rest := by simp [hports]
    have hrest := (port_laying h hc hp).mono fun c' s' hnext =>
      ih hports' (by simpa using hnext.1) (by simpa using hnext.2)
    rw [List.foldlM_cons]
    exact hrest.bind.congr (by simp)

end Carve

/-! ### Whole nodes -/

/-- The blocks of a node: the basic ones among them, what all of them are known by, the edges of
the basic ones, the blocks that guard these, and its named ports. -/
structure Stands (t : Site) (c : CarvedNode) (g : FlowGraph) : Prop where
  ported : Ported t t.node.ports.length c
  blocks_eq : c.blocks = t.blocks
  face : ∀ k, IsMade t.listings k → g.face? (t.blockOf k) = some (t.face k)
  succs : ∀ x ∈ c.blocks, ∀ y, y ∈ g.succs .block x ↔ [x, y] <:+: c.blocks
  control : ∀ k ∈ homes t.listings, (g.links (t.blockOf k)).control =
    (guardBehind? t.listings t.listings.length k).map t.blockOf

namespace Stands

variable {t : Site} {c : CarvedNode} {g g' : FlowGraph} {b : Block} {blocks : List BlockId}

/-- What stands stays as it is if its blocks do. -/
theorem congr (h : Stands t c g)
    (hkept : ∀ x < t.base + blockCount t.listings, g'.block? x = g.block? x) : Stands t c g' := by
  have hsame : ∀ k, IsMade t.listings k → g'.block? (t.blockOf k) = g.block? (t.blockOf k) :=
    fun k hk => hkept _ hk.blockOf_lt
  refine ⟨h.ported, h.blocks_eq, fun k hk => ?_, fun x hx y => ?_, fun k hk => ?_⟩
  · rw [FlowGraph.face?, hsame k hk]
    exact h.face k hk
  · rw [← h.succs x hx]
    rw [h.blocks_eq] at hx
    obtain ⟨k, hk, rfl⟩ := List.mem_map.mp hx
    rw [FlowGraph.succs, FlowGraph.see_block, hsame k (.inl hk), FlowGraph.succs,
      FlowGraph.see_block]
  · rw [FlowGraph.links, hsame k (.inl hk)]
    exact h.control k hk

/-- A node with instructions. -/
theorem of_laid (h : Laid t t.listings.length c.blocks g) (hne : bodies t.listings ≠ [])
    (hc : Ported t t.node.ports.length c) : Stands t c g where
  ported := hc
  blocks_eq := by rw [h.blocks_eq, Site.blocks, homes_of_ne_nil hne, bodies]
  face k hk := by
    rcases hk.hasInsts_or with hinsts | ⟨-, hnil⟩
    · exact h.face k hinsts.lt_length hinsts
    · exact absurd hnil hne
  succs := h.succs
  control k hk := by
    rw [homes_of_ne_nil hne] at hk
    have hbody := mem_bodies.mp hk
    exact h.control k hbody.1.lt_length hbody

/-- A node without instructions. -/
theorem of_empty (hnil : bodies t.listings = []) (hsize : g.blocks.size = t.base)
    (hb : b = { Block.ofInsts (blockName t.node.name 0) [] with group := some t.group })
    (hblocks : c.blocks = [t.base]) (hc : Ported t t.node.ports.length c) :
    Stands t c (g.addBlock b) := by
  have hnone := bodies_eq_nil_iff.mp hnil
  have hguard : ¬ IsGuard t.listings 0 := fun h => hnone 0 h.hasInsts
  -- The block is the one that its first port would get.
  refine ⟨hc, ?_, fun k hk => ?_, fun x hx y => ?_, fun k hk => ?_⟩
  · simp [hblocks, Site.blocks, homes_of_eq_nil hnil]
  · obtain ⟨rfl, -⟩ := hk.hasInsts_or.resolve_left (hnone k)
    have hinsts : t.listings.getD 0 [] = [] := Classical.not_not.mp (hnone 0)
    rw [Site.blockOf, blockOf_zero, FlowGraph.face?_addBlock, if_pos hsize.symm, Site.face,
      if_neg hguard, hinsts, decide_eq_false hguard, hb, Nat.count_zero]
    rfl
  · rw [hblocks] at hx
    obtain rfl := List.mem_singleton.mp hx
    rw [FlowGraph.succs_addBlock, if_pos hsize.symm, hb, hblocks]
    refine iff_of_false List.not_mem_nil fun hpair => ?_
    exact absurd hpair.length_le (by simp)
  · rw [homes_of_eq_nil hnil] at hk
    obtain rfl := List.mem_singleton.mp hk
    have hbehind : guardBehind? t.listings t.listings.length 0 = none :=
      getLast?_filter_range_eq_none.mpr fun j _ hj => hnone j hj.1.hasInsts
    rw [hbehind, Site.blockOf, blockOf_zero, FlowGraph.links_addBlock, if_pos hsize.symm, hb]
    rfl

end Stands

/-- How many of the blocks of a node are controlling blocks. -/
def guardCount (ls : List (List Inst)) : Nat := Nat.count (IsGuard ls) ls.length

/-- The nodes of a graph, with the numbers of blocks and of controlling blocks that are made before
their own. -/
def sites (base number lo : Nat) : List Dot.Node → List Site
  | [] => []
  | n :: nodes =>
    ⟨base, number, lo, n⟩ ::
      sites (base + blockCount n.listings) (number + guardCount n.listings) (lo + 1) nodes

namespace Carve

variable {s : CarveState}

/-- The ports of a node decide whether it gives blocks, and which ones. -/
theorem node_stands (group : Nat) (n : Dot.Node) :
    EndsIff (node group n) s (∀ p ∈ n.ports, ∃ insts, parseStatements p.text = .ok insts)
      fun c s' => Stands ⟨s.count, s.controlling, group, n⟩ c s'.graph ∧
        s'.count = s.count + blockCount n.listings ∧
        s'.controlling = s.controlling + guardCount n.listings ∧
        ∀ x < s.count, s'.graph.block? x = s.graph.block? x := by
  let t : Site := ⟨s.count, s.controlling, group, n⟩
  have hlength : n.ports.length = t.listings.length := (List.length_map _).symm
  have hports := ports_laying (t := t) (c := ⟨n.name, [], []⟩) n.ports (List.nil_append _).symm
    (Laying.start rfl rfl) ⟨rfl, rfl, by simp⟩
  refine (EndsIff.bind (hports.mono ?_)).congr (iff_of_eq (and_true _))
  rintro c s₁ ⟨hlaying, hc⟩
  rw [hlength] at hlaying
  have hblocks : c.blocks = (bodies t.listings).map t.blockOf := hlaying.laid.blocks_eq
  split
  next hempty =>
    have hnil : bodies t.listings = [] := by
      rw [hblocks] at hempty
      simpa using hempty
    have hcount : s₁.count = s.count := by
      rw [hlaying.count, Site.blockOf, blockOf_eq_base hnil]
    refine EndsIff.andThen ((newBlock_endsIff group _).mono ?_)
    rintro _ s₂ ⟨rfl, hgraph, hnumber⟩
    refine endsIff_pure ⟨?_, ?_, ?_, fun x hx => ?_⟩
    · rw [hgraph]
      exact .of_empty (t := t) hnil hcount rfl (by rw [hcount]) ⟨hc.name, hc.names, hc.mem_ports⟩
    · rw [blockCount_eq_one hnil, ← hcount, CarveState.count, hgraph]
      simp [FlowGraph.addBlock, CarveState.count]
    · rw [hnumber, hlaying.number]
      rfl
    · have hold : x ≠ s₁.graph.blocks.size :=
        Nat.ne_of_lt (Nat.lt_of_lt_of_eq hx hcount.symm)
      rw [hgraph, FlowGraph.block?_addBlock, if_neg hold]
      exact hlaying.kept x hx
  next hfull =>
    have hne : bodies t.listings ≠ [] := by
      intro hnil
      rw [hblocks, hnil] at hfull
      exact hfull rfl
    refine endsIff_pure ⟨.of_laid hlaying.laid hne hc, ?_, hlaying.number, hlaying.kept⟩
    rw [hlaying.count, Site.blockOf, blockOf_length hne]

/-- The blocks of some nodes, one node after the other. -/
theorem nodes_stand (nodes : List Dot.Node) (lo : Nat) :
    EndsIff ((nodes.zipIdx lo).mapM fun (n, group) => node group n) s
      (∀ n ∈ nodes, ∀ p ∈ n.ports, ∃ insts, parseStatements p.text = .ok insts) fun cs s' =>
        List.Forall₂ (Stands · · s'.graph) (sites s.count s.controlling lo nodes) cs ∧
          s'.count = s.count + total (fun n => blockCount n.listings) nodes ∧
          ∀ x < s.count, s'.graph.block? x = s.graph.block? x := by
  induction nodes generalizing lo s with
  | nil => exact (endsIff_pure ⟨.nil, rfl, fun _ _ => rfl⟩).congr (by simp)
  | cons n nodes ih =>
    rw [List.zipIdx_cons, List.mapM_cons]
    simp only [List.forall_mem_cons]
    refine EndsIff.bind ((node_stands lo n).mono ?_)
    rintro c s₁ ⟨hstands, hcount, hnumber, hkept⟩
    refine (EndsIff.bind ((ih (lo + 1)).mono ?_)).congr (iff_of_eq (and_true _))
    rintro cs s₂ ⟨hrest, hcount', hkept'⟩
    refine endsIff_pure ⟨.cons ?_ ?_, ?_, fun x hx => ?_⟩
    · -- The blocks of later nodes come behind.
      exact hstands.congr fun x hx => hkept' x (hcount ▸ hx)
    · rw [← hcount, ← hnumber]
      exact hrest
    · rw [hcount', hcount, total_cons, Nat.add_assoc]
    · rw [hkept' x (by omega), hkept x hx]

end Carve

end KernelIntervals
