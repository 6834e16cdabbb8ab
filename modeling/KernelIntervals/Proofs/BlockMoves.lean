/-
The first pass as a sequence of moves.

* `BlockMove` — what a pass over blocks does at a time: take a waiting block, mark
  ancestors, let a block join, or open the regions behind the one it visits,
* `Underway.blockMove`, `Underway.blockMoves` — every move keeps the pass under way, and
  makes its regions grow,
* `Scan` — the scan that grows an interval, one block after the other,
* `BlockTurn`, `visitBlock_ends` — a visit ends well, and is made of a move that takes a
  block, a scan, and a move that leaves,
* `blockLoop_ends` — the loop over the worklist ends well as a sequence of moves.

Design notes: what a pass keeps is shown for one move and holds after all of them;
only this module looks at the steps of a visit itself. A block is taken, or
joins, together with the settling that follows.
-/
import KernelIntervals.Grouping.Blocks
import KernelIntervals.Proofs.Admission
import KernelIntervals.Proofs.Settling

namespace KernelIntervals

open Relation

/-- A state of the loop: the region that is visited, if a visit is going on, and
the workspace. -/
abbrev Moment := Option IntervalId × Workspace

/-- What a pass over blocks does at a time. -/
inductive BlockMove (budget : Nat) : Moment → Moment → Prop
  | take {w w₁ w₂ : Workspace} {n : BlockId} {rest : List BlockId} {i : IntervalId} {b : Block}
      (hwork : w.worklist = n :: rest) (hown : w.graph.owner .block n = some i)
      (hb : w.graph.block? n = some b) (hset : Settled budget n b { w with worklist := rest } w₁)
      (hsync : Synced .block i w₁ w₂) : BlockMove budget (none, w) (some i, w₂)
  | mark {w : Workspace} {i : IntervalId} (marker : Marker) :
      BlockMove budget (some i, w) (some i, { w with marker })
  | join {w w₁ w₂ : Workspace} {n : BlockId} {i : IntervalId} {b : Block} {live : RegSet}
      (hn : n ∈ w.members) (hadm : Admitted budget i n w.graph)
      (hlive : LiveIn budget i n w.members w.graph live)
      (hb : (w.claim i n live).graph.block? n = some b)
      (hset : Settled budget n b (w.claim i n live) w₁) (hsync : Synced .block i w₁ w₂) :
      BlockMove budget (some i, w) (some i, w₂)
  | leave {w w' : Workspace} {i : IntervalId} (hopens : Opens .block w w')
      (hdone : ∀ m ∈ w'.members, w'.graph.owner .block m = some i →
        ∀ s ∈ w'.graph.succs .block m, w'.graph.owner .block s ≠ none) :
      BlockMove budget (some i, w) (none, w')

variable {base budget : Nat} {w w' : Workspace} {m m' : Moment} {n : BlockId} {i : IntervalId}
  {b : Block} {opener : IntervalId → Nat} {current : Option IntervalId} {w₁ w₂ : Workspace}

/-! ### Every move keeps the pass under way -/

theorem alike_claim (w : Workspace) (i : IntervalId) (n : BlockId) (live : RegSet) :
    Alike .block (w.assign .block n i) (w.claim i n live) where
  members := rfl
  opened := rfl
  worklist := rfl
  extent := funext fun _ => FlowGraph.extent_modifyBlock _
  preds := funext fun _ => FlowGraph.see_modifyBlock fun _ => rfl
  succs := funext fun _ => FlowGraph.see_modifyBlock fun _ => rfl
  owner := FlowGraph.see_modifyBlock fun _ => rfl

theorem sameBodies_claim (w : Workspace) (i : IntervalId) (n : BlockId) (live : RegSet) :
    SameBodies w.graph (w.claim i n live).graph := by
  refine (sameBodies_assign w.graph .block n (some i)).trans ⟨?_, ?_, ?_, ?_, ?_, ?_⟩
  · exact Arena.size_modify ..
  · exact FlowGraph.links_modifyBlock fun _ => rfl
  · exact funext fun _ => FlowGraph.see_modifyBlock fun _ => rfl
  · exact funext fun _ => FlowGraph.see_modifyBlock fun _ => rfl
  · exact funext fun _ => FlowGraph.see_modifyBlock fun _ => rfl
  · exact funext fun _ => FlowGraph.see_modifyBlock fun _ => rfl

theorem owner_claim (live : RegSet) (hn : n < w.graph.extent .block) :
    (w.claim i n live).graph.owner .block =
      Function.update (w.graph.owner .block) n (some i) := by
  rw [(alike_claim w i n live).owner]
  exact FlowGraph.owner_assign (some i) hn

theorem Sound.lt_extent (h : Sound .block base current w) (hn : n ∈ w.members) :
    n < w.graph.extent .block := by
  obtain ⟨⟨opener, hu⟩, _⟩ := h
  exact hu.exists_node n hn

/-- An admitted block may join the region that is visited. -/
theorem Sound.claim (live : RegSet) (h : Sound .block base (some i) w) (hn : n ∈ w.members)
    (hadm : Admitted budget i n w.graph) : Sound .block base (some i) (w.claim i n live) := by
  obtain ⟨⟨opener, hu⟩, hs⟩ := h
  have hu' := hu.assign hn hadm.free (hs.preds_ne_nil hn hadm.free) hadm.preds
  have hs' := hs.assign (i := i) (hu.exists_node n hn)
  exact Sound.alike ⟨⟨opener, hu'⟩, hs'⟩ (alike_claim w i n live)

/-- The first waiting block is taken: it is alone in its region. -/
theorem Sound.pop {rest : List BlockId} (h : Sound .block base none w)
    (hwork : w.worklist = n :: rest) :
    ∃ i, n ∈ w.members ∧ w.graph.owner .block n = some i ∧
      (∀ m ∈ w.members, w.graph.owner .block m = some i → m = n) ∧
      Sound .block base (some i) { w with worklist := rest } := by
  obtain ⟨⟨opener, hu⟩, hs⟩ := h
  obtain ⟨i, hn, hi, halone, hu'⟩ := hu.pop hwork
  exact ⟨i, hn, hi, halone, ⟨opener, hu'⟩, hs⟩

/-- After a move the pass is still under way, and its regions have grown. -/
theorem Underway.blockMove (h : Underway .block base m.1 opener m.2) (hs : Seeded .block m.2)
    (hm : BlockMove budget m m') : GoesOn .block base opener m.2 m'.1 m'.2 := by
  cases hm with
  | @take w w₁ w₂ n rest i b hwork hown hb hset hsync =>
    obtain ⟨j, hn, hj, halone, hu⟩ := h.pop hwork
    have hij : j = i := Option.some.inj (hj.symm.trans hown)
    subst hij
    have hs' : Seeded .block { w with worklist := rest } := hs
    have hsettled : GoesOn .block base opener w (some j) w₁ :=
      (hu.settled_opener hs' hb hn hown halone hset).after .refl
    exact hsettled.alike hsync.alike
  | mark marker => exact (h.goesOn hs).alike (alike_marker ..)
  | join hn hadm _ hb hset hsync =>
    exact (h.settled_joined hs hn hadm.free hadm.preds (alike_claim ..) hb hset).alike hsync.alike
  | leave hopens hdone => exact ((h.goesOn hs).opens hopens).leave hdone

theorem Underway.blockMoves (h : Underway .block base m.1 opener m.2) (hs : Seeded .block m.2)
    (hm : ReflTransGen (BlockMove budget) m m') : GoesOn .block base opener m.2 m'.1 m'.2 := by
  induction hm with
  | refl => exact h.goesOn hs
  | tail _ hstep ih =>
    obtain ⟨⟨opener', hu, hgrown⟩, hs'⟩ := ih
    exact (hu.blockMove hs' hstep).after hgrown

theorem Sound.move (h : Sound .block base m.1 m.2) (hm : BlockMove budget m m') :
    Sound .block base m'.1 m'.2 := by
  obtain ⟨⟨opener, hu⟩, hs⟩ := h
  exact (hu.blockMove hs hm).sound

theorem Sound.moves (h : Sound .block base m.1 m.2) (hm : ReflTransGen (BlockMove budget) m m') :
    Sound .block base m'.1 m'.2 := by
  obtain ⟨⟨opener, hu⟩, hs⟩ := h
  exact (hu.blockMoves hs hm).sound

/-! ### Members stay members -/

theorem Settled.mem_members (h : Settled budget n b w w') {x : BlockId} (hx : x ∈ w.members) :
    x ∈ w'.members := by
  cases h with
  | whole => exact hx
  | parted => exact List.mem_append_left _ hx

theorem BlockMove.mem_members (hm : BlockMove budget m m') {x : BlockId} (hx : x ∈ m.2.members) :
    x ∈ m'.2.members := by
  cases hm with
  | take hwork hown hb hset hsync => exact hsync.alike.members ▸ hset.mem_members hx
  | mark marker => exact hx
  | join hn hadm _ hb hset hsync => exact hsync.alike.members ▸ hset.mem_members hx
  | leave hopens hdone => exact hopens.members ▸ hx

/-! ### A visit is a sequence of moves -/

theorem Sound.lt_size (h : Sound .block base (some i) w) : i < w.graph.intervals.size := by
  obtain ⟨⟨opener, hu⟩, _⟩ := h
  exact (hu.opened_range i (hu.idle i rfl).1).2

theorem Sound.exists_block (h : Sound .block base (some i) w) (hn : n ∈ w.members) :
    ∃ b, w.graph.block? n = some b := by
  obtain ⟨⟨opener, hu⟩, _⟩ := h
  exact hu.exists_block hn

/-- A block of the region that is visited is settled, and the registers of the
region can be found then. -/
theorem settleThenSync_ends (h : Underway .block base (some i) opener w)
    (hb : w.graph.block? n = some b) (hn : n ∈ w.members)
    (hsettled : ∀ w', Settled budget n b w w' → Sound .block base (some i) w') :
    Ends (Pass.settle budget n) w fun _ w₁ => Settled budget n b w w₁ ∧
      Ends (Pass.syncRegs i) w₁ fun _ w₂ => Synced .block i w₁ w₂ := by
  refine (settle_ends budget hb (h.succs_lt hn hb)).mono fun _ w₁ hset => ⟨hset, ?_⟩
  have hs₁ := hsettled w₁ hset
  obtain ⟨⟨opener₁, hu₁⟩, _⟩ := id hs₁
  exact syncRegs_ends hu₁ hs₁.lt_size

/-- The block `n` joins the interval `i` that is visited, and is settled in it. -/
structure Joins (budget : Nat) (i : IntervalId) (n : BlockId) (w w' : Workspace) : Prop where
  mem : n ∈ w.members
  admitted : Admitted budget i n w.graph
  settled : ∃ live b w₁, LiveIn budget i n w.members w.graph live ∧
    (w.claim i n live).graph.block? n = some b ∧
    Settled budget n b (w.claim i n live) w₁ ∧ Synced .block i w₁ w'

theorem Joins.move (h : Joins budget i n w w') : BlockMove budget (some i, w) (some i, w') := by
  obtain ⟨hn, hadm, live, b, w₁, hlive, hb, hset, hsync⟩ := h
  exact .join hn hadm hlive hb hset hsync

/-- A scan of some blocks for those that may join the interval `i`, one after the other. -/
inductive Scan (budget : Nat) (i : IntervalId) : List BlockId → Workspace → Workspace → Prop
  | done {w : Workspace} : Scan budget i [] w w
  | decline {n : BlockId} {ns : List BlockId} {w w' : Workspace} (marker : Marker)
      (h : Declined budget i n w) (hrest : Scan budget i ns { w with marker } w') :
      Scan budget i (n :: ns) w w'
  | join {n : BlockId} {ns : List BlockId} {w w₁ w' : Workspace} (marker : Marker)
      (h : Joins budget i n { w with marker } w₁) (hrest : Scan budget i ns w₁ w') :
      Scan budget i (n :: ns) w w'

theorem Scan.moves {ns : List BlockId} (h : Scan budget i ns w w') :
    ReflTransGen (BlockMove budget) (some i, w) (some i, w') := by
  induction h with
  | done => exact .refl
  | decline marker h _ ih => exact .head (.mark marker) ih
  | join marker h _ ih => exact .head (.mark marker) (.head h.move ih)

theorem joinIfAdmitted_ends (h : Sound .block base (some i) w) (hn : n ∈ w.members) :
    Ends (Pass.joinIfAdmitted budget i n) w fun _ w' => ∃ marker : Marker,
      Declined budget i n w ∧ w' = { w with marker } ∨
        Joins budget i n { w with marker } w' := by
  obtain ⟨⟨opener, hu⟩, hs⟩ := id h
  refine Ends.bind ((admission_ends hu hn h.lt_size).mono ?_)
  rintro live _ ⟨⟨marker, rfl⟩, hadmission⟩
  cases hadmission with
  | decline hdeclined => exact ends_pure ⟨marker, .inl ⟨hdeclined, rfl⟩⟩
  | @accept live hadm hlive =>
    have h' : Sound .block base (some i) { w with marker } := h.alike (alike_marker ..)
    refine Ends.bind (ends_modify ?_)
    obtain ⟨⟨opener', hclaim⟩, _⟩ := h'.claim live hn hadm
    obtain ⟨b, hb⟩ := hclaim.exists_block hn
    refine Ends.bind ((settleThenSync_ends hclaim hb hn fun w₁ hset =>
      h'.settled_joined hn hadm.free hadm.preds (alike_claim ..) hb hset).mono ?_)
    rintro _ w₁ ⟨hset, hsync⟩
    exact hsync.mono fun _ w₂ hsync =>
      ⟨marker, .inr ⟨hn, hadm, live, b, w₁, hlive, hb, hset, hsync⟩⟩

/-- Blocks that are members can be scanned. -/
theorem scanBlocks_ends {ns : List BlockId} (h : Sound .block base (some i) w)
    (hns : ∀ n ∈ ns, n ∈ w.members) :
    Ends (ns.forM (Pass.joinIfAdmitted budget i)) w fun _ w' => Scan budget i ns w w' := by
  induction ns generalizing w with
  | nil => exact ends_pure .done
  | cons n ns ih =>
    have hrest : ∀ x ∈ ns, x ∈ w.members := fun x hx => hns x (List.mem_cons_of_mem n hx)
    refine Ends.bind ((joinIfAdmitted_ends h (hns n List.mem_cons_self)).mono ?_)
    rintro _ w₁ ⟨marker, ⟨hdeclined, rfl⟩ | hjoins⟩
    · exact (ih (h.alike (alike_marker .block w marker)) hrest).mono fun _ _ hscan =>
        .decline marker hdeclined hscan
    · have h' : Sound .block base (some i) { w with marker } := h.alike (alike_marker ..)
      exact (ih (h'.move hjoins.move) fun x hx => hjoins.move.mem_members (hrest x hx)).mono
        fun _ _ hscan => .join marker hjoins hscan

/-- The visit of a waiting block `n` of the interval `i`: it is taken, which leads to `w₁`;
the interval is grown in one scan of all blocks, unless the block fills the budget, which
leads to `w₂`; and regions are opened behind it. -/
structure BlockTurn (budget : Nat) (n : BlockId) (i : IntervalId) (w w₁ w₂ w' : Workspace) :
    Prop where
  taken : BlockMove budget (none, w) (some i, w₁)
  grown : Scan budget i w₁.members w₁ w₂ ∨ w₂ = w₁ ∧ budget ≤ (w₁.graph.regs .block n).size
  left : Leaves .block i w₂ w'

theorem BlockTurn.growth (h : BlockTurn budget n i w w₁ w₂ w') :
    ReflTransGen (BlockMove budget) (some i, w₁) (some i, w₂) := by
  rcases h.grown with hscan | ⟨rfl, _⟩
  · exact hscan.moves
  · exact .refl

theorem BlockTurn.moves (h : BlockTurn budget n i w w₁ w₂ w') :
    ReflTransGen (BlockMove budget) (none, w) (none, w') :=
  (ReflTransGen.head h.taken h.growth).tail (.leave h.left.opens h.left.done)

/-- A visit ends well. -/
theorem visitBlock_ends {rest : List BlockId} (h : Sound .block base none w)
    (hwork : w.worklist = n :: rest) :
    Ends (Pass.visitBlock budget n) { w with worklist := rest } fun _ w' =>
      ∃ i w₁ w₂, BlockTurn budget n i w w₁ w₂ w' := by
  obtain ⟨i, hn, hown, halone, hsound⟩ := h.pop hwork
  obtain ⟨b, hb⟩ := hsound.exists_block hn
  have hinterval : b.interval = some i := (FlowGraph.see_of_block? hb _ _).symm.trans hown
  refine Ends.bind (Pass.ends_query hb ?_)
  rw [hinterval]
  obtain ⟨⟨opener, hu⟩, _⟩ := id hsound
  refine Ends.bind ((settleThenSync_ends hu hb hn fun w₁ hset =>
    hsound.settled_opener hb hn hown halone hset).mono ?_)
  rintro _ w₀ ⟨hset, hsync⟩
  refine Ends.bind (hsync.mono fun _ w₁ hsync => ?_)
  have htake : BlockMove budget (none, w) (some i, w₁) := .take hwork hown hb hset hsync
  have h₁ : Sound .block base (some i) w₁ := h.move htake
  obtain ⟨b₁, hb₁⟩ := h₁.exists_block (htake.mem_members hn)
  -- The regions behind are opened from wherever growing ends.
  have hlast : ∀ w₂, (Scan budget i w₁.members w₁ w₂ ∨
      w₂ = w₁ ∧ budget ≤ (w₁.graph.regs .block n).size) → Sound .block base (some i) w₂ →
      Ends (Pass.openFrontier .block i) w₂ fun _ w' => ∃ i w₁ w₂, BlockTurn budget n i w w₁ w₂ w' :=
    fun w₂ hgrown h₂ => (openFrontier_ends h₂).mono fun _ w' hleaves =>
      ⟨i, w₁, w₂, htake, hgrown, hleaves⟩
  have houtputs : w₁.graph.regs .block n = b₁.outputs := FlowGraph.see_of_block? hb₁ _ _
  refine Ends.bind (Pass.ends_query hb₁ ?_)
  by_cases hroom : b₁.outputs.size < budget
  · rw [if_pos hroom]
    refine Ends.bind (Ends.bind (ends_get ((scanBlocks_ends h₁ fun _ hx => hx).mono ?_)))
    exact fun _ w₂ hscan => hlast w₂ (.inl hscan) (h₁.moves hscan.moves)
  · rw [if_neg hroom]
    exact hlast w₁ (.inr ⟨rfl, houtputs ▸ Nat.le_of_not_lt hroom⟩) h₁

/-- The loop over the waiting blocks ends well, as a sequence of moves, and nothing
waits then. -/
theorem blockLoop_ends (budget : Nat) (h : Sound .block base none w) :
    Ends (drain (blockVisit budget)) w fun _ w' =>
      ReflTransGen (BlockMove budget) (none, w) (none, w') ∧ w'.worklist = [] := by
  refine drain_ends (P := fun w' => ReflTransGen (BlockMove budget) (none, w) (none, w')) ?_ .refl
  intro n rest w₁ hwork hpath
  have h₁ : Sound .block base none w₁ := h.moves hpath
  exact (visitBlock_ends h₁ hwork).mono fun _ _ ⟨_, _, _, hturn⟩ => hpath.trans hturn.moves

end KernelIntervals
