/-
What a split does to a graph.

* `Block.headPart`, `Block.tailPart` — the two parts of a block,
* `Severed` — the graph after a block was cut in two,
* `split_ends` — a split of a block whose successors exist ends well: either the
  block stays whole and only its outputs are set, or the graph is severed at the
  split point,
* `Settled`, `settle_ends` — the same for a pass, where the tail opens a region,
* `Severed.net` — seen as a net, a severed graph is a cut net.
-/
import KernelIntervals.Grouping.BlockVisit
import KernelIntervals.Proofs.Ends
import KernelIntervals.Proofs.Observe

namespace KernelIntervals

/-! ### The two parts of a block -/

/-- The part of a block that keeps its place: the instructions before the cut,
followed by the tail. -/
def Block.headPart (place : Nat) (running : RegSet) (tail : BlockId) (b : Block) : Block :=
  { b with
    insts := b.insts.take place
    outputs := running
    succs := [tail]
    control := none
    exit := false }

/-- The part of a block that is a block of its own: the instructions behind the
cut, with what followed the block. -/
def Block.tailPart (b : Block) (name : String) (place : Nat) (head : BlockId) : Block :=
  { Block.ofInsts name ((b.insts.drop place).map (Inst.renameLabel b.name name)) with
    group := b.group
    preds := [head]
    succs := b.succs
    control := b.control
    exit := b.exit }

/-- The graph `g'` is `g` with the block `b` of the id `head` cut at a place. -/
structure Severed (g : FlowGraph) (head : BlockId) (b : Block) (place : Nat) (running : RegSet)
    (name : String) (g' : FlowGraph) : Prop where
  intervals : g'.intervals = g.intervals
  size : g'.blocks.size = g.blocks.size + 1
  tail_eq : g'.block? g.blocks.size = some (b.tailPart name place head)
  head_eq : g'.block? head = some (Block.headPart place running g.blocks.size
    (if head ∈ b.succs then b.replacePred head g.blocks.size else b))
  other_eq : ∀ x, x ≠ head → x ≠ g.blocks.size → g'.block? x =
    (g.block? x).map fun c => if x ∈ b.succs then c.replacePred head g.blocks.size else c

/-! ### Redirecting predecessor entries -/

/-- Redirecting entries twice is no more than redirecting them once. -/
theorem replaceAll_replaceAll {old new : Nat} (hne : old ≠ new) (ids : List Nat) :
    replaceAll old new (replaceAll old new ids) = replaceAll old new ids := by
  by_cases hnew : new ∈ ids
  · have hkeep : new ∈ ids.filter (· != old) :=
      List.mem_filter.mpr ⟨hnew, by simpa using hne.symm⟩
    rw [replaceAll, replaceAll, if_pos hnew, if_pos hkeep, List.filter_filter]
    simp only [Bool.and_self]
  · rw [replaceAll, replaceAll, if_neg hnew]
    split
    · refine List.filter_eq_self.mpr fun x hx => ?_
      obtain ⟨y, _, rfl⟩ := List.mem_map.mp hx
      split <;> simp_all [Ne.symm hne]
    · rw [List.map_map]
      refine List.map_congr_left fun x _ => ?_
      show (if (if x = old then new else x) = old then new else _) = _
      split <;> simp_all

theorem replacePred_replacePred {old new : BlockId} (hne : old ≠ new) (b : Block) :
    (b.replacePred old new).replacePred old new = b.replacePred old new := by
  rw [Block.replacePred, Block.replacePred, replaceAll_replaceAll hne]

/-- The entries of all successors are redirected, once each. -/
theorem redirect_ends {old new : BlockId} (hne : old ≠ new) {succs : List BlockId} {g : FlowGraph}
    (hex : ∀ s ∈ succs, s < g.blocks.size) :
    Ends (succs.forM fun s => Edit.updateBlock s (·.replacePred old new)) g fun _ g' =>
      g'.intervals = g.intervals ∧ g'.blocks.size = g.blocks.size ∧ ∀ x, g'.block? x =
        (g.block? x).map fun c => if x ∈ succs then c.replacePred old new else c := by
  induction succs generalizing g with
  | nil =>
    refine ends_pure ⟨rfl, rfl, fun x => ?_⟩
    cases g.block? x <;> simp
  | cons s succs ih =>
    obtain ⟨c, hc⟩ : ∃ c, g.block? s = some c := Arena.exists_get? (hex s List.mem_cons_self)
    refine Ends.bind (Edit.ends_updateBlock hc ?_)
    have hsize : (g.modifyBlock s (·.replacePred old new)).blocks.size = g.blocks.size :=
      Arena.size_modify ..
    refine (ih (g := g.modifyBlock s (·.replacePred old new)) fun x hx => ?_).mono ?_
    · rw [hsize]
      exact hex x (List.mem_cons_of_mem s hx)
    · rintro _ g' ⟨hint, hsize', hblock⟩
      refine ⟨hint, hsize'.trans hsize, fun x => ?_⟩
      rw [hblock x, FlowGraph.block?_modifyBlock]
      by_cases hxs : s = x
      · subst hxs
        rw [if_pos rfl, Option.map_map]
        refine congrArg (fun f => (g.block? s).map f) (funext fun c => ?_)
        by_cases hmem : s ∈ succs
        · simp [hmem, replacePred_replacePred hne]
        · simp [hmem]
      · rw [if_neg hxs]
        simp [Ne.symm hxs]

/-! ### Splits -/

/-- A graph with a shortened block and a tail without edges is severed once the tail
takes over the successors of the block, and is its only successor. -/
theorem severed_of_wired {g g₄ : FlowGraph} {head : BlockId} {b : Block} {place : Nat}
    {running : RegSet} {name : String} (hne : head ≠ g.blocks.size)
    (hint : g₄.intervals = g.intervals) (hsize : g₄.blocks.size = g.blocks.size + 1)
    (htail : g₄.block? g.blocks.size = some
      { Block.ofInsts name ((b.insts.drop place).map (Inst.renameLabel b.name name)) with
        group := b.group })
    (hhead : g₄.block? head = some (if head ∈ b.succs then
      Block.replacePred head g.blocks.size
        { b with insts := b.insts.take place, outputs := running }
      else { b with insts := b.insts.take place, outputs := running }))
    (hother : ∀ x, x ≠ head → x ≠ g.blocks.size → g₄.block? x =
      (g.block? x).map fun c => if x ∈ b.succs then c.replacePred head g.blocks.size else c) :
    Severed g head b place running name
      ((g₄.modifyBlock g.blocks.size fun t =>
        { t with succs := b.succs, preds := [head], control := b.control, exit := b.exit }).modifyBlock
        head fun c => { c with succs := [g.blocks.size], control := none, exit := false }) := by
  refine ⟨hint, ?_, ?_, ?_, ?_⟩
  · show ((g₄.blocks.modify _ _).modify _ _).size = _
    rw [Arena.size_modify, Arena.size_modify, hsize]
  · rw [FlowGraph.block?_modifyBlock, if_neg hne, FlowGraph.block?_modifyBlock, if_pos rfl, htail]
    rfl
  · rw [FlowGraph.block?_modifyBlock, if_pos rfl, FlowGraph.block?_modifyBlock,
      if_neg (Ne.symm hne), hhead, Option.map_some]
    by_cases hself : head ∈ b.succs
    · rw [if_pos hself, if_pos hself]
      rfl
    · rw [if_neg hself, if_neg hself]
      rfl
  · intro x hxh hxt
    rw [FlowGraph.block?_modifyBlock, if_neg (Ne.symm hxh), FlowGraph.block?_modifyBlock,
      if_neg (Ne.symm hxt)]
    exact hother x hxh hxt

/-- A cut of a block whose successors exist ends well. -/
theorem cut_ends {g : FlowGraph} {head : BlockId} {b : Block} {place : Nat} {running : RegSet}
    (hb : g.block? head = some b) (hsuccs : ∀ s ∈ b.succs, s < g.blocks.size) :
    Ends (Edit.cut head b place running) (g.modifyBlock head ({ · with outputs := running }))
      fun f g' => f.tail = g.blocks.size ∧ ∃ name, Severed g head b place running name g' := by
  have hlt : head < g.blocks.size := Arena.lt_size_of_get? hb
  have hne : head ≠ g.blocks.size := Nat.ne_of_lt hlt
  refine Ends.bind (ends_get ?_)
  generalize (g.modifyBlock head ({ · with outputs := running })).fragmentName b.name = name
  have hb₁ : (g.modifyBlock head ({ · with outputs := running })).block? head =
      some { b with outputs := running } := by
    rw [FlowGraph.block?_modifyBlock, if_pos rfl, hb]
    rfl
  refine Ends.bind (Edit.ends_updateBlock hb₁ ?_)
  -- The block is shortened.
  generalize hg₂ : (g.modifyBlock head ({ · with outputs := running })).modifyBlock head
    (fun b => { b with insts := b.insts.take place }) = g₂
  have hsize₂ : g₂.blocks.size = g.blocks.size := by
    rw [← hg₂]
    exact (Arena.size_modify ..).trans (Arena.size_modify ..)
  have hint₂ : g₂.intervals = g.intervals := by
    rw [← hg₂]
    rfl
  have hblock₂ : ∀ x, g₂.block? x = if head = x then
      some { b with insts := b.insts.take place, outputs := running } else g.block? x := by
    intro x
    rw [← hg₂, FlowGraph.block?_modifyBlock, FlowGraph.block?_modifyBlock]
    split
    next hx =>
      subst hx
      rw [hb]
      rfl
    next => rfl
  refine Ends.bind ⟨_, _, rfl, ?_⟩
  -- From here on the tail is there, without edges.
  generalize hg₃ : g₂.addBlock _ = g₃
  have hsize₃ : g₃.blocks.size = g.blocks.size + 1 := by
    rw [← hg₃]
    exact (Arena.size_alloc ..).trans (congrArg (· + 1) hsize₂)
  rw [hsize₂]
  refine Ends.bind ((redirect_ends hne (g := g₃) fun s hs => ?_).mono ?_)
  · rw [hsize₃]
    exact Nat.lt_succ_of_lt (hsuccs s hs)
  -- Here the successors, maybe the block itself, know the tail as predecessor.
  rintro _ g₄ ⟨hint₄, hsize₄, hblock₄⟩
  have htail : g.blocks.size ∉ b.succs := fun h => Nat.lt_irrefl _ (hsuccs _ h)
  have htail₄ : g₄.block? g.blocks.size = some
      { Block.ofInsts name ((b.insts.drop place).map (Inst.renameLabel b.name name)) with
        group := b.group } := by
    rw [hblock₄, ← hg₃, FlowGraph.block?_addBlock, hsize₂, if_pos rfl]
    simp [htail]
  refine Ends.bind (Edit.ends_updateBlock htail₄ (Ends.bind ?_))
  have hhead₄ : g₄.block? head = some (if head ∈ b.succs then
      Block.replacePred head g.blocks.size
        { b with insts := b.insts.take place, outputs := running }
      else { b with insts := b.insts.take place, outputs := running }) := by
    rw [hblock₄, ← hg₃, FlowGraph.block?_addBlock, hsize₂, if_neg hne, hblock₂, if_pos rfl]
    rfl
  have hhead₅ : (g₄.modifyBlock g.blocks.size fun t =>
      { t with succs := b.succs, preds := [head], control := b.control, exit := b.exit }).block?
      head = g₄.block? head := by
    rw [FlowGraph.block?_modifyBlock, if_neg (Ne.symm hne)]
  refine Edit.ends_updateBlock (hhead₅.trans hhead₄) (ends_pure ⟨rfl, name, ?_⟩)
  refine severed_of_wired hne ?_ (hsize₄.trans hsize₃) htail₄ hhead₄ fun x hxh hxt => ?_
  · rw [hint₄, ← hg₃]
    exact hint₂
  · rw [hblock₄, ← hg₃, FlowGraph.block?_addBlock, hsize₂, if_neg hxt, hblock₂,
      if_neg (Ne.symm hxh)]

/-- A split of a block whose successors exist ends well. -/
theorem split_ends (budget : Nat) {g : FlowGraph} {head : BlockId} {b : Block}
    (hb : g.block? head = some b) (hsuccs : ∀ s ∈ b.succs, s < g.blocks.size) :
    Ends (Edit.split budget head) g fun r g' =>
      (r = none ∧ (splitPoint budget b.insts).1 = none ∧
        g' = g.modifyBlock head ({ · with outputs := (splitPoint budget b.insts).2 })) ∨
      ∃ f place name, r = some f ∧ (splitPoint budget b.insts).1 = some place ∧
        f.tail = g.blocks.size ∧ Severed g head b place (splitPoint budget b.insts).2 name g' := by
  refine Ends.bind (Edit.ends_query hb ?_)
  generalize splitPoint budget b.insts = point
  obtain ⟨place?, running⟩ := point
  refine Ends.bind (Edit.ends_updateBlock hb ?_)
  cases place? with
  | none => exact ends_pure (.inl ⟨rfl, rfl, rfl⟩)
  | some place =>
    refine Ends.bind ((cut_ends hb hsuccs).mono ?_)
    rintro f g' ⟨htail, name, hsevered⟩
    exact ends_pure (.inr ⟨f, place, name, rfl, rfl, htail, hsevered⟩)

/-! ### Splits in a pass -/

/-- What a pass comes to when it settles a block: the block is whole, or it is cut
and its tail is a member that opened a region. -/
inductive Settled (budget : Nat) (n : BlockId) (b : Block) (w : Workspace) : Workspace → Prop
  | whole (h : (splitPoint budget b.insts).1 = none) : Settled budget n b w
      { w with
        graph := w.graph.modifyBlock n ({ · with outputs := (splitPoint budget b.insts).2 }) }
  | parted {place : Nat} {name : String} {g' : FlowGraph} {log : Log}
      (h : (splitPoint budget b.insts).1 = some place)
      (hg : Severed w.graph n b place (splitPoint budget b.insts).2 name g') :
      Settled budget n b w (Workspace.openGroup .block w.graph.blocks.size
        { w with graph := g', log, members := w.members ++ [w.graph.blocks.size] })

theorem report_all_ends (events : List Event) (w : Workspace) :
    Ends (events.forM Pass.report) w fun _ w' => ∃ log, w' = { w with log } := by
  refine ends_forM_inv (P := fun w' => ∃ log, w' = { w with log }) ?_ ⟨w.log, rfl⟩
  rintro e _ _ ⟨log, rfl⟩
  exact ends_modify ⟨log.push e, rfl⟩

theorem settle_ends (budget : Nat) {w : Workspace} {n : BlockId} {b : Block}
    (hb : w.graph.block? n = some b) (hsuccs : ∀ s ∈ b.succs, s < w.graph.blocks.size) :
    Ends (Pass.settle budget n) w fun _ w' => Settled budget n b w w' := by
  refine Ends.bind (Pass.ends_edit ((split_ends budget hb hsuccs).mono ?_))
  rintro r g' (⟨rfl, hnone, rfl⟩ | ⟨f, place, name, rfl, hplace, htail, hsevered⟩)
  · exact ends_pure (.whole hnone)
  · refine Ends.bind ((report_all_ends f.events _).mono ?_)
    rintro _ _ ⟨log, rfl⟩
    refine Ends.bind (ends_modify ?_)
    rw [htail]
    have hfree : g'.unowned? .block w.graph.blocks.size = some true := by
      rw [FlowGraph.unowned?, FlowGraph.node?, hsevered.tail_eq]
      rfl
    refine Ends.bind (Pass.ends_query hfree (ends_modify ?_))
    exact .parted hplace hsevered

/-! ### Severed graphs as nets -/

namespace Severed

variable {g g' : FlowGraph} {head : BlockId} {b : Block} {place : Nat} {running : RegSet}
  {name : String} (h : Severed g head b place running name g')

include h

/-- What is not redirected is only changed in the two parts of the block. -/
theorem see_of_ne {α : Type} {π : Node → α} {default : α} {x : BlockId} (hhead : x ≠ head)
    (htail : x ≠ g.blocks.size)
    (hπ : ∀ c : Block, π (c.replacePred head g.blocks.size).toNode = π c.toNode) :
    g'.see .block π default x = g.see .block π default x := by
  rw [FlowGraph.see_block, FlowGraph.see_block, h.other_eq x hhead htail, Option.map_map]
  cases g.block? x with
  | none => rfl
  | some c =>
    by_cases hx : x ∈ b.succs
    · simp [hx, hπ]
    · simp [hx]

theorem see_interval {α : Type} (π : Node → α) (default : α) :
    g'.see .interval π default = g.see .interval π default := by
  funext j
  rw [FlowGraph.see, FlowGraph.see, FlowGraph.node?, FlowGraph.node?, FlowGraph.interval?,
    FlowGraph.interval?, h.intervals]

theorem see_tail {α : Type} (π : Node → α) (default : α) :
    g'.see .block π default g.blocks.size = π (b.tailPart name place head).toNode := by
  rw [FlowGraph.see_block, h.tail_eq]
  rfl

theorem see_head {α : Type} (π : Node → α) (default : α) :
    g'.see .block π default head = π (Block.headPart place running g.blocks.size
      (if head ∈ b.succs then b.replacePred head g.blocks.size else b)).toNode := by
  rw [FlowGraph.see_block, h.head_eq]
  rfl

theorem insts_head : g'.insts .block head = b.insts.take place := by
  rw [FlowGraph.insts, h.see_head]
  split <;> rfl

theorem regs_head : g'.regs .block head = running := by
  rw [FlowGraph.regs, h.see_head]
  rfl

theorem insts_tail : g'.insts .block g.blocks.size =
    (b.insts.drop place).map (Inst.renameLabel b.name name) := by
  rw [FlowGraph.insts, h.see_tail]
  rfl

theorem regs_tail : g'.regs .block g.blocks.size = instRegs (g'.insts .block g.blocks.size) := by
  rw [h.insts_tail, FlowGraph.regs, h.see_tail]
  rfl

theorem insts_of_ne {x : BlockId} (hhead : x ≠ head) (htail : x ≠ g.blocks.size) :
    g'.insts .block x = g.insts .block x :=
  h.see_of_ne hhead htail fun _ => rfl

theorem regs_of_ne {x : BlockId} (hhead : x ≠ head) (htail : x ≠ g.blocks.size) :
    g'.regs .block x = g.regs .block x :=
  h.see_of_ne hhead htail fun _ => rfl

theorem links_tail : g'.links g.blocks.size = b.links := by
  rw [FlowGraph.links_of_block? h.tail_eq]
  rfl

theorem links_head : g'.links head = b.links.inner := by
  rw [FlowGraph.links_of_block? h.head_eq]
  split <;> rfl

theorem links_of_ne {x : BlockId} (hhead : x ≠ head) (htail : x ≠ g.blocks.size) :
    g'.links x = g.links x := by
  rw [FlowGraph.links, FlowGraph.links, h.other_eq x hhead htail, Option.map_map]
  cases g.block? x with
  | none => rfl
  | some c =>
    show Block.links (if x ∈ b.succs then _ else _) = _
    split <;> rfl

theorem size_lt : g.blocks.size < g'.extent .block := by
  show g.blocks.size < g'.blocks.size
  rw [h.size]
  omega

theorem owner_tail : g'.owner .block g.blocks.size = none := by
  rw [FlowGraph.owner, h.see_tail]
  rfl

/-- A cut changes no owners. -/
theorem owner (hb : g.block? head = some b) : g'.owner .block = g.owner .block := by
  funext x
  by_cases hxh : x = head
  · rw [hxh, FlowGraph.owner, FlowGraph.owner, h.see_head, FlowGraph.see_block, hb]
    split <;> rfl
  · by_cases hxt : x = g.blocks.size
    · rw [hxt, FlowGraph.owner, FlowGraph.owner, h.see_tail,
        FlowGraph.see_eq_default (show g.extent .block ≤ g.blocks.size from Nat.le_refl _)]
      rfl
    · exact h.see_of_ne hxh hxt fun _ => rfl

theorem succs (hb : g.block? head = some b) (nodes : List Nat) :
    g'.succs .block = ((g.net .block nodes).cut head g.blocks.size).succs := by
  funext x
  have hsuccs : g.succs .block head = b.succs := FlowGraph.see_of_block? hb _ _
  have hne : head ≠ g.blocks.size := Nat.ne_of_lt (Arena.lt_size_of_get? hb)
  by_cases hxt : x = g.blocks.size
  · rw [hxt, Net.succs_cut_tail, FlowGraph.succs, h.see_tail]
    exact hsuccs.symm
  · by_cases hxh : x = head
    · rw [hxh, Net.succs_cut_head hne, FlowGraph.succs, h.see_head]
      rfl
    · rw [Net.succs_cut_of_ne hxt hxh]
      exact h.see_of_ne hxh hxt fun _ => rfl

theorem preds (hb : g.block? head = some b) (nodes : List Nat)
    (hfresh : ∀ s ∈ b.succs, g.blocks.size ∉ g.preds .block s) :
    g'.preds .block = ((g.net .block nodes).cut head g.blocks.size).preds := by
  funext x
  have hsuccs : g.succs .block head = b.succs := FlowGraph.see_of_block? hb _ _
  by_cases hxt : x = g.blocks.size
  · rw [hxt, Net.preds_cut_tail, FlowGraph.preds, h.see_tail]
    rfl
  · show _ = if x = g.blocks.size then _ else if x ∈ g.succs .block head then _ else _
    rw [if_neg hxt, hsuccs]
    have hpreds : g'.preds .block x = if x ∈ b.succs then
        replaceAll head g.blocks.size (g.preds .block x) else g.preds .block x := by
      by_cases hxh : x = head
      · rw [hxh, FlowGraph.preds, FlowGraph.preds, h.see_head, FlowGraph.see_block, hb]
        split <;> rfl
      · rw [FlowGraph.preds, FlowGraph.preds, FlowGraph.see_block, FlowGraph.see_block,
          h.other_eq x hxh hxt]
        cases g.block? x with
        | none =>
          show [] = if x ∈ b.succs then replaceAll _ _ [] else []
          split <;> rfl
        | some c =>
          show Node.preds (Block.toNode (if x ∈ b.succs then _ else _)) = _
          split <;> rfl
    rw [hpreds]
    split
    next hx => exact if_neg (hfresh x hx)
    next => rfl

/-- Seen as a net, a severed graph is a cut net. -/
theorem net (hb : g.block? head = some b) (nodes : List Nat)
    (hfresh : ∀ s ∈ b.succs, g.blocks.size ∉ g.preds .block s) :
    g'.net .block (nodes ++ [g.blocks.size]) = (g.net .block nodes).cut head g.blocks.size := by
  rw [FlowGraph.net, h.preds hb nodes hfresh, h.succs hb nodes]
  rfl

end Severed

end KernelIntervals
