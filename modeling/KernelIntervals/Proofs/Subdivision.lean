/-
A first pass subdivides blocks, and does nothing else to the program.

* `Inst.unlabelled` — an instruction without the names of its branch targets,
* `Chain` — the fragments of a block, from the first to the last,
* `Subdivides` — every block has become the chain of its fragments,
* `Subdivides.trans`, `Subdivides.cut` — fragments may be subdivided again, and a cut
  subdivides a block,
* `run_subdivides` — so does a run that returns intervals.

Design notes: the chain of a block begins with the block itself, so predecessors stay
at the block and successors move to its last fragment. Tails have their branches
renamed, which is why instructions are compared without labels.
-/
import Mathlib.Data.List.Chain
import Mathlib.Data.List.Perm.Basic
import KernelIntervals.Proofs.Lineage

namespace KernelIntervals

/-! ### Instructions without labels -/

/-- An operand without the name of its branch target. -/
def Operand.unlabelled : Operand → Operand
  | .label _ bare => .label "" bare
  | operand => operand

/-- An instruction without the names of its branch targets. -/
def Inst.unlabelled (i : Inst) : Inst := { i with operands := i.operands.map Operand.unlabelled }

@[simp] theorem Operand.unlabelled_renameLabel (old new : String) (o : Operand) :
    (o.renameLabel old new).unlabelled = o.unlabelled := by
  cases o <;> rfl

@[simp] theorem Inst.unlabelled_renameLabel (old new : String) (i : Inst) :
    (i.renameLabel old new).unlabelled = i.unlabelled := by
  simp [unlabelled, renameLabel]

/-! ### Chains -/

/-- The fragments of a block: those before the last one, and the last one. -/
structure Chain where
  front : List BlockId
  last : BlockId

namespace Chain

def fragments (c : Chain) : List BlockId := c.front ++ [c.last]

/-- The chain of a block that was not cut. -/
def whole (b : BlockId) : Chain := ⟨[], b⟩

/-- The chain with every fragment replaced by the chain of its own fragments. -/
def refine (c : Chain) (chain : BlockId → Chain) : Chain :=
  ⟨(c.front.flatMap fun f => (chain f).fragments) ++ (chain c.last).front, (chain c.last).last⟩

theorem last_mem (c : Chain) : c.last ∈ c.fragments :=
  List.mem_append_right _ (List.mem_singleton_self _)

theorem fragments_ne_nil (c : Chain) : c.fragments ≠ [] := List.ne_nil_of_mem c.last_mem

theorem getLast?_fragments (c : Chain) : c.fragments.getLast? = some c.last := by
  simp [fragments]

theorem fragments_of_front {c : Chain} (h : c.front = []) : c.fragments = [c.last] := by
  rw [fragments, h]
  rfl

theorem fragments_refine (c : Chain) (chain : BlockId → Chain) :
    (c.refine chain).fragments = c.fragments.flatMap fun f => (chain f).fragments := by
  simp [fragments, refine]

end Chain

/-! ### Subdivisions -/

/-- The blocks `nodes` of `g` are those of `nodes₀` in `g₀`, each subdivided into the
fragments that `chain` tells. -/
structure Subdivides (g₀ : FlowGraph) (nodes₀ : List BlockId) (g : FlowGraph)
    (nodes : List BlockId) (chain : BlockId → Chain) : Prop where
  /-- The tails stand behind the blocks that were given, in the order of their creation. -/
  created : ∃ k, g.blocks.size = g₀.blocks.size + k ∧
    nodes = nodes₀ ++ List.range' g₀.blocks.size k
  nodup : nodes.Nodup
  covered : (nodes₀.flatMap fun b => (chain b).fragments).Perm nodes
  head : ∀ b ∈ nodes₀, (chain b).fragments.head? = some b
  linked : ∀ b ∈ nodes₀, (chain b).fragments.IsChain
    fun x y => g.succs .block x = [y] ∧ g.preds .block y = [x]
  succs : ∀ b ∈ nodes₀, g.succs .block (chain b).last = g₀.succs .block b
  preds : ∀ b ∈ nodes₀, g.preds .block b = (g₀.preds .block b).map fun p => (chain p).last
  links_last : ∀ b ∈ nodes₀, g.links (chain b).last = g₀.links b
  links_front : ∀ b ∈ nodes₀, ∀ f ∈ (chain b).front, g.links f = (g₀.links b).inner
  nonempty : ∀ b ∈ nodes₀, (chain b).front ≠ [] → ∀ f ∈ (chain b).fragments,
    g.insts .block f ≠ []
  insts : ∀ b ∈ nodes₀, ((chain b).fragments.flatMap (g.insts .block)).map Inst.unlabelled =
    (g₀.insts .block b).map Inst.unlabelled

namespace Subdivides

variable {g₀ g₁ g g' : FlowGraph} {nodes₀ nodes₁ nodes : List BlockId}
  {chain chain' : BlockId → Chain} {b : BlockId}

/-- Blocks that are the same are subdivided into themselves. -/
theorem of_same (h : SameBlocks g g') (hnodup : nodes.Nodup) :
    Subdivides g nodes g' nodes Chain.whole where
  created := ⟨0, h.size, (List.append_nil nodes).symm⟩
  nodup := hnodup
  covered := .of_eq (List.flatMap_singleton' nodes)
  head := fun _ _ => rfl
  linked := fun b _ => .singleton b
  succs := fun b _ => congrFun h.succs b
  preds := fun b _ => (congrFun h.preds b).trans (List.map_id' _).symm
  links_last := fun b _ => congrFun h.links b
  links_front := fun _ _ _ hf => absurd hf List.not_mem_nil
  nonempty := fun _ _ hne => absurd rfl hne
  insts := fun b _ => by
    rw [h.insts]
    exact congrArg _ (List.flatMap_singleton _ b)

section

variable (h : Subdivides g₀ nodes₀ g nodes chain)

include h

theorem mem_of_fragment (hb : b ∈ nodes₀) {f : BlockId} (hf : f ∈ (chain b).fragments) :
    f ∈ nodes :=
  h.covered.mem_iff.mp (List.mem_flatMap.mpr ⟨b, hb, hf⟩)

theorem mem_nodes (hb : b ∈ nodes₀) : b ∈ nodes :=
  h.mem_of_fragment hb (List.mem_of_head? (h.head b hb))

/-- A block that is one fragment is that fragment, with the same instructions. -/
theorem insts_of_front (hb : b ∈ nodes₀) (hfront : (chain b).front = []) :
    (chain b).last = b ∧
      (g.insts .block b).map Inst.unlabelled = (g₀.insts .block b).map Inst.unlabelled := by
  have hone := Chain.fragments_of_front hfront
  have hlast : (chain b).last = b := by
    have hhead := h.head b hb
    rw [hone] at hhead
    exact Option.some.inj hhead
  refine ⟨hlast, ?_⟩
  rw [← h.insts b hb, hone, hlast, List.flatMap_singleton]

end

/-! ### Subdividing again -/

section

variable (h : Subdivides g₀ nodes₀ g₁ nodes₁ chain) (h' : Subdivides g₁ nodes₁ g nodes chain')
  (hb : b ∈ nodes₀)

include h h'

theorem created_trans : ∃ k, g.blocks.size = g₀.blocks.size + k ∧
    nodes = nodes₀ ++ List.range' g₀.blocks.size k := by
  obtain ⟨k, hsize, rfl⟩ := h.created
  obtain ⟨k', hsize', rfl⟩ := h'.created
  refine ⟨k + k', by omega, ?_⟩
  rw [List.append_assoc, hsize, List.range'_append_1]

theorem covered_trans :
    (nodes₀.flatMap fun b => ((chain b).refine chain').fragments).Perm nodes := by
  have hrefine : (nodes₀.flatMap fun b => ((chain b).refine chain').fragments) =
      (nodes₀.flatMap fun b => (chain b).fragments).flatMap fun f => (chain' f).fragments := by
    rw [List.flatMap_assoc]
    exact List.flatMap_congr fun b _ => Chain.fragments_refine ..
  rw [hrefine]
  exact (h.covered.flatMap_right _).trans h'.covered

include hb

theorem head_trans : ((chain b).refine chain').fragments.head? = some b := by
  have hhead := h'.head b (h.mem_nodes hb)
  rw [Chain.fragments_refine]
  obtain ⟨rest, hrest⟩ := List.head?_eq_some_iff.mp (h.head b hb)
  rw [hrest, List.flatMap_cons, List.head?_append, hhead]
  rfl

/-- The chains of two fragments in a row are linked where the fragments were. -/
theorem linked_trans : ((chain b).refine chain').fragments.IsChain
    fun x y => g.succs .block x = [y] ∧ g.preds .block y = [x] := by
  have hmem : ∀ f ∈ (chain b).fragments, f ∈ nodes₁ := fun f hf => h.mem_of_fragment hb hf
  rw [Chain.fragments_refine, List.flatMap_def, List.isChain_flatten]
  · refine ⟨?_, (List.isChain_map _).mpr ((h.linked b hb).imp_of_mem_imp ?_)⟩
    · intro l hl
      obtain ⟨f, hf, rfl⟩ := List.mem_map.mp hl
      exact h'.linked f (hmem f hf)
    · rintro x y hx hy ⟨hsuccs, hpreds⟩ u hu v hv
      rw [Chain.getLast?_fragments] at hu
      rw [h'.head y (hmem y hy)] at hv
      obtain rfl := Option.some.inj hu
      obtain rfl := Option.some.inj hv
      refine ⟨(h'.succs x (hmem x hx)).trans hsuccs, ?_⟩
      rw [h'.preds y (hmem y hy), hpreds]
      rfl
  · intro hnil
    obtain ⟨f, _, hf⟩ := List.mem_map.mp hnil
    exact Chain.fragments_ne_nil _ hf

theorem links_front_trans : ∀ f ∈ ((chain b).refine chain').front,
    g.links f = (g₀.links b).inner := by
  intro f hf
  rcases List.mem_append.mp hf with hf | hf
  · -- The fragment is one of a fragment that was not the last.
    obtain ⟨x, hx, hf⟩ := List.mem_flatMap.mp hf
    have hx₁ : x ∈ nodes₁ := h.mem_of_fragment hb (List.mem_append_left _ hx)
    rcases List.mem_append.mp hf with hf | hf
    · rw [h'.links_front x hx₁ f hf, h.links_front b hb x hx]
      rfl
    · rw [List.mem_singleton.mp hf, h'.links_last x hx₁, h.links_front b hb x hx]
  · rw [h'.links_front _ (h.mem_of_fragment hb (chain b).last_mem) f hf, h.links_last b hb]

theorem nonempty_trans (hfront : ((chain b).refine chain').front ≠ []) :
    ∀ f ∈ ((chain b).refine chain').fragments, g.insts .block f ≠ [] := by
  intro f hf
  rw [Chain.fragments_refine] at hf
  obtain ⟨x, hx, hf⟩ := List.mem_flatMap.mp hf
  have hx₁ := h.mem_of_fragment hb hx
  by_cases hone : (chain' x).front = []
  · -- The fragment was there before, and was not all of its block.
    obtain ⟨hlast, hinsts⟩ := h'.insts_of_front hx₁ hone
    rw [Chain.fragments_of_front hone, hlast] at hf
    have hsome : (chain b).front ≠ [] := by
      intro hnone
      rw [Chain.fragments_of_front hnone] at hx
      rw [Chain.refine, hnone, ← List.mem_singleton.mp hx, hone] at hfront
      exact hfront rfl
    rw [List.mem_singleton.mp hf]
    intro hnil
    rw [hnil] at hinsts
    exact h.nonempty b hb hsome x hx (List.map_eq_nil_iff.mp hinsts.symm)
  · exact h'.nonempty x hx₁ hone f hf

theorem insts_trans : (((chain b).refine chain').fragments.flatMap (g.insts .block)).map
    Inst.unlabelled = (g₀.insts .block b).map Inst.unlabelled := by
  rw [Chain.fragments_refine, List.flatMap_assoc, ← h.insts b hb, List.map_flatMap,
    List.map_flatMap]
  exact List.flatMap_congr fun x hx => h'.insts x (h.mem_of_fragment hb hx)

end

theorem trans (h : Subdivides g₀ nodes₀ g₁ nodes₁ chain)
    (h' : Subdivides g₁ nodes₁ g nodes chain') :
    Subdivides g₀ nodes₀ g nodes fun b => (chain b).refine chain' where
  created := h.created_trans h'
  nodup := h'.nodup
  covered := h.covered_trans h'
  head := fun _ hb => h.head_trans h' hb
  linked := fun _ hb => h.linked_trans h' hb
  succs := fun b hb =>
    (h'.succs _ (h.mem_of_fragment hb (chain b).last_mem)).trans (h.succs b hb)
  preds := fun b hb => by
    rw [h'.preds b (h.mem_nodes hb), h.preds b hb, List.map_map]
    rfl
  links_last := fun b hb =>
    (h'.links_last _ (h.mem_of_fragment hb (chain b).last_mem)).trans (h.links_last b hb)
  links_front := fun _ hb => h.links_front_trans h' hb
  nonempty := fun _ hb hfront => h.nonempty_trans h' hb hfront
  insts := fun _ hb => h.insts_trans h' hb

/-! ### A cut -/

/-- The chains of blocks one of which is cut in two. -/
def cutChain (head tail : BlockId) (b : BlockId) : Chain :=
  if b = head then ⟨[head], tail⟩ else .whole b

theorem cutChain_head (head tail : BlockId) : cutChain head tail head = ⟨[head], tail⟩ :=
  if_pos rfl

theorem cutChain_of_ne {head tail : BlockId} (h : b ≠ head) : cutChain head tail b = .whole b :=
  if_neg h

theorem covered_cutChain {head tail : BlockId} (hnodup : nodes.Nodup) (hhead : head ∈ nodes) :
    (nodes.flatMap fun b => (cutChain head tail b).fragments).Perm (nodes ++ [tail]) := by
  obtain ⟨front, back, rfl⟩ := List.append_of_mem hhead
  obtain ⟨_, hback, hdisjoint⟩ := List.nodup_append.mp hnodup
  have hwhole : ∀ l : List BlockId, head ∉ l →
      (l.flatMap fun b => (cutChain head tail b).fragments) = l := by
    intro l hl
    have hsingle : ∀ b ∈ l, (cutChain head tail b).fragments = [b] := by
      intro b hb
      rw [cutChain_of_ne (ne_of_mem_of_not_mem hb hl)]
      rfl
    rw [List.flatMap_congr hsingle, List.flatMap_singleton']
  have hfront : head ∉ front := fun hmem => hdisjoint head hmem head List.mem_cons_self rfl
  rw [List.flatMap_append, List.flatMap_cons, hwhole front hfront,
    hwhole back (List.nodup_cons.mp hback).1, cutChain_head]
  -- The tail stands behind the head, not behind all blocks.
  show (front ++ head :: tail :: back).Perm (front ++ head :: back ++ [tail])
  rw [List.append_assoc, List.cons_append]
  exact ((List.perm_append_singleton tail back).symm.cons head).append_left front

section

variable {head : BlockId} {b₀ : Block} {place : Nat} {running : RegSet} {name : String}
  (h : CleanCut nodes g head b₀ place running name g')

include h

theorem preds_cut (hb : b ∈ nodes) : g'.preds .block b =
    (g.preds .block b).map fun p => (cutChain head g.blocks.size p).last := by
  have hlast : (fun p => (cutChain head g.blocks.size p).last) =
      fun p => if p = head then g.blocks.size else p := by
    funext p
    rw [cutChain]
    split <;> rfl
  have hbt : b ≠ g.blocks.size := ne_of_mem_of_not_mem hb h.fresh
  rw [hlast]
  show (g'.net .block (nodes ++ [g.blocks.size])).preds b = _
  rw [h.net]
  by_cases hsucc : b ∈ (g.net .block nodes).succs head
  · show (if b = g.blocks.size then _ else if _ then _ else _) = _
    rw [if_neg hbt, if_pos hsucc]
    rfl
  · -- The head is not before the block, so there is nothing to replace.
    rw [Net.preds_cut_of_not_mem hbt hsucc]
    have hsame : ∀ p ∈ g.preds .block b, (if p = head then g.blocks.size else p) = p := by
      intro p hp
      refine if_neg fun hph => hsucc ?_
      exact h.closed.mem_succs hb (hph ▸ hp)
    exact ((List.map_congr_left hsame).trans (List.map_id' _)).symm

theorem insts_cut (hb : b ∈ nodes) :
    (((cutChain head g.blocks.size b).fragments.flatMap (g'.insts .block)).map
      Inst.unlabelled) = (g.insts .block b).map Inst.unlabelled := by
  by_cases hbh : b = head
  · have hinsts : g.insts .block head = b₀.insts := FlowGraph.see_of_block? h.block _ _
    have hparts : (cutChain head g.blocks.size head).fragments.flatMap (g'.insts .block) =
        b₀.insts.take place ++ (b₀.insts.drop place).map (Inst.renameLabel b₀.name name) := by
      rw [cutChain_head, ← h.severed.insts_head, ← h.severed.insts_tail]
      simp [Chain.fragments]
    rw [hbh, hparts, hinsts, List.map_append, List.map_map]
    -- Renaming does not show without labels, so the parts make up the whole.
    have hrename : Inst.unlabelled ∘ Inst.renameLabel b₀.name name = Inst.unlabelled :=
      funext fun i => Inst.unlabelled_renameLabel ..
    rw [hrename, ← List.map_append, List.take_append_drop]
  · rw [cutChain_of_ne hbh, ← h.severed.insts_of_ne hbh (ne_of_mem_of_not_mem hb h.fresh)]
    simp [Chain.fragments, Chain.whole]

/-- A cut of a block subdivides it. -/
theorem cut : Subdivides g nodes g' (nodes ++ [g.blocks.size])
    (cutChain head g.blocks.size) := by
  have hne : head ≠ g.blocks.size := ne_of_mem_of_not_mem h.mem h.fresh
  have hsuccs := h.severed.succs h.block nodes
  -- A block is the head, and has two fragments, or it is as before.
  refine ⟨⟨1, h.severed.size, rfl⟩, ?_, covered_cutChain h.nodup h.mem, ?_, ?_, ?_,
    fun b hb => preds_cut h hb, ?_, ?_, ?_, fun b hb => insts_cut h hb⟩
  · exact List.nodup_append.mpr ⟨h.nodup, List.pairwise_singleton _ _,
      fun a ha b hb => List.mem_singleton.mp hb ▸ ne_of_mem_of_not_mem ha h.fresh⟩
  · intro b hb
    by_cases hbh : b = head
    · rw [hbh, cutChain_head]
      rfl
    · rw [cutChain_of_ne hbh]
      rfl
  · intro b hb
    by_cases hbh : b = head
    · rw [hbh, cutChain_head, hsuccs]
      refine List.isChain_pair.mpr ⟨Net.succs_cut_head hne, ?_⟩
      show (g'.net .block (nodes ++ [g.blocks.size])).preds _ = _
      rw [h.net]
      exact Net.preds_cut_tail
    · rw [cutChain_of_ne hbh]
      exact .singleton b
  · intro b hb
    rw [hsuccs]
    by_cases hbh : b = head
    · rw [hbh, cutChain_head]
      exact Net.succs_cut_tail
    · rw [cutChain_of_ne hbh]
      exact Net.succs_cut_of_ne (ne_of_mem_of_not_mem hb h.fresh) hbh
  · intro b hb
    by_cases hbh : b = head
    · rw [hbh, cutChain_head, FlowGraph.links_of_block? h.block]
      exact h.severed.links_tail
    · rw [cutChain_of_ne hbh]
      exact h.severed.links_of_ne hbh (ne_of_mem_of_not_mem hb h.fresh)
  · intro b hb f hf
    by_cases hbh : b = head
    · rw [hbh, cutChain_head] at hf
      rw [hbh, List.mem_singleton.mp hf, FlowGraph.links_of_block? h.block]
      exact h.severed.links_head
    · rw [cutChain_of_ne hbh] at hf
      exact absurd hf List.not_mem_nil
  · intro b hb hfront f hf
    by_cases hbh : b = head
    · rw [hbh, cutChain_head] at hf
      have hpos := h.place_pos
      have hlt := h.place_lt
      rcases List.mem_cons.mp hf with rfl | hf
      · rw [h.severed.insts_head]
        exact List.ne_nil_of_length_pos (by simp; omega)
      · rw [List.mem_singleton.mp hf, h.severed.insts_tail]
        exact List.ne_nil_of_length_pos (by simp; omega)
    · rw [cutChain_of_ne hbh] at hfront
      exact absurd rfl hfront

end

/-- Distinct blocks are subdivided by every pass. -/
theorem lineage : Lineage fun g₀ nodes₀ g nodes =>
    nodes₀.Nodup → ∃ chain, Subdivides g₀ nodes₀ g nodes chain where
  same := fun h hnodup => ⟨_, of_same h hnodup⟩
  trans := fun h h' hnodup => by
    obtain ⟨chain, hchain⟩ := h hnodup
    obtain ⟨chain', hchain'⟩ := h' hchain.nodup
    exact ⟨_, hchain.trans hchain'⟩
  cut := fun h _ => ⟨_, cut h⟩

end Subdivides

/-! ### Runs -/

/-- A run that returns intervals has subdivided the blocks that it was given, and done
nothing else to them. -/
theorem run_subdivides (p : BlockGrouper) (blocks : List BlockId) (state : LoggedGraph)
    (ig : IntervalGraph) (hnodup : blocks.Nodup) (hrun : (p.run blocks state).result = .ok ig) :
    ∃ chain, Subdivides state.graph blocks (p.run blocks state).state.graph ig.blocks chain :=
  Subdivides.lineage.run hnodup hrun hnodup

theorem subdivides_carvedLoops :
    [0, 1, 2].Nodup ∧
    (BlockGrouper.run ⟨4, {}⟩ [0, 1, 2] carvedLoops).result = .ok ⟨[0, 1, 2, 3], [0, 1, 2]⟩ ∧
    ∃ chain, Subdivides carvedLoops.graph [0, 1, 2]
      (BlockGrouper.run ⟨4, {}⟩ [0, 1, 2] carvedLoops).state.graph [0, 1, 2, 3] chain :=
  ⟨by decide, run_carvedLoops,
    run_subdivides ⟨4, {}⟩ [0, 1, 2] carvedLoops _ (by decide) run_carvedLoops⟩

end KernelIntervals
