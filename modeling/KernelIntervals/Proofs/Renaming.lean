/-
Grouping does not depend on names.

* `Renamed` — a set of registers with other numbers,
* `Likeness.renaming` — registers correspond to their images under a map,
* `AlikeProgram` — two programs with the same edges, and with registers that were renamed,
* `AlikeGrouping` — two graphs with the same groups and edges, and with registers that were renamed,
* `grouping_of_alike` — both passes come to the same for two such programs.

Design notes: a map need not be known beyond the registers that have a bit, and need be injective
on those only. What a program says besides its edges and its registers, such as names, labels and
opcodes, is not compared at all.
-/
import Mathlib.Data.Set.Function
import KernelIntervals.Proofs.Departure
import KernelIntervals.Proofs.Discipline

namespace KernelIntervals

open Function List

/-! ### Renamed registers -/

/-- The numbers of the registers of a set. -/
def RegSet.nums (s : RegSet) : List Nat := s.toList.map Reg.num

/-- The registers of the second set are the images of those of the first one, and all have bits. -/
structure Renamed (r : Nat → Nat) (s s' : RegSet) : Prop where
  below : ∀ n ∈ s.nums, n < vectorWidth
  below' : ∀ n ∈ s'.nums, n < vectorWidth
  image : ∀ n, n ∈ s'.nums ↔ ∃ m ∈ s.nums, r m = n

namespace RegSet

variable {s t : RegSet} {n : Nat}

theorem mem_nums : n ∈ s.nums ↔ ∃ a ∈ s, a.num = n := List.mem_map

theorem mem_nums_union : n ∈ (s ∪ t).nums ↔ n ∈ s.nums ∨ n ∈ t.nums := by
  simp only [mem_nums, mem_union, or_and_right, exists_or]

theorem nodup_nums (s : RegSet) : s.nums.Nodup :=
  s.nodup_toList.map fun _ _ => Reg.ext

theorem size_eq_length_nums (s : RegSet) : s.size = s.nums.length := (List.length_map _).symm

theorem insertAll_eq_union (s : RegSet) (rs : List Reg) : s.insertAll rs = s ∪ ofList rs :=
  ext_mem fun r => by rw [mem_insertAll, mem_union, mem_ofList]

end RegSet

/-- A set whose registers have bits has a vector. -/
theorem RegVector.exists_ofSet {s : RegSet} (h : ∀ n ∈ s.nums, n < vectorWidth) :
    ∃ v, RegVector.ofSet s = .ok v := by
  have hnone : s.toList.find? (vectorWidth ≤ ·.num) = none := by
    refine List.find?_eq_none.mpr fun a ha => ?_
    have hlt := h a.num (RegSet.mem_nums.mpr ⟨a, ha, rfl⟩)
    simpa using hlt
  exact ⟨_, by rw [RegVector.ofSet, hnone]⟩

theorem renamed_iff {r : Nat → Nat} {s s' : RegSet} : Renamed r s s' ↔
    (∀ n ∈ s.nums, n < vectorWidth) ∧ (∀ n ∈ s'.nums, n < vectorWidth) ∧
      (∀ n ∈ s'.nums, n ∈ s.nums.map r) ∧ ∀ m ∈ s.nums, r m ∈ s'.nums := by
  constructor
  · rintro ⟨hbelow, hbelow', himage⟩
    exact ⟨hbelow, hbelow', fun n hn => List.mem_map.mpr ((himage n).mp hn),
      fun m hm => (himage (r m)).mpr ⟨m, hm, rfl⟩⟩
  · rintro ⟨hbelow, hbelow', hfrom, hto⟩
    refine ⟨hbelow, hbelow', fun n => ⟨fun hn => List.mem_map.mp (hfrom n hn), ?_⟩⟩
    rintro ⟨m, hm, rfl⟩
    exact hto m hm

instance (r : Nat → Nat) (s s' : RegSet) : Decidable (Renamed r s s') :=
  decidable_of_iff _ renamed_iff.symm

namespace Renamed

variable {r : Nat → Nat} {s s' t t' : RegSet}

theorem empty (r : Nat → Nat) : Renamed r ∅ ∅ :=
  ⟨fun _ hn => absurd hn List.not_mem_nil, fun _ hn => absurd hn List.not_mem_nil,
    fun _ => ⟨fun hn => absurd hn List.not_mem_nil, fun ⟨_, hm, _⟩ => absurd hm List.not_mem_nil⟩⟩

theorem union (hs : Renamed r s s') (ht : Renamed r t t') : Renamed r (s ∪ t) (s' ∪ t') where
  below n hn := (RegSet.mem_nums_union.mp hn).elim (hs.below n) (ht.below n)
  below' n hn := (RegSet.mem_nums_union.mp hn).elim (hs.below' n) (ht.below' n)
  image n := by
    rw [RegSet.mem_nums_union, hs.image, ht.image]
    simp only [RegSet.mem_nums_union, or_and_right, exists_or]

/-- No two registers are given one number. -/
theorem size_eq (hr : Set.InjOn r {n | n < vectorWidth}) (h : Renamed r s s') :
    s'.size = s.size := by
  have hnodup : (s.nums.map r).Nodup :=
    s.nodup_nums.map_on fun m hm n hn => hr (h.below m hm) (h.below n hn)
  have hperm : s'.nums.Perm (s.nums.map r) := by
    refine (List.perm_ext_iff_of_nodup s'.nodup_nums hnodup).mpr fun n => ?_
    rw [h.image, List.mem_map]
  rw [RegSet.size_eq_length_nums, RegSet.size_eq_length_nums, hperm.length_eq, List.length_map]

end Renamed

/-- Registers correspond to their images under a map. -/
def Likeness.renaming (r : Nat → Nat) (hr : Set.InjOn r {n | n < vectorWidth}) : Likeness where
  regs := Renamed r
  inst i i' := Renamed r (.ofList i.regs) (.ofList i'.regs)
  regs_empty := .empty r
  regs_union := Renamed.union
  size_eq := Renamed.size_eq hr
  error_iff := by
    intro s s' h e
    obtain ⟨v, hv⟩ := RegVector.exists_ofSet h.below
    obtain ⟨v', hv'⟩ := RegVector.exists_ofSet h.below'
    rw [hv, hv']
    exact iff_of_false (fun he => by injection he) fun he => by injection he

theorem Likeness.renaming_splits (r : Nat → Nat) (hr : Set.InjOn r {n | n < vectorWidth}) :
    (Likeness.renaming r hr).Splits where
  regs_insertAll hs hi := by
    rw [RegSet.insertAll_eq_union, RegSet.insertAll_eq_union]
    exact Renamed.union hs hi
  inst_rename := by
    intro i i' hi old new old' new'
    show Renamed r (.ofList (i.renameLabel old new).regs) (.ofList (i'.renameLabel old' new').regs)
    rw [Inst.regs_renameLabel, Inst.regs_renameLabel]
    exact hi

/-! ### Programs that are alike -/

/-- Two nodes of one number have the same edges, as many instructions, and registers that were
renamed. -/
structure AlikeNode (r : Nat → Nat) (g g' : FlowGraph) (l : Level) (n : Nat) : Prop where
  preds : g'.preds l n = g.preds l n
  succs : g'.succs l n = g.succs l n
  insts : Forall₂ (fun i i' => Renamed r (.ofList i.regs) (.ofList i'.regs)) (g.insts l n)
    (g'.insts l n)
  regs : Renamed r (g.regs l n) (g'.regs l n)

theorem alikeNode_iff {r : Nat → Nat} {g g' : FlowGraph} {l : Level} {n : Nat} :
    AlikeNode r g g' l n ↔ g'.preds l n = g.preds l n ∧ g'.succs l n = g.succs l n ∧
      Forall₂ (fun i i' => Renamed r (.ofList i.regs) (.ofList i'.regs)) (g.insts l n)
        (g'.insts l n) ∧ Renamed r (g.regs l n) (g'.regs l n) :=
  ⟨fun h => ⟨h.preds, h.succs, h.insts, h.regs⟩, fun ⟨hp, hs, hi, hr⟩ => ⟨hp, hs, hi, hr⟩⟩

instance (r : Nat → Nat) (g g' : FlowGraph) (l : Level) (n : Nat) :
    Decidable (AlikeNode r g g' l n) :=
  decidable_of_iff _ alikeNode_iff.symm

/-- Two programs with as many blocks and intervals, whose listed blocks are alike. -/
structure AlikeProgram (r : Nat → Nat) (blocks : List BlockId) (g g' : FlowGraph) : Prop where
  blocks_size : g'.blocks.size = g.blocks.size
  intervals_size : g'.intervals.size = g.intervals.size
  node : ∀ n ∈ blocks, AlikeNode r g g' .block n

/-- Two graphs whose listed blocks, and whose intervals from `base` on, are alike and grouped in the
same way. The registers live on entry to the blocks were renamed. -/
structure AlikeGrouping (r : Nat → Nat) (blocks : List BlockId) (base : IntervalId)
    (g g' : FlowGraph) : Prop where
  blocks_size : g'.blocks.size = g.blocks.size
  intervals_size : g'.intervals.size = g.intervals.size
  block : ∀ n ∈ blocks, AlikeNode r g g' .block n ∧ g'.owner .block n = g.owner .block n
  inputs : ∀ n ∈ blocks, Renamed r (g.inputs n) (g'.inputs n)
  interval : ∀ i, base ≤ i → i < g.intervals.size →
    AlikeNode r g g' .interval i ∧ g'.owner .interval i = g.owner .interval i

/-- Two rounds have made the same intervals. -/
structure AlikeRound (r : Nat → Nat) (blocks : List BlockId) (base : IntervalId)
    (round round' : Round) : Prop where
  iteration : round'.iteration = round.iteration
  intervals : round'.intervals = round.intervals
  graph : AlikeGrouping r blocks base round.graph round'.graph

/-- Registers correspond to their images, and the intervals from `base` on to those of the same
number. -/
def Kinship.renaming (r : Nat → Nat) (hr : Set.InjOn r {n | n < vectorWidth}) (base : IntervalId) :
    Kinship :=
  { Likeness.renaming r hr with base, shift := 0, old := [] }

variable {r : Nat → Nat} {hr : Set.InjOn r {n | n < vectorWidth}} {base : IntervalId}
  {blocks : List BlockId} {g g' : FlowGraph} {l : Level} {n : Nat}

theorem Kinship.num_renaming (l : Level) : (Kinship.renaming r hr base).num l = id := by
  cases l with
  | block => rfl
  | interval =>
    funext i
    exact ite_self i

theorem Kin.alikeNode (hk : Kin (Kinship.renaming r hr base) blocks g g')
    (hn : (Kinship.renaming r hr base).Knows blocks g l n) :
    AlikeNode r g g' l n ∧ g'.owner l n = g.owner l n := by
  have hakin := hk.akin hn
  rw [Kinship.num_renaming, id_eq] at hakin
  have hpreds := hakin.preds
  have hsuccs := hakin.succs
  have howner := hakin.owner
  rw [Kinship.num_renaming, List.map_id] at hpreds hsuccs
  rw [Kinship.num_renaming, Option.map_id] at howner
  exact ⟨⟨hpreds, hsuccs, hakin.insts, hakin.regs⟩, howner⟩

theorem Kin.alikeGrouping (hk : Kin (Kinship.renaming r hr base) blocks g g') :
    AlikeGrouping r blocks base g g' where
  blocks_size := hk.blocks_size
  intervals_size := hk.intervals_size
  block _ hn := hk.alikeNode (l := .block) hn
  inputs := hk.inputs
  interval _ hle hlt := hk.alikeNode (l := .interval) ⟨hlt, .inl hle⟩

/-- Blocks that are alike correspond but for their owners. -/
theorem AlikeProgram.akin (h : AlikeProgram r blocks g g') (hw : WellFormed g blocks)
    (hn : n ∈ blocks) : ∃ a a', g.node? .block n = some a ∧ g'.node? .block n = some a' ∧
      a.free.Akin (Kinship.renaming r hr base) blocks g .block a'.free := by
  have hlt : n < g.extent .block := hw.exist n hn
  have hlt' : n < g'.extent .block := Nat.lt_of_lt_of_eq hlt h.blocks_size.symm
  have hnode := h.node n hn
  refine ⟨_, _, FlowGraph.node?_eq_some hlt, FlowGraph.node?_eq_some hlt', hnode.insts, hnode.regs,
    hnode.preds.trans (List.map_id _).symm, hnode.succs.trans (List.map_id _).symm, rfl,
    fun p hp => ?_, fun s hs => ?_, fun _ hi => by injection hi⟩
  · exact hw.closed.pred_mem hn hp
  · exact hw.closed.succ_mem hn hs

/-! ### Both passes -/

theorem Fault.renumber_id (e : Fault) : e.renumber id = e := by
  unfold renumber
  split <;> rfl

section Passes

variable {budget : Nat} {scratch scratch' : Scratch} {state state' : LoggedGraph}

/-- A first pass over two programs that are alike. The runs return the same, and what they leave is
alike. -/
theorem AlikeProgram.groupBlocks (hr : Set.InjOn r {n | n < vectorWidth})
    (h : AlikeProgram r blocks state.graph state'.graph)
    (hverify : state.graph.verify blocks = .ok ()) (hverify' : state'.graph.verify blocks = .ok ())
    (hbudget : budget ≠ 0) {first first' : Outcome IntervalGraph}
    (hfirst : BlockGrouper.run ⟨budget, scratch⟩ blocks state = first)
    (hfirst' : BlockGrouper.run ⟨budget, scratch'⟩ blocks state' = first') :
    first'.result = first.result ∧
      Kin (Kinship.renaming r hr state.graph.intervals.size)
        (blocks ++ state.graph.created first.state.graph) first.state.graph first'.state.graph ∧
      ∀ ig, first.result = .ok ig → ∀ i ∈ ig.intervals,
        state.graph.intervals.size ≤ i ∧ i < first.state.graph.intervals.size := by
  have hwell := FlowGraph.verify_eq_ok_iff.mp hverify
  have hagree : Agree _ _ (Pass.groupBlocks budget blocks (state.workspace scratch))
      (Pass.groupBlocks budget blocks (state'.workspace scratch')) := groupBlocksAbreast
    (C := Kinship.renaming r hr state.graph.intervals.size)
    (Likeness.renaming_splits r hr) hbudget hverify hverify'
    (releasing_blocks h.blocks_size h.intervals_size rfl rfl hwell fun _ hn => h.akin hwell hn)
  rw [BlockGrouper.run] at hfirst hfirst'
  generalize Pass.groupBlocks budget blocks (state.workspace scratch) = run at hagree hfirst
  generalize Pass.groupBlocks budget blocks (state'.workspace scratch') = run' at hagree hfirst'
  subst hfirst hfirst'
  cases hagree with
  | @ends ig u ig' u' hends =>
    have hblocks : ig'.blocks = ig.blocks.map id := Kinship.num_renaming .block ▸ hends.members
    have hintervals : ig'.intervals = ig.intervals.map id :=
      Kinship.num_renaming .interval ▸ hends.opened
    rw [List.map_id] at hblocks hintervals
    have hlisted : ig.blocks = blocks ++ state.graph.created u.graph := Upheld.blocks hends.past
    refine ⟨?_, hlisted ▸ hends.kin, ?_⟩
    · show Except.ok ig' = Except.ok ig
      cases ig
      cases ig'
      exact congrArg Except.ok (congrArg₂ IntervalGraph.mk hblocks hintervals)
    · rintro _ ⟨⟩
      exact hends.made
  | @breaks e u e' u' hbreaks =>
    have hfault : e' = e.renumber id := Kinship.num_renaming .interval ▸ hbreaks.renumbered
    rw [Fault.renumber_id] at hfault
    have hlisted : u.members = blocks ++ state.graph.created u.graph :=
      Upheld.blocks hbreaks.abreast.past
    exact ⟨congrArg Except.error hfault, hlisted ▸ hbreaks.abreast.kin,
      fun _ hok => by injection hok⟩

/-- The second pass over the same intervals of two graphs that are alike, until it no longer helps.
-/
theorem Kin.converge (hk : Kin (Kinship.renaming r hr base) blocks state.graph state'.graph)
    (hbudget : budget ≠ 0) (scope : UnionScope) {intervals : List IntervalId}
    (hintervals : ∀ i ∈ intervals, base ≤ i ∧ i < state.graph.intervals.size) :
    let passes := converge budget scope (fun _ => none) intervals state
    let passes' := converge budget scope (fun _ => none) intervals state'
    passes'.2.result = passes.2.result ∧
      AlikeGrouping r blocks base passes.2.state.graph passes'.2.state.graph ∧
      Forall₂ (AlikeRound r blocks base) passes.1 passes'.1 := by
  have hk : Kin (Kinship.renaming r hr base) blocks (state.workspace {}).graph
      (state'.workspace {}).graph := hk
  have hagree := fixpointsAbreast hbudget scope 0 hk fun i hi => Kinship.New.knows (hintervals i hi)
  rw [Kinship.num_renaming, List.map_id] at hagree
  obtain ⟨hrounds, hend⟩ := hagree
  rw [KernelIntervals.converge, KernelIntervals.converge]
  generalize coarsenToFixpoint budget scope (fun _ => none) 0 intervals (state.workspace {}) = run
    at hrounds hend ⊢
  generalize coarsenToFixpoint budget scope (fun _ => none) 0 intervals (state'.workspace {}) = run'
    at hrounds hend ⊢
  obtain ⟨rounds, result⟩ := run
  obtain ⟨rounds', result'⟩ := run'
  have hgraphs : Forall₂ (AlikeRound r blocks base) rounds rounds' := by
    refine hrounds.imp fun round round' h => ⟨h.iteration, ?_, h.kin.alikeGrouping⟩
    have hintervals := h.intervals
    rwa [Kinship.num_renaming, List.map_id] at hintervals
  cases hend with
  | @ends fp u fp' u' h =>
    have hintervals := h.intervals
    rw [Kinship.num_renaming, List.map_id] at hintervals
    refine ⟨?_, h.kin.alikeGrouping, hgraphs⟩
    cases fp
    cases fp'
    exact congrArg Except.ok (congrArg₂ Fixpoint.mk hintervals h.iterations)
  | breaks h =>
    have hfault := h.2
    rw [Fault.renumber_id] at hfault
    exact ⟨congrArg Except.error hfault, h.1.alikeGrouping, hgraphs⟩

end Passes

/-- Two programs with the same edges, and with registers that were renamed, are grouped in the same
way by the first pass and by the second one, whatever else they say. If there is no budget, nothing
is done to either. -/
theorem grouping_of_alike {r : Nat → Nat} (hr : Set.InjOn r {n | n < vectorWidth})
    {blocks : List BlockId} {state state' : LoggedGraph}
    (h : AlikeProgram r blocks state.graph state'.graph)
    (hverify : state.graph.verify blocks = .ok ()) (hverify' : state'.graph.verify blocks = .ok ())
    (budget : Nat) (scope : UnionScope) (scratch scratch' : Scratch) :
    let first := BlockGrouper.run ⟨budget, scratch⟩ blocks state
    let first' := BlockGrouper.run ⟨budget, scratch'⟩ blocks state'
    let base := state.graph.intervals.size
    let listed := blocks ++ state.graph.created first.state.graph
    first'.result = first.result ∧
      (budget = 0 → first.state = state ∧ first'.state = state') ∧
      (0 < budget → AlikeGrouping r listed base first.state.graph first'.state.graph) ∧
      ∀ ig, first.result = .ok ig →
        let passes := converge budget scope (fun _ => none) ig.intervals first.state
        let passes' := converge budget scope (fun _ => none) ig.intervals first'.state
        passes'.2.result = passes.2.result ∧
          AlikeGrouping r listed base passes.2.state.graph passes'.2.state.graph ∧
          Forall₂ (AlikeRound r listed base) passes.1 passes'.1 := by
  intro first first' base listed
  by_cases hbudget : budget = 0
  · have hfirst : first = _ := BlockGrouper.run_zero (p := ⟨budget, scratch⟩) hbudget
    have hfirst' : first' = _ := BlockGrouper.run_zero (p := ⟨budget, scratch'⟩) hbudget
    rw [hfirst, hfirst']
    exact ⟨rfl, fun _ => ⟨rfl, rfl⟩, fun hpos => absurd hbudget (Nat.ne_of_gt hpos),
      fun _ hok => by injection hok⟩
  · obtain ⟨hresult, hk, hmade⟩ := h.groupBlocks hr hverify hverify' hbudget
      (rfl : _ = first) (rfl : _ = first')
    exact ⟨hresult, fun hzero => absurd hzero hbudget, fun _ => hk.alikeGrouping,
      fun ig hok => hk.converge hbudget scope (hmade ig hok)⟩

/-- The graph `loops` with other names and opcodes, and with the registers in the reverse order. -/
def mirroredLoops : Dot.Graph where
  nodes := [⟨"x", [⟨some "entry", "ADD R62, R61 ;\\lLDG R60, [R59] ;"⟩]⟩,
    ⟨"y", [⟨some "entry", "ADD R60, R59 ;"⟩]⟩, ⟨"z", [⟨some "entry", "RET ;"⟩]⟩]
  edges := [⟨"x", some "entry", "y"⟩, ⟨"y", some "entry", "y"⟩, ⟨"z", some "entry", "z"⟩]

theorem grouping_of_alike_mirroredLoops :
    let mirrored := (carve mirroredLoops {}).2
    let first := BlockGrouper.run ⟨4, {}⟩ [0, 1, 2] carvedLoops
    let first' := BlockGrouper.run ⟨4, {}⟩ [0, 1, 2] mirrored
    let passes := converge 4 .global (fun _ => none) [0, 1, 2] first.state
    let passes' := converge 4 .global (fun _ => none) [0, 1, 2] first'.state
    Set.InjOn (63 - ·) {n | n < vectorWidth} ∧
      AlikeProgram (63 - ·) [0, 1, 2] carvedLoops.graph mirrored.graph ∧
      carvedLoops.graph.verify [0, 1, 2] = .ok () ∧ mirrored.graph.verify [0, 1, 2] = .ok () ∧
      first.result = .ok ⟨[0, 1, 2, 3], [0, 1, 2]⟩ ∧ first'.result = first.result ∧
      passes'.2.result = passes.2.result := by
  intro mirrored first first' passes passes'
  have hr : Set.InjOn (63 - ·) {n | n < vectorWidth} := by
    intro m hm n hn h
    have hm : m < 64 := hm
    have hn : n < 64 := hn
    have h : 63 - m = 63 - n := h
    omega
  have halike : AlikeProgram (63 - ·) [0, 1, 2] carvedLoops.graph mirrored.graph :=
    ⟨by decide +kernel, by decide +kernel, by decide +kernel⟩
  have hverify : mirrored.graph.verify [0, 1, 2] = .ok () := by decide +kernel
  obtain ⟨hresult, _, _, hpasses⟩ :=
    grouping_of_alike hr halike verify_carvedLoops hverify 4 .global {} {}
  exact ⟨hr, halike, verify_carvedLoops, hverify, run_carvedLoops, hresult,
    (hpasses _ run_carvedLoops).1⟩

end KernelIntervals
