/-
Where two passes start from.

* `Node.free` — a node as a member of no interval,
* `Kin.cleared` — graphs whose nodes correspond, but for their owners, correspond once the owners
  are taken away,
* `Kinship.same` — every graph corresponds to itself,
* `groupBlocks_upheld` — a first pass over well-formed blocks upholds them, and breaks off only
  because an interval is not filled in.
-/
import KernelIntervals.Proofs.BlockLockstep
import KernelIntervals.Proofs.IntervalLockstep

namespace KernelIntervals

open Function List

/-- The node as a member of no interval. -/
def Node.free (a : Node) : Node := { a with owner := none }

namespace FlowGraph

variable {g : FlowGraph} {l : Level} {n : Nat} {nodes : List Nat}

theorem node?_clear : (g.clear l nodes).node? l n =
    (g.node? l n).map fun a => if n ∈ nodes then a.free else a := by
  induction nodes generalizing g with
  | nil => simp [clear]
  | cons m nodes ih =>
    show ((g.assign l m none).clear l nodes).node? l n = _
    rw [ih]
    by_cases hnm : n = m
    · subst hnm
      rw [node?_assign_self, Option.map_map]
      refine congrArg (fun φ => (g.node? l n).map φ) (funext fun a => ?_)
      rw [if_pos List.mem_cons_self]
      show (if n ∈ nodes then a.free.free else a.free) = a.free
      exact ite_self _
    · have hiff : n ∈ m :: nodes ↔ n ∈ nodes := List.mem_cons.trans (or_iff_right hnm)
      rw [node?_assign_of_ne none (.inr hnm)]
      refine congrArg (fun φ => (g.node? l n).map φ) (funext fun a => ?_)
      simp only [hiff]

/-- Blocks without owners have no live registers. -/
theorem inputs_clear (hn : n ∈ nodes) : (g.clear .block nodes).inputs n = ∅ := by
  have hkeep : ∀ {g : FlowGraph} {nodes : List Nat}, g.inputs n = ∅ →
      (g.clear .block nodes).inputs n = ∅ := by
    intro g nodes h
    induction nodes generalizing g with
    | nil => exact h
    | cons m nodes ih =>
      refine ih ?_
      rw [inputs_assign, h, ite_self]
  induction nodes generalizing g with
  | nil => exact absurd hn List.not_mem_nil
  | cons m nodes ih =>
    by_cases hnm : n = m
    · refine hkeep (g := g.assign .block m none) ?_
      rw [inputs_assign, if_pos hnm.symm]
    · exact ih ((List.mem_cons.mp hn).resolve_left hnm)

end FlowGraph

variable {C : Kinship} {blocks : List BlockId} {g g' : FlowGraph} {l : Level} {nodes : List Nat}

/-- If the nodes to be grouped are all that is known, and correspond but for their owners, the
graphs correspond once the owners are taken away. -/
theorem Kin.cleared (hblocks : g'.blocks.size = g.blocks.size)
    (hintervals : g'.intervals.size = g.intervals.size + C.shift)
    (hbase : C.base ≤ g.intervals.size)
    (hknown : ∀ l' n, C.Knows blocks g l' n → l' = l ∧ n ∈ nodes)
    (hnode : ∀ n ∈ nodes, ∃ a a', g.node? l n = some a ∧ g'.node? l (C.num l n) = some a' ∧
      a.free.Akin C blocks g l a'.free) :
    Kin C blocks (g.clear l nodes) (g'.clear l (nodes.map (C.num l))) := by
  have hextent := g.extent_clear l nodes
  have hextent' := g'.extent_clear l (nodes.map (C.num l))
  have hsize : (g.clear l nodes).intervals.size = g.intervals.size := congrFun hextent .interval
  refine ⟨?_, ?_, hsize ▸ hbase, fun l' n hn => ?_, fun n hn => ?_⟩
  · exact (congrFun hextent' .block).trans (hblocks.trans (congrFun hextent .block).symm)
  · rw [hsize, ← hintervals]
    exact congrFun hextent' .interval
  · obtain ⟨rfl, hmem⟩ := hknown l' n (hn.mono (Nat.le_of_eq hsize))
    obtain ⟨a, a', ha, ha', hakin⟩ := hnode n hmem
    have hle := Nat.le_of_eq hsize.symm
    refine ⟨a.free, a'.free, ?_, ?_, hakin.mono (fun m hm => hm.mono hle) fun i hi => hi.mono hle⟩
    · rw [FlowGraph.node?_clear, ha, Option.map_some, if_pos hmem]
    · rw [FlowGraph.node?_clear, ha', Option.map_some, if_pos (List.mem_map_of_mem hmem)]
  · obtain ⟨rfl, hmem⟩ := hknown .block n hn
    have hmem' : n ∈ nodes.map (C.num .block) := List.mem_map.mpr ⟨n, hmem, rfl⟩
    rw [FlowGraph.inputs_clear hmem, FlowGraph.inputs_clear hmem']
    exact C.regs_empty

/-- Two first passes start abreast over blocks that correspond but for their owners. -/
theorem releasing_blocks {w w' : Workspace} (hblocks : w'.graph.blocks.size = w.graph.blocks.size)
    (hintervals : w'.graph.intervals.size = w.graph.intervals.size + C.shift)
    (hbase : C.base = w.graph.intervals.size) (hold : C.old = [])
    (hw : WellFormed w.graph blocks)
    (hnode : ∀ n ∈ blocks, ∃ a a', w.graph.node? .block n = some a ∧
      w'.graph.node? .block n = some a' ∧ a.free.Akin C blocks w.graph .block a'.free) :
    Releasing C ⟨w.graph, blocks⟩ .block blocks blocks
      { w with members := blocks, opened := [], worklist := [] }
      { w' with members := blocks.map (C.num .block), opened := [], worklist := [] } := by
  refine ⟨Kin.cleared hblocks hintervals (Nat.le_of_eq hbase) (fun l n hn => ?_) hnode, ⟨rfl, rfl⟩,
    ⟨rfl, rfl⟩, ⟨rfl, rfl⟩, fun _ => id, fun _ => id, .refl hw⟩
  cases l with
  | block => exact ⟨rfl, hn⟩
  | interval =>
    obtain ⟨hlt, hle | hmem⟩ := hn
    · exact absurd hlt (Nat.not_lt.mpr (hbase ▸ hle))
    · rw [hold] at hmem
      exact absurd hmem List.not_mem_nil

/-! ### A graph and itself -/

/-- The same registers, and instructions that are alike in some respect. -/
def Likeness.sameRegs (inst : Inst → Inst → Prop) : Likeness where
  regs := Eq
  inst := inst
  regs_empty := rfl
  regs_union hs ht := by rw [hs, ht]
  size_eq hs := by rw [hs]
  error_iff hs e := by rw [hs]

/-- The same registers, and instructions that mention the same registers. -/
def Likeness.same : Likeness := .sameRegs fun i i' => i.regs = i'.regs

theorem Likeness.same_splits : Likeness.same.Splits where
  regs_insertAll := by
    rintro s _ i i' rfl hi
    exact congrArg s.insertAll hi
  inst_rename := by
    intro i i' hi old new old' new'
    show (i.renameLabel old new).regs = (i'.renameLabel old' new').regs
    rw [Inst.regs_renameLabel, Inst.regs_renameLabel]
    exact hi

/-- All that is new in a graph corresponds to itself. -/
def Kinship.same (g : FlowGraph) : Kinship :=
  { Likeness.same with base := g.intervals.size, shift := 0, old := [] }

/-- Listed blocks correspond to themselves but for their owners. -/
theorem WellFormed.akin_same (h : WellFormed g blocks) {n : BlockId} (hn : n ∈ blocks) :
    ∃ a, g.node? .block n = some a ∧ a.free.Akin (Kinship.same g) blocks g .block a.free := by
  have hnode := FlowGraph.node?_eq_some (h.exist n hn)
  refine ⟨_, hnode, forall₂_same.mpr fun _ _ => rfl, rfl, (List.map_id _).symm,
    (List.map_id _).symm, rfl, fun p hp => ?_, fun s hs => ?_, fun _ hi => by injection hi⟩
  · exact h.closed.pred_mem hn hp
  · exact h.closed.succ_mem hn hs

variable {w : Workspace} {budget : Nat}

/-- Two first passes over one graph start abreast. -/
theorem WellFormed.releasing_same (h : WellFormed w.graph blocks) :
    Releasing (Kinship.same w.graph) ⟨w.graph, blocks⟩ .block blocks blocks
      { w with members := blocks, opened := [], worklist := [] }
      { w with members := blocks.map ((Kinship.same w.graph).num .block), opened := [],
               worklist := [] } :=
  releasing_blocks rfl rfl rfl rfl h fun _ hn =>
    have ⟨a, ha, hakin⟩ := h.akin_same hn
    ⟨a, a, ha, ha, hakin⟩

/-- The loop of a first pass over well-formed blocks does not break off. -/
theorem WellFormed.loops (h : WellFormed w.graph blocks) (budget : Nat) : ∃ w₁ w₂,
    Pass.start .block blocks w = .ok () w₁ ∧ drain (blockVisit budget) w₁ = .ok () w₂ ∧
      Abreast (Kinship.same w.graph) ⟨w.graph, blocks⟩ .block w₂ w₂ := by
  have hmap : blocks.map ((Kinship.same w.graph).num .block) = blocks := List.map_id _
  have hstart : Agree _ (fun _ _ _ _ => False) _ _ := startsAbreast h.releasing_same
  rw [hmap] at hstart
  generalize Pass.start .block blocks w = r at hstart ⊢
  cases hstart with
  | breaks h => exact h.elim
  | @ends _ w₁ _ _ hw₁ =>
    have hloop : Agree _ (fun _ _ _ _ => False) _ _ := hw₁.1.drainBlocks Likeness.same_splits budget
    generalize hr : drain (blockVisit budget) w₁ = r at hloop
    cases hloop with
    | breaks h => exact h.elim
    | @ends _ w₂ _ _ hw₂ => exact ⟨w₁, w₂, rfl, hr, hw₂.1⟩

/-- A pass that is abreast of itself breaks off only because an interval is not filled in. -/
theorem Abreast.refusal {C : Kinship} {p : Program} {l : Level} {u : Workspace} {e : Fault}
    (h : Abreast C p l w w) (hcomplete : Pass.complete l budget w = .error e u) :
    e.IsRefusal budget := by
  have hagree := h.complete budget
  rw [hcomplete] at hagree
  cases hagree with
  | breaks h => exact h.refusal

/-- A first pass over well-formed blocks upholds them if it returns intervals. If it breaks off, it
has upheld them until then, and the reason is that an interval is not filled in. -/
theorem groupBlocks_upheld (hbudget : budget ≠ 0) (h : WellFormed w.graph blocks) :
    (∃ a u, Pass.groupBlocks budget blocks w = .ok a u ∧
      Upheld ⟨w.graph, blocks⟩ ⟨u.graph, a.blocks⟩) ∨
    ∃ e u, Pass.groupBlocks budget blocks w = .error e u ∧ e.IsRefusal budget ∧
      Upheld ⟨w.graph, blocks⟩ ⟨u.graph, u.members⟩ := by
  have hverify := FlowGraph.verify_eq_ok_iff.mpr h
  have hagree := groupBlocksAbreast Likeness.same_splits hbudget hverify hverify h.releasing_same
  generalize Pass.groupBlocks budget blocks w = r at hagree ⊢
  cases hagree with
  | @ends a u _ _ hgrouped => exact .inl ⟨a, u, rfl, hgrouped.past⟩
  | @breaks e u _ _ hrefused => exact .inr ⟨e, u, rfl, hrefused.refusal, hrefused.abreast.past⟩

end KernelIntervals
