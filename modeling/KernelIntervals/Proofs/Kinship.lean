/-
Graphs that correspond to each other.

* `Likeness` — which registers and instructions of two graphs correspond,
* `Kinship` — a likeness, and which intervals of two graphs correspond: the new ones of the
  second graph may have higher numbers,
* `Node.Akin` — two nodes correspond,
* `Kin` — two graphs correspond in some blocks and in the intervals that count,
* `Kinship.Knows.mono`, `Node.Akin.mono` — nodes that correspond do so while intervals are made,
* `Kin.change`, `Kin.addInterval` — the graphs still correspond after the same change of both.

Design notes: names, labels, groups and controlling blocks are left out, so whatever is shown
from `Kin` does not depend on them. Edges stay among the blocks and intervals that correspond,
which is part of `Node.Akin`; so every node that a pass comes to is one of those.
-/
import Mathlib.Data.List.Forall2
import KernelIntervals.Proofs.Summaries

namespace KernelIntervals

open Function List

/-- Which registers and which instructions of two graphs correspond. -/
structure Likeness where
  regs : RegSet → RegSet → Prop
  inst : Inst → Inst → Prop
  regs_empty : regs ∅ ∅
  regs_union : ∀ {s t s' t' : RegSet}, regs s s' → regs t t' → regs (s ∪ t) (s' ∪ t')
  size_eq : ∀ {s s' : RegSet}, regs s s' → s'.size = s.size
  /-- If one of two sets has no vector, the other one has none for the same reason. -/
  error_iff : ∀ {s s' : RegSet}, regs s s' → ∀ e,
    RegVector.ofSet s' = .error e ↔ RegVector.ofSet s = .error e

/-- Which nodes of two graphs correspond, besides blocks of one number. Intervals do that have
one number below `base` and are listed in `old`, and from `base` on those of the second graph
that have numbers higher by `shift`. -/
structure Kinship extends Likeness where
  base : IntervalId
  shift : Nat
  old : List IntervalId

namespace Kinship

variable (C : Kinship)

/-- The number that a node has in the second graph. -/
def num : Level → Nat → Nat
  | .block, n => n
  | .interval, i => if i < C.base then i else i + C.shift

/-- The blocks are listed in `blocks`, the intervals are among those that count. -/
def Knows (blocks : List BlockId) (g : FlowGraph) : Level → Nat → Prop
  | .block, n => n ∈ blocks
  | .interval, i => i < g.intervals.size ∧ (C.base ≤ i ∨ i ∈ C.old)

/-- An interval was made since the graphs went their own ways. -/
def New (g : FlowGraph) (i : IntervalId) : Prop := C.base ≤ i ∧ i < g.intervals.size

variable {C}

theorem num_injective (l : Level) : Injective (C.num l) := by
  cases l with
  | block => exact injective_id
  | interval =>
    intro i j hij
    simp only [num] at hij
    split at hij <;> split at hij <;> omega

theorem num_of_base_le {i : IntervalId} (h : C.base ≤ i) : C.num .interval i = i + C.shift :=
  if_neg (Nat.not_lt.mpr h)

variable {blocks : List BlockId} {g h : FlowGraph} {l : Level} {n : Nat} {i : IntervalId}

theorem New.knows (h : C.New g i) : C.Knows blocks g .interval i := ⟨h.2, .inl h.1⟩

/-- An interval that is new remains so while intervals are made. -/
theorem New.mono (hi : C.New g i) (hsize : g.intervals.size ≤ h.intervals.size) : C.New h i :=
  ⟨hi.1, Nat.lt_of_lt_of_le hi.2 hsize⟩

/-- What counts does so still while intervals are made. -/
theorem Knows.mono (hn : C.Knows blocks g l n) (hsize : g.intervals.size ≤ h.intervals.size) :
    C.Knows blocks h l n := by
  cases l with
  | block => exact hn
  | interval => exact ⟨Nat.lt_of_lt_of_le hn.1 hsize, hn.2⟩

end Kinship

/-- Two nodes correspond, and all that they are next to is known. -/
structure Node.Akin (C : Kinship) (blocks : List BlockId) (g : FlowGraph) (l : Level)
    (a a' : Node) : Prop where
  insts : Forall₂ C.inst a.insts a'.insts
  regs : C.regs a.regs a'.regs
  preds : a'.preds = a.preds.map (C.num l)
  succs : a'.succs = a.succs.map (C.num l)
  owner : a'.owner = a.owner.map (C.num .interval)
  pred_known : ∀ p ∈ a.preds, C.Knows blocks g l p
  succ_known : ∀ s ∈ a.succs, C.Knows blocks g l s
  owner_new : ∀ i, a.owner = some i → C.New g i

/-- The registers live on entry to a block. -/
def FlowGraph.inputs (g : FlowGraph) (n : BlockId) : RegSet :=
  ((g.block? n).map Block.inputs).getD ∅

namespace FlowGraph

variable {g : FlowGraph} {l : Level} {n m : Nat} {i : IntervalId} {φ : Node → Node}

theorem inputs_modifyBlock {f : Block → Block} (hf : ∀ b, (f b).inputs = b.inputs) :
    (g.modifyBlock n f).inputs m = g.inputs m := by
  rw [inputs, inputs, block?_modifyBlock]
  split
  · cases g.block? m with
    | none => rfl
    | some b => exact hf b
  · rfl

/-- A block that changes owner has no live registers. -/
theorem inputs_assign (o : Option IntervalId) :
    (g.assign .block n o).inputs m = if n = m then ∅ else g.inputs m := by
  rw [inputs, assign, block?_modifyBlock]
  split
  · cases g.block? m <;> rfl
  · rfl

theorem node?_modifyBlock_self {f : Block → Block} (hf : ∀ b, (f b).toNode = φ b.toNode) :
    (g.modifyBlock n f).node? .block n = (g.node? .block n).map φ := by
  rw [node?, node?, block?_modifyBlock, if_pos rfl, Option.map_map, Option.map_map]
  exact congrArg (fun ψ => (g.block? n).map ψ) (funext hf)

theorem node?_modifyBlock_of_ne {f : Block → Block} (h : l ≠ .block ∨ m ≠ n) :
    (g.modifyBlock n f).node? l m = g.node? l m := by
  cases l with
  | interval => rfl
  | block =>
    have hne : n ≠ m := (h.resolve_left fun hl => hl rfl).symm
    rw [node?, node?, block?_modifyBlock, if_neg hne]

theorem node?_modifyInterval_self {f : Interval → Interval}
    (hf : ∀ v, (f v).toNode = φ v.toNode) :
    (g.modifyInterval i f).node? .interval i = (g.node? .interval i).map φ := by
  rw [node?, node?, interval?_modifyInterval, if_pos rfl, Option.map_map, Option.map_map]
  exact congrArg (fun ψ => (g.interval? i).map ψ) (funext hf)

theorem node?_modifyInterval_of_ne {f : Interval → Interval} (h : l ≠ .interval ∨ m ≠ i) :
    (g.modifyInterval i f).node? l m = g.node? l m := by
  cases l with
  | block => rfl
  | interval =>
    have hne : i ≠ m := (h.resolve_left fun hl => hl rfl).symm
    rw [node?, node?, interval?_modifyInterval, if_neg hne]

theorem node?_addInterval_of_lt (h : n < g.extent l) :
    (g.addInterval {}).node? l n = g.node? l n := by
  cases l with
  | block => rfl
  | interval =>
    have hne : n ≠ g.intervals.size := Nat.ne_of_lt h
    rw [node?, node?, interval?_addInterval, if_neg hne]

theorem node?_addInterval_size :
    (g.addInterval {}).node? .interval g.intervals.size = some (Interval.toNode {}) := by
  rw [node?, interval?_addInterval, if_pos rfl]
  rfl

end FlowGraph

/-- Two graphs correspond in some blocks and in the intervals that count. -/
structure Kin (C : Kinship) (blocks : List BlockId) (g g' : FlowGraph) : Prop where
  blocks_size : g'.blocks.size = g.blocks.size
  intervals_size : g'.intervals.size = g.intervals.size + C.shift
  base_le : C.base ≤ g.intervals.size
  node : ∀ l n, C.Knows blocks g l n → ∃ a a', g.node? l n = some a ∧
    g'.node? l (C.num l n) = some a' ∧ a.Akin C blocks g l a'
  inputs : ∀ n ∈ blocks, C.regs (g.inputs n) (g'.inputs n)

variable {C : Kinship} {blocks : List BlockId} {g g' h h' : FlowGraph} {l : Level} {n : Nat}
  {i : IntervalId}

namespace Node.Akin

variable {a a' : Node}

/-- Two nodes are members of corresponding intervals, or neither of them is. -/
theorem owner_eq_iff (ha : a.Akin C blocks g l a') :
    a'.owner = some (C.num .interval i) ↔ a.owner = some i := by
  rw [ha.owner, ← Option.map_some, (Option.map_injective (C.num_injective .interval)).eq_iff]

theorem isNone_owner (ha : a.Akin C blocks g l a') : a'.owner.isNone = a.owner.isNone := by
  rw [ha.owner, Option.isNone_map]

/-- What is known remains known. -/
theorem mono {blocks₁ : List BlockId} (ha : a.Akin C blocks g l a')
    (hknows : ∀ m, C.Knows blocks g l m → C.Knows blocks₁ h l m)
    (hnew : ∀ i, C.New g i → C.New h i) : a.Akin C blocks₁ h l a' where
  insts := ha.insts
  regs := ha.regs
  preds := ha.preds
  succs := ha.succs
  owner := ha.owner
  pred_known := fun p hp => hknows p (ha.pred_known p hp)
  succ_known := fun s hs => hknows s (ha.succ_known s hs)
  owner_new := fun i hi => hnew i (ha.owner_new i hi)

end Node.Akin

namespace Kin

variable (hk : Kin C blocks g g')

include hk

theorem num_size : C.num .interval g.intervals.size = g'.intervals.size := by
  rw [Kinship.num_of_base_le hk.base_le, hk.intervals_size]

theorem lt_extent (hn : C.Knows blocks g l n) : n < g.extent l := by
  obtain ⟨a, _, ha, _⟩ := hk.node l n hn
  by_contra hle
  rw [FlowGraph.node?_eq_none (Nat.not_lt.mp hle)] at ha
  injection ha

theorem lt_extent_num (hn : C.Knows blocks g l n) : C.num l n < g'.extent l := by
  obtain ⟨_, a', _, ha', _⟩ := hk.node l n hn
  by_contra hle
  rw [FlowGraph.node?_eq_none (Nat.not_lt.mp hle)] at ha'
  injection ha'

/-- What is seen of two nodes that correspond. -/
theorem akin (hn : C.Knows blocks g l n) : Node.Akin C blocks g l
    ⟨g.insts l n, g.regs l n, g.preds l n, g.succs l n, g.owner l n⟩
    ⟨g'.insts l (C.num l n), g'.regs l (C.num l n), g'.preds l (C.num l n), g'.succs l (C.num l n),
      g'.owner l (C.num l n)⟩ := by
  obtain ⟨a, a', ha, ha', hakin⟩ := hk.node l n hn
  rw [FlowGraph.node?_eq_some (hk.lt_extent hn), Option.some_inj] at ha
  rw [FlowGraph.node?_eq_some (hk.lt_extent_num hn), Option.some_inj] at ha'
  rw [ha, ha']
  exact hakin

/-- The two blocks of a number that is listed. -/
theorem block (hn : n ∈ blocks) : ∃ b b', g.block? n = some b ∧ g'.block? n = some b' ∧
    b.toNode.Akin C blocks g .block b'.toNode := by
  obtain ⟨a, a', ha, ha', hakin⟩ := hk.node .block n hn
  obtain ⟨b, hb, rfl⟩ := Option.map_eq_some_iff.mp ha
  obtain ⟨b', hb', rfl⟩ := Option.map_eq_some_iff.mp ha'
  exact ⟨b, b', hb, hb', hakin⟩

/-- Two intervals that correspond. -/
theorem interval (hi : C.Knows blocks g .interval i) : ∃ v v', g.interval? i = some v ∧
    g'.interval? (C.num .interval i) = some v' ∧
    v.toNode.Akin C blocks g .interval v'.toNode := by
  obtain ⟨a, a', ha, ha', hakin⟩ := hk.node .interval i hi
  obtain ⟨v, hv, rfl⟩ := Option.map_eq_some_iff.mp ha
  obtain ⟨v', hv', rfl⟩ := Option.map_eq_some_iff.mp ha'
  exact ⟨v, v', hv, hv', hakin⟩

/-! ### The same changes in both graphs -/

/-- Two nodes that correspond are changed in the same way. -/
theorem change (f f' : Node → Node) (hextent : h.extent = g.extent)
    (hextent' : h'.extent = g'.extent)
    (hself : h.node? l n = (g.node? l n).map f)
    (hself' : h'.node? l (C.num l n) = (g'.node? l (C.num l n)).map f')
    (hother : ∀ l' m, l' ≠ l ∨ m ≠ n → h.node? l' m = g.node? l' m)
    (hother' : ∀ l' m, l' ≠ l ∨ m ≠ C.num l n → h'.node? l' m = g'.node? l' m)
    (hinputs : ∀ m ∈ blocks, C.regs (h.inputs m) (h'.inputs m))
    (hakin : ∀ a a', a.Akin C blocks g l a' → (f a).Akin C blocks g l (f' a')) :
    Kin C blocks h h' := by
  have hsize : h.intervals.size = g.intervals.size := congrFun hextent .interval
  have hle := Nat.le_of_eq hsize.symm
  refine ⟨?_, ?_, hsize ▸ hk.base_le, fun l' m hm => ?_, hinputs⟩
  · exact (congrFun hextent' .block).trans (hk.blocks_size.trans (congrFun hextent .block).symm)
  · rw [hsize, ← hk.intervals_size]
    exact congrFun hextent' .interval
  · have hkeep : ∀ {a a' : Node}, a.Akin C blocks g l' a' → a.Akin C blocks h l' a' :=
      fun ha => ha.mono (fun _ hx => hx.mono hle) fun _ hi => hi.mono hle
    obtain ⟨a, a', ha, ha', hnode⟩ := hk.node l' m (hm.mono (Nat.le_of_eq hsize))
    by_cases hne : l' ≠ l ∨ m ≠ n
    · refine ⟨a, a', (hother l' m hne).trans ha, (hother' l' _ ?_).trans ha', hkeep hnode⟩
      by_cases hl : l' = l
      · subst hl
        exact .inr fun heq => (hne.resolve_left fun hl => hl rfl) (C.num_injective l' heq)
      · exact .inl hl
    · obtain ⟨rfl, rfl⟩ : l' = l ∧ m = n := by
        rw [not_or, not_not, not_not] at hne
        exact hne
      refine ⟨f a, f' a', ?_, ?_, hkeep (hakin a a' hnode)⟩
      · rw [hself, ha]
        rfl
      · rw [hself', ha']
        rfl

/-- Two nodes that correspond change owners. -/
theorem assign (hn : C.Knows blocks g l n) {o : Option IntervalId}
    (ho : ∀ i, o = some i → C.New g i) :
    Kin C blocks (g.assign l n o) (g'.assign l (C.num l n) (o.map (C.num .interval))) := by
  refine hk.change ({ · with owner := o }) ({ · with owner := o.map (C.num .interval) })
    (funext fun _ => FlowGraph.extent_assign _) (funext fun _ => FlowGraph.extent_assign _)
    (FlowGraph.node?_assign_self _) (FlowGraph.node?_assign_self _)
    (fun _ _ => FlowGraph.node?_assign_of_ne _) (fun _ _ => FlowGraph.node?_assign_of_ne _)
    (fun m hm => ?_) fun a a' ha =>
      ⟨ha.insts, ha.regs, ha.preds, ha.succs, rfl, ha.pred_known, ha.succ_known, ho⟩
  cases l with
  | interval => exact hk.inputs m hm
  | block =>
    rw [FlowGraph.inputs_assign, FlowGraph.inputs_assign]
    show C.regs (if n = m then ∅ else _) (if n = m then ∅ else _)
    split
    · exact C.regs_empty
    · exact hk.inputs m hm

/-- Two intervals that correspond get other registers. -/
theorem setRegs (i : IntervalId) {regs regs' : RegSet} (hregs : C.regs regs regs') :
    Kin C blocks (g.modifyInterval i ({ · with regs }))
      (g'.modifyInterval (C.num .interval i) ({ · with regs := regs' })) :=
  hk.change (l := .interval) (n := i) ({ · with regs }) ({ · with regs := regs' })
    (funext fun _ => FlowGraph.extent_modifyInterval _)
    (funext fun _ => FlowGraph.extent_modifyInterval _)
    (FlowGraph.node?_modifyInterval_self fun _ => rfl)
    (FlowGraph.node?_modifyInterval_self fun _ => rfl)
    (fun _ _ => FlowGraph.node?_modifyInterval_of_ne)
    (fun _ _ => FlowGraph.node?_modifyInterval_of_ne) hk.inputs fun _ _ ha =>
      ⟨ha.insts, hregs, ha.preds, ha.succs, ha.owner, ha.pred_known, ha.succ_known, ha.owner_new⟩

/-- Two blocks of one number get other outputs. -/
theorem setOutputs (n : BlockId) {regs regs' : RegSet} (hregs : C.regs regs regs') :
    Kin C blocks (g.modifyBlock n ({ · with outputs := regs }))
      (g'.modifyBlock n ({ · with outputs := regs' })) := by
  refine hk.change (l := .block) (n := n) ({ · with regs }) ({ · with regs := regs' })
    (funext fun _ => FlowGraph.extent_modifyBlock _)
    (funext fun _ => FlowGraph.extent_modifyBlock _)
    (FlowGraph.node?_modifyBlock_self fun _ => rfl)
    (FlowGraph.node?_modifyBlock_self fun _ => rfl)
    (fun _ _ => FlowGraph.node?_modifyBlock_of_ne)
    (fun _ _ => FlowGraph.node?_modifyBlock_of_ne) (fun m hm => ?_) fun _ _ ha =>
      ⟨ha.insts, hregs, ha.preds, ha.succs, ha.owner, ha.pred_known, ha.succ_known, ha.owner_new⟩
  have hkeep : ∀ (g : FlowGraph) (regs : RegSet),
      (g.modifyBlock n ({ · with outputs := regs })).inputs m = g.inputs m :=
    fun _ _ => FlowGraph.inputs_modifyBlock fun _ => rfl
  rw [hkeep, hkeep]
  exact hk.inputs m hm

/-- Two blocks of one number get other inputs. -/
theorem setInputs (hn : n ∈ blocks) {regs regs' : RegSet} (hregs : C.regs regs regs') :
    Kin C blocks (g.modifyBlock n ({ · with inputs := regs }))
      (g'.modifyBlock n ({ · with inputs := regs' })) := by
  obtain ⟨b, b', hb, hb', _⟩ := hk.block hn
  refine hk.change (l := .block) (n := n) id id
    (funext fun _ => FlowGraph.extent_modifyBlock _)
    (funext fun _ => FlowGraph.extent_modifyBlock _)
    (FlowGraph.node?_modifyBlock_self fun _ => rfl)
    (FlowGraph.node?_modifyBlock_self fun _ => rfl)
    (fun _ _ => FlowGraph.node?_modifyBlock_of_ne)
    (fun _ _ => FlowGraph.node?_modifyBlock_of_ne) (fun m hm => ?_) fun _ _ => id
  rw [FlowGraph.inputs, FlowGraph.inputs, FlowGraph.block?_modifyBlock,
    FlowGraph.block?_modifyBlock]
  by_cases hnm : n = m
  · rw [if_pos hnm, if_pos hnm, ← hnm, hb, hb']
    exact hregs
  · rw [if_neg hnm, if_neg hnm]
    exact hk.inputs m hm

/-- Both graphs get a new interval. -/
theorem addInterval : Kin C blocks (g.addInterval {}) (g'.addInterval {}) := by
  have hsize : (g.addInterval {}).intervals.size = g.intervals.size + 1 := Arena.size_alloc ..
  have hsize' : (g'.addInterval {}).intervals.size = g'.intervals.size + 1 := Arena.size_alloc ..
  have hle : g.intervals.size ≤ (g.addInterval {}).intervals.size := hsize ▸ Nat.le_succ _
  refine ⟨hk.blocks_size, ?_, Nat.le_trans hk.base_le hle, fun l m hm => ?_, hk.inputs⟩
  · rw [hsize, hsize', hk.intervals_size]
    omega
  · by_cases hold : C.Knows blocks g l m
    · obtain ⟨a, a', ha, ha', hakin⟩ := hk.node l m hold
      refine ⟨a, a', ?_, ?_, hakin.mono (fun _ hx => hx.mono hle) fun _ hi => hi.mono hle⟩
      · rw [FlowGraph.node?_addInterval_of_lt (hk.lt_extent hold), ha]
      · rw [FlowGraph.node?_addInterval_of_lt (hk.lt_extent_num hold), ha']
    · cases l with
      | block => exact absurd hm hold
      | interval =>
        -- What is known now and was not before is the new interval.
        obtain rfl : m = g.intervals.size := by
          have hle : ¬ m < g.intervals.size := fun hlt => hold ⟨hlt, hm.2⟩
          have hlt := hm.1
          rw [hsize] at hlt
          omega
        refine ⟨Interval.toNode {}, Interval.toNode {}, FlowGraph.node?_addInterval_size, ?_, ?_⟩
        · rw [hk.num_size]
          exact FlowGraph.node?_addInterval_size
        · exact ⟨.nil, C.regs_empty, rfl, rfl, rfl, fun p hp => absurd hp List.not_mem_nil,
            fun s hs => absurd hs List.not_mem_nil, fun i hi => by injection hi⟩

end Kin

end KernelIntervals
