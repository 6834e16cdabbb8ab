/-
Branch labels and control edges across a split.

* `labels` — the names that the branches of some instructions go to,
* `FlowGraph.LabelsFollow` — each label of a block is the name of one of its successors,
* `Severed.name?` — a cut gives only the tail a name,
* `Severed.label_of_tail` — the labels of a tail are those of its block, with one name renamed,
* `split_labels` — a label of the tail names one of the tail's successors, unless it named the
  block that was split.

Design notes: a branch of a block to itself is where labels and edges part. The edge is taken over
by the tail as it is, so it goes to the head, while the label is renamed and goes to the tail.
-/
import KernelIntervals.Flow.Carve
import KernelIntervals.Proofs.Severed

namespace KernelIntervals

/-! ### Labels -/

/-- The name of the block that an operand is a branch to. -/
def Operand.label? : Operand → Option String
  | .label name _ => some name
  | .regs .. | .other _ => none

/-- The names that the branches of some instructions go to, in order. -/
def labels (insts : List Inst) : List String :=
  insts.flatMap fun i => i.operands.filterMap Operand.label?

theorem Operand.label?_renameLabel (old new : String) (o : Operand) :
    (o.renameLabel old new).label? = o.label?.map fun l => if l = old then new else l := by
  cases o <;> rfl

theorem labels_renameLabel (old new : String) (insts : List Inst) :
    labels (insts.map (Inst.renameLabel old new)) =
      (labels insts).map fun l => if l = old then new else l := by
  rw [labels, labels, List.flatMap_map, List.map_flatMap]
  refine congrArg (insts.flatMap ·) (funext fun i => ?_)
  rw [Inst.renameLabel, List.filterMap_map, List.map_filterMap]
  exact congrArg (i.operands.filterMap ·) (funext fun o => Operand.label?_renameLabel old new o)

theorem mem_labels_of_drop {l : String} {place : Nat} {insts : List Inst}
    (h : l ∈ labels (insts.drop place)) : l ∈ labels insts := by
  obtain ⟨i, hi, hl⟩ := List.mem_flatMap.mp h
  exact List.mem_flatMap.mpr ⟨i, List.mem_of_mem_drop hi, hl⟩

/-! ### Names -/

namespace FlowGraph

/-- The name of the block of an id. -/
def name? (g : FlowGraph) (n : BlockId) : Option String := (g.block? n).map (·.name)

/-- No two blocks have one name. -/
def DistinctNames (g : FlowGraph) : Prop :=
  ∀ m < g.blocks.size, ∀ n < g.blocks.size, g.name? m = g.name? n → m = n

/-- All edges are between blocks that exist. -/
def InArena (g : FlowGraph) : Prop :=
  ∀ n < g.blocks.size, (∀ s ∈ g.succs .block n, s < g.blocks.size) ∧
    ∀ p ∈ g.preds .block n, p < g.blocks.size

/-- A name is that of one of some blocks. -/
def NameAmong (g : FlowGraph) (ids : List BlockId) (name : String) : Prop :=
  ∃ s ∈ ids, g.name? s = some name

/-- Each label of a block is the name of one of its successors. -/
def LabelsFollow (g : FlowGraph) (n : BlockId) : Prop :=
  ∀ l ∈ labels (g.insts .block n), g.NameAmong (g.succs .block n) l

instance (g : FlowGraph) : Decidable g.DistinctNames :=
  inferInstanceAs (Decidable (∀ m < g.blocks.size, ∀ n < g.blocks.size, _))

instance (g : FlowGraph) : Decidable g.InArena :=
  inferInstanceAs (Decidable (∀ n < g.blocks.size, _ ∧ _))

instance (g : FlowGraph) (n : BlockId) : Decidable (g.LabelsFollow n) :=
  inferInstanceAs (Decidable (∀ l ∈ labels (g.insts .block n), ∃ s ∈ g.succs .block n, _))

end FlowGraph

namespace Severed

variable {g g' : FlowGraph} {head : BlockId} {b : Block} {place : Nat} {running : RegSet}
  {name : String}

/-- A cut gives only the tail a name. -/
theorem name? (h : Severed g head b place running name g') (hb : g.block? head = some b)
    {x : BlockId} (hx : x ≠ g.blocks.size) : g'.name? x = g.name? x := by
  rw [FlowGraph.name?, FlowGraph.name?]
  by_cases hhead : x = head
  · rw [hhead, h.head_eq, hb]
    split <;> rfl
  · rw [h.other_eq x hhead hx]
    cases g.block? x with
    | none => rfl
    | some c =>
      show some (Block.name (if x ∈ b.succs then _ else _)) = _
      split <;> rfl

/-- The labels of a tail are those of its block, with the name of the block turned into that of
the tail. -/
theorem label_of_tail (h : Severed g head b place running name g') {l : String}
    (hl : l ∈ labels (g'.insts .block g.blocks.size)) :
    (l ∈ labels b.insts ∧ l ≠ b.name) ∨ (l = name ∧ b.name ∈ labels b.insts) := by
  rw [h.insts_tail, labels_renameLabel] at hl
  obtain ⟨l', hl', rfl⟩ := List.mem_map.mp hl
  have hmem : l' ∈ labels b.insts := mem_labels_of_drop hl'
  split
  next heq => exact .inr ⟨rfl, heq ▸ hmem⟩
  next hne => exact .inl ⟨hmem, hne⟩

/-- The tail takes over the successors of its block as they are. -/
theorem succs_tail (h : Severed g head b place running name g') :
    g'.succs .block g.blocks.size = b.succs := by
  rw [FlowGraph.succs, h.see_tail]
  rfl

/-- What is named among the successors of the block is named among those of the tail. -/
theorem nameAmong (h : Severed g head b place running name g') (hb : g.block? head = some b)
    (hsuccs : ∀ s ∈ b.succs, s < g.blocks.size) {l : String} (hl : g.NameAmong b.succs l) :
    g'.NameAmong (g'.succs .block g.blocks.size) l := by
  obtain ⟨s, hs, hname⟩ := hl
  refine ⟨s, h.succs_tail.symm ▸ hs, ?_⟩
  exact (h.name? hb (Nat.ne_of_lt (hsuccs s hs))).trans hname

end Severed

/-- The labels of a block name its successors. Then a split of the block ends well, and if there is
a tail, each of its labels names one of its own successors, except the labels that named the block
itself: these name the tail, and the block is a successor of the tail. -/
theorem split_labels (budget : Nat) {g : FlowGraph} {head : BlockId} {b : Block}
    (hnames : g.DistinctNames) (harena : g.InArena) (hb : g.block? head = some b)
    (hlabels : g.LabelsFollow head) :
    Ends (Edit.split budget head) g fun r g' => ∀ f, r = some f →
      ∀ l ∈ labels (g'.insts .block f.tail),
        g'.NameAmong (g'.succs .block f.tail) l ∨
          (g'.name? f.tail = some l ∧ b.name ∈ labels b.insts ∧ head ∈ g'.succs .block f.tail) := by
  have hhead : head < g.blocks.size := Arena.lt_size_of_get? hb
  have hinsts : g.insts .block head = b.insts := FlowGraph.see_of_block? hb _ _
  have hsucc : g.succs .block head = b.succs := FlowGraph.see_of_block? hb _ _
  have hsuccs : ∀ s ∈ b.succs, s < g.blocks.size := hsucc ▸ (harena head hhead).1
  rw [FlowGraph.LabelsFollow, hinsts, hsucc] at hlabels
  refine (split_ends budget hb hsuccs).mono ?_
  rintro r g' (⟨rfl, -, -⟩ | ⟨f, place, name, rfl, -, htail, hsevered⟩)
  · rintro _ ⟨⟩
  · rintro _ ⟨⟩ l hl
    rw [htail] at hl ⊢
    obtain ⟨hmem, -⟩ | ⟨rfl, hself⟩ := hsevered.label_of_tail hl
    · exact .inl (hsevered.nameAmong hb hsuccs (hlabels l hmem))
    · -- Names are distinct, so the successor of the block that has its name is the block.
      obtain ⟨s, hs, hname⟩ := hlabels b.name hself
      have hown : g.name? head = some b.name := congrArg (Option.map _) hb
      have heq : s = head := hnames s (hsuccs s hs) head hhead (hname.trans hown.symm)
      refine .inr ⟨congrArg (Option.map _) hsevered.tail_eq, hself, ?_⟩
      rw [hsevered.succs_tail, ← heq]
      exact hs

/-- A block that branches to itself and to another block. -/
def spin : Dot.Graph where
  nodes := [⟨"b", [⟨some "entry", "MOV R1, R2 ;\\lMOV R3, R4 ;\\lBRA `(b) ;\\lBRA `(c) ;"⟩]⟩,
    ⟨"c", [⟨some "entry", "EXIT ;"⟩]⟩]
  edges := [⟨"b", some "entry", "b"⟩, ⟨"b", some "entry", "c"⟩]

def carvedSpin : FlowGraph := (carve spin {}).2.graph

theorem split_labels_carvedSpin : carvedSpin.DistinctNames ∧ carvedSpin.InArena ∧
    carvedSpin.LabelsFollow 0 ∧ Ends (Edit.split 4 0) carvedSpin fun r g' => ∀ f, r = some f →
      ∀ l ∈ labels (g'.insts .block f.tail), g'.NameAmong (g'.succs .block f.tail) l ∨
        (g'.name? f.tail = some l ∧ "b" ∈ labels (carvedSpin.insts .block 0) ∧
          0 ∈ g'.succs .block f.tail) := by
  have hnames : carvedSpin.DistinctNames := by decide +kernel
  have harena : carvedSpin.InArena := by decide +kernel
  have hlabels : carvedSpin.LabelsFollow 0 := by decide +kernel
  obtain ⟨b, hb⟩ : ∃ b, carvedSpin.block? 0 = some b := Arena.exists_get? (by decide +kernel)
  have hname : b.name = "b" := by
    have h : carvedSpin.name? 0 = some "b" := by decide +kernel
    rw [FlowGraph.name?, hb] at h
    exact Option.some.inj h
  refine ⟨hnames, harena, hlabels, ?_⟩
  rw [← hname, FlowGraph.insts, FlowGraph.see_of_block? hb]
  exact split_labels 4 hnames harena hb hlabels

/-- The parts of a block that is split, and the graph with them. -/
def Edit.split? (budget : Nat) (head : BlockId) (g : FlowGraph) : Option (Fragments × FlowGraph) :=
  match Edit.split budget head g with
  | .ok (some f) g' => some (f, g')
  | _ => none

theorem Edit.split_eq_of_split? {budget : Nat} {head : BlockId} {g g' : FlowGraph} {f : Fragments}
    (h : Edit.split? budget head g = some (f, g')) :
    Edit.split budget head g = .ok (some f) g' := by
  rw [Edit.split?] at h
  split at h
  next heq =>
    injection h with h
    injection h with hf hg
    rw [heq, hf, hg]
  next => injection h

/-- The label that named the block is renamed, while the edge to the block stays: the tail has a
label that names none of its successors. -/
theorem labels_part_carvedSpin : carvedSpin.DistinctNames ∧ carvedSpin.InArena ∧
    carvedSpin.LabelsFollow 0 ∧ ∃ f g', Edit.split 4 0 carvedSpin = .ok (some f) g' ∧
      "b_2" ∈ labels (g'.insts .block f.tail) ∧ g'.succs .block f.tail = [0, 1] ∧
      ¬ g'.LabelsFollow f.tail := by
  refine ⟨by decide +kernel, by decide +kernel, by decide +kernel, ?_⟩
  have hrun : ∃ r ∈ Edit.split? 4 0 carvedSpin, "b_2" ∈ labels (r.2.insts .block r.1.tail) ∧
      r.2.succs .block r.1.tail = [0, 1] ∧ ¬ r.2.LabelsFollow r.1.tail := by
    decide +kernel
  obtain ⟨⟨f, g'⟩, hsplit, hparts⟩ := hrun
  exact ⟨f, g', Edit.split_eq_of_split? hsplit, hparts⟩

end KernelIntervals
