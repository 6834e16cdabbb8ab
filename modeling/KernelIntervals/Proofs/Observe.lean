/-
What is seen of the nodes of a graph.

* `FlowGraph.insts`, `FlowGraph.regs`, `FlowGraph.preds`, `FlowGraph.succs`,
  `FlowGraph.owner` — what a node holds, with nothing for an id without an entry,
* `Links`, `FlowGraph.links` — what a block has that no pass looks at,
* `FlowGraph.net` — some nodes of a level with their edges,
* `FlowGraph.see_assign`, `FlowGraph.see_addInterval` and their like — each change of
  a graph leaves what it does not touch,
* `FlowGraph.memberRegs?_eq_some`, `FlowGraph.frontier?_eq_some` — what a pass asks of
  nodes that exist is there.
-/
import Mathlib.Logic.Function.Basic
import KernelIntervals.Grouping.Quotient
import KernelIntervals.Proofs.Net

namespace KernelIntervals

open Function

variable {α : Type}

namespace FlowGraph

/-- The number of nodes of a level. -/
def extent (g : FlowGraph) : Level → Nat
  | .block => g.blocks.size
  | .interval => g.intervals.size

/-- Something that is seen in a node, with a default for an id without an entry. -/
def see (g : FlowGraph) (l : Level) (π : Node → α) (default : α) (n : Nat) : α :=
  ((g.node? l n).map π).getD default

def insts (g : FlowGraph) (l : Level) : Nat → List Inst := g.see l Node.insts []

def regs (g : FlowGraph) (l : Level) : Nat → RegSet := g.see l Node.regs ∅

def preds (g : FlowGraph) (l : Level) : Nat → List Nat := g.see l Node.preds []

def succs (g : FlowGraph) (l : Level) : Nat → List Nat := g.see l Node.succs []

/-- The interval that a node is a member of. -/
def owner (g : FlowGraph) (l : Level) : Nat → Option IntervalId := g.see l Node.owner none

/-- Some nodes of a level with their edges. -/
def net (g : FlowGraph) (l : Level) (nodes : List Nat) : Net := ⟨nodes, g.preds l, g.succs l⟩

variable {g : FlowGraph} {l l' : Level} {n m : Nat} {i : IntervalId}

theorem node?_eq_none (h : g.extent l ≤ n) : g.node? l n = none := by
  cases l with
  | block =>
    rw [node?, block?, Arena.get?_eq_none_iff.mpr h]
    rfl
  | interval =>
    rw [node?, interval?, Arena.get?_eq_none_iff.mpr h]
    rfl

/-- A node that exists is what is seen of it. -/
theorem node?_eq_some (h : n < g.extent l) :
    g.node? l n = some ⟨g.insts l n, g.regs l n, g.preds l n, g.succs l n, g.owner l n⟩ := by
  have hsome : ∃ node, g.node? l n = some node := by
    cases l with
    | block =>
      obtain ⟨b, hb⟩ := Arena.exists_get? h
      exact ⟨b.toNode, by rw [node?, block?, hb]; rfl⟩
    | interval =>
      obtain ⟨v, hv⟩ := Arena.exists_get? h
      exact ⟨v.toNode, by rw [node?, interval?, hv]; rfl⟩
  obtain ⟨node, hnode⟩ := hsome
  simp only [insts, regs, preds, succs, owner, see, hnode, Option.map_some, Option.getD_some]

theorem see_eq_default (h : g.extent l ≤ n) (π : Node → α) (default : α) :
    g.see l π default n = default := by
  rw [see, node?_eq_none h]
  rfl

theorem see_block (g : FlowGraph) (π : Node → α) (default : α) (n : BlockId) :
    g.see .block π default n = ((g.block? n).map fun b => π b.toNode).getD default := by
  rw [see, node?, Option.map_map]
  rfl

theorem see_of_block? {b : Block} (hb : g.block? n = some b) (π : Node → α) (default : α) :
    g.see .block π default n = π b.toNode := by
  rw [see_block, hb]
  rfl

theorem see_of_interval? {v : Interval} (hv : g.interval? i = some v) (π : Node → α)
    (default : α) : g.see .interval π default i = π v.toNode := by
  rw [see, node?, hv]
  rfl

/-- What is seen of blocks depends on the blocks only. -/
theorem see_block_congr {g' : FlowGraph} {π : Node → α} {default : α}
    (h : g'.blocks = g.blocks) : g'.see .block π default = g.see .block π default := by
  funext n
  rw [see, see, node?, node?, block?, block?, h]

theorem net_block_congr {g' : FlowGraph} (h : g'.blocks = g.blocks) (nodes : List BlockId) :
    g'.net .block nodes = g.net .block nodes := by
  rw [net, net, preds, preds, succs, succs, see_block_congr h, see_block_congr h]

/-! ### Changes of a graph -/

@[simp] theorem extent_addInterval_block (v : Interval) :
    (g.addInterval v).extent .block = g.extent .block := rfl

@[simp] theorem extent_addInterval_interval (v : Interval) :
    (g.addInterval v).extent .interval = g.extent .interval + 1 :=
  Arena.size_alloc ..

@[simp] theorem extent_modifyInterval (f : Interval → Interval) :
    (g.modifyInterval i f).extent l = g.extent l := by
  cases l with
  | block => rfl
  | interval => exact Arena.size_modify ..

@[simp] theorem extent_modifyBlock (f : Block → Block) :
    (g.modifyBlock n f).extent l = g.extent l := by
  cases l with
  | block => exact Arena.size_modify ..
  | interval => rfl

@[simp] theorem extent_assign (o : Option IntervalId) :
    (g.assign l n o).extent l' = g.extent l' := by
  cases l with
  | block => exact extent_modifyBlock _
  | interval => exact extent_modifyInterval _

theorem node?_assign_self (o : Option IntervalId) :
    (g.assign l n o).node? l n = (g.node? l n).map ({ · with owner := o }) := by
  cases l with
  | block =>
    simp only [assign, node?, block?_modifyBlock, if_true, Option.map_map]
    rfl
  | interval =>
    simp only [assign, node?, interval?_modifyInterval, if_true, Option.map_map]
    rfl

theorem node?_assign_of_ne (o : Option IntervalId) (h : l' ≠ l ∨ m ≠ n) :
    (g.assign l n o).node? l' m = g.node? l' m := by
  cases l <;> cases l'
  · have hne : ¬ n = m := fun he => (h.resolve_left (fun hl => hl rfl)) he.symm
    simp only [assign, node?, block?_modifyBlock, if_neg hne]
  · rfl
  · rfl
  · have hne : ¬ n = m := fun he => (h.resolve_left (fun hl => hl rfl)) he.symm
    simp only [assign, node?, interval?_modifyInterval, if_neg hne]

/-- A new owner changes nothing else. -/
theorem see_assign {π : Node → α} {default : α} (o : Option IntervalId)
    (hπ : ∀ node, π { node with owner := o } = π node) :
    (g.assign l n o).see l' π default = g.see l' π default := by
  funext m
  by_cases h : l' = l ∧ m = n
  · obtain ⟨rfl, rfl⟩ := h
    rw [see, node?_assign_self, see]
    cases g.node? l' m with
    | none => rfl
    | some node => exact hπ node
  · have hne : l' ≠ l ∨ m ≠ n := by
      by_cases hl : l' = l
      · exact .inr fun hm => h ⟨hl, hm⟩
      · exact .inl hl
    rw [see, node?_assign_of_ne o hne, see]

theorem owner_assign (o : Option IntervalId) (h : n < g.extent l) :
    (g.assign l n o).owner l = update (g.owner l) n o := by
  funext m
  by_cases hm : m = n
  · rw [hm, update_self, owner, see, node?_assign_self, node?_eq_some h]
    rfl
  · rw [update_of_ne hm, owner, see, node?_assign_of_ne o (.inr hm)]
    rfl

/-- A new interval is like none as long as it is empty. -/
theorem see_addInterval {π : Node → α} {default : α} (hπ : π (Interval.toNode {}) = default) :
    (g.addInterval {}).see l π default = g.see l π default := by
  funext m
  cases l with
  | block => rfl
  | interval =>
    by_cases hm : m = g.intervals.size
    · have hnone : g.node? .interval m = none := node?_eq_none (Nat.le_of_eq hm.symm)
      rw [see, see, hnone, node?, interval?_addInterval, if_pos hm]
      exact hπ
    · rw [see, see, node?, interval?_addInterval, if_neg hm]
      rfl

theorem see_modifyInterval {π : Node → α} {default : α} {f : Interval → Interval}
    (hf : ∀ v, π (f v).toNode = π v.toNode) :
    (g.modifyInterval i f).see l π default = g.see l π default := by
  funext m
  cases l with
  | block => rfl
  | interval =>
    rw [see, see, node?, node?, interval?_modifyInterval]
    split
    · cases g.interval? m with
      | none => rfl
      | some v => exact hf v
    · rfl

theorem see_modifyInterval_of_ne {π : Node → α} {default : α} {f : Interval → Interval}
    (h : i ≠ m) :
    (g.modifyInterval i f).see l π default m = g.see l π default m := by
  cases l with
  | block => rfl
  | interval => rw [see, see, node?, node?, interval?_modifyInterval, if_neg h]

theorem see_modifyBlock {π : Node → α} {default : α} {f : Block → Block}
    (hf : ∀ b, π (f b).toNode = π b.toNode) :
    (g.modifyBlock n f).see l π default = g.see l π default := by
  funext m
  cases l with
  | block =>
    rw [see, see, node?, node?, block?_modifyBlock]
    split
    · cases g.block? m with
      | none => rfl
      | some b => exact hf b
    · rfl
  | interval => rfl

theorem see_modifyBlock_of_ne {π : Node → α} {default : α} {f : Block → Block} (h : n ≠ m) :
    (g.modifyBlock n f).see l π default m = g.see l π default m := by
  cases l with
  | block => rw [see, see, node?, node?, block?_modifyBlock, if_neg h]
  | interval => rfl

@[simp] theorem insts_assign (o : Option IntervalId) :
    (g.assign l n o).insts l' = g.insts l' := see_assign o fun _ => rfl

@[simp] theorem regs_assign (o : Option IntervalId) :
    (g.assign l n o).regs l' = g.regs l' := see_assign o fun _ => rfl

@[simp] theorem preds_assign (o : Option IntervalId) :
    (g.assign l n o).preds l' = g.preds l' := see_assign o fun _ => rfl

@[simp] theorem succs_assign (o : Option IntervalId) :
    (g.assign l n o).succs l' = g.succs l' := see_assign o fun _ => rfl

@[simp] theorem insts_addInterval : (g.addInterval {}).insts l = g.insts l := see_addInterval rfl

@[simp] theorem regs_addInterval : (g.addInterval {}).regs l = g.regs l := see_addInterval rfl

@[simp] theorem preds_addInterval : (g.addInterval {}).preds l = g.preds l := see_addInterval rfl

@[simp] theorem succs_addInterval : (g.addInterval {}).succs l = g.succs l := see_addInterval rfl

@[simp] theorem owner_addInterval : (g.addInterval {}).owner l = g.owner l := see_addInterval rfl

/-! ### Links of blocks -/

end FlowGraph

/-- What a block has that no pass looks at: the number of the abstract block that it was
carved from, its controlling block, and its exit mark. -/
structure Links where
  group : Option Nat := none
  control : Option BlockId := none
  exit : Bool := false

/-- The links of a block that does not end its abstract block. -/
def Links.inner (k : Links) : Links := { k with control := none, exit := false }

def Block.links (b : Block) : Links := ⟨b.group, b.control, b.exit⟩

namespace FlowGraph

variable {g : FlowGraph} {l : Level} {n : Nat} {i : IntervalId}

def links (g : FlowGraph) (n : BlockId) : Links := ((g.block? n).map Block.links).getD {}

theorem links_of_block? {b : Block} (hb : g.block? n = some b) : g.links n = b.links := by
  rw [links, hb]
  rfl

theorem links_modifyBlock {f : Block → Block} (hf : ∀ b, (f b).links = b.links) :
    (g.modifyBlock n f).links = g.links := by
  funext m
  rw [links, links, block?_modifyBlock]
  split
  · cases g.block? m with
    | none => rfl
    | some b => exact hf b
  · rfl

@[simp] theorem links_assign (o : Option IntervalId) : (g.assign l n o).links = g.links := by
  cases l with
  | block => exact links_modifyBlock fun _ => rfl
  | interval => rfl

/-! ### Questions about nodes that exist -/

theorem ownedBy?_eq_some (h : n < g.extent l) :
    g.ownedBy? l i n = some (g.owner l n == some i) := by
  rw [ownedBy?, node?_eq_some h]
  rfl

theorem unowned?_eq_some (h : n < g.extent l) : g.unowned? l n = some (g.owner l n).isNone := by
  rw [unowned?, node?_eq_some h]
  rfl

end FlowGraph

/-- A fold whose steps all succeed is a plain fold. -/
theorem foldlM_eq_some_foldl {β : Type} {f : β → α → Option β} {h : β → α → β} {xs : List α}
    (hf : ∀ x ∈ xs, ∀ b, f b x = some (h b x)) (b : β) :
    xs.foldlM f b = some (xs.foldl h b) := by
  induction xs generalizing b with
  | nil => rfl
  | cons x xs ih =>
    rw [List.foldlM_cons, hf x List.mem_cons_self b]
    exact ih (fun y hy => hf y (List.mem_cons_of_mem x hy)) (h b x)

/-- A test that always has an answer is passed by all elements or not. -/
theorem allM_eq_some_all {f : α → Option Bool} {h : α → Bool} {xs : List α}
    (hf : ∀ x ∈ xs, f x = some (h x)) : xs.allM f = some (xs.all h) := by
  induction xs with
  | nil => rfl
  | cons x xs ih =>
    rw [List.allM, hf x List.mem_cons_self, List.all_cons]
    cases hx : h x with
    | false => rfl
    | true => exact ih fun y hy => hf y (List.mem_cons_of_mem x hy)

/-- What a fold collects: what was there before, and what each element adds. -/
theorem mem_foldl_iff {ρ γ : Type} [Membership ρ γ] {step : γ → α → γ} {adds : α → ρ → Prop}
    (hstep : ∀ s x r, r ∈ step s x ↔ r ∈ s ∨ adds x r) (xs : List α) (s : γ) (r : ρ) :
    r ∈ xs.foldl step s ↔ r ∈ s ∨ ∃ x ∈ xs, adds x r := by
  induction xs generalizing s with
  | nil => simp
  | cons x xs ih =>
    rw [List.foldl_cons, ih, hstep, or_assoc]
    simp only [List.mem_cons, exists_eq_or_imp]

namespace FlowGraph

variable {g : FlowGraph} {l : Level} {i : IntervalId} {nodes : List Nat}

/-- The registers with those of one more node, if it is a member. -/
def addMemberRegs (g : FlowGraph) (l : Level) (i : IntervalId) (test : Nat → Bool) (s : RegSet)
    (n : Nat) : RegSet :=
  if g.owner l n = some i ∧ test n then s ∪ g.regs l n else s

/-- The registers of members among nodes that exist. -/
theorem memberRegs?_eq_some (test : Nat → Bool) (h : ∀ n ∈ nodes, n < g.extent l) :
    ∃ regs, g.memberRegs? l i test nodes = some regs ∧
      ∀ r, r ∈ regs ↔ ∃ n ∈ nodes, (g.owner l n = some i ∧ test n) ∧ r ∈ g.regs l n := by
  have hstep : ∀ s n r, r ∈ g.addMemberRegs l i test s n ↔
      r ∈ s ∨ (g.owner l n = some i ∧ test n) ∧ r ∈ g.regs l n := by
    intro s n r
    rw [addMemberRegs]
    split
    next hn => rw [RegSet.mem_union, and_iff_right hn]
    next hn => rw [or_iff_left (fun hr => hn hr.1)]
  refine ⟨nodes.foldl (g.addMemberRegs l i test) ∅, ?_, fun r => ?_⟩
  · refine foldlM_eq_some_foldl (fun n hn s => ?_) ∅
    rw [node?_eq_some (h n hn)]
    rfl
  · rw [mem_foldl_iff hstep, or_iff_right (RegSet.not_mem_empty r)]

/-- The free nodes found so far with one more node, if it is free. -/
def addFree (g : FlowGraph) (l : Level) (found : List Nat) (s : Nat) : List Nat :=
  if (g.owner l s).isNone then addNew found s else found

/-- The free nodes found so far with those behind one more node, if it is a member. -/
def addFrontier (g : FlowGraph) (l : Level) (i : IntervalId) (found : List Nat) (n : Nat) :
    List Nat :=
  if g.owner l n = some i then (g.succs l n).foldl (g.addFree l) found else found

theorem mem_addFree (g : FlowGraph) (l : Level) (found : List Nat) (s x : Nat) :
    x ∈ g.addFree l found s ↔ x ∈ found ∨ x = s ∧ g.owner l s = none := by
  rw [addFree]
  split
  next hs => rw [mem_addNew, and_iff_left (Option.isNone_iff_eq_none.mp hs)]
  next hs => rw [or_iff_left (fun hx => hs (Option.isNone_iff_eq_none.mpr hx.2))]

theorem mem_addFrontier (g : FlowGraph) (l : Level) (i : IntervalId) (found : List Nat)
    (n x : Nat) :
    x ∈ g.addFrontier l i found n ↔
      x ∈ found ∨ g.owner l n = some i ∧ x ∈ g.succs l n ∧ g.owner l x = none := by
  rw [addFrontier]
  split
  next hn =>
    rw [mem_foldl_iff (g.mem_addFree l), and_iff_right hn]
    constructor
    · rintro (hx | ⟨s, hs, rfl, hfree⟩)
      · exact .inl hx
      · exact .inr ⟨hs, hfree⟩
    · rintro (hx | ⟨hs, hfree⟩)
      · exact .inl hx
      · exact .inr ⟨x, hs, rfl, hfree⟩
  next hn => rw [or_iff_left (fun hx => hn hx.1)]

/-- The nodes without an owner behind members among nodes that exist. -/
theorem frontier?_eq_some (h : ∀ n ∈ nodes, n < g.extent l)
    (hsuccs : ∀ n ∈ nodes, ∀ s ∈ g.succs l n, s < g.extent l) :
    ∃ found, g.frontier? l i nodes = some found ∧ ∀ s, s ∈ found ↔
      ∃ n ∈ nodes, g.owner l n = some i ∧ s ∈ g.succs l n ∧ g.owner l s = none := by
  refine ⟨nodes.foldl (g.addFrontier l i) [], ?_, fun s => ?_⟩
  · refine foldlM_eq_some_foldl (fun n hn found => ?_) []
    rw [node?_eq_some (h n hn)]
    show (if g.owner l n = some i then _ else _) = some (if g.owner l n = some i then _ else _)
    split
    · refine foldlM_eq_some_foldl (fun s hs found => ?_) found
      rw [unowned?_eq_some (hsuccs n hn s hs)]
      rfl
    · rfl
  · rw [mem_foldl_iff (g.mem_addFrontier l i), or_iff_right List.not_mem_nil]

end FlowGraph

end KernelIntervals
