/-
What snapshots tell.

* `SnapshotEntry`, `FlowGraph.shown?` — what a snapshot shows of a block or of an interval,
* `Tells` — what is written can be split off the front of any text, and tells what it shows,
* `tells_number`, `tells_list`, `Tells.append` — numbers and lists with a mark behind them, and one
  text behind another,
* `EntryFormat.tells_write` — the text of an entry tells the entry,
* `FlowGraph.toList_snapshot?` — a snapshot is the text of its entries, in the words of its level,
* `snapshot_eq_iff` — two snapshots are equal exactly if they show the same entries.

Design notes: the entries of both kinds have the same fields in the same order, and differ in the
words between them. So there is one text with the words as parameters, and one proof.
-/
import Mathlib.Data.List.Forall2
import KernelIntervals.Flow.Level
import KernelIntervals.Proofs.Naming
import KernelIntervals.Snapshot.Render

namespace KernelIntervals

/-- What a snapshot shows of a block or of an interval. -/
structure SnapshotEntry where
  id : Nat
  instCount : Nat
  regs : RegSet
  preds : List Nat
  succs : List Nat
deriving DecidableEq

namespace FlowGraph

/-- The entry of a block or of an interval. -/
def shown? (g : FlowGraph) (l : Level) (id : Nat) : Option SnapshotEntry :=
  (g.node? l id).map fun n => ⟨id, n.insts.length, n.regs, n.preds, n.succs⟩

/-- The snapshot of some blocks or of some intervals, if all exist. -/
def snapshot? (g : FlowGraph) : Level → List Nat → Option String
  | .block => g.renderBlocks?
  | .interval => g.renderIntervals?

end FlowGraph

/-! ### Texts that tell what they show -/

/-- Whatever stands behind it, what is written for a value is found at the start of a text, and what
it shows of the value is told by it. -/
def Tells {α β : Type} (write : α → List Char) (shown : α → β) : Prop :=
  ∀ a b s t, write a ++ s = write b ++ t → shown a = shown b ∧ s = t

section Tells

variable {α β γ : Type} {write write' : α → List Char} {shown : α → β} {shown' : α → γ}

/-- Words that are the same for all values. -/
theorem tells_words (words : List Char) : Tells (fun _ : α => words) fun _ => () :=
  fun _ _ _ _ h => ⟨rfl, List.append_cancel_left h⟩

theorem Tells.append (h : Tells write shown) (h' : Tells write' shown') :
    Tells (fun a => write a ++ write' a) fun a => (shown a, shown' a) := by
  intro a b s t heq
  rw [List.append_assoc, List.append_assoc] at heq
  obtain ⟨hshown, heq⟩ := h a b _ _ heq
  obtain ⟨hshown', heq⟩ := h' a b s t heq
  exact ⟨Prod.ext hshown hshown', heq⟩

/-- What stands before the first occurrence of a mark is told by the text. -/
theorem append_mark_inj {xs ys s t : List α} {mark : α} (hxs : mark ∉ xs) (hys : mark ∉ ys)
    (h : xs ++ mark :: s = ys ++ mark :: t) : xs = ys ∧ s = t := by
  have hfirst : ∀ {zs s t : List α}, mark ∉ zs → mark :: s = zs ++ mark :: t → zs = [] ∧ s = t := by
    intro zs s t hzs heq
    cases zs with
    | nil => exact ⟨rfl, (List.cons.inj heq).2⟩
    | cons z zs => exact absurd ((List.cons.inj heq).1 ▸ List.mem_cons_self) hzs
  rcases List.append_eq_append_iff.mp h with ⟨zs, rfl, hz⟩ | ⟨zs, rfl, hz⟩
  · obtain ⟨rfl, hrest⟩ := hfirst (fun hmem => hys (List.mem_append_right xs hmem)) hz
    exact ⟨(List.append_nil xs).symm, hrest⟩
  · obtain ⟨rfl, hrest⟩ := hfirst (fun hmem => hxs (List.mem_append_right ys hmem)) hz
    exact ⟨List.append_nil ys, hrest.symm⟩

/-- A number ends before the first character that is no digit. -/
theorem tells_number (f : α → Nat) (mark : Char) (hmark : ¬ mark.isDigit = true) :
    Tells (fun a => (f a).repr.toList ++ [mark]) f := by
  intro a b s t heq
  have hnot : ∀ n : Nat, mark ∉ n.repr.toList := fun n hmem => hmark (isDigit_of_mem_repr hmem)
  rw [List.append_assoc, List.append_assoc] at heq
  obtain ⟨hdigits, hrest⟩ := append_mark_inj (hnot _) (hnot _) heq
  exact ⟨repr_injective (String.toList_inj.mp hdigits), hrest⟩

/-- Items that are followed by blanks end before a mark that is in none of them. -/
theorem items_inj {item : α → List Char} (hitem : Function.Injective item)
    (hblank : ∀ x, ' ' ∉ item x) {mark : Char} (hmark : ∀ x, mark ∉ item x) (hne : mark ≠ ' ')
    {xs ys : List α} {s t : List Char}
    (h : xs.flatMap (fun x => item x ++ [' ']) ++ mark :: s =
      ys.flatMap (fun x => item x ++ [' ']) ++ mark :: t) : xs = ys ∧ s = t := by
  -- No item begins with the mark.
  have hend : ∀ x s t, mark :: s ≠ item x ++ ' ' :: t := by
    intro x s t heq
    cases hx : item x with
    | nil =>
      rw [hx] at heq
      exact hne (List.cons.inj heq).1
    | cons c cs =>
      rw [hx] at heq
      exact hmark x (hx ▸ (List.cons.inj heq).1 ▸ List.mem_cons_self)
  have hcons : ∀ x xs s, (x :: xs).flatMap (fun x => item x ++ [' ']) ++ mark :: s =
      item x ++ ' ' :: (xs.flatMap (fun x => item x ++ [' ']) ++ mark :: s) := by
    intro x xs s
    rw [List.flatMap_cons, List.append_assoc, List.append_assoc, List.singleton_append]
  induction xs generalizing ys with
  | nil =>
    cases ys with
    | nil => exact ⟨rfl, (List.cons.inj h).2⟩
    | cons y ys => exact absurd (h.trans (hcons y ys t)) (hend y _ _)
  | cons x xs ih =>
    cases ys with
    | nil => exact absurd (h.symm.trans (hcons x xs s)) (hend x _ _)
    | cons y ys =>
      rw [hcons, hcons] at h
      obtain ⟨hxy, hrest⟩ := append_mark_inj (hblank x) (hblank y) h
      obtain ⟨hlists, hrest⟩ := ih hrest
      exact ⟨congrArg₂ List.cons (hitem hxy) hlists, hrest⟩

theorem tells_list (f : α → List β) {item : β → List Char} (hitem : Function.Injective item)
    (hblank : ∀ x, ' ' ∉ item x) {mark : Char} (hmark : ∀ x, mark ∉ item x) (hne : mark ≠ ' ') :
    Tells (fun a => (f a).flatMap (fun x => item x ++ [' ']) ++ [mark]) f := by
  intro a b s t heq
  rw [List.append_assoc, List.append_assoc] at heq
  exact items_inj hitem hblank hmark hne heq

/-- As many texts one behind the other tell what each of them shows. -/
theorem Tells.flatMap (h : Tells write shown) {as bs : List α} (hlength : as.length = bs.length)
    (heq : as.flatMap write = bs.flatMap write) : as.map shown = bs.map shown := by
  induction as generalizing bs with
  | nil =>
    rw [List.eq_nil_of_length_eq_zero hlength.symm]
  | cons a as ih =>
    cases bs with
    | nil => cases hlength
    | cons b bs =>
      rw [List.flatMap_cons, List.flatMap_cons] at heq
      obtain ⟨hshown, hrest⟩ := h a b _ _ heq
      exact congrArg₂ List.cons hshown (ih (Nat.succ.inj hlength) hrest)

end Tells

/-! ### Entries -/

/-- The words of a snapshot: before the number of entries, and before the fields of an entry. The
mark stands behind the id of an entry. -/
structure EntryFormat where
  header : String
  idWords : String
  idMark : Char
  instWords : String
  regWords : String
  predWords : String
  succWords : String

namespace EntryFormat

/-- The text of an entry. -/
def write (f : EntryFormat) (e : SnapshotEntry) : List Char :=
  f.idWords.toList ++ (e.id.repr.toList ++ [f.idMark]) ++
  f.instWords.toList ++ (e.instCount.repr.toList ++ ['\n']) ++
  f.regWords.toList ++ (e.regs.toList.flatMap (fun r => r.name.toList ++ [' ']) ++ ['\x7d']) ++
  "; #Number of Registers = ".toList ++ (e.regs.size.repr.toList ++ [';']) ++
  f.predWords.toList ++ (e.preds.flatMap (fun id => id.repr.toList ++ [' ']) ++ ['\x7d']) ++
  f.succWords.toList ++ (e.succs.flatMap (fun id => id.repr.toList ++ [' ']) ++ ['\x7d']) ++
  ";\n".toList

/-- A snapshot of some entries. -/
def writeAll (f : EntryFormat) (es : List SnapshotEntry) : List Char :=
  f.header.toList ++ (es.length.repr.toList ++ ['\n']) ++ es.flatMap f.write

variable {f : EntryFormat}

theorem name_injective : Function.Injective fun r : Reg => r.name.toList := by
  intro r r' (h : r.name.toList = r'.name.toList)
  have hread := Reg.ofChars?_name r
  rw [h, Reg.ofChars?_name] at hread
  exact (Option.some.inj hread).symm

theorem not_mem_name {c : Char} (hc : ¬ c.isAlphanum = true) (r : Reg) : c ∉ r.name.toList := by
  intro hmem
  rw [Reg.name, String.toList_append, List.mem_append] at hmem
  rcases hmem with hmem | hmem
  · obtain rfl := List.mem_singleton.mp hmem
    exact hc (by decide)
  · refine hc ?_
    rw [Char.isAlphanum, isDigit_of_mem_repr hmem, Bool.or_true]

/-- The text of an entry tells the entry. -/
theorem tells_write (hmark : ¬ f.idMark.isDigit = true) : Tells f.write id := by
  have hids : ∀ fd : SnapshotEntry → List Nat,
      Tells (fun e => (fd e).flatMap (fun id => id.repr.toList ++ [' ']) ++ ['\x7d']) fd := by
    refine fun fd => tells_list fd ?_ ?_ ?_ (by decide)
    · exact fun _ _ h => repr_injective (String.toList_inj.mp h)
    · exact fun _ hmem => absurd (isDigit_of_mem_repr hmem) (by decide)
    · exact fun _ hmem => absurd (isDigit_of_mem_repr hmem) (by decide)
  have hregs : Tells (fun e : SnapshotEntry =>
      e.regs.toList.flatMap (fun r => r.name.toList ++ [' ']) ++ ['\x7d']) (·.regs.toList) :=
    tells_list _ name_injective (not_mem_name (by decide)) (not_mem_name (by decide)) (by decide)
  have hfields := tells_words f.idWords.toList
    |>.append (tells_number SnapshotEntry.id f.idMark hmark)
    |>.append (tells_words f.instWords.toList)
    |>.append (tells_number SnapshotEntry.instCount '\n' (by decide))
    |>.append (tells_words f.regWords.toList) |>.append hregs
    |>.append (tells_words "; #Number of Registers = ".toList)
    |>.append (tells_number (·.regs.size) ';' (by decide))
    |>.append (tells_words f.predWords.toList) |>.append (hids SnapshotEntry.preds)
    |>.append (tells_words f.succWords.toList) |>.append (hids SnapshotEntry.succs)
    |>.append (tells_words ";\n".toList)
  intro e e' s t heq
  obtain ⟨hshown, hrest⟩ := hfields e e' s t heq
  refine ⟨?_, hrest⟩
  obtain ⟨id, instCount, regs, preds, succs⟩ := e
  obtain ⟨id', instCount', regs', preds', succs'⟩ := e'
  simp only [Prod.mk.injEq, true_and, and_true] at hshown
  obtain ⟨⟨⟨⟨⟨rfl, rfl⟩, hregs⟩, -⟩, rfl⟩, rfl⟩ := hshown
  rw [RegSet.ext hregs]

/-- Two snapshots of one format are equal exactly if their entries are. -/
theorem writeAll_inj (hmark : ¬ f.idMark.isDigit = true) {es es' : List SnapshotEntry} :
    f.writeAll es = f.writeAll es' ↔ es = es' := by
  refine ⟨fun heq => ?_, congrArg f.writeAll⟩
  have hcount := (tells_words f.header.toList).append
    (tells_number (fun es : List SnapshotEntry => es.length) '\n' (by decide))
  obtain ⟨hlength, hentries⟩ := hcount es es' _ _ heq
  have hmap := (tells_write hmark).flatMap (Prod.mk.inj hlength).2 hentries
  rwa [List.map_id, List.map_id] at hmap

/-- The words of a snapshot of blocks. -/
def block : EntryFormat where
  header := "The number of basic_blocks = "
  idWords := " #The basic_block ID : "
  idMark := '\n'
  instWords := "\t\t#Number of Instructions = "
  regWords := "\t\t#Register_list = \x7b"
  predWords := "\n\t\t#predecessors = \x7b"
  succWords := ";\t\t#successors = \x7b"

/-- The words of a snapshot of intervals. -/
def interval : EntryFormat where
  header := "The number of Intervals = "
  idWords := " #Interval ID = "
  idMark := ' '
  instWords := "#Number of Instructions = "
  regWords := "\t\t #Register_list = \x7b"
  predWords := "\n\t\tPredecessors = \x7b "
  succWords := "\t\tSuccessors = \x7b "

end EntryFormat

/-! ### Snapshots as texts of entries -/

theorem toList_renderIds (ids : List Nat) :
    (renderIds ids).toList = ids.flatMap fun id => id.repr.toList ++ [' '] := by
  rw [renderIds, String.toList_join, List.flatMap_map]
  simp only [String.toList_append]
  rfl

theorem RegSet.toList_render (regs : RegSet) : regs.render.toList =
    '\x7b' :: (regs.toList.flatMap fun r => r.name.toList ++ [' ']) ++ ['\x7d'] := by
  rw [RegSet.render, String.toList_append, String.toList_append, String.toList_join,
    List.flatMap_map]
  simp only [String.toList_append]
  rfl

def Block.toEntry (id : BlockId) (b : Block) : SnapshotEntry :=
  ⟨id, b.insts.length, b.outputs, b.preds, b.succs⟩

def Interval.toEntry (id : IntervalId) (i : Interval) : SnapshotEntry :=
  ⟨id, i.insts.length, i.regs, i.preds, i.succs⟩

theorem toList_renderBlock (id : BlockId) (b : Block) :
    (renderBlock id b).toList = EntryFormat.block.write (b.toEntry id) := by
  have hcount : ∀ t, "\n".toList ++ ("\t\t#Number of Instructions = ".toList ++ t) =
      EntryFormat.block.idMark :: (EntryFormat.block.instWords.toList ++ t) := fun _ => rfl
  have hregs : ∀ t, "\n".toList ++ ("\t\t".toList ++ ("#Register_list = ".toList ++ '\x7b' :: t)) =
      '\n' :: (EntryFormat.block.regWords.toList ++ t) := fun _ => rfl
  have hpreds : ∀ t, ";\n".toList ++ ("\t\t#predecessors = \x7b".toList ++ t) =
      ';' :: (EntryFormat.block.predWords.toList ++ t) := fun _ => rfl
  have hsuccs : ∀ t, "\x7d;".toList ++ ("\t\t#successors = \x7b".toList ++ t) =
      '\x7d' :: (EntryFormat.block.succWords.toList ++ t) := fun _ => rfl
  unfold renderBlock renderRegs
  rw [EntryFormat.write]
  simp only [String.toList_append, toList_renderIds, RegSet.toList_render, List.append_assoc,
    List.cons_append, List.nil_append, hcount, hregs, hpreds, hsuccs]
  rfl

theorem toList_renderInterval (id : IntervalId) (i : Interval) :
    (renderInterval id i).toList = EntryFormat.interval.write (i.toEntry id) := by
  have hcount : ∀ t, " #Number of Instructions = ".toList ++ t =
      EntryFormat.interval.idMark :: (EntryFormat.interval.instWords.toList ++ t) := fun _ => rfl
  have hregs : ∀ t, "\n".toList ++ ("\t\t ".toList ++ ("#Register_list = ".toList ++ '\x7b' :: t)) =
      '\n' :: (EntryFormat.interval.regWords.toList ++ t) := fun _ => rfl
  have hpreds : ∀ t, ";\n".toList ++ ("\t\tPredecessors = \x7b ".toList ++ t) =
      ';' :: (EntryFormat.interval.predWords.toList ++ t) := fun _ => rfl
  have hsuccs : ∀ t, "\x7d".toList ++ ("\t\tSuccessors = \x7b ".toList ++ t) =
      '\x7d' :: (EntryFormat.interval.succWords.toList ++ t) := fun _ => rfl
  unfold renderInterval renderRegs
  rw [EntryFormat.write]
  simp only [String.toList_append, toList_renderIds, RegSet.toList_render, List.append_assoc,
    List.cons_append, List.nil_append, hcount, hregs, hpreds, hsuccs]
  rfl

theorem toList_renderBlocks (bs : List (BlockId × Block)) :
    (renderBlocks bs).toList = EntryFormat.block.writeAll (bs.map fun b => b.2.toEntry b.1) := by
  have hcount : ∀ t, "\n".toList ++ t = '\n' :: t := fun _ => rfl
  unfold renderBlocks
  rw [EntryFormat.writeAll, List.flatMap_map, List.length_map]
  simp only [String.toList_append, String.toList_join, List.flatMap_map, toList_renderBlock,
    List.append_assoc, List.cons_append, List.nil_append, hcount]
  rfl

theorem toList_renderIntervals (is : List (IntervalId × Interval)) :
    (renderIntervals is).toList =
      EntryFormat.interval.writeAll (is.map fun i => i.2.toEntry i.1) := by
  have hcount : ∀ t, "\n".toList ++ t = '\n' :: t := fun _ => rfl
  unfold renderIntervals
  rw [EntryFormat.writeAll, List.flatMap_map, List.length_map]
  simp only [String.toList_append, String.toList_join, List.flatMap_map, toList_renderInterval,
    List.append_assoc, List.cons_append, List.nil_append, hcount]
  rfl

/-! ### Entries that are looked up -/

section Lookup

variable {α β γ : Type} {f : α → Option β}

theorem mapM_eq_some_iff {xs : List α} {ys : List β} :
    xs.mapM f = some ys ↔ xs.map f = ys.map some := by
  induction xs generalizing ys with
  | nil =>
    rw [List.mapM_nil, List.map_nil]
    cases ys with
    | nil => exact iff_of_true rfl rfl
    | cons y ys => exact iff_of_false nofun nofun
  | cons x xs ih =>
    rw [List.mapM_cons, List.map_cons]
    cases ys with
    | nil =>
      refine iff_of_false (fun h => ?_) nofun
      obtain ⟨y, -, h⟩ := Option.bind_eq_some_iff.mp h
      obtain ⟨ys, -, h⟩ := Option.bind_eq_some_iff.mp h
      cases h
    | cons y ys =>
      rw [List.map_cons, List.cons.injEq, ← ih]
      cases f x <;> cases xs.mapM f <;> simp [pure]

theorem mapM_map (h : β → γ) (xs : List α) :
    xs.mapM (fun x => (f x).map h) = (xs.mapM f).map (List.map h) := by
  induction xs with
  | nil => rfl
  | cons x xs ih =>
    rw [List.mapM_cons, List.mapM_cons, ih]
    cases f x <;> cases xs.mapM f <;> rfl

end Lookup

/-- The words of a snapshot of a level. -/
def Level.format : Level → EntryFormat
  | .block => .block
  | .interval => .interval

namespace FlowGraph

/-- A snapshot is the text of its entries, which all exist. -/
theorem toList_snapshot? (g : FlowGraph) (l : Level) (ids : List Nat) :
    (g.snapshot? l ids).map String.toList =
      (ids.mapM (g.shown? l)).map l.format.writeAll := by
  cases l with
  | block =>
    have hentry : g.shown? .block = fun id =>
        ((g.block? id).map fun b => (id, b)).map fun b => b.2.toEntry b.1 := by
      funext id
      rw [shown?, node?, Option.map_map, Option.map_map]
      rfl
    rw [snapshot?, renderBlocks?, hentry, mapM_map, Option.map_map, Option.map_map]
    exact congrArg (Option.map · _) (funext toList_renderBlocks)
  | interval =>
    have hentry : g.shown? .interval = fun id =>
        ((g.interval? id).map fun i => (id, i)).map fun i => i.2.toEntry i.1 := by
      funext id
      rw [shown?, node?, Option.map_map, Option.map_map]
      rfl
    rw [snapshot?, renderIntervals?, hentry, mapM_map, Option.map_map, Option.map_map]
    exact congrArg (Option.map · _) (funext toList_renderIntervals)

theorem exists_entries {g : FlowGraph} {l : Level} {ids : List Nat} {text : String}
    (h : g.snapshot? l ids = some text) :
    ∃ es, ids.map (g.shown? l) = es.map some ∧ text.toList = l.format.writeAll es := by
  have htext := toList_snapshot? g l ids
  rw [h, Option.map_some] at htext
  obtain ⟨es, hes, htext⟩ := Option.map_eq_some_iff.mp htext.symm
  exact ⟨es, mapM_eq_some_iff.mp hes, htext.symm⟩

end FlowGraph

/-- Two snapshots of blocks, or two of intervals, are equal exactly if they have as many entries,
and these agree one by one in the id, the number of instructions, the registers, the predecessors
and the successors. -/
theorem snapshot_eq_iff (l : Level) {g g' : FlowGraph} {ids ids' : List Nat} {text text' : String}
    (h : g.snapshot? l ids = some text) (h' : g'.snapshot? l ids' = some text') :
    text = text' ↔ List.Forall₂ (fun id id' => g.shown? l id = g'.shown? l id') ids ids' := by
  obtain ⟨es, hes, htext⟩ := FlowGraph.exists_entries h
  obtain ⟨es', hes', htext'⟩ := FlowGraph.exists_entries h'
  have hmark : ¬ l.format.idMark.isDigit = true := by cases l <;> decide
  have hentries : List.Forall₂ (fun id id' => g.shown? l id = g'.shown? l id') ids ids' ↔
      es = es' := by
    rw [← List.map_inj_right (f := some) (fun _ _ => Option.some.inj), ← hes, ← hes',
      ← List.forall₂_eq_eq_eq, List.forall₂_map_left_iff, List.forall₂_map_right_iff]
  rw [hentries, ← String.toList_inj, htext, htext', EntryFormat.writeAll_inj hmark]

/-- Two blocks with an edge between them, and a statement in the first. -/
def linkedPair (statement : String) : FlowGraph :=
  let g : FlowGraph := {}
  let insts := (Inst.parse statement).toOption.toList
  ((g.addBlock (.ofInsts "a" insts)).addBlock (.ofInsts "b" [])).link 0 1

/-- The opcode is not in a snapshot, and everything that is shown is the same. -/
theorem snapshot_linkedPair :
    let g := linkedPair "MOV R1, R0"
    let g' := linkedPair "ADD R1, R0"
    g ≠ g' ∧ ∃ text, g.snapshot? .block [0, 1] = some text ∧
      g'.snapshot? .block [0, 1] = some text ∧
      List.Forall₂ (fun id id' => g.shown? .block id = g'.shown? .block id') [0, 1] [0, 1] := by
  intro g g'
  have hsome : (g.snapshot? .block [0, 1]).isSome = true := by decide +kernel
  obtain ⟨text, htext⟩ := Option.isSome_iff_exists.mp hsome
  have hsame : g'.snapshot? .block [0, 1] = some text :=
    Eq.trans (by decide +kernel) htext
  refine ⟨?_, text, htext, hsame, (snapshot_eq_iff .block htext hsame).mp rfl⟩
  intro heq
  have hopcodes := congrArg (fun g => (g.block? 0).map (·.insts)) heq
  exact absurd hopcodes (by decide +kernel)

end KernelIntervals
