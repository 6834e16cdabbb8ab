/-
Changes of a graph that keep its blocks well formed.

* `Program` — some blocks of a graph,
* `Upheld` — a program has become another one: its blocks are well formed still, those
  that were made are listed behind the others, and no edge is there twice if none was,
* `WellFormed.upheld_of_frame`, `WellFormed.upheld_link`, `WellFormed.upheld_severed` — so
  it is with a change that leaves all frames alone, with an edge that is added, and with a
  block that is cut.

Design notes: blocks may be listed more than once, and edges may be there twice, as the
check of a list allows both.
-/
import Mathlib.Data.List.Nodup
import KernelIntervals.Proofs.Severed
import KernelIntervals.Proofs.Verified

namespace KernelIntervals

open Function

/-- Some blocks of a graph. -/
structure Program where
  graph : FlowGraph
  blocks : List BlockId

/-- The blocks that were made since `g`, in the order in which they were made. -/
def FlowGraph.created (g g' : FlowGraph) : List BlockId :=
  List.range' g.blocks.size (g'.blocks.size - g.blocks.size)

/-- No listed block has an edge twice. -/
def DuplicateFree (g : FlowGraph) (listed : List BlockId) : Prop :=
  ∀ n ∈ listed, (g.preds .block n).Nodup ∧ (g.succs .block n).Nodup

/-- The program `p` has become `p'`: its blocks are well formed still, and followed by those
that were made. -/
structure Upheld (p p' : Program) : Prop where
  wellFormed : WellFormed p'.graph p'.blocks
  size_le : p.graph.blocks.size ≤ p'.graph.blocks.size
  blocks : p'.blocks = p.blocks ++ p.graph.created p'.graph
  duplicateFree : DuplicateFree p.graph p.blocks → DuplicateFree p'.graph p'.blocks

variable {g g' : FlowGraph} {listed : List BlockId} {p p₁ p' : Program} {head n : BlockId}
  {b : Block} {place : Nat} {running : RegSet} {name : String}

theorem FlowGraph.created_eq_nil (h : g'.blocks.size = g.blocks.size) : g.created g' = [] := by
  rw [created, h, Nat.sub_self]
  rfl

theorem FlowGraph.created_eq_singleton (h : g'.blocks.size = g.blocks.size + 1) :
    g.created g' = [g.blocks.size] := by
  rw [created, h, Nat.add_sub_cancel_left]
  rfl

/-- What was made is made in two parts, one after the other. -/
theorem FlowGraph.created_append {g₁ : FlowGraph} (h : g.blocks.size ≤ g₁.blocks.size)
    (h' : g₁.blocks.size ≤ g'.blocks.size) : g.created g₁ ++ g₁.created g' = g.created g' := by
  have hstart : g₁.blocks.size = g.blocks.size + (g₁.blocks.size - g.blocks.size) := by omega
  have hcount : g'.blocks.size - g.blocks.size =
      (g₁.blocks.size - g.blocks.size) + (g'.blocks.size - g₁.blocks.size) := by omega
  rw [created, created, created, hcount, ← List.range'_append_1, ← hstart]

theorem Upheld.refl (h : WellFormed p.graph p.blocks) : Upheld p p :=
  ⟨h, Nat.le_refl _, by rw [FlowGraph.created_eq_nil rfl, List.append_nil], id⟩

theorem Upheld.trans (h : Upheld p p₁) (h' : Upheld p₁ p') : Upheld p p' where
  wellFormed := h'.wellFormed
  size_le := Nat.le_trans h.size_le h'.size_le
  blocks := by
    rw [h'.blocks, h.blocks, List.append_assoc, FlowGraph.created_append h.size_le h'.size_le]
  duplicateFree := h'.duplicateFree ∘ h.duplicateFree

namespace WellFormed

variable (h : WellFormed g listed)

include h

theorem exists_block (hn : n ∈ listed) : ∃ b, g.block? n = some b :=
  Arena.exists_get? (h.exist n hn)

theorem succs_lt (hn : n ∈ listed) (hb : g.block? n = some b) :
    ∀ s ∈ b.succs, s < g.blocks.size := by
  intro s hs
  have hsuccs : g.succs .block n = b.succs := FlowGraph.see_of_block? hb _ _
  rw [← hsuccs] at hs
  exact h.exist s (h.closed.succ_mem hn hs)

theorem size_not_mem : g.blocks.size ∉ listed := fun hmem => Nat.lt_irrefl _ (h.exist _ hmem)

/-! ### Frames are left alone -/

theorem upheld_of_frame (hsize : g'.blocks.size = g.blocks.size) (hframe : g'.frame? = g.frame?) :
    Upheld ⟨g, listed⟩ ⟨g', listed⟩ where
  wellFormed := h.congr hframe
  size_le := Nat.le_of_eq hsize.symm
  blocks := by rw [FlowGraph.created_eq_nil hsize, List.append_nil]
  duplicateFree := by
    intro hfree n hn
    rw [FlowGraph.preds_eq_frame?, FlowGraph.succs_eq_frame?, hframe, ← FlowGraph.preds_eq_frame?,
      ← FlowGraph.succs_eq_frame?]
    exact hfree n hn

end WellFormed

/-! ### An edge is added -/

/-- The net with an edge between two nodes, recorded at both ends. -/
def Net.link (net : Net) (a b : Nat) : Net where
  nodes := net.nodes
  preds := update net.preds b (addNew (net.preds b) a)
  succs := update net.succs a (addNew (net.succs a) b)

section Link

variable {net : Net} {a b x y : Nat}

theorem Net.mem_succs_link : y ∈ (net.link a b).succs x ↔ y ∈ net.succs x ∨ x = a ∧ y = b := by
  by_cases hx : x = a
  · subst hx
    simp [link]
  · simp [link, hx]

theorem Net.mem_preds_link : y ∈ (net.link a b).preds x ↔ y ∈ net.preds x ∨ x = b ∧ y = a := by
  by_cases hx : x = b
  · subst hx
    simp [link]
  · simp [link, hx]

theorem Net.closed_link (hc : net.Closed) (ha : a ∈ net.nodes) (hb : b ∈ net.nodes) :
    (net.link a b).Closed where
  succ_mem := by
    intro n s hn hs
    rcases mem_succs_link.mp hs with hs | ⟨_, rfl⟩
    · exact hc.succ_mem hn hs
    · exact hb
  mem_preds := by
    intro n s hn hs
    rw [mem_preds_link]
    exact (mem_succs_link.mp hs).imp (hc.mem_preds hn) And.symm
  pred_mem := by
    intro n p hn hp
    rcases mem_preds_link.mp hp with hp | ⟨_, rfl⟩
    · exact hc.pred_mem hn hp
    · exact ha
  mem_succs := by
    intro n p hn hp
    rw [mem_succs_link]
    exact (mem_preds_link.mp hp).imp (hc.mem_succs hn) And.symm

end Link

theorem FlowGraph.see_modifyBlock_self {α : Type} {π : Node → α} {default : α} {f : Block → Block}
    (hb : g.block? n = some b) :
    (g.modifyBlock n f).see .block π default n = π (f b).toNode := by
  rw [see_block, block?_modifyBlock, if_pos rfl, hb]
  rfl

/-- Seen as a net, a graph with an edge more is a net with an edge more. -/
theorem FlowGraph.net_link {s t : BlockId} (hs : s < g.extent .block) (ht : t < g.extent .block)
    (nodes : List BlockId) : (g.link s t).net .block nodes = (g.net .block nodes).link s t := by
  obtain ⟨source, hsource⟩ : ∃ b, g.block? s = some b := Arena.exists_get? hs
  obtain ⟨target, htarget⟩ : ∃ b, (g.modifyBlock s (·.addSucc t)).block? t = some b :=
    Arena.exists_get? (Nat.lt_of_lt_of_eq ht (extent_modifyBlock _).symm)
  have hpreds : (g.link s t).preds .block = update (g.preds .block) t
      (addNew (g.preds .block t) s) := by
    have hkeep : (g.modifyBlock s (·.addSucc t)).preds .block = g.preds .block :=
      see_modifyBlock fun _ => rfl
    funext x
    by_cases hx : x = t
    · rw [hx, update_self, ← hkeep, preds, link, see_modifyBlock_self htarget, preds,
        see_of_block? htarget]
      rfl
    · rw [update_of_ne hx, ← hkeep]
      exact see_modifyBlock_of_ne (Ne.symm hx)
  have hsuccs : (g.link s t).succs .block = update (g.succs .block) s
      (addNew (g.succs .block s) t) := by
    have hkeep : (g.link s t).succs .block = (g.modifyBlock s (·.addSucc t)).succs .block :=
      see_modifyBlock fun _ => rfl
    rw [hkeep]
    funext x
    by_cases hx : x = s
    · rw [hx, update_self, succs, see_modifyBlock_self hsource, succs, see_of_block? hsource]
      rfl
    · rw [update_of_ne hx]
      exact see_modifyBlock_of_ne (Ne.symm hx)
  rw [net, hpreds, hsuccs]
  rfl

theorem FlowGraph.IsControlling.modifyBlock {f : Block → Block} {c : BlockId}
    (h : g.IsControlling c) (hf : ∀ b, (f b).controlling = b.controlling) :
    (g.modifyBlock n f).IsControlling c := by
  obtain ⟨b, hb, hcontrolling⟩ := h
  by_cases hnc : n = c
  · refine ⟨f b, ?_, (hf b).trans hcontrolling⟩
    rw [block?_modifyBlock, if_pos hnc, hb]
    rfl
  · refine ⟨b, ?_, hcontrolling⟩
    rw [block?_modifyBlock, if_neg hnc, hb]

/-- An edge may be added between listed blocks. -/
theorem WellFormed.upheld_link (h : WellFormed g listed) {s t : BlockId} (hs : s ∈ listed)
    (ht : t ∈ listed) : Upheld ⟨g, listed⟩ ⟨g.link s t, listed⟩ := by
  have hnet := FlowGraph.net_link (h.exist s hs) (h.exist t ht) listed
  have hsize : (g.link s t).blocks.size = g.blocks.size :=
    (Arena.size_modify ..).trans (Arena.size_modify ..)
  have hlinks : (g.link s t).links = g.links := by
    rw [FlowGraph.link, FlowGraph.links_modifyBlock, FlowGraph.links_modifyBlock] <;>
      exact fun _ => rfl
  refine ⟨⟨fun n hn => ?_, ?_, fun n hn c hc => ?_⟩, Nat.le_of_eq hsize.symm, ?_, ?_⟩
  · show n < (g.link s t).blocks.size
    rw [hsize]
    exact h.exist n hn
  · rw [hnet]
    exact Net.closed_link h.closed hs ht
  · rw [hlinks] at hc
    rw [FlowGraph.link]
    refine FlowGraph.IsControlling.modifyBlock ?_ fun _ => rfl
    exact (h.guarded n hn c hc).modifyBlock fun _ => rfl
  · rw [FlowGraph.created_eq_nil hsize, List.append_nil]
  · intro hfree n hn
    obtain ⟨hpreds, hsuccs⟩ := hfree n hn
    show (((g.link s t).net .block listed).preds n).Nodup ∧
      (((g.link s t).net .block listed).succs n).Nodup
    rw [hnet]
    constructor
    · show (update (g.preds .block) t (addNew (g.preds .block t) s) n).Nodup
      by_cases hnt : n = t
      · rw [hnt, update_self]
        exact nodup_addNew (hnt ▸ hpreds)
      · rw [update_of_ne hnt]
        exact hpreds
    · show (update (g.succs .block) s (addNew (g.succs .block s) t) n).Nodup
      by_cases hns : n = s
      · rw [hns, update_self]
        exact nodup_addNew (hns ▸ hsuccs)
      · rw [update_of_ne hns]
        exact hsuccs

/-! ### A block is cut -/

/-- Entries that are redirected to a node that is not there stay different. -/
theorem nodup_redirect {xs : List Nat} {old new : Nat} (h : xs.Nodup) (hnew : new ∉ xs) :
    (xs.map fun x => if x = old then new else x).Nodup := by
  refine h.map_on fun x hx y hy heq => ?_
  by_cases hxo : x = old <;> by_cases hyo : y = old
  · rw [hxo, hyo]
  · rw [if_pos hxo, if_neg hyo] at heq
    exact absurd (heq ▸ hy) hnew
  · rw [if_neg hxo, if_pos hyo] at heq
    exact absurd (heq ▸ hx) hnew
  · rwa [if_neg hxo, if_neg hyo] at heq

/-- A cut of a net makes no edge twice that was there once. -/
theorem Net.nodup_cut {net : Net} {head tail : Nat} {x : Nat}
    (hfresh : x ≠ tail → tail ∉ net.preds x) (hpreds : x ≠ tail → (net.preds x).Nodup)
    (hsuccs : x ≠ tail → (net.succs x).Nodup) (hhead : (net.succs head).Nodup) :
    ((net.cut head tail).preds x).Nodup ∧ ((net.cut head tail).succs x).Nodup := by
  by_cases hxt : x = tail
  · rw [hxt, preds_cut_tail, succs_cut_tail]
    exact ⟨List.nodup_singleton head, hhead⟩
  · constructor
    · show (if x = tail then _ else if x ∈ net.succs head then _ else _ : List Nat).Nodup
      rw [if_neg hxt]
      split
      · exact nodup_redirect (hpreds hxt) (hfresh hxt)
      · exact hpreds hxt
    · by_cases hxh : x = head
      · rw [hxh, succs_cut_head (hxh ▸ hxt)]
        exact List.nodup_singleton tail
      · rw [succs_cut_of_ne hxt hxh]
        exact hsuccs hxt

namespace Severed

variable (hg : Severed g head b place running name g')

include hg

/-- A cut leaves controlling blocks as they are. -/
theorem isControlling (hb : g.block? head = some b) {c : BlockId} (h : g.IsControlling c) :
    g'.IsControlling c := by
  obtain ⟨d, hd, hcontrolling⟩ := h
  have hct : c ≠ g.blocks.size := Nat.ne_of_lt (Arena.lt_size_of_get? hd)
  by_cases hch : c = head
  · subst hch
    obtain rfl : b = d := Option.some.inj (hb.symm.trans hd)
    refine ⟨_, hg.head_eq, ?_⟩
    split <;> exact hcontrolling
  · refine ⟨if c ∈ b.succs then d.replacePred head g.blocks.size else d, ?_, ?_⟩
    · rw [hg.other_eq c hch hct, hd]
      rfl
    · split <;> exact hcontrolling

/-- The tail takes the controlling block of the head, which has none then. -/
theorem guarded (hb : g.block? head = some b) (h : WellFormed g listed) (hhead : head ∈ listed)
    (hn : n ∈ listed ++ [g.blocks.size]) {c : BlockId} (hc : (g'.links n).control = some c) :
    g.IsControlling c := by
  by_cases hnt : n = g.blocks.size
  · rw [hnt, hg.links_tail, ← FlowGraph.links_of_block? hb] at hc
    exact h.guarded head hhead c hc
  · by_cases hnh : n = head
    · rw [hnh, hg.links_head] at hc
      injection hc
    · rw [hg.links_of_ne hnh hnt] at hc
      exact h.guarded n (Net.mem_of_ne_last hn hnt) c hc

end Severed

/-- A listed block may be cut; its tail is listed then. -/
theorem WellFormed.upheld_severed (h : WellFormed g listed) (hb : g.block? head = some b)
    (hhead : head ∈ listed) (hg : Severed g head b place running name g') :
    Upheld ⟨g, listed⟩ ⟨g', listed ++ [g.blocks.size]⟩ := by
  have hsuccs : g.succs .block head = b.succs := FlowGraph.see_of_block? hb _ _
  have hfresh : ∀ n ∈ listed, g.blocks.size ∉ g.preds .block n :=
    fun n hn hp => h.size_not_mem (h.closed.pred_mem hn hp)
  have hnet : g'.net .block (listed ++ [g.blocks.size]) =
      (g.net .block listed).cut head g.blocks.size :=
    hg.net hb listed fun s hs =>
      hfresh s (h.closed.succ_mem hhead (hsuccs ▸ hs : s ∈ g.succs .block head))
  refine ⟨⟨fun n hn => ?_, ?_, fun n hn c hc => ?_⟩, ?_, ?_, ?_⟩
  · rcases List.mem_append.mp hn with hn | hn
    · exact Nat.lt_trans (h.exist n hn) hg.size_lt
    · exact List.mem_singleton.mp hn ▸ hg.size_lt
  · rw [hnet]
    exact Net.closed_cut h.closed hhead h.size_not_mem
  · exact hg.isControlling hb (hg.guarded hb h hhead hn hc)
  · exact Nat.le_of_lt hg.size_lt
  · rw [FlowGraph.created_eq_singleton hg.size]
  · intro hfree n hn
    have hlisted : n ≠ g.blocks.size → n ∈ listed := Net.mem_of_ne_last hn
    show ((g'.net .block (listed ++ [g.blocks.size])).preds n).Nodup ∧
      ((g'.net .block (listed ++ [g.blocks.size])).succs n).Nodup
    rw [hnet]
    exact Net.nodup_cut (fun hne => hfresh n (hlisted hne)) (fun hne => (hfree n (hlisted hne)).1)
      (fun hne => (hfree n (hlisted hne)).2) (hfree head hhead).2

end KernelIntervals
