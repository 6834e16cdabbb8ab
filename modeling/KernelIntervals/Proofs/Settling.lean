/-
A pass stays under way when it settles a block.

* `Underway.severed` — a block may be cut if none behind it is in its region, the
  opener apart,
* `Underway.settled` — the same for what a pass does when it settles a block,
* `Underway.settled_opener`, `Underway.settled_joined` — the two blocks that a pass
  settles: one that is alone in its region, and one that has just joined,
* `Sound.settled_opener`, `Sound.settled_joined` — the same without the openers.

Design notes: a block that joins was in no region before, so it is before none
that has joined earlier. Once it is in, that is no longer to be seen, which is why
joining and settling are taken together.
-/
import KernelIntervals.Proofs.Growth
import KernelIntervals.Proofs.Severed

namespace KernelIntervals

open Function

variable {base : Nat} {current : Option IntervalId} {opener : IntervalId → Nat}
  {w w' : Workspace} {budget place : Nat} {running : RegSet} {name : String} {g' : FlowGraph}
  {log : Log} {head n : BlockId} {b : Block} {i : IntervalId}

/-! ### Blocks of a closed net -/

namespace Underway

variable (h : Underway .block base current opener w)

include h

theorem exists_block (hn : n ∈ w.members) : ∃ b, w.graph.block? n = some b :=
  Arena.exists_get? (h.exists_node n hn)

theorem succs_lt (hn : n ∈ w.members) (hb : w.graph.block? n = some b) :
    ∀ s ∈ b.succs, s < w.graph.blocks.size := by
  intro s hs
  have hsuccs : w.graph.succs .block n = b.succs := FlowGraph.see_of_block? hb _ _
  exact (h.exists_succ hn (hsuccs ▸ hs)).2

/-- The number of the next block is new. -/
theorem size_not_mem : w.graph.blocks.size ∉ w.members := fun hmem =>
  Nat.lt_irrefl _ (h.exists_node _ hmem)

omit h in
theorem owner_size : w.graph.owner .block w.graph.blocks.size = none :=
  FlowGraph.see_eq_default (show w.graph.extent .block ≤ w.graph.blocks.size from Nat.le_refl _) _ _

theorem net_severed (hb : w.graph.block? head = some b) (hhead : head ∈ w.members)
    (hg : Severed w.graph head b place running name g') :
    g'.net .block (w.members ++ [w.graph.blocks.size]) =
      (w.net .block).cut head w.graph.blocks.size := by
  refine hg.net hb w.members fun s hs hpred => ?_
  have hsuccs : w.graph.succs .block head = b.succs := FlowGraph.see_of_block? hb _ _
  exact h.size_not_mem (h.exists_pred (h.exists_succ hhead (hsuccs ▸ hs)).1 hpred).1

end Underway

/-! ### A block is cut -/

/-- A block of the region of the current visit may be cut if none behind it is in
its region, the opener apart. -/
theorem Underway.severed (log : Log) (h : Underway .block base (some i) opener w)
    (hb : w.graph.block? head = some b) (hhead : head ∈ w.members)
    (hown : w.graph.owner .block head = some i)
    (hbehind : ∀ x ∈ w.members, head ∈ w.graph.preds .block x → ∀ j,
      w.graph.owner .block x = some j → x = opener j)
    (hg : Severed w.graph head b place running name g') :
    Underway .block base (some i) opener
      { w with graph := g', log, members := w.members ++ [w.graph.blocks.size] } := by
  have hnet := h.net_severed hb hhead hg
  have howner := hg.owner hb
  refine ⟨?_, ?_, ?_, ?_, ?_, ?_, ?_, ?_, ?_, ?_, ?_⟩
  · intro m hm
    show m < g'.blocks.size
    rw [hg.size]
    rcases List.mem_append.mp hm with hm | hm
    · have hlt : m < w.graph.blocks.size := h.exists_node m hm
      omega
    · rw [List.mem_singleton.mp hm]
      omega
  · exact List.nodup_append.mpr ⟨h.nodup, List.pairwise_singleton _ _,
      fun a ha b hb => List.mem_singleton.mp hb ▸ ne_of_mem_of_not_mem ha h.size_not_mem⟩
  · show (g'.net .block (w.members ++ [w.graph.blocks.size])).Closed
    rw [hnet]
    exact Net.closed_cut h.closed hhead h.size_not_mem
  · show Grouped (g'.net .block (w.members ++ [w.graph.blocks.size])) (g'.owner .block) _ _
    rw [hnet, howner]
    exact h.grouped.cut h.closed hhead h.size_not_mem owner_size hbehind
  · show Waiting (g'.net .block (w.members ++ [w.graph.blocks.size])) (g'.owner .block) _
    rw [hnet, howner]
    exact h.waiting.cut owner_size
  · have hbusy : Workspace.Busy { w with graph := g', log, members := w.members ++
        [w.graph.blocks.size] } .block (some i) = w.Busy .block (some i) := by
      funext j
      rw [Workspace.Busy, Workspace.Busy, howner]
    show Covers (g'.net .block (w.members ++ [w.graph.blocks.size])) (g'.owner .block) _
    rw [hbusy, hnet, howner]
    refine h.covers.cut owner_size fun j hj => .inl ?_
    rw [← hown, hj]
  · show ∀ j, some i = some j → j ∈ w.opened ∧ ∀ m ∈ w.worklist, g'.owner .block m ≠ some j
    rw [howner]
    exact h.idle
  · show ∀ j ∈ w.opened, base ≤ j ∧ j < g'.intervals.size
    rw [hg.intervals]
    exact h.opened_range
  · show base ≤ g'.intervals.size
    rw [hg.intervals]
    exact h.base_le
  · intro hl
    injection hl
  · intro j hj
    show g'.preds .interval j = [] ∧ g'.succs .interval j = []
    rw [FlowGraph.preds, FlowGraph.succs, hg.see_interval, hg.see_interval]
    exact h.blank j hj

theorem Seeded.severed (h : Seeded .block w) (hu : Underway .block base current opener w)
    (hb : w.graph.block? head = some b) (hhead : head ∈ w.members)
    (hg : Severed w.graph head b place running name g') :
    Seeded .block { w with graph := g', log, members := w.members ++ [w.graph.blocks.size] } := by
  intro r hr
  rw [Workspace.net, hu.net_severed hb hhead hg, Net.isEntry_cut hu.size_not_mem] at hr
  show g'.owner .block r ≠ none
  rw [hg.owner hb]
  exact h r hr

/-- Cutting a block is a change of the regions. -/
theorem Underway.grows_severed (log : Log) (h : Underway .block base (some i) opener w)
    (hb : w.graph.block? head = some b) (hhead : head ∈ w.members)
    (hbehind : ∀ x ∈ w.members, head ∈ w.graph.preds .block x → ∀ j,
      w.graph.owner .block x = some j → x = opener j)
    (hg : Severed w.graph head b place running name g') :
    Growth (w.regions .block opener) (Workspace.regions
      { w with graph := g', log, members := w.members ++ [w.graph.blocks.size] }
      .block opener) := by
  have hregions : Workspace.regions
      { w with graph := g', log, members := w.members ++ [w.graph.blocks.size] } .block opener =
      ⟨(w.net .block).cut head w.graph.blocks.size, w.graph.owner .block, opener, w.opened⟩ := by
    rw [← h.net_severed hb hhead hg, ← hg.owner hb]
    rfl
  rw [hregions]
  exact .cut hhead h.size_not_mem owner_size hbehind

/-! ### A block is settled -/

theorem alike_whole (w : Workspace) (n : BlockId) (regs : RegSet) :
    Alike .block w { w with graph := w.graph.modifyBlock n ({ · with outputs := regs }) } where
  members := rfl
  opened := rfl
  worklist := rfl
  extent := funext fun _ => FlowGraph.extent_modifyBlock _
  preds := funext fun _ => FlowGraph.see_modifyBlock fun _ => rfl
  succs := funext fun _ => FlowGraph.see_modifyBlock fun _ => rfl
  owner := FlowGraph.see_modifyBlock fun _ => rfl

/-- A block of the region of the current visit may be settled if none behind it is
in its region, the opener apart. -/
theorem Underway.settled (h : Underway .block base (some i) opener w) (hs : Seeded .block w)
    (hb : w.graph.block? n = some b) (hn : n ∈ w.members)
    (hown : w.graph.owner .block n = some i)
    (hbehind : ∀ x ∈ w.members, n ∈ w.graph.preds .block x → ∀ j,
      w.graph.owner .block x = some j → x = opener j)
    (hset : Settled budget n b w w') : GoesOn .block base opener w (some i) w' := by
  cases hset with
  | whole => exact (h.goesOn hs).alike (alike_whole w n _)
  | @parted place name g' log hplace hg =>
    have hcut : GoesOn .block base opener w (some i)
        { w with graph := g', log, members := w.members ++ [w.graph.blocks.size] } :=
      ⟨⟨opener, h.severed log hb hn hown hbehind hg,
        .single (h.grows_severed log hb hn hbehind hg)⟩, hs.severed h hb hn hg⟩
    refine hcut.openGroup (List.mem_append_right _ (List.mem_singleton_self _)) hg.owner_tail ?_
    show (g'.net .block (w.members ++ [w.graph.blocks.size])).Reachable w.graph.blocks.size
    rw [h.net_severed hb hn hg, Net.reachable_cut_tail h.closed hn h.size_not_mem]
    exact h.grouped.reachable hn hown

/-- A block that is alone in its region may be settled. -/
theorem Underway.settled_opener (h : Underway .block base (some i) opener w)
    (hs : Seeded .block w) (hb : w.graph.block? n = some b)
    (hn : n ∈ w.members) (hown : w.graph.owner .block n = some i)
    (halone : ∀ m ∈ w.members, w.graph.owner .block m = some i → m = n)
    (hset : Settled budget n b w w') : GoesOn .block base opener w (some i) w' := by
  refine h.settled hs hb hn hown (fun x hx hpred j hxj => ?_) hset
  -- A block behind this one that did not open its region is in the region of this one.
  by_contra hne
  have hnj : w.graph.owner .block n = some j := h.grouped.owner_pred hx hxj hne hpred
  have hij : i = j := Option.some.inj (hown.symm.trans hnj)
  subst hij
  have hopener : opener i = n := halone _ (h.grouped.opener_mem (h.idle i rfl).1)
    (h.grouped.owner_opener (h.idle i rfl).1)
  exact hne ((halone x hx hxj).trans hopener.symm)

/-- A free block may join the region of the current visit, and be settled in it, if
its predecessors are all in the region. -/
theorem Underway.settled_joined (h : Underway .block base (some i) opener w)
    (hs : Seeded .block w) (hn : n ∈ w.members)
    (hfree : w.graph.owner .block n = none)
    (hpreds : ∀ p ∈ w.graph.preds .block n, w.graph.owner .block p = some i)
    (ha : Alike .block (w.assign .block n i) w') (hb : w'.graph.block? n = some b)
    {w'' : Workspace} (hset : Settled budget n b w' w'') :
    GoesOn .block base opener w (some i) w'' := by
  have hlt := h.exists_node n hn
  have hne := hs.preds_ne_nil hn hfree
  have howner : w'.graph.owner .block = update (w.graph.owner .block) n (some i) := by
    rw [ha.owner]
    exact FlowGraph.owner_assign _ hlt
  have hpredsOf : w'.graph.preds .block = w.graph.preds .block := by
    rw [ha.preds]
    show (w.graph.assign .block n (some i)).preds .block = _
    rw [FlowGraph.preds_assign]
  have hjoin : Growth (w.regions .block opener) (w'.regions .block opener) :=
    ha.regions ▸ h.grows_assign hn hfree hne hpreds
  refine GoesOn.after ?_ (.single hjoin)
  refine ((h.assign hn hfree hne hpreds).alike ha).settled ((hs.assign hlt).alike ha) hb
    (ha.members ▸ hn) ?_ (fun x hx hpred j hxj => ?_) hset
  · rw [howner, update_self]
  · rw [ha.members] at hx
    rw [hpredsOf] at hpred
    rw [howner] at hxj
    by_contra hne
    by_cases hxn : x = n
    · -- A block before itself would have had an owner.
      rw [hxn] at hpred
      exact ne_of_owner hfree (hpreds n hpred) rfl
    · rw [update_of_ne hxn] at hxj
      exact ne_of_owner hfree (h.grouped.owner_pred hx hxj hne hpred) rfl

theorem Sound.settled_opener (h : Sound .block base (some i) w) (hb : w.graph.block? n = some b)
    (hn : n ∈ w.members) (hown : w.graph.owner .block n = some i)
    (halone : ∀ m ∈ w.members, w.graph.owner .block m = some i → m = n)
    (hset : Settled budget n b w w') : Sound .block base (some i) w' := by
  obtain ⟨⟨opener, hu⟩, hs⟩ := h
  exact (hu.settled_opener hs hb hn hown halone hset).sound

theorem Sound.settled_joined (h : Sound .block base (some i) w) (hn : n ∈ w.members)
    (hfree : w.graph.owner .block n = none)
    (hpreds : ∀ p ∈ w.graph.preds .block n, w.graph.owner .block p = some i)
    (ha : Alike .block (w.assign .block n i) w') (hb : w'.graph.block? n = some b)
    {w'' : Workspace} (hset : Settled budget n b w' w'') : Sound .block base (some i) w'' := by
  obtain ⟨⟨opener, hu⟩, hs⟩ := h
  exact (hu.settled_joined hs hn hfree hpreds ha hb hset).sound

end KernelIntervals
