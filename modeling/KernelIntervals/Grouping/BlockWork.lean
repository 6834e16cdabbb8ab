/-
The work left in the first pass.

* `Block.work` — the visits that a block can still cause,
* `blockWork` — the work left in a workspace,
* `split_work_le` — a split adds no work,
* `visitBlock_work_le` — a visit adds no work.

A block that is a member of no interval can be opened once, and a block of `k`
instructions can be split at most `k - 1` times, each time into two blocks of
which the second one is opened. As each opening costs a visit, every one of these
counts twice, and a waiting block counts once.
-/
import KernelIntervals.Flow.EditLemmas
import KernelIntervals.Grouping.BlockVisit
import KernelIntervals.Grouping.Respects

namespace KernelIntervals

/-- The work that a block can still cause. -/
def Block.work (b : Block) : Nat :=
  2 * (b.insts.length - 1) + if b.interval.isNone then 2 else 0

/-- The work that the blocks of a graph can still cause. -/
def FlowGraph.work (g : FlowGraph) : Nat :=
  total Block.work g.blocks.entries.toList

/-- The work left in the first pass. -/
def blockWork (w : Workspace) : Nat :=
  w.graph.work + w.worklist.length

/-! ### Work and changes of a graph -/

namespace FlowGraph

theorem work_modifyBlock {g : FlowGraph} {n : BlockId} {b : Block} (f : Block → Block)
    (h : g.block? n = some b) : (g.modifyBlock n f).work + b.work = g.work + (f b).work := by
  simp only [work, modifyBlock, Arena.modify, Array.toList_modify]
  apply total_modify
  simpa [block?, Arena.get?] using h

theorem work_modifyBlock_le {g : FlowGraph} {n : BlockId} {f : Block → Block}
    (h : ∀ b, (f b).work ≤ b.work) : (g.modifyBlock n f).work ≤ g.work := by
  cases hn : g.block? n with
  | none =>
    have hle := Arena.get?_eq_none_iff.mp hn
    simp only [Arena.size] at hle
    simp [work, modifyBlock, Arena.modify, Array.toList_modify, List.modify_eq_self, hle]
  | some b =>
    have := work_modifyBlock f hn
    have := h b
    omega

theorem work_addBlock (g : FlowGraph) (b : Block) : (g.addBlock b).work = g.work + b.work := by
  simp [work, addBlock, Arena.alloc]

theorem work_assign_some_le (g : FlowGraph) (n : BlockId) (i : IntervalId) :
    (g.assign .block n (some i)).work ≤ g.work :=
  work_modifyBlock_le fun b => by simp [Block.work]

end FlowGraph

/-- Redirecting predecessor entries causes no work. -/
theorem redirect_work_le {old new : BlockId} {succs : List BlockId} {g g' : FlowGraph} {a : Unit}
    (h : succs.forM (fun s => Edit.updateBlock s (·.replacePred old new)) g = .ok a g') :
    g'.work ≤ g.work := by
  induction succs generalizing g with
  | nil =>
    obtain ⟨_, rfl⟩ := pure_eq_ok h
    exact Nat.le_refl _
  | cons s succs ih =>
    obtain ⟨_, g₁, hs, h⟩ := bind_eq_ok h
    obtain ⟨rfl, _⟩ := Edit.updateBlock_eq_ok hs
    exact Nat.le_trans (ih h) (FlowGraph.work_modifyBlock_le fun b => Nat.le_refl _)

/-- Cutting a block moves work to the tail and adds none. -/
theorem cut_work_le {head : BlockId} {b b₀ : Block} {place : Nat} {running : RegSet}
    {g g' : FlowGraph} {r : Fragments} (hb : g.block? head = some b₀)
    (hinsts : b₀.insts = b.insts) (hpos : 0 < place) (hlt : place < b.insts.length)
    (h : Edit.cut head b place running g = .ok r g') : g'.work ≤ g.work := by
  obtain ⟨g₀, g₁, hget, h⟩ := bind_eq_ok h
  injection hget with h₀ h₁
  subst h₀ h₁
  obtain ⟨_, g₁, hhead, h⟩ := bind_eq_ok h
  obtain ⟨rfl, _⟩ := Edit.updateBlock_eq_ok hhead
  obtain ⟨tail, g₂, hnew, h⟩ := bind_eq_ok h
  obtain ⟨rfl, rfl⟩ := Edit.newBlock_eq_ok hnew
  obtain ⟨_, g₃, hsuccs, h⟩ := bind_eq_ok h
  obtain ⟨_, g₄, htail, h⟩ := bind_eq_ok h
  obtain ⟨rfl, _⟩ := Edit.updateBlock_eq_ok htail
  obtain ⟨_, g₅, hlast, h⟩ := bind_eq_ok h
  obtain ⟨rfl, _⟩ := Edit.updateBlock_eq_ok hlast
  obtain ⟨_, rfl⟩ := pure_eq_ok h
  refine Nat.le_trans (FlowGraph.work_modifyBlock_le fun b => Nat.le_refl _) ?_
  refine Nat.le_trans (FlowGraph.work_modifyBlock_le fun b => Nat.le_refl _) ?_
  refine Nat.le_trans (redirect_work_le hsuccs) ?_
  rw [FlowGraph.work_addBlock]
  have hcut := FlowGraph.work_modifyBlock (fun b => { b with insts := b.insts.take place }) hb
  simp only [Block.work, Block.ofInsts, hinsts, List.length_take, List.length_map,
    List.length_drop, Option.isNone_none, if_true] at hcut ⊢
  omega

/-- A split adds no work. -/
theorem split_work_le {budget : Nat} {head : BlockId} {g g' : FlowGraph}
    {r : Option Fragments} (h : Edit.split budget head g = .ok r g') : g'.work ≤ g.work := by
  obtain ⟨b, g₁, hquery, hrest⟩ := bind_eq_ok h
  obtain ⟨hb, rfl⟩ := Edit.query_eq_ok hquery
  generalize hpoint : splitPoint budget b.insts = point at hrest
  obtain ⟨place?, running⟩ := point
  obtain ⟨_, g₂, hhead, hrest⟩ := bind_eq_ok hrest
  obtain ⟨rfl, _⟩ := Edit.updateBlock_eq_ok hhead
  cases place? with
  | none =>
    obtain ⟨_, rfl⟩ := pure_eq_ok hrest
    exact FlowGraph.work_modifyBlock_le fun b => Nat.le_refl _
  | some place =>
    obtain ⟨f, g₃, hcut, hpure⟩ := bind_eq_ok hrest
    obtain ⟨_, rfl⟩ := pure_eq_ok hpure
    have hbounds := splitPoint_bounds hpoint
    have hb' : (g₁.modifyBlock head fun b => { b with outputs := running }).block? head =
        some { b with outputs := running } := by simp [hb]
    exact Nat.le_trans (cut_work_le hb' rfl hbounds.1 hbounds.2 hcut)
      (FlowGraph.work_modifyBlock_le fun b => Nat.le_refl _)

/-! ### Work and the steps of the pass -/

/-- No step adds work. -/
def noMoreBlockWork : Evolution where
  Rel w w' := blockWork w' ≤ blockWork w
  refl _ := Nat.le_refl _
  trans h₁ h₂ := Nat.le_trans h₂ h₁

namespace Pass

/-- Opening an interval turns an opening still to come into a visit. -/
theorem openGroup_work_le {w : Workspace} {n : BlockId}
    (h : w.graph.unowned? .block n = some true) :
    blockWork (w.openGroup .block n) ≤ blockWork w := by
  obtain ⟨node, hnode, hfree⟩ := Option.map_eq_some_iff.mp h
  obtain ⟨b, hb, rfl⟩ := Option.map_eq_some_iff.mp hnode
  have hassign := FlowGraph.work_modifyBlock (g := w.graph.addInterval {})
    (fun b => { b with interval := some w.graph.intervals.size, inputs := ∅ }) hb
  simp only [Block.toNode] at hfree
  simp only [Block.work, hfree, if_true, Option.isNone_some, Bool.false_eq_true, if_false]
    at hassign
  have hadd : (w.graph.addInterval {}).work = w.graph.work := rfl
  simp only [blockWork, Workspace.openGroup, FlowGraph.assign, List.length_append,
    List.length_singleton]
  omega

theorem openFree_work_le (n : BlockId) : Respects noMoreBlockWork (openFree .block n) := by
  intro w a w' h
  obtain ⟨free, w₁, hquery, h⟩ := bind_eq_ok h
  obtain ⟨hfree, rfl⟩ := query_eq_ok hquery
  cases free with
  | false =>
    obtain ⟨_, rfl⟩ := pure_eq_ok h
    exact Nat.le_refl _
  | true =>
    injection h with _ h
    exact h ▸ openGroup_work_le hfree

theorem report_work_le (event : Event) : Respects noMoreBlockWork (report event) :=
  respects_modify fun _ => Nat.le_refl _

theorem settle_work_le (budget : Nat) (n : BlockId) :
    Respects noMoreBlockWork (settle budget n) := by
  refine respects_bind (respects_edit fun w r g' h => ?_) fun r => ?_
  · have := split_work_le h
    simp only [noMoreBlockWork, blockWork]
    omega
  · cases r with
    | none => exact respects_pure ()
    | some f =>
      exact respects_bind (respects_forM fun event _ => report_work_le event) fun _ =>
        respects_bind (respects_modify fun _ => Nat.le_refl _) fun _ => openFree_work_le f.tail

theorem updateInterval_work_le (i : IntervalId) (f : Interval → Interval) :
    Respects noMoreBlockWork (edit (Edit.updateInterval i f)) :=
  respects_edit fun w a g' h => by
    obtain ⟨rfl, _⟩ := Edit.updateInterval_eq_ok h
    exact Nat.le_refl _

theorem syncRegs_work_le (i : IntervalId) : Respects noMoreBlockWork (syncRegs i) :=
  respects_bind (respects_survey _) fun _ => updateInterval_work_le i _

theorem admission_work_le (budget : Nat) (i : IntervalId) (n : BlockId) :
    Respects noMoreBlockWork (admission budget i n) := by
  refine respects_bind (respects_query _) fun node => respects_ite (respects_pure _) ?_
  refine respects_bind (respects_query _) fun inside => respects_ite (respects_pure _) ?_
  refine respects_bind (respects_markAncestors (fun _ _ => Nat.le_refl _) _ _) fun _ => ?_
  refine respects_bind (respects_survey _) fun above => respects_ite (respects_pure _) ?_
  exact respects_bind (respects_query _) fun interval =>
    respects_ite (respects_pure _) (respects_pure _)

theorem claim_work_le (i : IntervalId) (n : BlockId) (live : RegSet) (w : Workspace) :
    blockWork (w.claim i n live) ≤ blockWork w := by
  have h₁ := w.graph.work_assign_some_le n i
  have h₂ : ((w.graph.assign .block n (some i)).modifyBlock n ({ · with inputs := live })).work
      ≤ _ := FlowGraph.work_modifyBlock_le fun b => Nat.le_refl _
  simp only [blockWork, Workspace.claim]
  omega

theorem joinIfAdmitted_work_le (budget : Nat) (i : IntervalId) (n : BlockId) :
    Respects noMoreBlockWork (joinIfAdmitted budget i n) := by
  refine respects_bind (admission_work_le budget i n) fun live => ?_
  cases live with
  | none => exact respects_pure ()
  | some live =>
    exact respects_bind (respects_modify (claim_work_le i n live)) fun _ =>
      respects_bind (settle_work_le budget n) fun _ => syncRegs_work_le i

theorem grow_work_le (budget : Nat) (i : IntervalId) :
    Respects noMoreBlockWork (grow budget i) :=
  respects_bind respects_get fun _ =>
    respects_forM fun n _ => joinIfAdmitted_work_le budget i n

theorem openFrontier_work_le (i : IntervalId) :
    Respects noMoreBlockWork (openFrontier .block i) :=
  respects_bind (respects_survey _) fun _ => respects_forM fun n _ => openFree_work_le n

/-- A visit adds no work. -/
theorem visitBlock_work_le (budget : Nat) (n : BlockId) :
    Respects noMoreBlockWork (visitBlock budget n) := by
  refine respects_bind (respects_query _) fun b => ?_
  split
  next => exact respects_fail _
  next i _ =>
    refine respects_bind (settle_work_le budget n) fun _ => ?_
    refine respects_bind (syncRegs_work_le i) fun _ => ?_
    refine respects_bind (respects_query _) fun settled => ?_
    split
    · exact respects_bind (grow_work_le budget i) fun _ => openFrontier_work_le i
    · exact openFrontier_work_le i

end Pass

end KernelIntervals
