/-
The first pass with the footprint alone held against the budget.

* `Pass.footprintAdmission` — the admission of blocks without the test of their ancestors,
* `Pass.visitBlockIf` — a visit in which blocks are admitted in any way,
* `BlockGrouper.runByFootprint` — a run that admits them by the footprint,
* `Summed` — an interval has the registers of its members, and no others,
* `footprintAdmission_eq` — both admissions are the same for such an interval,
* `groupBlocksByFootprint_eq` — so are both passes, because the interval that is visited is
  summed whenever a block is looked at.

Design notes: the ancestors are still marked, as a block that joins is told the registers that
are live on its entry.
-/
import KernelIntervals.Proofs.FirstPass
import KernelIntervals.Proofs.IntervalMoves

namespace KernelIntervals

namespace Pass

/-- The registers live on entry to a block in an interval, if the interval has room for all
of the block. -/
def footprintAdmission (budget : Nat) (i : IntervalId) (n : BlockId) : Pass (Option RegSet) := do
  let node ← query (·.node? .block n)
  if node.owner.isSome then return none
  if !(← query fun g => node.preds.allM (g.ownedBy? .block i)) then return none
  markAncestors .block n
  let above ← survey fun w => w.graph.memberRegs? .block i w.marker.isMarked w.members
  let interval ← query (·.interval? i)
  if budget ≤ (interval.regs ∪ node.regs).size then return none
  return some (node.regs ∪ above)

section Visits

variable (grant : IntervalId → BlockId → Pass (Option RegSet)) (budget : Nat)

/-- Lets a block join an interval, if it is admitted. -/
def joinIf (i : IntervalId) (n : BlockId) : Pass Unit := do
  match ← grant i n with
  | none => return
  | some live =>
    modify (Workspace.claim i n live)
    settle budget n
    syncRegs i

/-- Lets the blocks that are admitted to an interval join it. -/
def growIf (i : IntervalId) : Pass Unit := do
  (← get).members.forM (joinIf grant budget i)

/-- Visits a waiting block; `grant` tells which blocks may join its interval. -/
def visitBlockIf (n : BlockId) : Pass Unit := do
  let b ← query (·.block? n)
  match b.interval with
  | none => fail (.malformed (.unownedBlock b.name))
  | some i =>
    settle budget n
    syncRegs i
    let settled ← query (·.block? n)
    if settled.outputs.size < budget then growIf grant budget i
    openFrontier .block i

end Visits

theorem visitBlockIf_admission (budget : Nat) :
    visitBlockIf (admission budget) budget = visitBlock budget := rfl

/-! ### The work left -/

theorem footprintAdmission_work_le (budget : Nat) (i : IntervalId) (n : BlockId) :
    Respects noMoreBlockWork (footprintAdmission budget i n) := by
  refine respects_bind (respects_query _) fun node => respects_ite (respects_pure _) ?_
  refine respects_bind (respects_query _) fun inside => respects_ite (respects_pure _) ?_
  refine respects_bind (respects_markAncestors (fun _ _ => Nat.le_refl _) _ _) fun _ => ?_
  exact respects_bind (respects_survey _) fun above => respects_bind (respects_query _)
    fun interval => respects_ite (respects_pure _) (respects_pure _)

variable {grant : IntervalId → BlockId → Pass (Option RegSet)}

theorem joinIf_work_le (hgrant : ∀ i n, Respects noMoreBlockWork (grant i n)) (budget : Nat)
    (i : IntervalId) (n : BlockId) : Respects noMoreBlockWork (joinIf grant budget i n) := by
  refine respects_bind (hgrant i n) fun live => ?_
  cases live with
  | none => exact respects_pure ()
  | some live =>
    exact respects_bind (respects_modify (claim_work_le i n live)) fun _ =>
      respects_bind (settle_work_le budget n) fun _ => syncRegs_work_le i

theorem visitBlockIf_work_le (hgrant : ∀ i n, Respects noMoreBlockWork (grant i n))
    (budget : Nat) (n : BlockId) : Respects noMoreBlockWork (visitBlockIf grant budget n) := by
  have hgrow : ∀ i, Respects noMoreBlockWork (growIf grant budget i) := fun i =>
    respects_bind respects_get fun _ => respects_forM fun n _ => joinIf_work_le hgrant budget i n
  refine respects_bind (respects_query _) fun b => ?_
  split
  next => exact respects_fail _
  next i _ =>
    refine respects_bind (settle_work_le budget n) fun _ => ?_
    refine respects_bind (syncRegs_work_le i) fun _ => ?_
    refine respects_bind (respects_query _) fun settled => ?_
    split
    · exact respects_bind (hgrow i) fun _ => openFrontier_work_le i
    · exact openFrontier_work_le i

end Pass

/-! ### The pass -/

theorem footprintBlockVisit_work_lt (budget : Nat) {n : BlockId} {rest : List BlockId}
    {w w' : Workspace} (hwork : w.worklist = n :: rest)
    (hvisit : Pass.visitBlockIf (Pass.footprintAdmission budget) budget n
      { w with worklist := rest } = .ok () w') : blockWork w' < blockWork w := by
  have hle := Pass.visitBlockIf_work_le (Pass.footprintAdmission_work_le budget) budget n hvisit
  simp only [noMoreBlockWork, blockWork] at hle ⊢
  rw [hwork, List.length_cons]
  omega

/-- The visits of the first pass by footprint. -/
def footprintBlockVisit (budget : Nat) : Visit where
  visit := Pass.visitBlockIf (Pass.footprintAdmission budget) budget
  work := blockWork
  work_lt := @footprintBlockVisit_work_lt budget

/-- Groups blocks into intervals by footprint. -/
def Pass.groupBlocksByFootprint (budget : Nat) (blocks : List BlockId) : Pass IntervalGraph := do
  if budget = 0 then fail .zeroBudget
  verifyBlocks blocks
  start .block blocks
  drain (footprintBlockVisit budget)
  complete .block budget
  let (grouped, intervals) ← finish
  report (.blocksGrouped grouped.length (grouped.length - blocks.length) intervals.length)
  return ⟨grouped, intervals⟩

/-- Groups some blocks by footprint. -/
def BlockGrouper.runByFootprint (p : BlockGrouper) (blocks : List BlockId) (state : LoggedGraph) :
    Outcome IntervalGraph :=
  .ofResult (Pass.groupBlocksByFootprint p.budget blocks (state.workspace p.scratch))

/-! ### Steps that are the same where they are used -/

section Congruence

variable {σ α β : Type} {s : σ}

theorem bind_congr_left {x y : EStateM Fault σ α} (f : α → EStateM Fault σ β) (h : x s = y s) :
    (x >>= f) s = (y >>= f) s := by
  show EStateM.bind x f s = EStateM.bind y f s
  rw [EStateM.bind, EStateM.bind, h]

/-- Steps need be the same only where the step before them leads to. -/
theorem bind_congr_of_eq_ok {x : EStateM Fault σ α} {f g : α → EStateM Fault σ β}
    (h : ∀ a s', x s = .ok a s' → f a s' = g a s') : (x >>= f) s = (x >>= g) s := by
  show EStateM.bind x f s = EStateM.bind x g s
  rw [EStateM.bind, EStateM.bind]
  cases hx : x s with
  | ok a s' => exact h a s' hx
  | error e s' => rfl

theorem Ends.bind_congr {x : EStateM Fault σ α} {f g : α → EStateM Fault σ β}
    (h : Ends x s fun a s' => f a s' = g a s') : (x >>= f) s = (x >>= g) s :=
  bind_congr_of_eq_ok fun _ _ => h.of_eq_ok

theorem forM_congr_of_ends {f g : α → EStateM Fault σ Unit} {P : σ → Prop} {xs : List α}
    (hstep : ∀ x ∈ xs, ∀ s, P s → f x s = g x s ∧ Ends (g x) s fun _ s' => P s') (h : P s) :
    xs.forM f s = xs.forM g s := by
  induction xs generalizing s with
  | nil => rfl
  | cons x xs ih =>
    obtain ⟨heq, hend⟩ := hstep x List.mem_cons_self s h
    refine (bind_congr_left (fun _ => xs.forM f) heq).trans ?_
    refine (hend.mono fun _ s' hs' => ?_).bind_congr
    exact ih (fun y hy => hstep y (List.mem_cons_of_mem x hy)) hs'

/-- Two loops are the same if their visits are, wherever one of them leads to. -/
theorem drain_congr_of_ends {v v' : Visit} {P : Workspace → Prop} {w : Workspace}
    (hstep : ∀ n rest w, w.worklist = n :: rest → P w →
      v.visit n { w with worklist := rest } = v'.visit n { w with worklist := rest } ∧
        Ends (v'.visit n) { w with worklist := rest } fun _ w' => P w')
    (h : P w) : drain v w = drain v' w := by
  fun_induction drain v' w with
  | case1 w hwork => exact drain_of_nil hwork
  | case2 w n rest hwork e w₁ hvisit =>
    obtain ⟨_, _, hok, _⟩ := (hstep n rest w hwork h).2
    rw [hvisit] at hok
    injection hok
  | case3 w n rest hwork w₁ hvisit _ ih =>
    obtain ⟨heq, hend⟩ := hstep n rest w hwork h
    rw [drain_of_cons hwork (heq.trans hvisit)]
    exact ih (hend.of_eq_ok hvisit)

end Congruence

/-! ### Registers of intervals -/

/-- An interval has the registers of its members. -/
def Summed (l : Level) (i : IntervalId) (w : Workspace) : Prop :=
  ∀ r, r ∈ w.graph.regs .interval i ↔
    ∃ m ∈ w.members, w.graph.owner l m = some i ∧ r ∈ w.graph.regs l m

variable {l : Level} {base budget : Nat} {w w' w₁ w₂ : Workspace} {n : BlockId} {i : IntervalId}
  {blocks : List BlockId} {marker : Marker}

theorem Synced.summed (h : Synced .block i w w') (hi : i < w'.graph.intervals.size) :
    Summed .block i w' := by
  have hsize : w'.graph.intervals.size = w.graph.intervals.size :=
    congrFun h.alike.extent .interval
  rw [hsize] at hi
  obtain ⟨regs, hregs, rfl⟩ := h
  intro r
  show r ∈ (w.setRegs i regs).graph.regs .interval i ↔ _
  rw [regs_setRegs_self hi]
  exact hregs r

/-- The registers of marked members of an interval are registers of the interval. -/
theorem Summed.mem_of_memberRegs (h : Summed l i w) {test : Nat → Bool}
    (hexist : ∀ m ∈ w.members, m < w.graph.extent l) {above : RegSet}
    (habove : w.graph.memberRegs? l i test w.members = some above) {r : Reg} (hr : r ∈ above) :
    r ∈ w.graph.regs .interval i := by
  obtain ⟨regs, hregs, hmem⟩ := FlowGraph.memberRegs?_eq_some (i := i) test hexist
  obtain rfl : regs = above := Option.some.inj (hregs.symm.trans habove)
  obtain ⟨m, hm, ⟨hown, _⟩, hr⟩ := (hmem r).mp hr
  exact (h r).mpr ⟨m, hm, hown, hr⟩

/-! ### The first pass -/

theorem markAncestors_eq_ok {a : Unit} (h : Pass.markAncestors l n w = .ok a w') :
    ∃ marker, w' = { w with marker } := by
  rw [Pass.markAncestors] at h
  split at h
  next marker _ =>
    injection h with _ h
    exact ⟨marker, h.symm⟩
  next => injection h

/-- What the test of the ancestors refuses, the footprint refuses as well. -/
theorem footprintAdmission_eq (hexist : ∀ m ∈ w.members, m < w.graph.extent .block)
    (hi : i < w.graph.intervals.size) (hs : Summed .block i w) (budget : Nat) (n : BlockId) :
    Pass.footprintAdmission budget i n w = Pass.admission budget i n w := by
  refine bind_congr_of_eq_ok fun node w₁ hnode => ?_
  obtain ⟨_, rfl⟩ := Pass.query_eq_ok hnode
  by_cases hfree : node.owner.isSome
  · rw [if_pos hfree, if_pos hfree]
  rw [if_neg hfree, if_neg hfree]
  refine bind_congr_of_eq_ok fun inside w₂ hinside => ?_
  obtain ⟨_, rfl⟩ := Pass.query_eq_ok hinside
  cases inside with
  | false => rfl
  | true =>
    refine bind_congr_of_eq_ok fun _ w₃ hmark => ?_
    obtain ⟨marker, rfl⟩ := markAncestors_eq_ok hmark
    refine bind_congr_of_eq_ok fun above w₄ hsurvey => ?_
    obtain ⟨habove, rfl⟩ := Pass.survey_eq_ok hsurvey
    -- All registers that are held against the budget are registers of the interval or the block.
    by_cases hlive : budget ≤ (node.regs ∪ above).size
    · obtain ⟨v, hv⟩ : ∃ v, w₂.graph.interval? i = some v := Arena.exists_get? hi
      have hregs : w₂.graph.regs .interval i = v.regs := FlowGraph.see_of_interval? hv _ _
      have hroom : budget ≤ (v.regs ∪ node.regs).size := by
        refine Nat.le_trans hlive (RegSet.size_le fun r hr => RegSet.mem_union.mpr ?_)
        refine (RegSet.mem_union.mp hr).symm.imp_left fun hr => ?_
        exact hregs ▸ Summed.mem_of_memberRegs hs hexist habove hr
      have hquery : Pass.query (·.interval? i) { w₂ with marker } = .ok v { w₂ with marker } := by
        show Pass.demand (w₂.graph.interval? i) { w₂ with marker } = _
        rw [hv]
        rfl
      rw [if_pos hlive]
      refine (bind_of_eq_ok hquery).trans ?_
      rw [if_pos hroom]
    · rw [if_neg hlive]

/-- The scan of blocks for an interval is the same with both admissions. -/
theorem growIf_eq (h : Sound .block base (some i) w) (hs : Summed .block i w) (budget : Nat) :
    Pass.growIf (Pass.footprintAdmission budget) budget i w = Pass.grow budget i w := by
  refine forM_congr_of_ends (P := fun u => Sound .block base (some i) u ∧ Summed .block i u ∧
    ∀ x ∈ w.members, x ∈ u.members) ?_ ⟨h, hs, fun _ hx => hx⟩
  rintro n hn u ⟨hsound, hsummed, hmembers⟩
  constructor
  · refine bind_congr_left _ ?_
    exact footprintAdmission_eq (fun _ => hsound.lt_extent) hsound.lt_size hsummed budget n
  · refine (joinIfAdmitted_ends hsound (hmembers n hn)).mono ?_
    rintro _ u' ⟨marker, ⟨_, rfl⟩ | hjoins⟩
    · exact ⟨hsound.alike (alike_marker ..), hsummed, hmembers⟩
    · have hmarked : Sound .block base (some i) { u with marker } := hsound.alike (alike_marker ..)
      have hjoined := hmarked.move hjoins.move
      obtain ⟨_, _, _, _, _, _, hsync⟩ := hjoins.settled
      exact ⟨hjoined, hsync.summed hjoined.lt_size,
        fun x hx => hjoins.move.mem_members (hmembers x hx)⟩

/-- The visit of a block is the same with both admissions. -/
theorem visitBlockIf_eq {rest : List BlockId} (h : Sound .block base none w)
    (hwork : w.worklist = n :: rest) (budget : Nat) :
    Pass.visitBlockIf (Pass.footprintAdmission budget) budget n { w with worklist := rest } =
      Pass.visitBlock budget n { w with worklist := rest } := by
  obtain ⟨i, hn, hown, halone, hsound⟩ := h.pop hwork
  obtain ⟨b, hb⟩ := hsound.exists_block hn
  have hinterval : b.interval = some i := (FlowGraph.see_of_block? hb _ _).symm.trans hown
  rw [← Pass.visitBlockIf_admission]
  refine Ends.bind_congr (Pass.ends_query hb ?_)
  rw [hinterval]
  obtain ⟨⟨opener, hu⟩, _⟩ := id hsound
  refine Ends.bind_congr ((settleThenSync_ends hu hb hn fun w₁ hset =>
    hsound.settled_opener hb hn hown halone hset).mono ?_)
  rintro _ w₀ ⟨hset, hsync⟩
  refine Ends.bind_congr (hsync.mono fun _ w₁ hsync => ?_)
  have h₁ : Sound .block base (some i) w₁ := h.move (.take hwork hown hb hset hsync)
  refine bind_congr_of_eq_ok fun settled w₂ hquery => ?_
  obtain ⟨_, rfl⟩ := Pass.query_eq_ok hquery
  by_cases hroom : settled.outputs.size < budget
  · rw [if_pos hroom, if_pos hroom]
    exact bind_congr_left _ (growIf_eq h₁ (hsync.summed h₁.lt_size) budget)
  · rw [if_neg hroom, if_neg hroom]

/-- The first pass is the same by footprint. -/
theorem groupBlocksByFootprint_eq (hv : w.graph.verify blocks = .ok ()) (hnodup : blocks.Nodup)
    (budget : Nat) :
    Pass.groupBlocksByFootprint budget blocks w = Pass.groupBlocks budget blocks w := by
  rw [Pass.groupBlocksByFootprint, Pass.groupBlocks]
  by_cases hbudget : budget = 0
  · rw [if_pos hbudget, if_pos hbudget]
    refine bind_congr_of_eq_ok fun _ _ hfail => ?_
    injection hfail
  rw [if_neg hbudget, if_neg hbudget]
  obtain ⟨hexist, hclosed⟩ := FlowGraph.verify_eq_ok hv
  have hverify : Pass.verifyBlocks blocks w = .ok () w := by
    rw [Pass.verifyBlocks_eq, hv]
  refine bind_congr_of_eq_ok fun _ w₀ hw₀ => ?_
  obtain rfl : w = w₀ := by
    rw [hverify] at hw₀
    injection hw₀
  refine Ends.bind_congr ((start_ends hexist hnodup hclosed).mono ?_)
  rintro _ w₁ ⟨hsound, _⟩
  refine bind_congr_left _ (drain_congr_of_ends (P := Sound .block w.graph.intervals.size none)
    ?_ hsound)
  intro n rest u hwork hu
  refine ⟨visitBlockIf_eq hu hwork budget, (visitBlock_ends hu hwork).mono ?_⟩
  rintro _ u' ⟨_, _, _, hturn⟩
  exact hu.moves hturn.moves

end KernelIntervals
