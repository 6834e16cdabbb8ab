/-
What is found in graphs that correspond.

* `foldlM_agree`, `foldlM_agree_map`, `allM_agree` — folds and tests over corresponding lists,
* `Kin.unowned`, `Kin.ownedBy` — corresponding nodes are free, or members, alike,
* `Kin.memberRegs`, `Kin.frontier` — the registers of members, and the free nodes behind them,
* `Summary.Akin`, `Kin.summary`, `Kin.fill` — what the members of an interval amount to, and
  intervals that are filled in with it.
-/
import KernelIntervals.Proofs.Kinship
import KernelIntervals.Proofs.Regrouped

namespace KernelIntervals

open Function List

/-! ### Folds -/

section Folds

variable {α α' β β' : Type} {ρ : α → α'} {xs : List α}

/-- Two folds over corresponding lists both succeed, if all their steps do. -/
theorem foldlM_agree {R : β → β' → Prop} {f : β → α → Option β} {f' : β' → α' → Option β'}
    (hstep : ∀ x ∈ xs, ∀ b b', R b b' → ∃ c c', f b x = some c ∧ f' b' (ρ x) = some c' ∧ R c c')
    {b : β} {b' : β'} (h : R b b') :
    ∃ c c', xs.foldlM f b = some c ∧ (xs.map ρ).foldlM f' b' = some c' ∧ R c c' := by
  induction xs generalizing b b' with
  | nil => exact ⟨b, b', rfl, rfl, h⟩
  | cons x xs ih =>
    obtain ⟨c, c', hc, hc', hr⟩ := hstep x List.mem_cons_self b b' h
    obtain ⟨d, d', hd, hd', hr'⟩ := ih (fun y hy => hstep y (List.mem_cons_of_mem x hy)) hr
    refine ⟨d, d', ?_, ?_, hr'⟩
    · rw [List.foldlM_cons, hc]
      exact hd
    · rw [List.map_cons, List.foldlM_cons, hc']
      exact hd'

/-- Two folds that collect corresponding ids, all of which have a property, both succeed, if all
their steps do. -/
theorem foldlM_agree_map {num : Nat → Nat} {P : Nat → Prop} {f : List Nat → α → Option (List Nat)}
    {f' : List Nat → α' → Option (List Nat)}
    (hstep : ∀ x ∈ xs, ∀ found, (∀ s ∈ found, P s) → ∃ found₁, f found x = some found₁ ∧
      f' (found.map num) (ρ x) = some (found₁.map num) ∧ ∀ s ∈ found₁, P s)
    {found : List Nat} (h : ∀ s ∈ found, P s) :
    ∃ found₁, xs.foldlM f found = some found₁ ∧
      (xs.map ρ).foldlM f' (found.map num) = some (found₁.map num) ∧ ∀ s ∈ found₁, P s := by
  have hfolds : ∃ c c', xs.foldlM f found = some c ∧
      (xs.map ρ).foldlM f' (found.map num) = some c' ∧ c' = c.map num ∧ ∀ s ∈ c, P s := by
    refine foldlM_agree (R := fun c c' => c' = c.map num ∧ ∀ s ∈ c, P s) ?_ ⟨rfl, h⟩
    rintro x hx c _ ⟨rfl, hc⟩
    obtain ⟨d, hd, hd', hall⟩ := hstep x hx c hc
    exact ⟨d, d.map num, hd, hd', rfl, hall⟩
  obtain ⟨found₁, _, hfound, hfound', rfl, hall⟩ := hfolds
  exact ⟨found₁, hfound, hfound', hall⟩

/-- Two tests of corresponding lists have the same answer, if those of their elements do. -/
theorem allM_agree (ρ : α → α') (xs : List α) {f : α → Option Bool} {f' : α' → Option Bool}
    (h : ∀ x ∈ xs, ∃ b, f x = some b ∧ f' (ρ x) = some b) :
    ∃ b, xs.allM f = some b ∧ (xs.map ρ).allM f' = some b := by
  induction xs with
  | nil => exact ⟨true, rfl, rfl⟩
  | cons x xs ih =>
    obtain ⟨b, hb, hb'⟩ := h x List.mem_cons_self
    rw [List.map_cons, List.allM, List.allM, hb, hb']
    cases b with
    | false => exact ⟨false, rfl, rfl⟩
    | true => exact ih fun y hy => h y (List.mem_cons_of_mem x hy)

end Folds

section AddNew

variable {f : Nat → Nat} (hf : Injective f) (ids : List Nat)

include hf

theorem addNew_map (x : Nat) : addNew (ids.map f) (f x) = (addNew ids x).map f := by
  have hiff : f x ∈ ids.map f ↔ x ∈ ids := List.mem_map_of_injective hf
  rw [addNew, addNew]
  by_cases hx : x ∈ ids
  · rw [if_pos (hiff.mpr hx), if_pos hx]
  · rw [if_neg (mt hiff.mp hx), if_neg hx, List.map_append, List.map_singleton]

theorem foldl_addNew_map (xs : List Nat) :
    (xs.map f).foldl addNew (ids.map f) = (xs.foldl addNew ids).map f := by
  induction xs generalizing ids with
  | nil => rfl
  | cons x xs ih => rw [List.map_cons, List.foldl_cons, List.foldl_cons, addNew_map hf, ih]

end AddNew

/-- What two summaries say corresponds. -/
structure Summary.Akin (C : Kinship) (g : FlowGraph) (s s' : Summary) : Prop where
  insts : Forall₂ C.inst s.insts s'.insts
  regs : C.regs s.regs s'.regs
  preds : s'.preds = s.preds.map (C.num .interval)
  succs : s'.succs = s.succs.map (C.num .interval)
  pred_new : ∀ j ∈ s.preds, C.New g j
  succ_new : ∀ j ∈ s.succs, C.New g j

namespace Kin

variable {C : Kinship} {blocks : List BlockId} {g g' : FlowGraph} {l : Level} {n : Nat}
  {i : IntervalId} {nodes : List Nat} (hk : Kin C blocks g g')

include hk

/-! ### Members -/

theorem unowned (hn : C.Knows blocks g l n) : ∃ b, g.unowned? l n = some b ∧
    g'.unowned? l (C.num l n) = some b := by
  obtain ⟨a, a', ha, ha', hakin⟩ := hk.node l n hn
  refine ⟨a.owner.isNone, ?_, ?_⟩
  · rw [FlowGraph.unowned?, ha]
    rfl
  · rw [FlowGraph.unowned?, ha', ← hakin.isNone_owner]
    rfl

theorem ownedBy (i : IntervalId) (hn : C.Knows blocks g l n) : ∃ b, g.ownedBy? l i n = some b ∧
    g'.ownedBy? l (C.num .interval i) (C.num l n) = some b := by
  obtain ⟨a, a', ha, ha', hakin⟩ := hk.node l n hn
  refine ⟨a.owner == some i, ?_, ?_⟩
  · rw [FlowGraph.ownedBy?, ha]
    rfl
  · have howner : (a'.owner == some (C.num .interval i)) = (a.owner == some i) := by
      rw [Bool.eq_iff_iff, beq_iff_eq, beq_iff_eq]
      exact hakin.owner_eq_iff
    rw [FlowGraph.ownedBy?, ha', ← howner]
    rfl

/-- The registers of members that pass corresponding tests. -/
theorem memberRegs (l : Level) (i : IntervalId) (test test' : Nat → Bool)
    (hnodes : ∀ n ∈ nodes, C.Knows blocks g l n)
    (htest : ∀ n ∈ nodes, test' (C.num l n) = test n) :
    ∃ regs regs', g.memberRegs? l i test nodes = some regs ∧
      g'.memberRegs? l (C.num .interval i) test' (nodes.map (C.num l)) = some regs' ∧
      C.regs regs regs' := by
  refine foldlM_agree (R := C.regs) (fun n hn s s' hs => ?_) C.regs_empty
  obtain ⟨a, a', ha, ha', hakin⟩ := hk.node l n (hnodes n hn)
  refine ⟨if a.owner = some i ∧ test n then s ∪ a.regs else s,
    if a'.owner = some (C.num .interval i) ∧ test' (C.num l n) then s' ∪ a'.regs else s',
    ?_, ?_, ?_⟩
  · rw [ha]
    rfl
  · rw [ha']
    rfl
  · have hiff : (a'.owner = some (C.num .interval i) ∧ test' (C.num l n)) ↔
        (a.owner = some i ∧ test n) := by
      rw [hakin.owner_eq_iff, htest n hn]
    by_cases hmember : a.owner = some i ∧ test n
    · rw [if_pos hmember, if_pos (hiff.mpr hmember)]
      exact C.regs_union hs hakin.regs
    · rw [if_neg hmember, if_neg (mt hiff.mp hmember)]
      exact hs

/-- A node is found if it is free and was not found before. -/
theorem addUnowned {found : List Nat} (hfound : ∀ s ∈ found, C.Knows blocks g l s)
    (hn : C.Knows blocks g l n) : ∃ found₁,
      (do return if ← g.unowned? l n then addNew found n else found) = some found₁ ∧
      (do return if ← g'.unowned? l (C.num l n) then addNew (found.map (C.num l)) (C.num l n)
        else found.map (C.num l)) = some (found₁.map (C.num l)) ∧
      ∀ s ∈ found₁, C.Knows blocks g l s := by
  obtain ⟨free, hfree, hfree'⟩ := hk.unowned hn
  rw [hfree, hfree']
  cases free with
  | false => exact ⟨found, rfl, rfl, hfound⟩
  | true =>
    refine ⟨addNew found n, rfl, congrArg some (addNew_map (C.num_injective l) found n),
      fun s hs => ?_⟩
    rcases mem_addNew.mp hs with hs | rfl
    · exact hfound s hs
    · exact hn

/-- The free nodes behind members. -/
theorem frontier (i : IntervalId) (hnodes : ∀ n ∈ nodes, C.Knows blocks g l n) :
    ∃ found, g.frontier? l i nodes = some found ∧
      g'.frontier? l (C.num .interval i) (nodes.map (C.num l)) = some (found.map (C.num l)) ∧
      ∀ s ∈ found, C.Knows blocks g l s := by
  refine foldlM_agree_map (fun n hn found hfound => ?_) fun s hs => absurd hs List.not_mem_nil
  obtain ⟨a, a', ha, ha', hakin⟩ := hk.node l n (hnodes n hn)
  rw [ha, ha']
  simp only [Option.bind_eq_bind, Option.bind_some, hakin.owner_eq_iff]
  by_cases hmember : a.owner = some i
  · rw [if_pos hmember, if_pos hmember, hakin.succs]
    exact foldlM_agree_map
      (fun s hs found hfound => hk.addUnowned hfound (hakin.succ_known s hs)) hfound
  · rw [if_neg hmember, if_neg hmember]
    exact ⟨found, rfl, rfl, hfound⟩

/-! ### Summaries -/

/-- The owners of corresponding nodes. -/
theorem owners {found : List IntervalId} (i : IntervalId)
    (hnodes : ∀ n ∈ nodes, C.Knows blocks g l n) (hfound : ∀ j ∈ found, C.New g j) :
    ∃ owners, g.owners? l i found nodes = some owners ∧
      g'.owners? l (C.num .interval i) (found.map (C.num .interval)) (nodes.map (C.num l)) =
        some (owners.map (C.num .interval)) ∧ ∀ j ∈ owners, C.New g j := by
  refine foldlM_agree_map (fun n hn found hfound => ?_) hfound
  obtain ⟨a, a', ha, ha', hakin⟩ := hk.node l n (hnodes n hn)
  rw [ha, ha']
  simp only [Option.bind_eq_bind, Option.bind_some, hakin.owner]
  cases howner : a.owner with
  | none => exact ⟨found, rfl, rfl, hfound⟩
  | some j =>
    simp only [Option.map_some, (C.num_injective .interval).eq_iff]
    by_cases hj : j = i
    · rw [if_pos hj, if_pos hj]
      exact ⟨found, rfl, rfl, hfound⟩
    · rw [if_neg hj, if_neg hj]
      refine ⟨addNew found j, rfl, congrArg some (addNew_map (C.num_injective .interval) found j),
        fun k hk => ?_⟩
      rcases mem_addNew.mp hk with hk | rfl
      · exact hfound k hk
      · exact hakin.owner_new k howner

/-- What the members of corresponding intervals amount to. -/
theorem summary (i : IntervalId) (hnodes : ∀ n ∈ nodes, C.Knows blocks g l n) :
    ∃ s s', g.summary? l i nodes = some s ∧
      g'.summary? l (C.num .interval i) (nodes.map (C.num l)) = some s' ∧ s.Akin C g s' := by
  have hempty : Summary.Akin C g {} {} :=
    ⟨.nil, C.regs_empty, rfl, rfl, fun _ hj => absurd hj List.not_mem_nil,
      fun _ hj => absurd hj List.not_mem_nil⟩
  refine foldlM_agree (R := Summary.Akin C g) (fun n hn s s' hs => ?_) hempty
  obtain ⟨a, a', ha, ha', hakin⟩ := hk.node l n (hnodes n hn)
  rw [FlowGraph.summarize?, FlowGraph.summarize?, ha, ha']
  simp only [Option.bind_eq_bind, Option.bind_some, hakin.owner_eq_iff]
  by_cases hmember : a.owner = some i
  · obtain ⟨preds, hpreds, hpreds', hpred⟩ := hk.owners i hakin.pred_known hs.pred_new
    obtain ⟨succs, hsuccs, hsuccs', hsucc⟩ := hk.owners i hakin.succ_known hs.succ_new
    rw [if_pos hmember, if_pos hmember, hs.preds, hs.succs, hakin.preds, hakin.succs, hpreds,
      hpreds', hsuccs, hsuccs']
    exact ⟨_, _, rfl, rfl, rel_append hs.insts hakin.insts, C.regs_union hs.regs hakin.regs, rfl,
      rfl, hpred, hsucc⟩
  · rw [if_neg hmember, if_neg hmember]
    exact ⟨s, s', rfl, rfl, hs⟩

/-- Corresponding intervals are filled in with what their members amount to. -/
theorem fill {s s' : Summary} (hs : s.Akin C g s') (i : IntervalId) (vector vector' : RegVector) :
    Kin C blocks (g.modifyInterval i (Interval.fill s vector))
      (g'.modifyInterval (C.num .interval i) (Interval.fill s' vector')) := by
  refine hk.change (l := .interval) (n := i)
    (fun a => ⟨s.insts, s.regs, s.preds.foldl addNew a.preds, s.succs.foldl addNew a.succs,
      a.owner⟩)
    (fun a => ⟨s'.insts, s'.regs, s'.preds.foldl addNew a.preds,
      s'.succs.foldl addNew a.succs, a.owner⟩)
    (funext fun _ => FlowGraph.extent_modifyInterval _)
    (funext fun _ => FlowGraph.extent_modifyInterval _)
    (FlowGraph.node?_modifyInterval_self fun _ => rfl)
    (FlowGraph.node?_modifyInterval_self fun _ => rfl)
    (fun _ _ => FlowGraph.node?_modifyInterval_of_ne)
    (fun _ _ => FlowGraph.node?_modifyInterval_of_ne) hk.inputs fun a a' ha => ?_
  refine ⟨hs.insts, hs.regs, ?_, ?_, ha.owner, fun p hp => ?_, fun p hp => ?_, ha.owner_new⟩
  · show s'.preds.foldl addNew a'.preds = (s.preds.foldl addNew a.preds).map _
    rw [hs.preds, ha.preds, foldl_addNew_map (C.num_injective .interval)]
  · show s'.succs.foldl addNew a'.succs = (s.succs.foldl addNew a.succs).map _
    rw [hs.succs, ha.succs, foldl_addNew_map (C.num_injective .interval)]
  · rcases mem_foldl_addNew.mp hp with hp | hp
    · exact ha.pred_known p hp
    · exact (hs.pred_new p hp).knows
  · rcases mem_foldl_addNew.mp hp with hp | hp
    · exact ha.succ_known p hp
    · exact (hs.succ_new p hp).knows

end Kin

end KernelIntervals
