/-
Cutting instructions greedily.

* `Fitting` — some instructions mention fewer registers than the budget,
* `IsLongestRun` — no longer run from the start fits,
* `GreedyCut` — instructions cut into longest runs, one after the other,
* `GreedyCut.length_le` — no division into pieces that fit has fewer pieces,
* `GreedyCut.congr` — labels do not matter to where instructions are cut,
* `greedyCut_of_crowded` — pieces that fit, each of which leaves no room for the first instruction
  of the next one, are cut greedily.

Design notes: optimality is shown for any division of instructions that end with those that are
cut, because the first piece of a division may well be longer than what is left of it by then.
-/
import Mathlib.Data.List.Basic
import KernelIntervals.Proofs.SplitPoints
import KernelIntervals.Proofs.Subdivision

namespace KernelIntervals

/-- Some instructions mention fewer registers than the budget. -/
def Fitting (budget : Nat) (insts : List Inst) : Prop := (instRegs insts).size < budget

/-- The longest run of instructions from the start that mention fewer registers than the budget. -/
structure IsLongestRun (budget : Nat) (insts run : List Inst) : Prop where
  starts : run <+: insts
  fits : Fitting budget run
  longest : ∀ other, other <+: insts → Fitting budget other → other.length ≤ run.length

/-- Instructions are cut into pieces: each is the longest run from where the one before it ended,
and the last one is all that was left then. -/
inductive GreedyCut (budget : Nat) : List Inst → List (List Inst) → Prop
  | last {insts : List Inst} (h : IsLongestRun budget insts insts) : GreedyCut budget insts [insts]
  | cut {run rest : List Inst} {pieces : List (List Inst)} (hrest : rest ≠ [])
      (h : IsLongestRun budget (run ++ rest) run) (hcut : GreedyCut budget rest pieces) :
      GreedyCut budget (run ++ rest) (run :: pieces)

variable {budget : Nat} {insts run rest xs ys : List Inst} {pieces : List (List Inst)}

theorem instRegs_subset (h : ∀ i ∈ xs, i ∈ ys) : ∀ r ∈ instRegs xs, r ∈ instRegs ys := by
  intro r hr
  obtain ⟨i, hi, hri⟩ := mem_instRegs.mp hr
  exact mem_instRegs.mpr ⟨i, h i hi, hri⟩

/-- A part of what fits does fit. -/
theorem Fitting.mono (h : Fitting budget ys) (hsub : ∀ i ∈ xs, i ∈ ys) : Fitting budget xs :=
  Nat.lt_of_le_of_lt (RegSet.size_le (instRegs_subset hsub)) h

/-- What fits as a whole is the longest run of itself. -/
theorem Fitting.isLongestRun (h : Fitting budget insts) : IsLongestRun budget insts insts :=
  ⟨List.prefix_refl insts, h, fun _ hother _ => hother.length_le⟩

/-- A run that leaves no room for the instruction behind it is the longest one. -/
theorem isLongestRun_of_next {i : Inst} (hrun : Fitting budget run) (hnext : rest.head? = some i)
    (hfull : ¬ Fitting budget (run ++ [i])) : IsLongestRun budget (run ++ rest) run := by
  refine ⟨List.prefix_append run rest, hrun, fun other hother hfits => ?_⟩
  obtain ⟨rest', rfl⟩ : ∃ rest', rest = i :: rest' := List.head?_eq_some_iff.mp hnext
  by_contra hlonger
  -- A longer run has the next instruction in it.
  have hprefix : run ++ [i] <+: run ++ i :: rest' :=
    (List.prefix_append_right_inj run).mpr ⟨rest', rfl⟩
  have hshort : run ++ [i] <+: other := by
    refine List.prefix_of_prefix_length_le hprefix hother ?_
    rw [List.length_append, List.length_singleton]
    omega
  exact hfull (hfits.mono fun x hx => hshort.subset hx)

namespace GreedyCut

/-- A piece that fits and begins no later than a longest run ends no later. -/
theorem suffix_of_append {piece before : List Inst} (h : IsLongestRun budget (run ++ rest) run)
    (hpiece : Fitting budget piece) (heq : piece ++ xs = before ++ (run ++ rest)) :
    rest <:+ xs := by
  obtain ⟨ys, _, rfl⟩ | ⟨ys, rfl, hrun⟩ := List.append_eq_append_iff.mp heq
  · -- The piece ends before the run begins.
    exact ⟨ys ++ run, List.append_assoc ..⟩
  · -- What the piece has of the run and of the rest is a run from the same start.
    have hlength : ys.length ≤ run.length :=
      h.longest ys ⟨xs, hrun.symm⟩ (hpiece.mono fun i hi => List.mem_append_right before hi)
    obtain ⟨zs, rfl, rfl⟩ | ⟨zs, _, rfl⟩ := List.append_eq_append_iff.mp hrun
    · rw [List.length_append] at hlength
      have hzs : zs = [] := List.eq_nil_of_length_eq_zero (by omega)
      rw [hzs]
      exact List.suffix_refl _
    · exact ⟨zs, rfl⟩

/-- No division into pieces that fit, of instructions that end with those that are cut, has fewer
pieces. -/
theorem length_le_of_suffix (h : GreedyCut budget insts pieces) (hinsts : insts ≠ [])
    {others : List (List Inst)} (hothers : ∀ other ∈ others, Fitting budget other)
    (hsuffix : insts <:+ others.flatten) : pieces.length ≤ others.length := by
  induction h generalizing others with
  | @last insts _ =>
    cases others with
    | nil => exact absurd (List.eq_nil_of_suffix_nil hsuffix) hinsts
    | cons other others => exact Nat.succ_le_succ (Nat.zero_le _)
  | @cut run rest pieces hrest hlongest _ ih =>
    cases others with
    | nil => exact absurd (List.eq_nil_of_suffix_nil hsuffix) hinsts
    | cons other others =>
      obtain ⟨before, hbefore⟩ := hsuffix
      have hrest' : rest <:+ others.flatten :=
        suffix_of_append hlongest (hothers other List.mem_cons_self) hbefore.symm
      exact Nat.succ_le_succ
        (ih hrest (fun x hx => hothers x (List.mem_cons_of_mem other hx)) hrest')

/-- No division into pieces that fit has fewer pieces. -/
theorem length_le (h : GreedyCut budget insts pieces) (hinsts : insts ≠ [])
    {others : List (List Inst)} (hothers : ∀ other ∈ others, Fitting budget other)
    (hflatten : others.flatten = insts) : pieces.length ≤ others.length :=
  h.length_le_of_suffix hinsts hothers (hflatten ▸ List.suffix_refl _)

end GreedyCut

/-! ### Labels do not matter -/

theorem Inst.regs_unlabelled (i : Inst) : i.unlabelled.regs = i.regs := by
  have hmentions : ∀ o : Operand, o.unlabelled.mentions = o.mentions := by
    intro o
    cases o <;> rfl
  simp [Inst.regs, Inst.unlabelled, List.flatMap_map, hmentions]

theorem instRegs_congr (h : xs.map Inst.unlabelled = ys.map Inst.unlabelled) :
    instRegs xs = instRegs ys := by
  have hregs : ∀ zs : List Inst,
      zs.flatMap Inst.regs = (zs.map Inst.unlabelled).flatMap Inst.regs := by
    intro zs
    rw [List.flatMap_map]
    exact List.flatMap_congr fun i _ => (Inst.regs_unlabelled i).symm
  rw [instRegs, instRegs, hregs, hregs ys, h]

theorem fitting_congr (h : xs.map Inst.unlabelled = ys.map Inst.unlabelled) :
    Fitting budget xs ↔ Fitting budget ys := by
  rw [Fitting, Fitting, instRegs_congr h]

theorem IsLongestRun.congr {run' : List Inst} (h : IsLongestRun budget xs run)
    (hxs : xs.map Inst.unlabelled = ys.map Inst.unlabelled)
    (hrun : run.map Inst.unlabelled = run'.map Inst.unlabelled) (hstarts : run' <+: ys) :
    IsLongestRun budget ys run' := by
  refine ⟨hstarts, (fitting_congr hrun).mp h.fits, fun other hother hfits => ?_⟩
  have hother' : other.map Inst.unlabelled <+: xs.map Inst.unlabelled := hxs ▸ hother.map _
  obtain ⟨other', hprefix, hsame⟩ := List.prefix_map_iff.mp hother'
  have hle := h.longest other' hprefix ((fitting_congr hsame).mp hfits)
  have hlength := congrArg List.length hsame
  have hlength' := congrArg List.length hrun
  simp only [List.length_map] at hlength hlength'
  omega

/-- Instructions with other labels are cut at the same places. -/
theorem GreedyCut.congr (h : GreedyCut budget xs pieces)
    (heq : xs.map Inst.unlabelled = ys.map Inst.unlabelled) :
    ∃ pieces', GreedyCut budget ys pieces' ∧
      pieces'.map (·.map Inst.unlabelled) = pieces.map (·.map Inst.unlabelled) := by
  induction h generalizing ys with
  | last h => exact ⟨[ys], .last (h.congr heq heq (List.prefix_refl ys)), by simp [heq]⟩
  | @cut run rest pieces hrest h _ ih =>
    rw [List.map_append] at heq
    obtain ⟨run', rest', rfl, hrun', hrest'⟩ := List.map_eq_append_iff.mp heq.symm
    obtain ⟨pieces', hcut', hpieces'⟩ := ih hrest'.symm
    refine ⟨run' :: pieces', .cut ?_ (h.congr ?_ hrun'.symm (List.prefix_append run' rest')) hcut',
      by simp [hrun', hpieces']⟩
    · rintro rfl
      exact hrest (List.map_eq_nil_iff.mp hrest'.symm)
    · rw [List.map_append, List.map_append, hrun', hrest']

/-! ### Pieces without room -/

/-- Pieces that fit, each of which leaves no room for the first instruction of the next one, are
cut greedily. -/
theorem greedyCut_of_crowded {piece : List Inst} (hfits : ∀ p ∈ piece :: pieces, Fitting budget p)
    (hchain : (piece :: pieces).IsChain fun p q =>
      ∃ i, q.head? = some i ∧ ¬ Fitting budget (p ++ [i])) :
    GreedyCut budget (piece :: pieces).flatten (piece :: pieces) := by
  induction pieces generalizing piece with
  | nil =>
    have hflatten : [piece].flatten = piece := List.append_nil piece
    rw [hflatten]
    exact .last (hfits piece List.mem_cons_self).isLongestRun
  | cons next pieces ih =>
    obtain ⟨⟨i, hnext, hfull⟩, hchain'⟩ := List.isChain_cons_cons.mp hchain
    have hhead : (next :: pieces).flatten.head? = some i := by
      rw [List.flatten_cons, List.head?_append, hnext]
      rfl
    have hcut := ih (fun p hp => hfits p (List.mem_cons_of_mem piece hp)) hchain'
    refine .cut (fun hnil => ?_)
      (isLongestRun_of_next (hfits piece List.mem_cons_self) hhead hfull) hcut
    rw [hnil] at hhead
    injection hhead

end KernelIntervals
