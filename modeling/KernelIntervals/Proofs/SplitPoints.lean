/-
Where a block is split.

* `RegSet.size_le` — a subset has at most as many registers,
* `splitPoint_regs` — the registers that are found are those of the instructions
  before the split point,
* `splitPoint_size` — they stay below the budget, unless the first instruction
  alone reaches it,
* `splitPoint_next` — and the instruction at the split point brings them up to it,
* `splitPoint_eq_none` — a block whose registers stay below the budget is not split.
-/
import Mathlib.Data.List.Perm.Subperm
import KernelIntervals.Flow.Split

namespace KernelIntervals

/-- A subset has at most as many registers. -/
theorem RegSet.size_le {s t : RegSet} (h : ∀ r ∈ s, r ∈ t) : s.size ≤ t.size :=
  (s.nodup_toList.subperm h).length_le

/-- The number of different registers that an instruction mentions. -/
def Inst.width (x : Inst) : Nat := (RegSet.ofList x.regs).size

variable {budget index : Nat} {running : RegSet} {insts : List Inst}

/-- The instructions before a split point. -/
def beforeSplit (index : Nat) (insts : List Inst) : Option Nat → List Inst
  | none => insts
  | some place => insts.take (place - index)

theorem splitPointFrom_regs (budget index : Nat) (running : RegSet) (insts : List Inst) (r : Reg) :
    r ∈ (splitPointFrom budget index running insts).2 ↔ r ∈ running ∨
      ∃ x ∈ beforeSplit index insts (splitPointFrom budget index running insts).1, r ∈ x.regs := by
  induction insts generalizing index running with
  | nil => simp [splitPointFrom, beforeSplit]
  | cons x insts ih =>
    rw [splitPointFrom]
    split
    next => simp [beforeSplit]
    next =>
      rw [ih, RegSet.mem_insertAll, or_assoc]
      refine or_congr_right ?_
      cases hpoint : (splitPointFrom budget (index + 1) (running.insertAll x.regs) insts).1 with
      | none => simp [beforeSplit]
      | some place =>
        -- The split point lies behind this instruction, so it is among those taken.
        have hbounds := splitPointFrom_bounds (Prod.ext hpoint rfl)
        obtain ⟨k, rfl⟩ : ∃ k, place = index + 1 + k := ⟨place - (index + 1), by omega⟩
        have htake : index + 1 + k - index = k + 1 := by omega
        simp only [beforeSplit, htake, Nat.add_sub_cancel_left, List.take_succ_cons,
          List.mem_cons, exists_eq_or_imp]

/-- The registers found are those of the instructions before the split point. -/
theorem splitPoint_regs (budget : Nat) (insts : List Inst) :
    (splitPoint budget insts).2 =
      instRegs (match (splitPoint budget insts).1 with
        | none => insts
        | some place => insts.take place) := by
  refine RegSet.ext_mem fun r => ?_
  rw [splitPoint, splitPointFrom_regs, mem_instRegs, or_iff_right (RegSet.not_mem_empty r)]
  cases (splitPointFrom budget 0 ∅ insts).1 with
  | none => rfl
  | some place => rfl

theorem splitPointFrom_size (hindex : 0 < index) (hrunning : running.size < budget) :
    (splitPointFrom budget index running insts).2.size < budget := by
  induction insts generalizing index running with
  | nil => exact hrunning
  | cons x insts ih =>
    rw [splitPointFrom]
    split
    next => exact hrunning
    next hstop =>
      refine ih (Nat.succ_pos index) (Nat.lt_of_not_le fun hle => hstop ⟨hindex, hle⟩)

/-- The registers found stay below the budget, unless the first instruction alone
reaches it. -/
theorem splitPoint_size (hbudget : 0 < budget) (insts : List Inst) :
    (splitPoint budget insts).2.size < budget ∨
      ∃ x rest, insts = x :: rest ∧ budget ≤ x.width := by
  cases insts with
  | nil => exact .inl hbudget
  | cons x rest =>
    by_cases hwide : budget ≤ x.width
    · exact .inr ⟨x, rest, rfl, hwide⟩
    -- At the first instruction the scan never stops.
    · refine .inl ?_
      rw [splitPoint, splitPointFrom]
      rw [if_neg fun h => Nat.lt_irrefl 0 h.1]
      exact splitPointFrom_size (Nat.succ_pos 0) (Nat.lt_of_not_le hwide)

theorem splitPointFrom_next {place : Nat} {regs : RegSet}
    (h : splitPointFrom budget index running insts = (some place, regs)) :
    ∃ x, insts[place - index]? = some x ∧ budget ≤ (regs.insertAll x.regs).size := by
  induction insts generalizing index running with
  | nil =>
    rw [splitPointFrom] at h
    injection h with h
    injection h
  | cons x insts ih =>
    rw [splitPointFrom] at h
    split at h
    next hstop =>
      injection h with hplace hregs
      injection hplace with hplace
      subst hplace hregs
      refine ⟨x, ?_, hstop.2⟩
      rw [Nat.sub_self, List.getElem?_cons_zero]
    next =>
      -- The scan goes on, so the split point lies behind this instruction.
      have hbounds := splitPointFrom_bounds h
      obtain ⟨k, rfl⟩ : ∃ k, place = index + 1 + k := ⟨place - (index + 1), by omega⟩
      have hindex : index + 1 + k - index = k + 1 := by omega
      obtain ⟨y, hy, hsize⟩ := ih h
      rw [Nat.add_sub_cancel_left] at hy
      refine ⟨y, ?_, hsize⟩
      rw [hindex, List.getElem?_cons_succ, hy]

/-- The instruction at a split point brings the registers before it up to the budget. -/
theorem splitPoint_next {place : Nat} (h : (splitPoint budget insts).1 = some place) :
    ∃ x, insts[place]? = some x ∧
      budget ≤ ((splitPoint budget insts).2.insertAll x.regs).size :=
  splitPointFrom_next (Prod.ext h rfl)

theorem splitPointFrom_eq_none {all : RegSet} (hall : all.size < budget)
    (hrunning : ∀ r ∈ running, r ∈ all) (hinsts : ∀ x ∈ insts, ∀ r ∈ x.regs, r ∈ all) :
    (splitPointFrom budget index running insts).1 = none := by
  induction insts generalizing index running with
  | nil => rfl
  | cons x insts ih =>
    have hnext : ∀ r ∈ running.insertAll x.regs, r ∈ all := by
      intro r hr
      rcases RegSet.mem_insertAll.mp hr with hr | hr
      · exact hrunning r hr
      · exact hinsts x List.mem_cons_self r hr
    rw [splitPointFrom]
    rw [if_neg fun h => Nat.not_le.mpr hall (Nat.le_trans h.2 (RegSet.size_le hnext))]
    exact ih hnext fun y hy => hinsts y (List.mem_cons_of_mem x hy)

/-- A block whose registers stay below the budget is not split. -/
theorem splitPoint_eq_none (h : (instRegs insts).size < budget) :
    (splitPoint budget insts).1 = none :=
  splitPointFrom_eq_none h (fun _ hr => absurd hr (RegSet.not_mem_empty _))
    fun x hx _ hr => mem_instRegs.mpr ⟨x, hx, hr⟩

end KernelIntervals
