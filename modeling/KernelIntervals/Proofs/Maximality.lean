/-
What the intervals of the first pass leave no room for.

* `OnlyBehind` — a block outside of a region to which nothing else leads,
* `Harvest.maximal` — such a block does not fit in, had too many registers, or is listed before one
  of its predecessors,
* `intervals_maximal` — a block that only an interval leads to does not fit in it, unless it
  was split or stands in the list before one of its predecessors.

Design notes: each region is grown in one scan in the order of the list, and blocks are
asked for room as they were listed. A block that is passed over because one of its
predecessors is still free is not asked again, and neither is one that turns out shorter.
-/
import KernelIntervals.Proofs.Harvest

namespace KernelIntervals

variable {budget : Nat} {g₀ g : FlowGraph} {blocks : List BlockId} {c : BlockId}
  {i : IntervalId} {opener : IntervalId → BlockId} {ig : IntervalGraph}

/-- The block `c` is not in the region `i`, but nothing else leads to it. -/
structure OnlyBehind (g : FlowGraph) (blocks : List BlockId) (i : IntervalId) (c : BlockId) :
    Prop where
  mem : c ∈ blocks
  outside : g.owner .block c ≠ some i
  preds_ne_nil : g.preds .block c ≠ []
  inside : ∀ p ∈ g.preds .block c, g.owner .block p = some i

/-! ### What a region has not gathered -/

/-- What does not stand before `c` in a list stands behind it. -/
theorem sublist_of_not_mem_takeWhile {q : BlockId} (hc : c ∈ blocks) (hq : q ∈ blocks)
    (hne : q ≠ c) (hnot : q ∉ blocks.takeWhile (· ≠ c)) : [c, q].Sublist blocks := by
  obtain ⟨front, back, rfl, hfront⟩ := List.eq_append_cons_of_mem hc
  have hback : q ∈ back := by
    rw [takeWhile_ne_append hfront] at hnot
    exact (List.mem_cons.mp ((List.mem_append.mp hq).resolve_left hnot)).resolve_left hne
  exact ((List.singleton_sublist.mpr hback).cons_cons c).trans (List.sublist_append_right ..)

/-- What alone an interval leads to, but is not in it, has no room in it, had too many registers
before, or stands in the list before a predecessor that joined. -/
theorem Harvest.maximal (h : Harvest budget g₀ blocks g ig opener) (hi : i ∈ ig.intervals)
    (hb : OnlyBehind g ig.blocks i c) :
    budget ≤ (g.regs .interval i ∪ g.regs .block c).size ∨
      (c ∈ blocks ∧ budget ≤ (g₀.regs .block c).size) ∨
      ∃ q ∈ g.preds .block c, ¬ SingleEntry (g.net .block ig.blocks) (g.owner .block) i q ∧
        [c, q].Sublist blocks := by
  obtain ⟨hc, hout, hne, hin⟩ := hb
  have hentry := h.regrouped.grouped.singleEntry h.regrouped.closed hi
  have hmem : ∀ q ∈ g.preds .block c, q ∈ ig.blocks := fun q hq => h.regrouped.closed.pred_mem hc hq
  by_cases hlisted : c ∈ blocks
  swap
  · refine .inl (Nat.le_trans (Nat.le_of_not_lt fun hroom => ?_)
      (h.size_le hi fun q hq => ⟨hmem q hq, hin q hq⟩))
    exact h.not_joinable_tail hc hlisted ⟨hne, fun _ hq => hq, hroom⟩
  by_cases hfew : (g₀.regs .block c).size < budget
  swap
  · exact .inr (.inl ⟨hlisted, Nat.le_of_not_lt hfew⟩)
  have hce : c ≠ opener i := fun hce => hout (hce ▸ hentry.owner_eq)
  have hnot := fun hjoin => hout (((h.gathered i hi).owner_iff c hlisted hce).mpr ⟨hfew, hjoin⟩)
  by_cases hall : ∀ q ∈ g.preds .block c, q ∈ before (g.owner .block) blocks (opener i) i c
  · refine .inl (Nat.le_trans (Nat.le_of_not_lt fun hroom => hnot ⟨hne, hall, hroom⟩)
      (h.size_le hi fun x hx => ?_))
    rcases mem_before.mp hx with rfl | ⟨hx, hxi⟩
    · exact ⟨hentry.mem, hentry.owner_eq⟩
    · exact ⟨h.listed.subset (List.takeWhile_subset _ hx), hxi⟩
  · -- A predecessor that does not stand before the block stands behind it.
    push Not at hall
    obtain ⟨q, hq, hlate⟩ := hall
    rw [mem_before, not_or] at hlate
    have hqc : q ≠ c := fun hqc => hout (hqc ▸ hin q hq)
    have hqlisted : q ∈ blocks := (h.gathered i hi).listed q (hmem q hq) hlate.1 (hin q hq)
    refine .inr (.inr ⟨q, hq, fun hq' => hlate.1 ?_,
      sublist_of_not_mem_takeWhile hlisted hqlisted hqc fun hx => hlate.2 ⟨hx, hin q hq⟩⟩)
    exact (hentry.unique hq' (h.regrouped.grouped.reachable hentry.mem hentry.owner_eq)).symm

/-- What only an interval that a first pass returns leads to, but is not in it, has no room
in it. Only a block that was given with registers that reach the budget, and one that stands
in the list before a predecessor that is not the entry of the interval, may have room. -/
theorem intervals_maximal (p : BlockGrouper) (blocks : List BlockId) (state : LoggedGraph)
    (ig : IntervalGraph) (hnodup : blocks.Nodup) (hexact : Exact state.graph blocks)
    (hbudget : 1 ≤ p.budget) (hrun : (p.run blocks state).result = .ok ig) :
    let g := (p.run blocks state).state.graph
    ∀ i ∈ ig.intervals, ∀ c, OnlyBehind g ig.blocks i c →
      p.budget ≤ (g.regs .interval i ∪ g.regs .block c).size ∨
        (c ∈ blocks ∧ p.budget ≤ (state.graph.regs .block c).size) ∨
        ∃ q ∈ g.preds .block c, ¬ SingleEntry (g.net .block ig.blocks) (g.owner .block) i q ∧
          [c, q].Sublist blocks := by
  intro g i hi c hbehind
  obtain ⟨opener, hharvest⟩ := BlockGrouper.run_harvest hnodup hexact hbudget hrun
  exact hharvest.maximal hi hbehind

/-! ### Blocks in a row -/

/-- Three blocks in a row, of which the second has more registers than the others. -/
def row : Dot.Graph where
  nodes := [⟨"a", [⟨some "entry", "MOV R1, R2 ;"⟩]⟩,
    ⟨"b", [⟨some "entry", "MOV R1, R2 ;\\lMOV R3, R4 ;"⟩]⟩,
    ⟨"c", [⟨some "entry", "MOV R1, R2 ;"⟩]⟩]
  edges := [⟨"a", some "entry", "b"⟩, ⟨"b", some "entry", "c"⟩]

def carvedRow : LoggedGraph := (carve row {}).2

theorem exact_carvedRow : Exact carvedRow.graph [0, 1, 2] := exact_of_all (by decide +kernel)

theorem run_carvedRow : (BlockGrouper.run ⟨4, {}⟩ [0, 1, 2] carvedRow).result =
    .ok ⟨[0, 1, 2, 3], [0, 1, 2, 3]⟩ := by
  decide +kernel

/-- At a budget of 4 registers the second block is split, and its tail has no room behind
its head. -/
theorem maximal_carvedRow :
    let g := (BlockGrouper.run ⟨4, {}⟩ [0, 1, 2] carvedRow).state.graph
    [0, 1, 2].Nodup ∧ Exact carvedRow.graph [0, 1, 2] ∧ 1 ≤ 4 ∧
    (BlockGrouper.run ⟨4, {}⟩ [0, 1, 2] carvedRow).result =
      .ok ⟨[0, 1, 2, 3], [0, 1, 2, 3]⟩ ∧
    1 ∈ [0, 1, 2, 3] ∧ OnlyBehind g [0, 1, 2, 3] 1 3 ∧
    (4 ≤ (g.regs .interval 1 ∪ g.regs .block 3).size ∨
      (3 ∈ [0, 1, 2] ∧ 4 ≤ (carvedRow.graph.regs .block 3).size) ∨
      ∃ q ∈ g.preds .block 3, ¬ SingleEntry (g.net .block [0, 1, 2, 3]) (g.owner .block) 1 q ∧
        [3, q].Sublist [0, 1, 2]) := by
  intro g
  have hbehind : OnlyBehind g [0, 1, 2, 3] 1 3 :=
    ⟨by decide, by decide +kernel, by decide +kernel, by decide +kernel⟩
  exact ⟨by decide, exact_carvedRow, by decide, run_carvedRow, by decide, hbehind,
    intervals_maximal ⟨4, {}⟩ [0, 1, 2] carvedRow _ (by decide) exact_carvedRow (by decide)
      run_carvedRow 1 (by decide) 3 hbehind⟩

/-- If the last block is listed before the second one, it is kept out of the interval of the
others, which has room for it. So is, at a budget of 4 registers, the head of the second block
from that of the first. -/
theorem not_maximal_carvedRow :
    let g := (BlockGrouper.run ⟨8, {}⟩ [0, 2, 1] carvedRow).state.graph
    let h := (BlockGrouper.run ⟨4, {}⟩ [0, 1, 2] carvedRow).state.graph
    ([0, 2, 1].Nodup ∧ carvedRow.graph.verify [0, 2, 1] = .ok () ∧
      Exact carvedRow.graph [0, 2, 1] ∧
      (BlockGrouper.run ⟨8, {}⟩ [0, 2, 1] carvedRow).result = .ok ⟨[0, 2, 1], [0, 1]⟩ ∧
      OnlyBehind g [0, 2, 1] 0 2 ∧ (g.regs .interval 0 ∪ g.regs .block 2).size < 8) ∧
    [0, 1, 2].Nodup ∧ carvedRow.graph.verify [0, 1, 2] = .ok () ∧
      Exact carvedRow.graph [0, 1, 2] ∧
      (BlockGrouper.run ⟨4, {}⟩ [0, 1, 2] carvedRow).result =
        .ok ⟨[0, 1, 2, 3], [0, 1, 2, 3]⟩ ∧
      OnlyBehind h [0, 1, 2, 3] 0 1 ∧ (h.regs .interval 0 ∪ h.regs .block 1).size < 4 := by
  intro g h
  have hshuffled : Exact carvedRow.graph [0, 2, 1] := exact_of_all (by decide +kernel)
  have hlate : OnlyBehind g [0, 2, 1] 0 2 :=
    ⟨by decide, by decide +kernel, by decide +kernel, by decide +kernel⟩
  have hhead : OnlyBehind h [0, 1, 2, 3] 0 1 :=
    ⟨by decide, by decide +kernel, by decide +kernel, by decide +kernel⟩
  have hverify : carvedRow.graph.verify [0, 1, 2] = .ok () := by decide +kernel
  have hverify' : carvedRow.graph.verify [0, 2, 1] = .ok () := by decide +kernel
  have hrun : (BlockGrouper.run ⟨8, {}⟩ [0, 2, 1] carvedRow).result = .ok ⟨[0, 2, 1], [0, 1]⟩ := by
    decide +kernel
  exact ⟨⟨by decide, hverify', hshuffled, hrun, hlate, by decide +kernel⟩, by decide, hverify,
    exact_carvedRow, run_carvedRow, hhead, by decide +kernel⟩

end KernelIntervals
