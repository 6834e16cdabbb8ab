/-
How intervals of any level cover the blocks.

* `Covered` — every reachable block is in one interval, unreachable ones are in none,
  intervals hold what their blocks hold, their edges are those between their blocks, and
  each has one entry,
* `Regrouped.covered` — so it is after the first pass,
* `Covered.classes` — the intervals are classes of blocks, so with their edges they form a
  closed net in which each of them is reachable,
* `Covered.bind_eq_some_iff`, `Covered.exists_edge_iff` — what blocks and what edges
  coarser intervals have,
* `Covered.coarsen` — and so it is after every pass over intervals.

Design notes: what blocks an interval covers is a function from blocks to intervals. A
pass composes it with the owners that it gives to intervals, and the entry of a coarse
interval is the entry of its opener.
-/
import Mathlib.Data.List.Perm.Basic
import KernelIntervals.Proofs.Quotients
import KernelIntervals.Proofs.SecondPass

namespace KernelIntervals

open Relation

/-- The intervals cover the reachable blocks of a net, where `ψ` tells the interval of a
block and `entry` the entry of an interval. -/
structure Covered (budget : Nat) (net : Net) (ψ : BlockId → Option IntervalId)
    (intervals : List IntervalId) (entry : IntervalId → BlockId) (g : FlowGraph) : Prop where
  isSome_iff : ∀ b ∈ net.nodes, (ψ b).isSome ↔ net.Reachable b
  mem : ∀ b ∈ net.nodes, ∀ i, ψ b = some i → i ∈ intervals
  nodup : intervals.Nodup
  exists_interval : ∀ i ∈ intervals, i < g.intervals.size
  fits : ∀ i ∈ intervals, Fits budget (g.regs .interval i)
  insts : ∀ i ∈ intervals, (g.insts .interval i).Perm
    ((net.nodes.filter fun b => ψ b = some i).flatMap (g.insts .block))
  regs : ∀ i ∈ intervals, ∀ r, r ∈ g.regs .interval i ↔
    ∃ b ∈ net.nodes, ψ b = some i ∧ r ∈ g.regs .block b
  entry_mem : ∀ i ∈ intervals, entry i ∈ net.nodes ∧ ψ (entry i) = some i
  entry_only : ∀ b ∈ net.nodes, ∀ i, ψ b = some i → b ≠ entry i →
    net.preds b ≠ [] ∧ ∀ p ∈ net.preds b, ψ p = some i ∨ ψ p = none
  preds : ∀ i ∈ intervals, ∀ j, j ∈ g.preds .interval i ↔
    ∃ b ∈ net.nodes, ψ b = some i ∧ j ≠ i ∧ ∃ p ∈ net.preds b, ψ p = some j
  succs : ∀ i ∈ intervals, ∀ j, j ∈ g.succs .interval i ↔
    ∃ b ∈ net.nodes, ψ b = some i ∧ j ≠ i ∧ ∃ s ∈ net.succs b, ψ s = some j

variable {base budget : Nat} {net : Net} {ψ ψ' : BlockId → Option IntervalId}
  {intervals coarser : List IntervalId} {entry opener : IntervalId → BlockId}
  {g g' : FlowGraph} {i j : IntervalId} {b : BlockId}

/-- After the first pass the intervals cover the blocks. -/
theorem Regrouped.covered (h : Regrouped .block base budget net intervals opener g) :
    Covered budget net (g.owner .block) intervals opener g where
  isSome_iff := h.owner_isSome_iff
  mem := fun _ hb _ hown => h.grouped.mem_opened hb hown
  nodup := h.grouped.nodup
  exists_interval := fun i hi => (h.range i hi).2
  fits := h.fits
  insts := fun i hi => .of_eq (h.insts i hi)
  regs := h.regs
  entry_mem := fun _ hi => ⟨h.grouped.opener_mem hi, h.grouped.owner_opener hi⟩
  entry_only := fun _ hb _ hown hne => ⟨h.grouped.preds_ne_nil hb hown hne,
    fun _ hp => .inl (h.grouped.owner_pred hb hown hne hp)⟩
  preds := h.preds
  succs := h.succs

namespace Covered

variable (h : Covered budget net ψ intervals entry g)

include h

/-- Which blocks an interval covers matters for the blocks of the net only. -/
theorem congr (hc : net.Closed) (hψ : ∀ b ∈ net.nodes, ψ' b = ψ b) :
    Covered budget net ψ' intervals entry g := by
  have hfilter : ∀ i, (net.nodes.filter fun b => ψ' b = some i) =
      net.nodes.filter fun b => ψ b = some i := by
    intro i
    refine List.filter_congr fun b hb => ?_
    rw [hψ b hb]
  refine ⟨?_, ?_, h.nodup, h.exists_interval, h.fits, ?_, ?_, ?_, ?_, ?_, ?_⟩
  · intro b hb
    rw [hψ b hb]
    exact h.isSome_iff b hb
  · intro b hb i hi
    rw [hψ b hb] at hi
    exact h.mem b hb i hi
  · intro i hi
    rw [hfilter]
    exact h.insts i hi
  · intro i hi r
    rw [h.regs i hi]
    refine exists_congr fun b => and_congr_right fun hb => ?_
    rw [hψ b hb]
  · intro i hi
    obtain ⟨hmem, hentry⟩ := h.entry_mem i hi
    exact ⟨hmem, (hψ _ hmem).trans hentry⟩
  · intro b hb i hi hne
    rw [hψ b hb] at hi
    obtain ⟨hnil, hpreds⟩ := h.entry_only b hb i hi hne
    refine ⟨hnil, fun p hp => ?_⟩
    rw [hψ p (hc.pred_mem hb hp)]
    exact hpreds p hp
  · intro i hi j
    rw [h.preds i hi]
    refine exists_congr fun b => and_congr_right fun hb => ?_
    rw [hψ b hb]
    refine and_congr_right fun _ => and_congr_right fun _ => exists_congr fun p =>
      and_congr_right fun hp => ?_
    rw [hψ p (hc.pred_mem hb hp)]
  · intro i hi j
    rw [h.succs i hi]
    refine exists_congr fun b => and_congr_right fun hb => ?_
    rw [hψ b hb]
    refine and_congr_right fun _ => and_congr_right fun _ => exists_congr fun s =>
      and_congr_right fun hs => ?_
    rw [hψ s (hc.succ_mem hb hs)]

/-! ### The net of the intervals -/

theorem classes : Classes net ψ entry (g.net .interval intervals) :=
  ⟨h.isSome_iff, h.mem, h.entry_mem, h.entry_only, h.preds, h.succs⟩

/-- The intervals with their edges form a closed net. -/
theorem closed (hc : net.Closed) : (g.net .interval intervals).Closed := h.classes.closed hc

theorem loopless (hi : i ∈ intervals) : i ∉ g.preds .interval i := h.classes.loopless hi

/-- An edge from another interval leads to the entry. -/
theorem eq_entry (hb : b ∈ net.nodes) (hbi : ψ b = some i) {p : BlockId} (hp : p ∈ net.preds b)
    (hpj : ψ p = some j) (hne : j ≠ i) : b = entry i := h.classes.eq_entry hb hbi hp hpj hne

/-- The interval of a reachable block is reachable. -/
theorem reachable (hc : net.Closed) (hreach : net.Reachable b) :
    ∀ i, ψ b = some i → (g.net .interval intervals).Reachable i := h.classes.reachable hc hreach

end Covered

/-! ### Coarser intervals -/

/-- What the classes of some nodes hold, one class after the other, is what the nodes in
one of the classes hold. -/
theorem flatMap_classes_perm {β : Type} (f : BlockId → List β) (ψ : BlockId → Option IntervalId)
    (nodes : List BlockId) {is : List IntervalId} (hnodup : is.Nodup) :
    (is.flatMap fun i => (nodes.filter fun b => ψ b = some i).flatMap f).Perm
      ((nodes.filter fun b => ∃ i ∈ is, ψ b = some i).flatMap f) := by
  induction is with
  | nil => simp
  | cons i is ih =>
    obtain ⟨hi, hnodup⟩ := List.nodup_cons.mp hnodup
    have hclass : (nodes.filter fun b => ∃ k ∈ i :: is, ψ b = some k).filter
        (fun b => ψ b = some i) = nodes.filter fun b => ψ b = some i := by
      rw [List.filter_filter]
      refine List.filter_congr fun b _ => ?_
      rw [← Bool.decide_and]
      refine decide_eq_decide.mpr ⟨fun h => h.1, fun h => ⟨h, i, List.mem_cons_self, h⟩⟩
    have hrest : (nodes.filter fun b => ∃ k ∈ i :: is, ψ b = some k).filter
        (fun b => !decide (ψ b = some i)) = nodes.filter fun b => ∃ k ∈ is, ψ b = some k := by
      rw [List.filter_filter]
      refine List.filter_congr fun b _ => ?_
      rw [← decide_not, ← Bool.decide_and]
      refine decide_eq_decide.mpr ⟨?_, ?_⟩
      · rintro ⟨hne, k, hk, hbk⟩
        rcases List.mem_cons.mp hk with rfl | hk
        · exact absurd hbk hne
        · exact ⟨k, hk, hbk⟩
      · rintro ⟨k, hk, hbk⟩
        refine ⟨fun hbi => hi ?_, k, List.mem_cons_of_mem i hk, hbk⟩
        rw [← Option.some.inj (hbk.symm.trans hbi)]
        exact hk
    have hsplit := List.filter_append_perm (fun b => decide (ψ b = some i))
      (nodes.filter fun b => ∃ k ∈ i :: is, ψ b = some k)
    rw [hclass, hrest] at hsplit
    refine List.Perm.trans ?_ (hsplit.flatMap_right f)
    rw [List.flatMap_cons, List.flatMap_append]
    exact (ih hnodup).append_left _

namespace Covered

variable (h : Covered budget net ψ intervals entry g)

include h

/-- The coarser interval of a block is the owner of its interval. -/
theorem bind_eq_some_iff {owner : IntervalId → Option IntervalId} (hb : b ∈ net.nodes) :
    (ψ b).bind owner = some j ↔ ∃ i ∈ intervals, ψ b = some i ∧ owner i = some j := by
  rw [Option.bind_eq_some_iff]
  refine exists_congr fun i => ⟨fun ⟨hi, hij⟩ => ⟨h.mem b hb i hi, hi, hij⟩, fun h => h.2⟩

/-- Edges between coarser intervals are edges between their blocks. -/
theorem exists_edge_iff {owner : IntervalId → Option IntervalId} {nexts : BlockId → List BlockId}
    {ends : IntervalId → List IntervalId} {k : IntervalId}
    (hnexts : ∀ b ∈ net.nodes, ∀ x ∈ nexts b, x ∈ net.nodes)
    (hends : ∀ i ∈ intervals, ∀ q, q ∈ ends i ↔
      ∃ b ∈ net.nodes, ψ b = some i ∧ q ≠ i ∧ ∃ x ∈ nexts b, ψ x = some q) :
    (∃ i ∈ intervals, owner i = some j ∧ k ≠ j ∧ ∃ q ∈ ends i, owner q = some k) ↔
      ∃ b ∈ net.nodes, (ψ b).bind owner = some j ∧ k ≠ j ∧
        ∃ x ∈ nexts b, (ψ x).bind owner = some k := by
  constructor
  · rintro ⟨i, hi, hij, hkj, q, hq, hqk⟩
    obtain ⟨b, hb, hbi, _, x, hx, hxq⟩ := (hends i hi q).mp hq
    refine ⟨b, hb, (h.bind_eq_some_iff hb).mpr ⟨i, hi, hbi, hij⟩, hkj, x, hx, ?_⟩
    exact Option.bind_eq_some_iff.mpr ⟨q, hxq, hqk⟩
  · rintro ⟨b, hb, hbj, hkj, x, hx, hxk⟩
    obtain ⟨i, hi, hbi, hij⟩ := (h.bind_eq_some_iff hb).mp hbj
    obtain ⟨q, _, hxq, hqk⟩ := (h.bind_eq_some_iff (hnexts b hb x hx)).mp hxk
    -- Blocks in different coarse intervals are in different ones already.
    have hqi : q ≠ i := fun hqi => hkj (Option.some.inj (hqk.symm.trans (hqi ▸ hij)))
    exact ⟨i, hi, hij, hkj, q, (hends i hi q).mpr ⟨b, hb, hbi, hqi, x, hx, hxq⟩, hqk⟩

variable (hend : Regrouped .interval g.intervals.size budget (g.net .interval intervals) coarser
  opener g')

include hend

theorem isSome_bind_iff (hc : net.Closed) (hb : b ∈ net.nodes) :
    ((ψ b).bind (g'.owner .interval)).isSome ↔ net.Reachable b := by
  constructor
  · intro hsome
    obtain ⟨j, hj⟩ := Option.isSome_iff_exists.mp hsome
    obtain ⟨i, _, hi, _⟩ := (h.bind_eq_some_iff hb).mp hj
    exact (h.isSome_iff b hb).mp (Option.isSome_iff_exists.mpr ⟨i, hi⟩)
  · intro hreach
    obtain ⟨i, hi⟩ := Option.isSome_iff_exists.mp ((h.isSome_iff b hb).mpr hreach)
    obtain ⟨j, _, hj⟩ := hend.exists_owner (h.reachable hc hreach i hi)
    exact Option.isSome_iff_exists.mpr ⟨j, Option.bind_eq_some_iff.mpr ⟨i, hi, hj⟩⟩

/-- A coarser interval holds the instructions of its blocks: its members hold what their
blocks hold, and each block is in one member. -/
theorem insts_perm (hkept : Kept g.intervals.size intervals g g') (hj : j ∈ coarser) :
    (g'.insts .interval j).Perm
      ((net.nodes.filter fun b => (ψ b).bind (g'.owner .interval) = some j).flatMap
        (g'.insts .block)) := by
  have hinsts : g'.insts .block = g.insts .block := FlowGraph.see_block_congr hkept.blocks
  have hmembers : ((intervals.filter fun i => g'.owner .interval i = some j).flatMap
      (g'.insts .interval)).Perm
        ((intervals.filter fun i => g'.owner .interval i = some j).flatMap fun i =>
          (net.nodes.filter fun b => ψ b = some i).flatMap (g.insts .block)) := by
    refine List.Perm.flatMap_left _ fun i hi => ?_
    have hi' := List.mem_of_mem_filter hi
    rw [hkept.insts i (h.exists_interval i hi')]
    exact h.insts i hi'
  have hclass : (net.nodes.filter fun b => ∃ i ∈ intervals.filter
      (fun i => g'.owner .interval i = some j), ψ b = some i) =
      net.nodes.filter fun b => (ψ b).bind (g'.owner .interval) = some j := by
    refine List.filter_congr fun b hb => decide_eq_decide.mpr ?_
    rw [h.bind_eq_some_iff hb]
    simp only [List.mem_filter, decide_eq_true_iff, and_assoc]
    exact exists_congr fun i => and_congr_right fun _ => and_comm
  rw [hend.insts j hj, hinsts, ← hclass]
  exact hmembers.trans (flatMap_classes_perm _ ψ net.nodes (h.nodup.filter _))

/-- A coarser interval has the registers of its blocks. -/
theorem mem_regs_iff (hkept : Kept g.intervals.size intervals g g') (hj : j ∈ coarser) (r : Reg) :
    r ∈ g'.regs .interval j ↔
      ∃ b ∈ net.nodes, (ψ b).bind (g'.owner .interval) = some j ∧ r ∈ g'.regs .block b := by
  have hregs : g'.regs .block = g.regs .block := FlowGraph.see_block_congr hkept.blocks
  rw [hend.regs j hj, hregs]
  constructor
  · rintro ⟨i, hi, hij, hr⟩
    rw [hkept.regs i (h.exists_interval i hi), h.regs i hi] at hr
    obtain ⟨b, hb, hbi, hr⟩ := hr
    exact ⟨b, hb, (h.bind_eq_some_iff hb).mpr ⟨i, hi, hbi, hij⟩, hr⟩
  · rintro ⟨b, hb, hbj, hr⟩
    obtain ⟨i, hi, hbi, hij⟩ := (h.bind_eq_some_iff hb).mp hbj
    refine ⟨i, hi, hij, ?_⟩
    rw [hkept.regs i (h.exists_interval i hi), h.regs i hi]
    exact ⟨b, hb, hbi, hr⟩

/-- The entry of a member that did not open its interval is entered from the interval. -/
theorem preds_entry (hi : i ∈ intervals) (hij : g'.owner .interval i = some j)
    (hne : i ≠ opener j) : net.preds (entry i) ≠ [] ∧
      ∀ p ∈ net.preds (entry i), (ψ p).bind (g'.owner .interval) = some j ∨ ψ p = none := by
  obtain ⟨hentry, hentryi⟩ := h.entry_mem i hi
  obtain ⟨k, hk⟩ := List.exists_mem_of_ne_nil _ (hend.grouped.preds_ne_nil hi hij hne)
  obtain ⟨b, hb, hbi, hki, p, hp, hpk⟩ := (h.preds i hi k).mp hk
  rw [h.eq_entry hb hbi hp hpk hki] at hp
  refine ⟨List.ne_nil_of_mem hp, fun p hp => ?_⟩
  cases hpk : ψ p with
  | none => exact .inr rfl
  | some k =>
    refine .inl (Option.bind_eq_some_iff.mpr ⟨k, rfl, ?_⟩)
    by_cases hki : k = i
    · exact hki ▸ hij
    -- From another interval: that one is before the member, hence in the same.
    · have hpred := (h.preds i hi k).mpr ⟨entry i, hentry, hentryi, hki, p, hp, hpk⟩
      exact hend.grouped.owner_pred hi hij hne hpred

/-- Other blocks than the entry of a coarser interval are entered from the interval. -/
theorem preds_of_ne_entry (hb : b ∈ net.nodes)
    (hbj : (ψ b).bind (g'.owner .interval) = some j) (hne : b ≠ entry (opener j)) :
    net.preds b ≠ [] ∧ ∀ p ∈ net.preds b,
      (ψ p).bind (g'.owner .interval) = some j ∨ (ψ p).bind (g'.owner .interval) = none := by
  obtain ⟨i, hi, hbi, hij⟩ := (h.bind_eq_some_iff hb).mp hbj
  have hnone : ∀ p, ψ p = none → (ψ p).bind (g'.owner .interval) = none := by
    intro p hp
    rw [hp]
    rfl
  by_cases hbe : b = entry i
  · have hio : i ≠ opener j := fun hio => hne (hio ▸ hbe)
    obtain ⟨hnil, hpreds⟩ := h.preds_entry hend hi hij hio
    rw [hbe]
    exact ⟨hnil, fun p hp => (hpreds p hp).imp_right (hnone p)⟩
  · obtain ⟨hnil, hpreds⟩ := h.entry_only b hb i hbi hbe
    refine ⟨hnil, fun p hp => (hpreds p hp).imp (fun hpi => ?_) (hnone p)⟩
    exact Option.bind_eq_some_iff.mpr ⟨i, hpi, hij⟩

/-- A pass over the intervals makes coarser intervals that cover the blocks. -/
theorem coarsen (hc : net.Closed) (hkept : Kept g.intervals.size intervals g g') :
    Covered budget net (fun b => (ψ b).bind (g'.owner .interval)) coarser
      (fun j => entry (opener j)) g' where
  isSome_iff := fun _ hb => h.isSome_bind_iff hend hc hb
  mem := by
    intro b hb j hj
    obtain ⟨i, hi, _, hij⟩ := (h.bind_eq_some_iff hb).mp hj
    exact hend.grouped.mem_opened hi hij
  nodup := hend.grouped.nodup
  exists_interval := fun j hj => (hend.range j hj).2
  fits := hend.fits
  insts := fun _ hj => h.insts_perm hend hkept hj
  regs := fun _ hj => h.mem_regs_iff hend hkept hj
  entry_mem := by
    intro j hj
    obtain ⟨hentry, hentryi⟩ := h.entry_mem (opener j) (hend.grouped.opener_mem hj)
    exact ⟨hentry, Option.bind_eq_some_iff.mpr ⟨_, hentryi, hend.grouped.owner_opener hj⟩⟩
  entry_only := fun _ hb _ hbj hne => h.preds_of_ne_entry hend hb hbj hne
  preds := by
    intro j hj k
    rw [hend.preds j hj]
    exact h.exists_edge_iff (fun b hb p hp => hc.pred_mem hb hp) h.preds
  succs := by
    intro j hj k
    rw [hend.succs j hj]
    exact h.exists_edge_iff (fun b hb s hs => hc.succ_mem hb hs) h.succs

end Covered

end KernelIntervals
