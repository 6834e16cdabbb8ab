/-
Groupings that leave nothing to gather.

* `Shares` — two blocks share a region,
* `Stable` — the members of every region, its opener apart, are the blocks that can join those
  before them,
* `Stable.owner_iff` — regions of two such groupings with one opener are one region,
* `Stable.opener_eq` — the regions that a block is in have one opener,
* `Stable.shares_iff` — so there is only one such grouping of the blocks of a net,
* `Stable.owner_eq_of_joinable` — in which no block is outside of a region that it can join.

Design notes: neither the order in which regions were made nor that in which they were visited
is part of a grouping. The members of a region are told along the list, its opener along a path
from an entry, which comes to the openers of both regions of a block before it comes to the block.
-/
import Mathlib.Data.List.Induction
import KernelIntervals.Proofs.Gathered
import KernelIntervals.Proofs.SingleEntry

namespace KernelIntervals

/-- Two blocks share a region. -/
def Shares (owner : BlockId → Option IntervalId) (m n : BlockId) : Prop :=
  ∃ i, owner m = some i ∧ owner n = some i

instance (owner : BlockId → Option IntervalId) (m n : BlockId) : Decidable (Shares owner m n) :=
  decidable_of_iff ((owner m).any fun i => owner n = some i) <| by
    rw [Option.any_eq_true]
    exact exists_congr fun i => and_congr_right fun _ => decide_eq_true_iff

theorem shares_iff_owner_eq {owner : BlockId → Option IntervalId} {m n : BlockId}
    {i : IntervalId} (hm : owner m = some i) : Shares owner m n ↔ owner n = some i := by
  refine ⟨?_, fun hn => ⟨i, hm, hn⟩⟩
  rintro ⟨j, hj, hn⟩
  exact hn.trans (hj.symm.trans hm)

/-- The reachable blocks are grouped into regions, and a block is in a region that it does not open
exactly if it can join the members before it. -/
structure Stable (budget : Nat) (g : FlowGraph) (nodes : List BlockId)
    (owner : BlockId → Option IntervalId) (opener : IntervalId → BlockId)
    (opened : List IntervalId) : Prop where
  grouped : Grouped (g.net .block nodes) owner opener opened
  exists_owner : ∀ x, (g.net .block nodes).Reachable x → ∃ i, owner x = some i
  member_iff : ∀ k ∈ opened, ∀ c ∈ nodes, c ≠ opener k →
    (owner c = some k ↔ Joinable budget g (before owner nodes (opener k) k c) c)

namespace Stable

variable {budget : Nat} {g : FlowGraph} {nodes : List BlockId}
  {owner owner' : BlockId → Option IntervalId} {opener opener' : IntervalId → BlockId}
  {opened opened' : List IntervalId} {i j : IntervalId} {m n x : BlockId} {path : List BlockId}
  (h : Stable budget g nodes owner opener opened)
  (h' : Stable budget g nodes owner' opener' opened')

include h h'

/-- Regions with one opener are one region. -/
theorem owner_iff (hi : i ∈ opened) (hj : j ∈ opened') (hsame : opener i = opener' j)
    (hx : x ∈ nodes) : owner x = some i ↔ owner' x = some j := by
  -- The members are told one after the other along the list.
  have hall : ∀ front, front <+: nodes → ∀ x ∈ front, (owner x = some i ↔ owner' x = some j) := by
    intro front
    induction front using List.reverseRecOn with
    | nil => exact fun _ x hx => absurd hx List.not_mem_nil
    | append_singleton front c ih =>
      intro hinitial x hx
      have ih := ih ((List.prefix_append front [c]).trans hinitial)
      by_cases hfront : x ∈ front
      · exact ih x hfront
      obtain rfl : x = c := List.mem_singleton.mp ((List.mem_append.mp hx).resolve_left hfront)
      by_cases hopen : x = opener i
      · rw [hopen, h.grouped.owner_opener hi, hsame, h'.grouped.owner_opener hj]
        exact iff_of_true rfl rfl
      have htake : nodes.takeWhile (· ≠ x) = front := by
        obtain ⟨back, rfl⟩ := hinitial
        rw [List.append_assoc, List.singleton_append]
        exact takeWhile_ne_append hfront
      have hmem : x ∈ nodes := hinitial.subset hx
      rw [h.member_iff i hi x hmem hopen, h'.member_iff j hj x hmem (hsame ▸ hopen), ← hsame,
        before_congr fun y hy => ih y (htake ▸ hy)]
  exact hall nodes (List.prefix_refl nodes) x hx

/-- If a block does not open its region, the opener comes before it on every path, and it tells
the region of the block in the other grouping. -/
theorem opener_eq_of_ne (hc : (g.net .block nodes).Closed)
    (htrail : (g.net .block nodes).Trail (x :: path)) (hi : owner x = some i)
    (hj : owner' x = some j) (hne : x ≠ opener i)
    (ih : ∀ y back, back.length < path.length → (g.net .block nodes).Trail (y :: back) →
      ∀ i j, owner y = some i → owner' y = some j → opener i = opener' j) :
    opener i = opener' j := by
  have hx : x ∈ nodes := (htrail.reachable x List.mem_cons_self).mem hc
  have hopened : i ∈ opened := h.grouped.mem_opened hx hi
  have hmem := (List.mem_cons.mp (h.grouped.opener_dominates hc hx hi path htrail)).resolve_left
    hne.symm
  obtain ⟨front, back, rfl⟩ := List.append_of_mem hmem
  have hback : (g.net .block nodes).Trail (opener i :: back) :=
    Net.Trail.of_append (x :: front) htrail
  obtain ⟨j', hj'⟩ := h'.exists_owner _ (hback.reachable _ List.mem_cons_self)
  have hlt : back.length < (front ++ opener i :: back).length := by
    rw [List.length_append, List.length_cons]
    omega
  have hsame := ih _ back hlt hback i j' (h.grouped.owner_opener hopened) hj'
  have hopened' : j' ∈ opened' := h'.grouped.mem_opened (h.grouped.opener_mem hopened) hj'
  obtain rfl : j' = j :=
    Option.some.inj (((h.owner_iff h' hopened hopened' hsame hx).mp hi).symm.trans hj)
  exact hsame

/-- The regions that a reachable block is in have one opener. -/
theorem opener_eq (hc : (g.net .block nodes).Closed)
    (htrail : (g.net .block nodes).Trail (x :: path)) (hi : owner x = some i)
    (hj : owner' x = some j) : opener i = opener' j := by
  induction hlen : path.length using Nat.strongRecOn generalizing x path i j with
  | _ k ih =>
    subst hlen
    by_cases hx : x = opener i
    · by_cases hx' : x = opener' j
      · exact hx.symm.trans hx'
      · refine (h'.opener_eq_of_ne h hc htrail hj hi hx' fun y back hlt hback i j hi hj => ?_).symm
        exact (ih back.length hlt hback hj hi rfl).symm
    · exact h.opener_eq_of_ne h' hc htrail hi hj hx fun y back hlt hback i j hi hj =>
        ih back.length hlt hback hi hj rfl

/-- Blocks that share a region share one in every such grouping. -/
theorem shares (hc : (g.net .block nodes).Closed) (hm : m ∈ nodes) (hn : n ∈ nodes)
    (hshares : Shares owner m n) : Shares owner' m n := by
  obtain ⟨i, hmi, hni⟩ := hshares
  have hreach := h.grouped.reachable hm hmi
  obtain ⟨path, htrail⟩ := hreach.exists_trail
  obtain ⟨j, hj⟩ := h'.exists_owner m hreach
  have hsame := h.opener_eq h' hc htrail hmi hj
  refine ⟨j, hj, ?_⟩
  exact (h.owner_iff h' (h.grouped.mem_opened hm hmi) (h'.grouped.mem_opened hm hj) hsame hn).mp hni

/-- There is only one stable grouping. -/
theorem shares_iff (hc : (g.net .block nodes).Closed) (hm : m ∈ nodes) (hn : n ∈ nodes) :
    Shares owner m n ↔ Shares owner' m n :=
  ⟨h.shares h' hc hm hn, h'.shares h hc hm hn⟩

omit h' in
/-- In a grouping with the regions of a stable one, a block is in every region that it can join. -/
theorem owner_eq_of_joinable {e c : BlockId} (hc : (g.net .block nodes).Closed)
    (hshares : ∀ m ∈ nodes, ∀ n ∈ nodes, Shares owner m n ↔ Shares owner' m n)
    (he : SingleEntry (g.net .block nodes) owner' i e) (hreach : (g.net .block nodes).Reachable e)
    (hmem : c ∈ nodes) (hjoin : Joinable budget g (before owner' nodes e i c) c) :
    owner' c = some i := by
  obtain ⟨j, hj⟩ := h.exists_owner e hreach
  have hregion : ∀ x ∈ nodes, owner x = some j ↔ owner' x = some i := by
    intro x hx
    rw [← shares_iff_owner_eq hj, ← shares_iff_owner_eq he.owner_eq]
    exact hshares e he.mem x hx
  have hopened : j ∈ opened := h.grouped.mem_opened he.mem hj
  -- The opener of the stable region is the only way into the region as well.
  obtain rfl : e = opener j := by
    have hmem : opener j ∈ nodes := h.grouped.opener_mem hopened
    exact (he.dominates _ hmem ((hregion _ hmem).mp (h.grouped.owner_opener hopened))).antisymm
      (h.grouped.opener_dominates hc he.mem hj) hreach
  by_cases hne : c = opener j
  · rw [hne]
    exact he.owner_eq
  · rw [← hregion c hmem, h.member_iff j hopened c hmem hne,
      before_congr fun x hx => hregion x (List.takeWhile_subset _ hx)]
    exact hjoin

end Stable

end KernelIntervals
