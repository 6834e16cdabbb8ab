/-
Regions of a net with one entry each.

* `Grouped` — the nodes that have an owner form single-entry regions: all but the
  opener of a region have predecessors, all in the region, and every node of a
  region is reached from its opener inside it,
* `Waiting` — a waiting node is alone in its region,
* `Covers` — the regions with a node behind them that has no owner,
* `Grouped.start`, `Grouped.join`, `Grouped.cut` — the three changes that the passes
  make: a node starts a region, a node joins one, a node is cut in two; `Waiting`
  and `Covers` are kept by the same changes,
* `Grouped.owner_isSome_iff` — at the end a node has an owner iff it is reachable.

Design notes: a node may lose a predecessor from its region when a node is cut,
because the tail starts a region of its own. This does no harm as long as the
only follower of the cut node in its own region is the opener.
-/
import Mathlib.Logic.Function.Basic
import KernelIntervals.Flow.Level
import KernelIntervals.Proofs.Net

namespace KernelIntervals

open Relation Function

/-- An edge between two nodes of one owner. -/
def Net.Inside (net : Net) (owner : Nat → Option IntervalId) (i : IntervalId) (a b : Nat) : Prop :=
  net.Edge a b ∧ owner a = some i ∧ owner b = some i

/-- The nodes with an owner form regions with one entry each, their openers. -/
structure Grouped (net : Net) (owner : Nat → Option IntervalId) (opener : IntervalId → Nat)
    (opened : List IntervalId) : Prop where
  nodup : opened.Nodup
  mem_opened : ∀ {n i}, n ∈ net.nodes → owner n = some i → i ∈ opened
  opener_mem : ∀ {i}, i ∈ opened → opener i ∈ net.nodes
  owner_opener : ∀ {i}, i ∈ opened → owner (opener i) = some i
  preds_ne_nil : ∀ {n i}, n ∈ net.nodes → owner n = some i → n ≠ opener i → net.preds n ≠ []
  owner_pred : ∀ {n i p}, n ∈ net.nodes → owner n = some i → n ≠ opener i → p ∈ net.preds n →
    owner p = some i
  connected : ∀ {n i}, n ∈ net.nodes → owner n = some i →
    ReflTransGen (net.Inside owner i) (opener i) n
  reachable : ∀ {n i}, n ∈ net.nodes → owner n = some i → net.Reachable n

/-- The waiting nodes are listed once, and each is alone in its region. -/
structure Waiting (net : Net) (owner : Nat → Option IntervalId) (worklist : List Nat) : Prop where
  nodup : worklist.Nodup
  mem : ∀ {n}, n ∈ worklist → n ∈ net.nodes
  alone : ∀ {n}, n ∈ worklist → ∃ i, owner n = some i ∧ ∀ m ∈ net.nodes, owner m = some i → m = n

/-- Only behind the regions that `busy` tells there are nodes without an owner. -/
def Covers (net : Net) (owner : Nat → Option IntervalId) (busy : IntervalId → Prop) : Prop :=
  ∀ n ∈ net.nodes, ∀ i, owner n = some i → ∀ s ∈ net.succs n, owner s = none → busy i

variable {net : Net} {owner : Nat → Option IntervalId} {opener : IntervalId → Nat}
  {opened : List IntervalId} {worklist : List Nat} {n : Nat} {i : IntervalId}

/-! ### Claiming a node -/

theorem ne_of_owner {m : Nat} {j : IntervalId} (hfree : owner n = none) (h : owner m = some j) :
    m ≠ n := by
  intro hmn
  rw [hmn, hfree] at h
  injection h

/-- If owners are kept, a node that has none later had none before. -/
theorem owner_eq_none {owner owner' : Nat → Option IntervalId} {x : Nat}
    (hkeep : ∀ k, owner x = some k → owner' x = some k) (hnone : owner' x = none) :
    owner x = none := by
  cases hown : owner x with
  | none => rfl
  | some k =>
    rw [hkeep k hown] at hnone
    injection hnone

/-- Who owns a node before a free node is claimed owns it after. -/
theorem owner_update {m : Nat} {j : IntervalId} (hfree : owner n = none) (h : owner m = some j) :
    update owner n (some i) m = some j := by
  rw [update_of_ne (ne_of_owner hfree h)]
  exact h

/-- A node that is not free stays so after another one is claimed. -/
theorem owner_update_ne_none {m : Nat} (h : m ≠ n → owner m ≠ none) :
    update owner n (some i) m ≠ none := by
  by_cases hmn : m = n
  · rw [hmn, update_self]
    exact Option.some_ne_none i
  · rw [update_of_ne hmn]
    exact h hmn

/-- Other regions have the same nodes after a free node is claimed. -/
theorem owner_update_iff {m : Nat} {j : IntervalId} (hfree : owner n = none) (hne : i ≠ j) :
    update owner n (some i) m = some j ↔ owner m = some j := by
  refine ⟨fun hown => ?_, owner_update hfree⟩
  by_cases hmn : m = n
  · rw [hmn, update_self] at hown
    exact absurd (Option.some.inj hown) hne
  · rw [update_of_ne hmn] at hown
    exact hown

/-- Paths inside a region are there after a free node is claimed. -/
theorem connected_update {a b : Nat} {j : IntervalId} (hfree : owner n = none)
    (h : ReflTransGen (net.Inside owner j) a b) :
    ReflTransGen (net.Inside (update owner n (some i)) j) a b := by
  refine ReflTransGen.mono ?_ _ _ h
  rintro a b ⟨hedge, ha, hb⟩
  exact ⟨hedge, owner_update hfree ha, owner_update hfree hb⟩

namespace Grouped

/-- A reachable node without an owner may start a region. -/
theorem start (h : Grouped net owner opener opened) (hn : n ∈ net.nodes) (hfree : owner n = none)
    (hi : i ∉ opened) (hreach : net.Reachable n) :
    Grouped net (update owner n (some i)) (update opener i n) (opened ++ [i]) := by
  -- Other nodes keep their owner, and other regions their opener.
  have hold : ∀ {m j}, m ∈ net.nodes → m ≠ n → update owner n (some i) m = some j →
      owner m = some j ∧ update opener i n j = opener j := by
    intro m j hm hne hown
    rw [update_of_ne hne] at hown
    exact ⟨hown, update_of_ne (ne_of_mem_of_not_mem (h.mem_opened hm hown) hi) _ _⟩
  have hself : ∀ {j}, update owner n (some i) n = some j → j = i := by
    intro j hown
    rw [update_self] at hown
    exact (Option.some.inj hown).symm
  refine ⟨?_, ?_, ?_, ?_, ?_, ?_, ?_, ?_⟩
  · exact List.nodup_append.mpr ⟨h.nodup, List.pairwise_singleton _ i,
      fun a ha b hb => List.mem_singleton.mp hb ▸ ne_of_mem_of_not_mem ha hi⟩
  · intro m j hm hown
    by_cases hne : m = n
    · rw [hne] at hown
      rw [hself hown]
      exact List.mem_append_right _ (List.mem_singleton_self i)
    · exact List.mem_append_left _ (h.mem_opened hm (hold hm hne hown).1)
  · intro j hj
    by_cases hji : j = i
    · rw [hji, update_self]
      exact hn
    · rw [update_of_ne hji]
      exact h.opener_mem (Net.mem_of_ne_last hj hji)
  · intro j hj
    by_cases hji : j = i
    · rw [hji, update_self, update_self]
    · rw [update_of_ne hji]
      have hj' : j ∈ opened := Net.mem_of_ne_last hj hji
      exact owner_update hfree (h.owner_opener hj')
  · intro m j hm hown hopen
    by_cases hne : m = n
    · rw [hne] at hown hopen
      rw [hself hown, update_self] at hopen
      exact absurd rfl hopen
    · obtain ⟨hown', hop⟩ := hold hm hne hown
      exact h.preds_ne_nil hm hown' (hop ▸ hopen)
  · intro m j p hm hown hopen hp
    by_cases hne : m = n
    · rw [hne] at hown hopen
      rw [hself hown, update_self] at hopen
      exact absurd rfl hopen
    · obtain ⟨hown', hop⟩ := hold hm hne hown
      exact owner_update hfree (h.owner_pred hm hown' (hop ▸ hopen) hp)
  · intro m j hm hown
    by_cases hne : m = n
    · rw [hne] at hown ⊢
      rw [hself hown, update_self]
    · obtain ⟨hown', hop⟩ := hold hm hne hown
      rw [hop]
      exact connected_update hfree (h.connected hm hown')
  · intro m j hm hown
    by_cases hne : m = n
    · rw [hne]
      exact hreach
    · exact h.reachable hm (hold hm hne hown).1

/-- A node without an owner may join the region that all its predecessors are in. -/
theorem join (h : Grouped net owner opener opened) (hc : net.Closed) (hn : n ∈ net.nodes)
    (hfree : owner n = none) (hi : i ∈ opened) (hne : net.preds n ≠ [])
    (hpreds : ∀ p ∈ net.preds n, owner p = some i) :
    Grouped net (update owner n (some i)) opener opened := by
  have hself : ∀ {j}, update owner n (some i) n = some j → j = i := by
    intro j hown
    rw [update_self] at hown
    exact (Option.some.inj hown).symm
  -- The node is reached, inside the region, through any of its predecessors.
  obtain ⟨q, hq⟩ := List.exists_mem_of_ne_nil _ hne
  have hqn : q ∈ net.nodes := hc.pred_mem hn hq
  have hedge : net.Edge q n := hc.mem_succs hn hq
  refine ⟨h.nodup, ?_, h.opener_mem, ?_, ?_, ?_, ?_, ?_⟩
  · intro m j hm hown
    by_cases hmn : m = n
    · rw [hmn] at hown
      rw [hself hown]
      exact hi
    · rw [update_of_ne hmn] at hown
      exact h.mem_opened hm hown
  · intro j hj
    exact owner_update hfree (h.owner_opener hj)
  · intro m j hm hown hopen
    by_cases hmn : m = n
    · rw [hmn]
      exact hne
    · rw [update_of_ne hmn] at hown
      exact h.preds_ne_nil hm hown hopen
  · intro m j p hm hown hopen hp
    by_cases hmn : m = n
    · rw [hmn] at hown hp
      rw [hself hown]
      exact owner_update hfree (hpreds p hp)
    · rw [update_of_ne hmn] at hown
      exact owner_update hfree (h.owner_pred hm hown hopen hp)
  · intro m j hm hown
    by_cases hmn : m = n
    · rw [hmn] at hown ⊢
      rw [hself hown]
      have hpath := connected_update (i := i) hfree (h.connected hqn (hpreds q hq))
      exact hpath.tail ⟨hedge, owner_update hfree (hpreds q hq), update_self ..⟩
    · rw [update_of_ne hmn] at hown
      exact connected_update hfree (h.connected hm hown)
  · intro m j hm hown
    by_cases hmn : m = n
    · rw [hmn]
      exact (h.reachable hqn (hpreds q hq)).step hedge
    · rw [update_of_ne hmn] at hown
      exact h.reachable hm hown

end Grouped

namespace Waiting

theorem start (h : Waiting net owner worklist) (hn : n ∈ net.nodes) (hfree : owner n = none)
    (hi : ∀ m ∈ net.nodes, owner m ≠ some i) :
    Waiting net (update owner n (some i)) (worklist ++ [n]) := by
  have hfresh : ∀ m ∈ worklist, m ≠ n := by
    intro m hm
    obtain ⟨j, hj, _⟩ := h.alone hm
    exact ne_of_owner hfree hj
  refine ⟨?_, ?_, ?_⟩
  · exact List.nodup_append.mpr ⟨h.nodup, List.pairwise_singleton _ n,
      fun a ha b hb => List.mem_singleton.mp hb ▸ hfresh a ha⟩
  · intro m hm
    rcases List.mem_append.mp hm with hm | hm
    · exact h.mem hm
    · rw [List.mem_singleton.mp hm]
      exact hn
  · intro m hm
    rcases List.mem_append.mp hm with hm | hm
    · obtain ⟨j, hj, halone⟩ := h.alone hm
      refine ⟨j, owner_update hfree hj, fun x hx hown => halone x hx ?_⟩
      by_cases hxn : x = n
      · rw [hxn, update_self] at hown
        exact absurd (hown ▸ hj) (hi m (h.mem hm))
      · rwa [update_of_ne hxn] at hown
    · rw [List.mem_singleton.mp hm]
      refine ⟨i, update_self .., fun x hx hown => ?_⟩
      by_contra hxn
      rw [update_of_ne hxn] at hown
      exact hi x hx hown

theorem join (h : Waiting net owner worklist) (hfree : owner n = none)
    (hi : ∀ m ∈ worklist, owner m ≠ some i) :
    Waiting net (update owner n (some i)) worklist := by
  refine ⟨h.nodup, h.mem, fun {m} hm => ?_⟩
  obtain ⟨j, hj, halone⟩ := h.alone hm
  refine ⟨j, owner_update hfree hj, fun x hx hown => halone x hx ?_⟩
  by_cases hxn : x = n
  · rw [hxn, update_self] at hown
    exact absurd (hown ▸ hj) (hi m hm)
  · rwa [update_of_ne hxn] at hown

/-- A waiting node has an owner, so it is not the one that is claimed. -/
theorem idle_claim (h : Waiting net owner worklist) (hfree : owner n = none) {j : IntervalId}
    (hidle : ∀ m ∈ worklist, owner m ≠ some j) :
    ∀ m ∈ worklist, update owner n (some i) m ≠ some j := by
  intro m hm hown
  obtain ⟨k, hk, _⟩ := h.alone hm
  rw [owner_update hfree hk] at hown
  exact hidle m hm (hown ▸ hk)

/-- No other waiting node is in the region of the first one. -/
theorem pop {rest : List Nat} (h : Waiting net owner (n :: rest)) :
    Waiting net owner rest ∧ n ∈ net.nodes ∧ ∃ i, owner n = some i ∧
      (∀ m ∈ net.nodes, owner m = some i → m = n) ∧ ∀ m ∈ rest, owner m ≠ some i := by
  obtain ⟨hnotin, hnodup⟩ := List.nodup_cons.mp h.nodup
  obtain ⟨i, hi, halone⟩ := h.alone List.mem_cons_self
  refine ⟨⟨hnodup, fun hm => h.mem (List.mem_cons_of_mem n hm),
    fun hm => h.alone (List.mem_cons_of_mem n hm)⟩, h.mem List.mem_cons_self, i, hi, halone, ?_⟩
  intro m hm hown
  exact hnotin (halone m (h.mem (List.mem_cons_of_mem n hm)) hown ▸ hm)

end Waiting

/-- Claiming a node for a busy region leaves no new region uncovered. -/
theorem Covers.claim {busy busy' : IntervalId → Prop} (h : Covers net owner busy)
    (hi : busy' i) (hbusy : ∀ j, busy j → busy' j) :
    Covers net (update owner n (some i)) busy' := by
  intro m hm j hown s hs hsfree
  have hsn : s ≠ n := by
    intro hsn
    rw [hsn, update_self] at hsfree
    injection hsfree
  rw [update_of_ne hsn] at hsfree
  by_cases hmn : m = n
  · rw [hmn, update_self] at hown
    rw [← Option.some.inj hown]
    exact hi
  · rw [update_of_ne hmn] at hown
    exact hbusy j (h m hm j hown s hs hsfree)

/-! ### Cutting a node -/

section Cut

variable {head tail : Nat} (hc : net.Closed) (hhead : head ∈ net.nodes) (htail : tail ∉ net.nodes)
  (hnone : owner tail = none)

include hnone in
/-- A node with an owner is not the tail that is cut off. -/
theorem mem_of_owner_cut {m : Nat} {j : IntervalId} (hm : m ∈ (net.cut head tail).nodes)
    (hown : owner m = some j) : m ∈ net.nodes ∧ m ≠ tail := by
  have hne : m ≠ tail := ne_of_owner hnone hown
  exact ⟨Net.mem_of_ne_last hm hne, hne⟩

include hc htail in
/-- A path inside a region that comes through the head of a cut goes back to the
start of the path, and may as well begin there. -/
theorem connected_cut {start m : Nat} {j : IntervalId} (hstart : start ∈ net.nodes)
    (hbehind : ∀ x ∈ net.nodes, head ∈ net.preds x → owner x = some j → x = start)
    (hpath : ReflTransGen (net.Inside owner j) start m) :
    m ∈ net.nodes ∧ ReflTransGen ((net.cut head tail).Inside owner j) start m := by
  induction hpath with
  | refl => exact ⟨hstart, .refl⟩
  | @tail a b _ hab ih =>
    obtain ⟨ha, hpath'⟩ := ih
    obtain ⟨hedge, hai, hbi⟩ := hab
    have hb : b ∈ net.nodes := hc.succ_mem ha hedge
    refine ⟨hb, ?_⟩
    by_cases hbs : b = start
    · rw [hbs]
    · -- The step does not leave from the head, whose edges alone are new.
      have hah : a ≠ head := fun hah =>
        hbs (hbehind b hb (hah ▸ hc.mem_preds ha hedge) hbi)
      refine hpath'.tail ⟨?_, hai, hbi⟩
      show b ∈ (net.cut head tail).succs a
      rw [Net.succs_cut_of_ne (ne_of_mem_of_not_mem ha htail) hah]
      exact hedge

include hc hhead htail hnone in
/-- A node may be cut in two if none behind it is in its region, the opener apart. -/
theorem Grouped.cut (h : Grouped net owner opener opened)
    (hbehind : ∀ x ∈ net.nodes, head ∈ net.preds x → ∀ j, owner x = some j → x = opener j) :
    Grouped (net.cut head tail) owner opener opened := by
  refine ⟨h.nodup, ?_, ?_, h.owner_opener, ?_, ?_, ?_, ?_⟩
  · intro m j hm hown
    exact h.mem_opened (mem_of_owner_cut hnone hm hown).1 hown
  · intro j hj
    exact List.mem_append_left _ (h.opener_mem hj)
  · intro m j hm hown hopen
    obtain ⟨hm', hmt⟩ := mem_of_owner_cut hnone hm hown
    rw [ne_eq, Net.preds_cut_eq_nil hmt]
    exact h.preds_ne_nil hm' hown hopen
  · intro m j p hm hown hopen hp
    obtain ⟨hm', _⟩ := mem_of_owner_cut hnone hm hown
    -- Only openers may have the tail in the place of the head.
    rcases (Net.mem_preds_cut hc hhead htail hm').mp hp with ⟨_, hbefore⟩ | ⟨_, hp⟩
    · exact absurd (hbehind m hm' hbefore j hown) hopen
    · exact h.owner_pred hm' hown hopen hp
  · intro m j hm hown
    have hstart := h.opener_mem (h.mem_opened (mem_of_owner_cut hnone hm hown).1 hown)
    have hpath := h.connected (mem_of_owner_cut hnone hm hown).1 hown
    exact (connected_cut hc htail hstart (fun x hx hpred => hbehind x hx hpred j) hpath).2
  · intro m j hm hown
    obtain ⟨hm', _⟩ := mem_of_owner_cut hnone hm hown
    exact (Net.reachable_cut hc hhead htail hm').mpr (h.reachable hm' hown)

include hnone in
theorem Waiting.cut (h : Waiting net owner worklist) :
    Waiting (net.cut head tail) owner worklist := by
  refine ⟨h.nodup, fun hm => List.mem_append_left _ (h.mem hm), fun {m} hm => ?_⟩
  obtain ⟨j, hj, halone⟩ := h.alone hm
  refine ⟨j, hj, fun x hx hown => ?_⟩
  exact halone x (mem_of_owner_cut hnone hx hown).1 hown

include hnone in
theorem Covers.cut {busy : IntervalId → Prop} (h : Covers net owner busy)
    (hbusy : ∀ j, owner head = some j → busy j) : Covers (net.cut head tail) owner busy := by
  intro m hm j hown s hs hsfree
  obtain ⟨hm', hmt⟩ := mem_of_owner_cut hnone hm hown
  by_cases hmh : m = head
  · exact hbusy j (hmh ▸ hown)
  · rw [Net.succs_cut_of_ne hmt hmh] at hs
    exact h m hm' j hown s hs hsfree

end Cut

/-! ### The end -/

/-- If the entries have owners and nothing behind a region is without one, the
nodes with an owner are the reachable ones. -/
theorem Grouped.owner_isSome_iff (h : Grouped net owner opener opened) (hc : net.Closed)
    (hentry : ∀ r, net.IsEntry r → owner r ≠ none) (hcovers : Covers net owner fun _ => False)
    (hn : n ∈ net.nodes) : (owner n).isSome ↔ net.Reachable n := by
  constructor
  · intro hsome
    obtain ⟨i, hi⟩ := Option.isSome_iff_exists.mp hsome
    exact h.reachable hn hi
  · -- Along a path from an entry, no node is the first one without an owner.
    intro hreach
    refine hreach.induction (P := fun n => (owner n).isSome) ?_ ?_
    · intro r hr
      exact Option.isSome_iff_ne_none.mpr (hentry r hr)
    · intro a b ha hown hedge
      obtain ⟨i, hi⟩ := Option.isSome_iff_exists.mp hown
      refine Option.isSome_iff_ne_none.mpr fun hb => ?_
      exact hcovers a (ha.mem hc) i hi b hedge hb

/-- The opener of a region dominates it. -/
theorem Grouped.opener_dominates (h : Grouped net owner opener opened) (hc : net.Closed)
    (hn : n ∈ net.nodes) (hown : owner n = some i) : net.Dominates (opener i) n := by
  refine Net.dominates_of_region (R := fun n => n ∈ net.nodes ∧ owner n = some i) ?_ ?_
    ⟨hn, hown⟩
  · rintro m ⟨hm, hmi⟩ ⟨_, hnil⟩
    by_contra hne
    exact h.preds_ne_nil hm hmi hne hnil
  · rintro a b ha hedge ⟨hb, hbi⟩ hne
    have ha' : a ∈ net.nodes := ha.mem hc
    exact ⟨ha', h.owner_pred hb hbi hne (hc.mem_preds ha' hedge)⟩

end KernelIntervals
