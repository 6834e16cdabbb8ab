/-
Regions contracted to their openers.

* `Net.shape` — the graph that a net is,
* `Regions.rep`, `Regions.contracted` — the graph in which every region is its opener,
* `Regions.Proper.contracted_claim`, `contracted_cut` — a node that joins a region is merged there
  into the opener, and when a node is cut, one merge leads back from the new graph,
* `Regions.Proper.contracted_eq_shape` — where all nodes are openers it is the graph of the net,
* `Classes.renaming` — and where all nodes are in regions it is that of the regions,
  self-edges apart,
* `SameCollapse` — a graph with a root can be reduced to a single node iff another can, which
  has a root too,
* `Grown.sameCollapse` — so it is for all regions that grow from each other.

Design notes: a node that is cut is merged again in the contracted graph, so that a cut
undoes a merge there. That is why a step is followed in both directions.
-/
import KernelIntervals.Proofs.Growth
import KernelIntervals.Proofs.Quotients
import KernelIntervals.Proofs.Shapes

namespace KernelIntervals

open Function Relation

/-- The graph of a net. -/
def Net.shape (net : Net) : Shape where
  nodes := net.nodes.toFinset
  edge a b := a ∈ net.nodes ∧ b ∈ net.nodes ∧ net.Edge a b
  mem_of_edge h := ⟨List.mem_toFinset.mpr h.1, List.mem_toFinset.mpr h.2.1⟩

namespace Regions

/-- The opener of the region of a node, or the node itself if it is free. -/
def rep (r : Regions) (n : Nat) : Nat := (r.owner n).elim n r.opener

/-- The openers and the free nodes. -/
def heads (r : Regions) : Finset Nat := {n ∈ r.net.nodes.toFinset | r.rep n = n}

/-- The graph in which every region is its opener. It keeps the edges that lead to openers
and to free nodes. -/
def contracted (r : Regions) : Shape where
  nodes := r.heads
  edge a b := a ∈ r.heads ∧ b ∈ r.heads ∧ ∃ x ∈ r.net.nodes, r.rep x = a ∧ r.net.Edge x b
  mem_of_edge h := ⟨h.1, h.2.1⟩

variable {r r' : Regions} {n x : Nat} {i : IntervalId}

theorem rep_of_free (h : r.owner n = none) : r.rep n = n := by
  rw [rep, h]
  rfl

theorem rep_of_owner (h : r.owner n = some i) : r.rep n = r.opener i := by
  rw [rep, h]
  rfl

theorem mem_heads : n ∈ r.heads ↔ n ∈ r.net.nodes ∧ r.rep n = n := by
  rw [heads, Finset.mem_filter, List.mem_toFinset]

/-- What nodes are contracted to tells the contracted graph. -/
theorem contracted_congr (hnet : r'.net = r.net) (h : ∀ x ∈ r.net.nodes, r'.rep x = r.rep x) :
    r'.contracted = r.contracted := by
  have hheads : r'.heads = r.heads := by
    refine Finset.ext fun x => ?_
    rw [mem_heads, mem_heads, hnet]
    exact and_congr_right fun hx => by rw [h x hx]
  refine Shape.ext hheads (funext₂ fun a b => propext ?_)
  simp only [contracted]
  rw [hheads, hnet]
  refine and_congr_right fun _ => and_congr_right fun _ => exists_congr fun x => ?_
  exact and_congr_right fun hx => by rw [h x hx]

namespace Proper

variable (hr : r.Proper)

include hr

theorem rep_mem (hn : n ∈ r.net.nodes) : r.rep n ∈ r.heads := by
  cases hown : r.owner n with
  | none =>
    rw [rep_of_free hown]
    exact mem_heads.mpr ⟨hn, rep_of_free hown⟩
  | some i =>
    have hi := hr.grouped.mem_opened hn hown
    rw [rep_of_owner hown]
    exact mem_heads.mpr ⟨hr.grouped.opener_mem hi, rep_of_owner (hr.grouped.owner_opener hi)⟩

/-- A free node stands for itself only. -/
theorem eq_of_rep_eq (hn : r.owner n = none) (hx : x ∈ r.net.nodes) (hxn : r.rep x = n) :
    x = n := by
  cases hown : r.owner x with
  | none => exact (rep_of_free hown).symm.trans hxn
  | some i =>
    have hi := hr.grouped.owner_opener (hr.grouped.mem_opened hx hown)
    rw [← rep_of_owner hown, hxn, hn] at hi
    injection hi

end Proper

/-! ### A node that joins a region -/

/-- The regions after a node has joined one. -/
def claim (r : Regions) (n : Nat) (i : IntervalId) : Regions :=
  { r with owner := update r.owner n (some i) }

theorem rep_claim_self : (r.claim n i).rep n = r.opener i :=
  rep_of_owner (update_self ..)

theorem rep_claim_of_ne (h : x ≠ n) : (r.claim n i).rep x = r.rep x := by
  show (update r.owner n (some i) x).elim x r.opener = (r.owner x).elim x r.opener
  rw [update_of_ne h]

namespace Proper

/-- The node is a head no more. -/
theorem heads_claim (hr : r.Proper) (hfree : r.owner n = none) (hi : i ∈ r.opened) :
    (r.claim n i).heads = r.heads.erase n := by
  have hne : r.opener i ≠ n := ne_of_owner hfree (hr.grouped.owner_opener hi)
  refine Finset.ext fun x => ?_
  rw [mem_heads, Finset.mem_erase, mem_heads]
  by_cases hx : x = n
  · rw [hx, rep_claim_self]
    exact iff_of_false (fun h => hne h.2) fun h => h.1 rfl
  · rw [rep_claim_of_ne hx]
    exact (and_iff_right hx).symm

variable (hr : r.Proper) (hn : n ∈ r.net.nodes) (hfree : r.owner n = none) (hi : i ∈ r.opened)

include hr hn hfree hi

/-- It followed the opener only. -/
theorem follows_claim (hne : r.net.preds n ≠ [])
    (hpreds : ∀ p ∈ r.net.preds n, r.owner p = some i) :
    r.contracted.Follows (r.opener i) n := by
  have hopener := hr.grouped.owner_opener hi
  refine ⟨ne_of_owner hfree hopener, fun x => ⟨?_, ?_⟩⟩
  · rintro ⟨_, _, y, hy, rfl, hedge⟩
    exact rep_of_owner (hpreds y (hr.closed.mem_preds hy hedge))
  · rintro rfl
    obtain ⟨p, hp⟩ := List.exists_mem_of_ne_nil _ hne
    exact ⟨mem_heads.mpr ⟨hr.grouped.opener_mem hi, rep_of_owner hopener⟩,
      mem_heads.mpr ⟨hn, rep_of_free hfree⟩, p, hr.closed.pred_mem hn hp,
      rep_of_owner (hpreds p hp), hr.closed.mem_succs hn hp⟩

/-- It is merged into the opener. -/
theorem contracted_claim : (r.claim n i).contracted = r.contracted.merge (r.opener i) n := by
  have hheads := hr.heads_claim hfree hi
  have hnhead : n ∈ r.heads := mem_heads.mpr ⟨hn, rep_of_free hfree⟩
  refine Shape.ext hheads (funext₂ fun a b => propext ⟨?_, ?_⟩)
  · rintro ⟨ha, hb, x, hx, hxa, hedge⟩
    rw [hheads] at ha hb
    obtain ⟨hbn, hb⟩ := Finset.mem_erase.mp hb
    refine ⟨ha, hbn, ?_⟩
    by_cases hxn : x = n
    · rw [hxn] at hxa hedge
      exact .inr ⟨hxa.symm.trans rep_claim_self, hnhead, hb, n, hn, rep_of_free hfree, hedge⟩
    · rw [rep_claim_of_ne hxn] at hxa
      exact .inl ⟨Finset.mem_of_mem_erase ha, hb, x, hx, hxa, hedge⟩
  · rintro ⟨ha, hbn, hedges⟩
    rcases hedges with ⟨_, hb, x, hx, hxa, hedge⟩ | ⟨hap, _, hb, x, hx, hxn, hedge⟩
    · have hxn : x ≠ n := by
        rintro rfl
        exact (Finset.mem_erase.mp ha).1 (hxa.symm.trans (rep_of_free hfree))
      exact ⟨hheads ▸ ha, hheads ▸ Finset.mem_erase.mpr ⟨hbn, hb⟩, x, hx,
        (rep_claim_of_ne hxn).trans hxa, hedge⟩
    · have hxn : x = n := hr.eq_of_rep_eq hfree hx hxn
      exact ⟨hheads ▸ ha, hheads ▸ Finset.mem_erase.mpr ⟨hbn, hb⟩, n, hn,
        rep_claim_self.trans hap.symm, hxn ▸ hedge⟩

end Proper

/-! ### A node that is cut -/

/-- The regions after a node was cut. -/
def cut (r : Regions) (head tail : Nat) : Regions := { r with net := r.net.cut head tail }

/-- Edges out of the head lead to the tail, those that led out of it lead out of the tail,
and the others are as before. -/
theorem edge_cut_iff {head tail a b : Nat} (hne : head ≠ tail) :
    (r.cut head tail).net.Edge a b ↔ (a = head ∧ b = tail) ∨ (a = tail ∧ r.net.Edge head b) ∨
      (a ≠ head ∧ a ≠ tail ∧ r.net.Edge a b) := by
  show b ∈ (r.net.cut head tail).succs a ↔ _
  by_cases ht : a = tail
  · subst ht
    rw [Net.succs_cut_tail]
    simp only [hne.symm, false_and, true_and, ne_eq, not_true_eq_false, and_false, or_false,
      false_or, Net.Edge]
  by_cases hh : a = head
  · subst hh
    rw [Net.succs_cut_head hne, List.mem_singleton]
    simp only [ht, false_and, true_and, ne_eq, not_true_eq_false, or_false]
  · rw [Net.succs_cut_of_ne ht hh]
    simp only [hh, ht, false_and, true_and, ne_eq, not_false_eq_true, false_or, Net.Edge]

theorem mem_cut {head tail : Nat} : x ∈ (r.cut head tail).net.nodes ↔ x ∈ r.net.nodes ∨ x = tail :=
  List.mem_append.trans (or_congr_right List.mem_singleton)

/-- The tail is a head that is new. -/
theorem heads_cut {head tail : Nat} (htail : tail ∉ r.net.nodes) :
    r.heads = (r.cut head tail).heads.erase tail := by
  refine Finset.ext fun x => ?_
  rw [Finset.mem_erase, mem_heads, mem_heads, mem_cut]
  constructor
  · rintro ⟨hx, hxr⟩
    exact ⟨ne_of_mem_of_not_mem hx htail, .inl hx, hxr⟩
  · rintro ⟨hxt, hx, hxr⟩
    exact ⟨hx.resolve_right hxt, hxr⟩

theorem tail_mem_heads {head tail : Nat} (hnone : r.owner tail = none) :
    tail ∈ (r.cut head tail).heads :=
  mem_heads.mpr ⟨mem_cut.mpr (.inr rfl), rep_of_free hnone⟩

namespace Proper

variable {head tail : Nat} (hr : r.Proper) (hhead : head ∈ r.net.nodes)
  (htail : tail ∉ r.net.nodes) (hnone : r.owner tail = none)

include hr hhead htail hnone

/-- The tail follows what the head is contracted to, and nothing else. -/
theorem follows_cut : (r.cut head tail).contracted.Follows (r.rep head) tail := by
  have hht : head ≠ tail := ne_of_mem_of_not_mem hhead htail
  have hheads : r.heads = (r.cut head tail).heads.erase tail := heads_cut htail
  have hrep : r.rep head ∈ r.heads := hr.rep_mem hhead
  refine ⟨ne_of_mem_of_not_mem (mem_heads.mp hrep).1 htail, fun x => ⟨?_, ?_⟩⟩
  · rintro ⟨_, _, y, hy, rfl, hedge⟩
    rcases (edge_cut_iff hht).mp hedge with ⟨rfl, _⟩ | ⟨_, hedge⟩ | ⟨_, hyt, hedge⟩
    · rfl
    · exact absurd (hr.closed.succ_mem hhead hedge) htail
    · have hy' := (mem_cut.mp hy).resolve_right hyt
      exact absurd (hr.closed.succ_mem hy' hedge) htail
  · rintro rfl
    rw [hheads] at hrep
    exact ⟨Finset.mem_of_mem_erase hrep, tail_mem_heads hnone, head,
      mem_cut.mpr (.inl hhead), rfl, (edge_cut_iff hht).mpr (.inl ⟨rfl, rfl⟩)⟩

/-- If the tail is merged again, the cut is undone. -/
theorem contracted_cut : r.contracted = (r.cut head tail).contracted.merge (r.rep head) tail := by
  have hht : head ≠ tail := ne_of_mem_of_not_mem hhead htail
  have hheads : r.heads = (r.cut head tail).heads.erase tail := heads_cut htail
  have htailhead : tail ∈ (r.cut head tail).heads := tail_mem_heads hnone
  have hold : ∀ {x}, x ∈ r.heads → x ≠ tail ∧ x ∈ (r.cut head tail).heads :=
    fun hx => Finset.mem_erase.mp (hheads ▸ hx)
  refine Shape.ext hheads (funext₂ fun a b => propext ⟨?_, ?_⟩)
  · rintro ⟨ha, hb, x, hx, hxa, hedge⟩
    refine ⟨hheads ▸ ha, (hold hb).1, ?_⟩
    by_cases hxh : x = head
    · rw [hxh] at hxa hedge
      exact .inr ⟨hxa.symm, htailhead, (hold hb).2, tail, mem_cut.mpr (.inr rfl),
        rep_of_free hnone, (edge_cut_iff hht).mpr (.inr (.inl ⟨rfl, hedge⟩))⟩
    · have hxt : x ≠ tail := ne_of_mem_of_not_mem hx htail
      exact .inl ⟨(hold ha).2, (hold hb).2, x, mem_cut.mpr (.inl hx), hxa,
        (edge_cut_iff hht).mpr (.inr (.inr ⟨hxh, hxt, hedge⟩))⟩
  · rintro ⟨ha, hbt, hedges⟩
    have ha' : a ∈ r.heads := hheads ▸ ha
    have hback : ∀ {x}, x ∈ (r.cut head tail).heads → x ≠ tail → x ∈ r.heads :=
      fun hx hxt => hheads ▸ Finset.mem_erase.mpr ⟨hxt, hx⟩
    rcases hedges with ⟨_, hb, x, hx, hxa, hedge⟩ | ⟨rfl, _, hb, x, hx, hxt, hedge⟩
    · rcases (edge_cut_iff hht).mp hedge with ⟨_, rfl⟩ | ⟨rfl, _⟩ | ⟨_, hxt, hedge⟩
      · exact absurd rfl hbt
      · exact absurd (hxa.symm.trans (rep_of_free hnone)) (Finset.mem_erase.mp ha).1
      · exact ⟨ha', hback hb hbt, x, (mem_cut.mp hx).resolve_right hxt, hxa, hedge⟩
    · -- No node but the tail stands for the tail.
      obtain rfl : x = tail := by
        refine (mem_cut.mp hx).resolve_left fun hx' => htail ?_
        have hmem := (mem_heads.mp (hr.rep_mem hx')).1
        have hxt : r.rep x = tail := hxt
        exact hxt ▸ hmem
      refine ⟨ha', hback hb hbt, head, hhead, rfl, ?_⟩
      rcases (edge_cut_iff hht).mp hedge with ⟨rfl, _⟩ | ⟨_, hedge⟩ | ⟨_, hne, _⟩
      · exact absurd rfl hht
      · exact hedge
      · exact absurd rfl hne

end Proper

end Regions

/-! ### Regions that grow -/

/-- A graph with a root can be reduced to a single node iff another can, which has a root
too. -/
def SameCollapse (G H : Shape) : Prop :=
  (∃ r, G.Rooted r) → (∃ r, H.Rooted r) ∧ (G.Reducible ↔ H.Reducible)

namespace SameCollapse

variable {G H K : Shape}

theorem refl (G : Shape) : SameCollapse G G := fun h => ⟨h, .rfl⟩

theorem trans (h : SameCollapse G H) (h' : SameCollapse H K) : SameCollapse G K := by
  intro hroot
  obtain ⟨hroot', hiff⟩ := h hroot
  obtain ⟨hroot'', hiff'⟩ := h' hroot'
  exact ⟨hroot'', hiff.trans hiff'⟩

theorem of_steps (h : ReflTransGen Shape.Step G H) : SameCollapse G H := by
  rintro ⟨r, hroot⟩
  exact ⟨⟨r, (hroot.steps h).1⟩, hroot.reducible_iff h⟩

theorem of_merge {p n : Nat} (h : G.Follows p n) : SameCollapse (G.merge p n) G := by
  rintro ⟨r, hroot⟩
  have hroot' := Shape.Rooted.of_merge h hroot
  exact ⟨⟨r, hroot'⟩, (hroot'.reducible_iff (.single (.merge h))).symm⟩

theorem of_renaming {f : Nat → Nat} (h : Shape.Renaming f H G) : SameCollapse G H := by
  rintro ⟨r, hroot⟩
  exact ⟨⟨_, h.inverse.rooted hroot⟩, h.reducible_iff.symm⟩

end SameCollapse

variable {r r' : Regions}

/-- A single change of the regions leaves the contracted graph, or merges a node there, or
is undone by a merge. -/
theorem Growth.sameCollapse (h : Growth r r') (hr : r.Proper) :
    SameCollapse r.contracted r'.contracted := by
  cases h with
  | @start n i hn hfree hi hreach =>
    have hsame : Regions.contracted ⟨r.net, update r.owner n (some i), update r.opener i n,
        r.opened ++ [i]⟩ = r.contracted := by
      refine Regions.contracted_congr rfl fun x hx => ?_
      by_cases hxn : x = n
      · rw [hxn, Regions.rep_of_free hfree, Regions.rep_of_owner (update_self ..)]
        exact update_self ..
      · show (update r.owner n (some i) x).elim x (update r.opener i n) = r.rep x
        rw [update_of_ne hxn]
        cases hown : r.owner x with
        | none => exact (Regions.rep_of_free hown).symm
        | some j =>
          have hji : j ≠ i := ne_of_mem_of_not_mem (hr.grouped.mem_opened hx hown) hi
          exact (update_of_ne hji ..).trans (Regions.rep_of_owner hown).symm
    exact hsame ▸ .refl _
  | @join n i hn hfree hi hne hpreds =>
    have hmerge : Regions.contracted { r with owner := update r.owner n (some i) } =
        r.contracted.merge (r.opener i) n := hr.contracted_claim hn hfree hi
    rw [hmerge]
    exact .of_steps (.single (.merge (hr.follows_claim hn hfree hi hne hpreds)))
  | @cut head tail hhead htail hnone hbehind =>
    have hmerge := hr.contracted_cut hhead htail hnone
    have hsame : SameCollapse _ (r.cut head tail).contracted :=
      .of_merge (hr.follows_cut hhead htail hnone)
    rw [← hmerge] at hsame
    exact hsame

theorem Grown.sameCollapse (h : Grown r r') (hr : r.Proper) :
    SameCollapse r.contracted r'.contracted := by
  induction h with
  | refl => exact .refl _
  | tail hpath hstep ih => exact ih.trans (hstep.sameCollapse (Grown.proper hpath hr))

/-! ### Before and after -/

/-- While all nodes stand for themselves, the contracted graph is that of the net. -/
theorem Regions.contracted_eq_shape (h : ∀ n ∈ r.net.nodes, r.rep n = n) :
    r.contracted = r.net.shape := by
  have hmem : ∀ {n}, n ∈ r.heads ↔ n ∈ r.net.nodes := fun {n} =>
    Regions.mem_heads.trans (and_iff_left_of_imp (h n))
  refine Shape.ext (Finset.ext fun n => hmem.trans List.mem_toFinset.symm)
    (funext₂ fun a b => propext ⟨?_, ?_⟩)
  · rintro ⟨ha, hb, x, hx, hxa, hedge⟩
    rw [h x hx] at hxa
    exact ⟨hmem.mp ha, hmem.mp hb, hxa ▸ hedge⟩
  · rintro ⟨ha, hb, hedge⟩
    exact ⟨hmem.mpr ha, hmem.mpr hb, a, ha, h a ha, hedge⟩

/-- When all nodes are in regions, the contracted graph has an edge between two openers iff
the net of the regions has one between the two regions, self-edges apart. -/
theorem Classes.renaming {entry : IntervalId → Nat} {coarse : Net}
    (h : Classes r.net r.owner entry coarse) (hc : r.net.Closed)
    (hreach : ∀ n ∈ r.net.nodes, r.net.Reachable n)
    (hopener : ∀ i ∈ coarse.nodes, r.opener i = entry i) :
    Shape.Renaming entry coarse.shape (r.contracted.unloop r.heads) := by
  have howned : ∀ n ∈ r.net.nodes, ∃ i ∈ coarse.nodes, r.owner n = some i ∧ r.rep n = entry i := by
    intro n hn
    obtain ⟨i, hi⟩ := Option.isSome_iff_exists.mp ((h.isSome_iff n hn).mpr (hreach n hn))
    have hmem := h.mem n hn i hi
    exact ⟨i, hmem, hi, (Regions.rep_of_owner hi).trans (hopener i hmem)⟩
  have hinj : ∀ i ∈ coarse.nodes, ∀ j ∈ coarse.nodes, entry i = entry j → i = j := by
    intro i hi j hj hij
    have hi' := (h.entry_mem i hi).2
    rw [hij, (h.entry_mem j hj).2] at hi'
    exact (Option.some.inj hi').symm
  have hhead : ∀ i ∈ coarse.nodes, entry i ∈ r.heads := by
    intro i hi
    obtain ⟨hmem, hown⟩ := h.entry_mem i hi
    exact Regions.mem_heads.mpr ⟨hmem, (Regions.rep_of_owner hown).trans (hopener i hi)⟩
  refine ⟨Finset.ext fun n => ?_, fun i hi j hj => ?_, fun i hi j hj => ?_⟩
  · constructor
    · intro hn
      obtain ⟨hmem, hrep⟩ := Regions.mem_heads.mp hn
      obtain ⟨i, hi, _, hentry⟩ := howned n hmem
      exact Finset.mem_image.mpr ⟨i, List.mem_toFinset.mpr hi, hentry.symm.trans hrep⟩
    · intro hn
      obtain ⟨i, hi, rfl⟩ := Finset.mem_image.mp hn
      exact hhead i (List.mem_toFinset.mp hi)
  · exact hinj i (List.mem_toFinset.mp hi) j (List.mem_toFinset.mp hj)
  · replace hi := List.mem_toFinset.mp hi
    replace hj := List.mem_toFinset.mp hj
    constructor
    · rintro ⟨⟨_, _, x, hx, hxi, hedge⟩, hloop⟩
      obtain ⟨k, hk, hown, hentry⟩ := howned x hx
      obtain rfl : k = i := hinj k hk i hi (hentry.symm.trans hxi)
      have hne : j ≠ k := fun hjk => hloop ⟨hjk ▸ rfl, hhead k hk⟩
      exact ⟨hi, hj, (h.succs k hi j).mpr ⟨x, hx, hown, hne, entry j, hedge,
        (h.entry_mem j hj).2⟩⟩
    · rintro ⟨_, _, hedge⟩
      obtain ⟨x, hx, hown, hji, s, hs, hsj⟩ := (h.succs i hi j).mp hedge
      have hentry : s = entry j :=
        h.eq_entry (hc.succ_mem hx hs) hsj (hc.mem_preds hx hs) hown hji.symm
      refine ⟨⟨hhead i hi, hhead j hj, x, hx, ?_, hentry ▸ hs⟩, fun hloop => ?_⟩
      · exact (Regions.rep_of_owner hown).trans (hopener i hi)
      · exact hji (hinj i hi j hj hloop.1).symm

/-- Regions that started from single nodes and grew until all nodes were in them form a net
that collapses iff the net of the nodes did at the start. -/
theorem Grown.sameCollapse_coarse {entry : IntervalId → Nat} {coarse : Net} (h : Grown r r')
    (hr : r.Proper) (hstart : ∀ n ∈ r.net.nodes, r.rep n = n)
    (hclasses : Classes r'.net r'.owner entry coarse)
    (hreach : ∀ n ∈ r'.net.nodes, r'.net.Reachable n)
    (hopener : ∀ i ∈ coarse.nodes, r'.opener i = entry i) :
    SameCollapse r.net.shape coarse.shape := by
  have hgrow : SameCollapse r.contracted r'.contracted := h.sameCollapse hr
  rw [Regions.contracted_eq_shape hstart] at hgrow
  have hunloop : SameCollapse r'.contracted (r'.contracted.unloop r'.heads) :=
    .of_steps (Shape.steps_unloop _ _)
  exact (hgrow.trans hunloop).trans
    (.of_renaming (hclasses.renaming (h.proper hr).closed hreach hopener))

end KernelIntervals
