/-
Reducing a graph to a single node.

* `Shape` — a graph, told by its nodes and edges,
* `Shape.Step` — a self-edge is deleted, or a node is merged into its only predecessor,
* `Shape.Reducible` — some steps lead to a single node,
* `Shape.Rooted`, `Rooted.step`, `Rooted.of_merge` — a root reaches all nodes, before and
  after a step,
* `Rooted.diamond`, `Rooted.reducible_iff` — two steps can be joined by one more each, so a
  step does not change what is reducible,
* `Shape.reducible_iff_of_normal` — without steps left, only a single node is reducible,
* `Renaming.reducible_iff` — nor do the names of the nodes matter.

Design notes: two nodes that are each other's only predecessors could be merged in two
ways that nothing joins. A root forbids them, since it reaches neither.
-/
import Mathlib.Data.Finset.Image
import Mathlib.Data.Set.Function
import Mathlib.Logic.Relation

namespace KernelIntervals

open Relation

/-- Nodes, with edges between them. -/
@[ext]
structure Shape where
  nodes : Finset Nat
  edge : Nat → Nat → Prop
  mem_of_edge : ∀ {a b}, edge a b → a ∈ nodes ∧ b ∈ nodes

namespace Shape

/-- The graph without the self-edges of some nodes. -/
def unloop (G : Shape) (looped : Finset Nat) : Shape where
  nodes := G.nodes
  edge a b := G.edge a b ∧ ¬ (a = b ∧ a ∈ looped)
  mem_of_edge h := G.mem_of_edge h.1

/-- The graph without the node `n`, whose successors follow `p` instead. -/
def merge (G : Shape) (p n : Nat) : Shape where
  nodes := G.nodes.erase n
  edge a b := a ∈ G.nodes.erase n ∧ b ≠ n ∧ (G.edge a b ∨ a = p ∧ G.edge n b)
  mem_of_edge := by
    rintro a b ⟨ha, hb, hedge | ⟨_, hedge⟩⟩
    · exact ⟨ha, Finset.mem_erase.mpr ⟨hb, (G.mem_of_edge hedge).2⟩⟩
    · exact ⟨ha, Finset.mem_erase.mpr ⟨hb, (G.mem_of_edge hedge).2⟩⟩

/-- A node that has a predecessor other than itself, and no second one. -/
def Follows (G : Shape) (p n : Nat) : Prop := p ≠ n ∧ ∀ x, G.edge x n ↔ x = p

/-- A self-edge is deleted, or a node is merged into its only predecessor. -/
inductive Step : Shape → Shape → Prop
  | unloop {G : Shape} {a : Nat} (h : G.edge a a) : Step G (G.unloop {a})
  | merge {G : Shape} {p n : Nat} (h : G.Follows p n) : Step G (G.merge p n)

/-- Some steps lead to a single node. -/
def Reducible (G : Shape) : Prop := ∃ K, ReflTransGen Step G K ∧ ∃ n, K.nodes = {n}

/-- A node without predecessors reaches all nodes. -/
structure Rooted (G : Shape) (r : Nat) : Prop where
  mem : r ∈ G.nodes
  entry : ∀ a, ¬ G.edge a r
  reaches : ∀ n ∈ G.nodes, ReflTransGen G.edge r n

variable {G G' H : Shape} {a b m n p q r : Nat}

theorem Follows.edge (h : G.Follows p n) : G.edge p n := (h.2 p).mpr rfl

theorem Follows.mem (h : G.Follows p n) : p ∈ G.nodes.erase n :=
  Finset.mem_erase.mpr ⟨h.1, (G.mem_of_edge h.edge).1⟩

/-! ### The root stays -/

namespace Rooted

theorem ne_of_edge (h : G.Rooted r) (hedge : G.edge a n) : r ≠ n := by
  rintro rfl
  exact h.entry a hedge

theorem unloop (h : G.Rooted r) (looped : Finset Nat) : (G.unloop looped).Rooted r where
  mem := h.mem
  entry := fun a hedge => h.entry a hedge.1
  reaches := by
    intro n hn
    induction h.reaches n hn with
    | refl => exact .refl
    | @tail b c _ hedge ih =>
      by_cases hbc : b = c
      · exact hbc ▸ ih (G.mem_of_edge hedge).1
      · exact (ih (G.mem_of_edge hedge).1).tail ⟨hedge, fun hloop => hbc hloop.1⟩

/-- A path to the merged node ends at its predecessor instead. -/
theorem merge (h : G.Rooted r) (hf : G.Follows p n) : (G.merge p n).Rooted r where
  mem := Finset.mem_erase.mpr ⟨h.ne_of_edge hf.edge, h.mem⟩
  entry := by
    rintro a ⟨_, _, hedge | ⟨_, hedge⟩⟩
    · exact h.entry a hedge
    · exact h.entry n hedge
  reaches := by
    have hpath : ∀ m, ReflTransGen G.edge r m →
        (m ≠ n → ReflTransGen (G.merge p n).edge r m) ∧
          (m = n → ReflTransGen (G.merge p n).edge r p) := by
      intro m hm
      induction hm with
      | refl => exact ⟨fun _ => .refl, fun heq => absurd heq (h.ne_of_edge hf.edge)⟩
      | @tail b c _ hedge ih =>
        refine ⟨fun hc => ?_, fun hc => ?_⟩
        · by_cases hb : b = n
          · exact (ih.2 hb).tail ⟨hf.mem, hc, .inr ⟨rfl, hb ▸ hedge⟩⟩
          · have hmem := Finset.mem_erase.mpr ⟨hb, (G.mem_of_edge hedge).1⟩
            exact (ih.1 hb).tail ⟨hmem, hc, .inl hedge⟩
        · obtain rfl : b = p := (hf.2 b).mp (hc ▸ hedge)
          exact ih.1 hf.1
    intro m hm
    obtain ⟨hne, hmem⟩ := Finset.mem_erase.mp hm
    exact (hpath m (h.reaches m hmem)).1 hne

theorem step (h : G.Rooted r) (hstep : Step G G') : G'.Rooted r := by
  cases hstep with
  | unloop _ => exact h.unloop _
  | merge hf => exact h.merge hf

/-- The root was there before a merge. -/
theorem of_merge (hf : G.Follows p n) (h : (G.merge p n).Rooted r) : G.Rooted r := by
  obtain ⟨hrn, hmem⟩ := Finset.mem_erase.mp h.mem
  have hpath : ∀ m, ReflTransGen (G.merge p n).edge r m → ReflTransGen G.edge r m := by
    intro m hm
    induction hm with
    | refl => exact .refl
    | tail _ hedge ih =>
      obtain ⟨_, _, hedge | ⟨rfl, hedge⟩⟩ := hedge
      · exact ih.tail hedge
      · exact (ih.tail hf.edge).tail hedge
  refine ⟨hmem, fun a ha => ?_, fun m hm => ?_⟩
  · by_cases han : a = n
    · exact h.entry p ⟨hf.mem, hrn, .inr ⟨rfl, han ▸ ha⟩⟩
    · exact h.entry a ⟨Finset.mem_erase.mpr ⟨han, (G.mem_of_edge ha).1⟩, hrn, .inl ha⟩
  · by_cases hmn : m = n
    · rw [hmn]
      exact (hpath p (h.reaches p hf.mem)).tail hf.edge
    · exact hpath m (h.reaches m (Finset.mem_erase.mpr ⟨hmn, hm⟩))

/-- No two nodes are each other's only predecessors: the root would not reach them. -/
theorem not_follows_each_other (h : G.Rooted r) (hf : G.Follows p n) (hf' : G.Follows n p) :
    False := by
  have hpath : ∀ m, ReflTransGen G.edge r m → m ≠ n ∧ m ≠ p := by
    intro m hm
    induction hm with
    | refl => exact ⟨h.ne_of_edge hf.edge, h.ne_of_edge hf'.edge⟩
    | @tail b c _ hedge ih =>
      refine ⟨fun hc => ih.2 ?_, fun hc => ih.1 ?_⟩
      · exact (hf.2 b).mp (hc ▸ hedge)
      · exact (hf'.2 b).mp (hc ▸ hedge)
  exact (hpath n (h.reaches n (G.mem_of_edge hf.edge).2)).1 rfl

end Rooted

/-! ### Steps can be joined -/

/-- Deleting a self-edge keeps what follows what. -/
theorem Follows.unloop (h : G.Follows p n) (looped : Finset Nat) :
    (G.unloop looped).Follows p n := by
  refine ⟨h.1, fun x => ?_⟩
  constructor
  · exact fun hedge => (h.2 x).mp hedge.1
  · rintro rfl
    exact ⟨h.edge, fun hloop => h.1 hloop.1⟩

/-- Merging another node keeps what follows what, if neither node is the other's
predecessor. -/
theorem Follows.merge (hm : G.Follows q m) (hne : m ≠ n) (hqn : q ≠ n) :
    (G.merge p n).Follows q m := by
  refine ⟨hm.1, fun x => ?_⟩
  constructor
  · rintro ⟨_, _, hedge | ⟨_, hedge⟩⟩
    · exact (hm.2 x).mp hedge
    · exact absurd ((hm.2 n).mp hedge).symm hqn
  · rintro rfl
    exact ⟨Finset.mem_erase.mpr ⟨hqn, (G.mem_of_edge hm.edge).1⟩, hne, .inl hm.edge⟩

/-- Once its predecessor is merged, a node follows the one before that. -/
theorem Follows.merge_pred (hn : G.Follows m n) (hm : G.Follows q m) (hqn : q ≠ n) :
    (G.merge q m).Follows q n := by
  refine ⟨hqn, fun x => ?_⟩
  constructor
  · rintro ⟨hx, _, hedge | ⟨hxq, _⟩⟩
    · exact absurd ((hn.2 x).mp hedge) (Finset.mem_erase.mp hx).1
    · exact hxq
  · rintro rfl
    exact ⟨hm.mem, hn.1.symm, .inr ⟨rfl, hn.edge⟩⟩

/-- Two self-edges are deleted in either order. -/
theorem unloop_unloop (G : Shape) (s t : Finset Nat) :
    (G.unloop s).unloop t = (G.unloop t).unloop s := by
  refine Shape.ext rfl (funext₂ fun x y => propext ?_)
  exact and_right_comm

/-- A self-edge of a node that stays is deleted before or after another one is merged. -/
theorem unloop_merge (n : Nat) (hap : a ≠ p) :
    (G.unloop {a}).merge p n = (G.merge p n).unloop {a} := by
  refine Shape.ext rfl (funext₂ fun x y => propext ?_)
  simp only [merge, unloop, Finset.mem_erase, Finset.mem_singleton]
  grind

/-- A self-edge of the node that another one is merged into is back after the merge, or it is
deleted then. -/
theorem unloop_merge_self (hf : G.Follows p n) :
    (G.unloop {p}).merge p n = G.merge p n ∨
      (G.unloop {p}).merge p n = (G.merge p n).unloop {p} := by
  have hnp : n ≠ p := hf.1.symm
  by_cases hback : G.edge n p
  · refine .inl (Shape.ext rfl (funext₂ fun x y => propext ?_))
    simp only [merge, unloop, Finset.mem_erase, Finset.mem_singleton]
    grind
  · refine .inr (Shape.ext rfl (funext₂ fun x y => propext ?_))
    simp only [merge, unloop, Finset.mem_erase, Finset.mem_singleton]
    grind

/-- Two nodes are merged in either order. -/
theorem merge_merge (hn : G.Follows p n) (hm : G.Follows q m) (hmn : m ≠ n) (hpm : p ≠ m)
    (hqn : q ≠ n) : (G.merge p n).merge q m = (G.merge q m).merge p n := by
  refine Shape.ext Finset.erase_right_comm (funext₂ fun x y => propext ?_)
  have hmem := (G.mem_of_edge hn.edge).2
  have hmem' := (G.mem_of_edge hm.edge).2
  simp only [merge, Finset.mem_erase]
  grind

/-- A node and its predecessor are merged in either order. -/
theorem merge_merge_pred (hn : G.Follows m n) (hm : G.Follows q m) (hqn : q ≠ n) :
    (G.merge m n).merge q m = (G.merge q m).merge q n := by
  refine Shape.ext Finset.erase_right_comm (funext₂ fun x y => propext ?_)
  have hmn := hn.1
  have hmem := (G.mem_of_edge hn.edge).2
  have hmem' := (G.mem_of_edge hm.edge).2
  simp only [merge, Finset.mem_erase]
  grind

/-- What two steps lead to is the same, or the same after one more step each at most. -/
def Joins (H H' : Shape) : Prop := ∃ K, ReflGen Step H K ∧ ReflGen Step H' K

theorem Joins.symm (h : Joins G H) : Joins H G := by
  obtain ⟨K, hG, hH⟩ := h
  exact ⟨K, hH, hG⟩

theorem joins_unloop_unloop (ha : G.edge a a) (hb : G.edge b b) :
    Joins (G.unloop {a}) (G.unloop {b}) := by
  by_cases hab : a = b
  · exact ⟨_, .refl, hab ▸ .refl⟩
  · have hkeep : ∀ {c d}, c ≠ d → G.edge c c → (G.unloop {d}).edge c c := fun hcd hc =>
      ⟨hc, fun hloop => hcd (Finset.mem_singleton.mp hloop.2)⟩
    refine ⟨(G.unloop {a}).unloop {b}, .single (.unloop (hkeep (Ne.symm hab) hb)), ?_⟩
    rw [unloop_unloop]
    exact .single (.unloop (hkeep hab ha))

theorem joins_unloop_merge (ha : G.edge a a) (hf : G.Follows p n) :
    Joins (G.unloop {a}) (G.merge p n) := by
  refine ⟨(G.unloop {a}).merge p n, .single (.merge (hf.unloop {a})), ?_⟩
  have han : a ≠ n := fun han => hf.1 ((hf.2 a).mp (han ▸ ha) ▸ han)
  have hloop : (G.merge p n).edge a a :=
    ⟨Finset.mem_erase.mpr ⟨han, (G.mem_of_edge ha).1⟩, han, .inl ha⟩
  by_cases hap : a = p
  · subst hap
    rcases unloop_merge_self hf with heq | heq
    · rw [heq]
    · rw [heq]
      exact .single (.unloop hloop)
  · rw [unloop_merge n hap]
    exact .single (.unloop hloop)

/-- A node follows the other: what it is merged into does not depend on the order. -/
theorem joins_merge_pred (hn : G.Follows m n) (hm : G.Follows q m) (hqn : q ≠ n) :
    Joins (G.merge m n) (G.merge q m) := by
  refine ⟨(G.merge m n).merge q m, .single (.merge (hm.merge hn.1 hqn)), ?_⟩
  rw [merge_merge_pred hn hm hqn]
  exact .single (.merge (hn.merge_pred hm hqn))

theorem Rooted.joins_merge_merge (h : G.Rooted r) (hn : G.Follows p n) (hm : G.Follows q m) :
    Joins (G.merge p n) (G.merge q m) := by
  by_cases hmn : m = n
  · subst hmn
    obtain rfl : p = q := (hm.2 p).mp hn.edge
    exact ⟨_, .refl, .refl⟩
  by_cases hpm : p = m
  · subst hpm
    refine joins_merge_pred hn hm fun hqn => ?_
    subst hqn
    exact h.not_follows_each_other hn hm
  by_cases hqn : q = n
  · subst hqn
    exact (joins_merge_pred hm hn hpm).symm
  refine ⟨(G.merge p n).merge q m, .single (.merge (hm.merge hmn hqn)), ?_⟩
  rw [merge_merge hn hm hmn hpm hqn]
  exact .single (.merge (hn.merge (Ne.symm hmn) hpm))

/-- Two steps can be joined. -/
theorem Rooted.diamond (h : G.Rooted r) (hG : Step G G') (hH : Step G H) : Joins G' H := by
  cases hG with
  | unloop ha =>
    cases hH with
    | unloop hb => exact joins_unloop_unloop ha hb
    | merge hm => exact joins_unloop_merge ha hm
  | merge hn =>
    cases hH with
    | unloop hb => exact (joins_unloop_merge hb hn).symm
    | merge hm => exact h.joins_merge_merge hn hm

/-! ### Reducible graphs -/

/-- A step from a graph with the root `r`. -/
def RootedStep (r : Nat) (G H : Shape) : Prop := G.Rooted r ∧ Step G H

theorem Rooted.steps (h : G.Rooted r) (hsteps : ReflTransGen Step G H) :
    H.Rooted r ∧ ReflTransGen (RootedStep r) G H := by
  induction hsteps with
  | refl => exact ⟨h, .refl⟩
  | tail _ hstep ih => exact ⟨ih.1.step hstep, ih.2.tail ⟨ih.1, hstep⟩⟩

/-- However many steps two paths take, they can be joined. -/
theorem Rooted.confluent (h : G.Rooted r) (hG : ReflTransGen Step G G')
    (hH : ReflTransGen Step G H) : Join (ReflTransGen Step) G' H := by
  have hjoin : Join (ReflTransGen (RootedStep r)) G' H := by
    refine church_rosser ?_ (h.steps hG).2 (h.steps hH).2
    rintro G G' H ⟨hroot, hG⟩ ⟨_, hH⟩
    have hlift : ∀ {A B}, A.Rooted r → ReflGen Step A B → ReflGen (RootedStep r) A B := by
      rintro A B hA (_ | hstep)
      · exact .refl
      · exact .single ⟨hA, hstep⟩
    obtain ⟨K, hGK, hHK⟩ := hroot.diamond hG hH
    exact ⟨K, hlift (hroot.step hG) hGK, (hlift (hroot.step hH) hHK).to_reflTransGen⟩
  obtain ⟨K, hGK, hHK⟩ := hjoin
  have hdrop : ∀ {A B}, ReflTransGen (RootedStep r) A B → ReflTransGen Step A B :=
    fun hpath => ReflTransGen.mono (fun _ _ hstep => hstep.2) _ _ hpath
  exact ⟨K, hdrop hGK, hdrop hHK⟩

/-- Steps from a single node lead to a single node. -/
theorem nodes_of_steps {v : Nat} (hsteps : ReflTransGen Step G H) (hG : G.nodes = {v}) :
    H.nodes = {v} := by
  induction hsteps with
  | refl => exact hG
  | tail _ hstep ih =>
    cases hstep with
    | unloop _ => exact ih
    | merge hf =>
      -- A merge takes two nodes.
      obtain ⟨hp, hn⟩ := Shape.mem_of_edge _ hf.edge
      rw [ih, Finset.mem_singleton] at hp hn
      exact absurd (hp.trans hn.symm) hf.1

/-- Steps do not change what is reducible. -/
theorem Rooted.reducible_iff (h : G.Rooted r) (hsteps : ReflTransGen Step G H) :
    G.Reducible ↔ H.Reducible := by
  constructor
  · rintro ⟨K, hK, v, hv⟩
    obtain ⟨L, hKL, hHL⟩ := h.confluent hK hsteps
    exact ⟨L, hHL, v, nodes_of_steps hKL hv⟩
  · rintro ⟨K, hK, hv⟩
    exact ⟨K, hsteps.trans hK, hv⟩

/-- The self-edges of any nodes can be deleted one after the other. -/
theorem steps_unloop (G : Shape) (looped : Finset Nat) :
    ReflTransGen Step G (G.unloop looped) := by
  induction looped using Finset.induction_on with
  | empty =>
    have hnone : G.unloop ∅ = G := by
      refine Shape.ext rfl (funext₂ fun x y => propext ?_)
      exact and_iff_left fun hloop => Finset.notMem_empty x hloop.2
    rw [hnone]
  | insert a s has ih =>
    have hinsert : G.unloop (insert a s) = (G.unloop s).unloop {a} := by
      refine Shape.ext rfl (funext₂ fun x y => propext ?_)
      simp only [unloop, Finset.mem_insert, Finset.mem_singleton]
      tauto
    rw [hinsert]
    by_cases hedge : (G.unloop s).edge a a
    · exact ih.tail (.unloop hedge)
    · have hsame : (G.unloop s).unloop {a} = G.unloop s := by
        refine Shape.ext rfl (funext₂ fun x y => propext (and_iff_left_of_imp ?_))
        rintro hxy ⟨rfl, hx⟩
        exact hedge (Finset.mem_singleton.mp hx ▸ hxy)
      rw [hsame]
      exact ih

/-- A graph without self-edges, in which no node has a single predecessor, is reducible iff
it is a single node. -/
theorem reducible_iff_of_normal (hloop : ∀ a, ¬ G.edge a a)
    (hnone : ∀ p n, ¬ G.Follows p n) : G.Reducible ↔ ∃ n, G.nodes = {n} := by
  constructor
  · rintro ⟨K, hK, hv⟩
    rcases ReflTransGen.cases_head hK with rfl | ⟨H, hstep, _⟩
    · exact hv
    · cases hstep with
      | unloop ha => exact absurd ha (hloop _)
      | merge hf => exact absurd hf (hnone _ _)
  · exact fun hv => ⟨G, .refl, hv⟩

/-! ### Names of nodes -/

/-- The nodes of `G'` are those of `G`, named by `f`. -/
structure Renaming (f : Nat → Nat) (G G' : Shape) : Prop where
  nodes : G'.nodes = G.nodes.image f
  injOn : Set.InjOn f G.nodes
  edge_iff : ∀ a ∈ G.nodes, ∀ b ∈ G.nodes, G'.edge (f a) (f b) ↔ G.edge a b

namespace Renaming

variable {f : Nat → Nat} (h : Renaming f G G')

include h

theorem mem (ha : a ∈ G.nodes) : f a ∈ G'.nodes :=
  h.nodes ▸ Finset.mem_image_of_mem f ha

theorem exists_mem (ha : a ∈ G'.nodes) : ∃ b ∈ G.nodes, f b = a :=
  Finset.mem_image.mp (h.nodes ▸ ha)

theorem eq_iff (ha : a ∈ G.nodes) (hb : b ∈ G.nodes) : f a = f b ↔ a = b :=
  h.injOn.eq_iff ha hb

theorem unloop (ha : a ∈ G.nodes) : Renaming f (G.unloop {a}) (G'.unloop {f a}) where
  nodes := h.nodes
  injOn := h.injOn
  edge_iff := by
    intro x hx y hy
    refine and_congr (h.edge_iff x hx y hy) (not_congr (and_congr (h.eq_iff hx hy) ?_))
    rw [Finset.mem_singleton, Finset.mem_singleton, h.eq_iff hx ha]

theorem merge (hp : p ∈ G.nodes) (hn : n ∈ G.nodes) :
    Renaming f (G.merge p n) (G'.merge (f p) (f n)) where
  nodes := by
    refine Finset.ext fun x => ?_
    constructor
    · intro hx
      obtain ⟨hne, hmem⟩ := Finset.mem_erase.mp hx
      obtain ⟨y, hy, rfl⟩ := h.exists_mem hmem
      exact Finset.mem_image_of_mem f (Finset.mem_erase.mpr ⟨fun hyn => hne (hyn ▸ rfl), hy⟩)
    · intro hx
      obtain ⟨y, hy, rfl⟩ := Finset.mem_image.mp hx
      obtain ⟨hne, hmem⟩ := Finset.mem_erase.mp hy
      exact Finset.mem_erase.mpr ⟨fun heq => hne ((h.eq_iff hmem hn).mp heq), h.mem hmem⟩
  injOn := h.injOn.mono fun _ hx => Finset.mem_of_mem_erase hx
  edge_iff := by
    intro x hx y hy
    obtain ⟨hxn, hx'⟩ := Finset.mem_erase.mp hx
    obtain ⟨hyn, hy'⟩ := Finset.mem_erase.mp hy
    have hfx : f x ∈ G'.nodes.erase (f n) :=
      Finset.mem_erase.mpr ⟨fun heq => hxn ((h.eq_iff hx' hn).mp heq), h.mem hx'⟩
    have hfy : f y ≠ f n := fun heq => hyn ((h.eq_iff hy' hn).mp heq)
    show _ ∧ _ ∧ _ ↔ _ ∧ _ ∧ _
    rw [h.edge_iff x hx' y hy', h.edge_iff n hn y hy', h.eq_iff hx' hp]
    exact and_congr (iff_of_true hfx hx) (and_congr_left' (iff_of_true hfy hyn))

theorem follows (hf : G.Follows p n) : G'.Follows (f p) (f n) := by
  obtain ⟨hp, hn⟩ := G.mem_of_edge hf.edge
  refine ⟨fun heq => hf.1 ((h.eq_iff hp hn).mp heq), fun x => ?_⟩
  constructor
  · intro hedge
    obtain ⟨y, hy, rfl⟩ := h.exists_mem (G'.mem_of_edge hedge).1
    rw [(hf.2 y).mp ((h.edge_iff y hy n hn).mp hedge)]
  · rintro rfl
    exact (h.edge_iff p hp n hn).mpr hf.edge

/-- A step is taken under other names. -/
theorem step (hstep : Step G H) : ∃ H', Step G' H' ∧ Renaming f H H' := by
  cases hstep with
  | @unloop a ha =>
    have hmem := (G.mem_of_edge ha).1
    exact ⟨_, .unloop ((h.edge_iff a hmem a hmem).mpr ha), h.unloop hmem⟩
  | merge hf =>
    obtain ⟨hp, hn⟩ := G.mem_of_edge hf.edge
    exact ⟨_, .merge (h.follows hf), h.merge hp hn⟩

theorem reducible (hr : G.Reducible) : G'.Reducible := by
  obtain ⟨K, hsteps, v, hv⟩ := hr
  have hrun : ∃ K', ReflTransGen Step G' K' ∧ Renaming f K K' := by
    clear hv
    induction hsteps with
    | refl => exact ⟨G', .refl, h⟩
    | tail _ hstep ih =>
      obtain ⟨L, hL, hnamed⟩ := ih
      obtain ⟨L', hL', hnamed'⟩ := hnamed.step hstep
      exact ⟨L', hL.tail hL', hnamed'⟩
  obtain ⟨K', hK', hnamed⟩ := hrun
  exact ⟨K', hK', f v, by rw [hnamed.nodes, hv, Finset.image_singleton]⟩

/-- The old names are given back. -/
theorem inverse : Renaming (Function.invFunOn f G.nodes) G' G := by
  have hback : ∀ a ∈ G.nodes, Function.invFunOn f G.nodes (f a) = a :=
    fun a ha => h.injOn.leftInvOn_invFunOn ha
  refine ⟨Finset.ext fun x => ?_, fun x hx y hy hxy => ?_, fun x hx y hy => ?_⟩
  · rw [h.nodes, Finset.image_image]
    constructor
    · exact fun hx => Finset.mem_image.mpr ⟨x, hx, hback x hx⟩
    · intro hx
      obtain ⟨y, hy, hyx⟩ := Finset.mem_image.mp hx
      exact (hback y hy).symm.trans hyx ▸ hy
  · obtain ⟨a, ha, rfl⟩ := h.exists_mem hx
    obtain ⟨b, hb, rfl⟩ := h.exists_mem hy
    rw [hback a ha, hback b hb] at hxy
    rw [hxy]
  · obtain ⟨a, ha, rfl⟩ := h.exists_mem hx
    obtain ⟨b, hb, rfl⟩ := h.exists_mem hy
    rw [hback a ha, hback b hb]
    exact (h.edge_iff a ha b hb).symm

/-- The root has another name. -/
theorem rooted (hr : G.Rooted r) : G'.Rooted (f r) where
  mem := h.mem hr.mem
  entry := by
    intro a hedge
    obtain ⟨b, hb, rfl⟩ := h.exists_mem (G'.mem_of_edge hedge).1
    exact hr.entry b ((h.edge_iff b hb r hr.mem).mp hedge)
  reaches := by
    intro a ha
    obtain ⟨n, hn, rfl⟩ := h.exists_mem ha
    induction hr.reaches n hn with
    | refl => exact .refl
    | tail _ hedge ih =>
      obtain ⟨hb, hc⟩ := G.mem_of_edge hedge
      exact (ih hb (h.mem hb)).tail ((h.edge_iff _ hb _ hc).mpr hedge)

theorem reducible_iff : G.Reducible ↔ G'.Reducible :=
  ⟨h.reducible, h.inverse.reducible⟩

end Renaming

end Shape

end KernelIntervals
