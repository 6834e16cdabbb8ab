/-
Nets: nodes and the edges between them.

* `Net.Closed` — edges lead to listed nodes and are recorded on both ends,
* `Net.Reachable` — some path from an entry, a node without predecessors, ends
  at a node,
* `Net.Dominates` — every path from an entry to a node passes through another,
* `Net.Dominates.antisymm` — two reachable nodes that dominate each other are one,
* `Net.cut` — a node cut in two, the tail behind the head,
* `Net.closed_cut`, `Net.reachable_cut` — a cut keeps the net closed, and reaches
  what was reached before.

Design notes: blocks and intervals are both nodes of nets, so what follows from
the edges alone is stated here once. A path is written with its last node first,
because paths from an entry are taken apart at their end.
-/
import Mathlib.Logic.Relation

namespace KernelIntervals

open Relation

/-- Nodes with the edges between them, recorded at both ends. -/
structure Net where
  nodes : List Nat
  preds : Nat → List Nat
  succs : Nat → List Nat

namespace Net

/-- A listed node without predecessors. -/
def IsEntry (net : Net) (n : Nat) : Prop := n ∈ net.nodes ∧ net.preds n = []

def Edge (net : Net) (a b : Nat) : Prop := b ∈ net.succs a

/-- A node that some path from an entry leads to. -/
def Reachable (net : Net) (n : Nat) : Prop := ∃ r, net.IsEntry r ∧ ReflTransGen net.Edge r n

/-- A path from an entry, the last node first. -/
inductive Trail (net : Net) : List Nat → Prop
  | entry {r : Nat} (h : net.IsEntry r) : Trail net [r]
  | step {a b : Nat} {path : List Nat} (h : Trail net (a :: path)) (hedge : net.Edge a b) :
      Trail net (b :: a :: path)

/-- Every path from an entry to `n` passes through `e`. -/
def Dominates (net : Net) (e n : Nat) : Prop := ∀ path, net.Trail (n :: path) → e ∈ n :: path

/-- Edges of listed nodes lead to listed nodes and are recorded at both ends. -/
structure Closed (net : Net) : Prop where
  succ_mem : ∀ {n s}, n ∈ net.nodes → s ∈ net.succs n → s ∈ net.nodes
  mem_preds : ∀ {n s}, n ∈ net.nodes → s ∈ net.succs n → n ∈ net.preds s
  pred_mem : ∀ {n p}, n ∈ net.nodes → p ∈ net.preds n → p ∈ net.nodes
  mem_succs : ∀ {n p}, n ∈ net.nodes → p ∈ net.preds n → n ∈ net.succs p

variable {net : Net}

/-! ### Reachable nodes -/

theorem IsEntry.reachable {r : Nat} (h : net.IsEntry r) : net.Reachable r := ⟨r, h, .refl⟩

theorem Reachable.step {a b : Nat} (h : net.Reachable a) (hedge : net.Edge a b) :
    net.Reachable b := by
  obtain ⟨r, hr, hpath⟩ := h
  exact ⟨r, hr, hpath.tail hedge⟩

/-- What holds at the entries and along the edges holds at all reachable nodes. -/
theorem Reachable.induction {P : Nat → Prop} {n : Nat} (hentry : ∀ r, net.IsEntry r → P r)
    (hstep : ∀ a b, net.Reachable a → P a → net.Edge a b → P b) (h : net.Reachable n) : P n := by
  obtain ⟨r, hr, hpath⟩ := h
  induction hpath with
  | refl => exact hentry r hr
  | tail hab hbc ih => exact hstep _ _ ⟨r, hr, hab⟩ ih hbc

theorem Reachable.mem {n : Nat} (hc : net.Closed) (h : net.Reachable n) : n ∈ net.nodes :=
  h.induction (fun _ hr => hr.1) fun _ _ _ ha hedge => hc.succ_mem ha hedge

/-- Some path from an entry ends at a reachable node. -/
theorem Reachable.exists_trail {n : Nat} (h : net.Reachable n) : ∃ path, net.Trail (n :: path) := by
  refine h.induction (P := fun n => ∃ path, net.Trail (n :: path)) ?_ ?_
  · exact fun r hr => ⟨[], .entry hr⟩
  · rintro a b _ ⟨path, hpath⟩ hedge
    exact ⟨a :: path, .step hpath hedge⟩

theorem Trail.reachable {n : Nat} {path : List Nat} (h : net.Trail (n :: path)) :
    ∀ m ∈ n :: path, net.Reachable m := by
  generalize hq : n :: path = q at h
  induction h generalizing n path with
  | entry hr =>
    intro m hm
    rw [List.mem_singleton.mp hm]
    exact hr.reachable
  | step hpath hedge ih =>
    intro m hm
    rcases List.mem_cons.mp hm with rfl | hm
    · exact (ih rfl _ List.mem_cons_self).step hedge
    · exact ih rfl m hm

/-! ### Domination -/

/-- A path may be ended at any node that it passes through. -/
theorem Trail.of_append {m : Nat} (front : List Nat) {back : List Nat}
    (h : net.Trail (front ++ m :: back)) : net.Trail (m :: back) := by
  induction front with
  | nil => exact h
  | cons x front ih =>
    apply ih
    cases front with
    | nil =>
      cases h with
      | step hpath _ => exact hpath
    | cons y front =>
      cases h with
      | step hpath _ => exact hpath

/-- Two reachable nodes that dominate each other are one. -/
theorem Dominates.antisymm {e e' : Nat} (h : net.Dominates e e') (h' : net.Dominates e' e)
    (hreach : net.Reachable e) : e = e' := by
  refine Classical.byContradiction fun hne => ?_
  have hdescent : ∀ k path, path.length = k → ¬ net.Trail (e :: path) := by
    intro k
    induction k using Nat.strongRecOn with
    | _ k ih =>
      intro path hlen htrail
      -- A path to `e` meets `e'` before, and that path meets `e` before.
      obtain hmem | hmem := List.mem_cons.mp (h' path htrail)
      · exact hne hmem.symm
      obtain ⟨front, back, rfl⟩ := List.append_of_mem hmem
      have hback : net.Trail (e' :: back) :=
        Trail.of_append (e :: front) htrail
      obtain hmem' | hmem' := List.mem_cons.mp (h back hback)
      · exact hne hmem'
      obtain ⟨front', back', rfl⟩ := List.append_of_mem hmem'
      have hshort : net.Trail (e :: back') := Trail.of_append (e' :: front') hback
      refine ih back'.length ?_ back' rfl hshort
      simp only [List.length_append, List.length_cons] at hlen
      omega
  obtain ⟨path, hpath⟩ := hreach.exists_trail
  exact hdescent path.length path rfl hpath

/-- A node dominates every node of a region that paths enter only there. -/
theorem dominates_of_region {e : Nat} {R : Nat → Prop}
    (hentry : ∀ n, R n → net.IsEntry n → n = e)
    (hedge : ∀ a b, net.Reachable a → net.Edge a b → R b → b ≠ e → R a) {n : Nat}
    (hn : R n) : net.Dominates e n := by
  -- Back along the path, all is in the region until it meets the node.
  intro path htrail
  generalize hq : n :: path = q at htrail
  induction htrail generalizing n path with
  | entry hr =>
    injection hq with hq _
    subst hq
    rw [hentry n hn hr]
    exact List.mem_singleton_self e
  | @step a b rest hpath hab ih =>
    injection hq with hq _
    subst hq
    by_cases hne : n = e
    · rw [hne]
      exact List.mem_cons_self
    · have ha : R a := hedge a n (hpath.reachable a List.mem_cons_self) hab hn hne
      exact List.mem_cons_of_mem n (ih ha rest rfl)

/-! ### Cutting a node in two -/

theorem mem_of_ne_last {nodes : List Nat} {x last : Nat} (h : x ∈ nodes ++ [last])
    (hne : x ≠ last) : x ∈ nodes :=
  (List.mem_append.mp h).resolve_right fun hx => hne (List.mem_singleton.mp hx)

/-- The net with a node cut in two: the tail takes the successors, and follows
the head. -/
def cut (net : Net) (head tail : Nat) : Net where
  nodes := net.nodes ++ [tail]
  preds x :=
    if x = tail then [head]
    else if x ∈ net.succs head then (net.preds x).map fun p => if p = head then tail else p
    else net.preds x
  succs x :=
    if x = tail then net.succs head else if x = head then [tail] else net.succs x

section Cut

variable {head tail : Nat}

theorem preds_cut_tail : (net.cut head tail).preds tail = [head] := if_pos rfl

theorem succs_cut_tail : (net.cut head tail).succs tail = net.succs head := if_pos rfl

theorem succs_cut_head (h : head ≠ tail) : (net.cut head tail).succs head = [tail] := by
  show (if head = tail then _ else if head = head then _ else _) = _
  rw [if_neg h, if_pos rfl]

theorem succs_cut_of_ne {x : Nat} (htail : x ≠ tail) (hhead : x ≠ head) :
    (net.cut head tail).succs x = net.succs x := by
  show (if x = tail then _ else if x = head then _ else _) = _
  rw [if_neg htail, if_neg hhead]

theorem preds_cut_of_not_mem {x : Nat} (htail : x ≠ tail) (h : x ∉ net.succs head) :
    (net.cut head tail).preds x = net.preds x := by
  show (if x = tail then _ else if _ then _ else _) = _
  rw [if_neg htail, if_neg h]

theorem preds_cut_eq_nil {x : Nat} (htail : x ≠ tail) :
    (net.cut head tail).preds x = [] ↔ net.preds x = [] := by
  show (if x = tail then _ else if _ then _ else _) = _ ↔ _
  rw [if_neg htail]
  split
  · exact List.map_eq_nil_iff
  · exact Iff.rfl

variable (hc : net.Closed) (hhead : head ∈ net.nodes) (htail : tail ∉ net.nodes)

include hc hhead htail

theorem mem_preds_cut {x p : Nat} (hx : x ∈ net.nodes) :
    p ∈ (net.cut head tail).preds x ↔
      p = tail ∧ head ∈ net.preds x ∨ p ≠ head ∧ p ∈ net.preds x := by
  have hne : x ≠ tail := ne_of_mem_of_not_mem hx htail
  have hfresh : tail ∉ net.preds x := fun h => htail (hc.pred_mem hx h)
  by_cases hsucc : x ∈ net.succs head
  · have hmem : head ∈ net.preds x := hc.mem_preds hhead hsucc
    show p ∈ (if x = tail then _ else if x ∈ net.succs head then _ else _) ↔ _
    rw [if_neg hne, if_pos hsucc, List.mem_map]
    constructor
    · rintro ⟨q, hq, rfl⟩
      by_cases hqh : q = head
      · rw [if_pos hqh]
        exact .inl ⟨rfl, hmem⟩
      · rw [if_neg hqh]
        exact .inr ⟨hqh, hq⟩
    · rintro (⟨rfl, h⟩ | ⟨hph, hp⟩)
      · exact ⟨head, h, if_pos rfl⟩
      · exact ⟨p, hp, if_neg hph⟩
  · have hmem : head ∉ net.preds x := fun h => hsucc (hc.mem_succs hx h)
    rw [preds_cut_of_not_mem hne hsucc]
    constructor
    · intro hp
      exact .inr ⟨fun h => hmem (h ▸ hp), hp⟩
    · rintro (⟨_, h⟩ | ⟨_, hp⟩)
      · exact absurd h hmem
      · exact hp

theorem closed_cut : (net.cut head tail).Closed where
  -- Each node is the tail, the head or another one, and only the first two changed.
  succ_mem := by
    intro n s hn hs
    show s ∈ net.nodes ++ [tail]
    by_cases hnt : n = tail
    · rw [hnt, succs_cut_tail] at hs
      exact List.mem_append_left _ (hc.succ_mem hhead hs)
    · have hn' : n ∈ net.nodes := mem_of_ne_last hn hnt
      by_cases hnh : n = head
      · rw [hnh, succs_cut_head (hnh ▸ hnt)] at hs
        exact List.mem_append_right _ hs
      · rw [succs_cut_of_ne hnt hnh] at hs
        exact List.mem_append_left _ (hc.succ_mem hn' hs)
  mem_preds := by
    intro n s hn hs
    by_cases hnt : n = tail
    · rw [hnt, succs_cut_tail] at hs
      rw [mem_preds_cut hc hhead htail (hc.succ_mem hhead hs)]
      exact .inl ⟨hnt, hc.mem_preds hhead hs⟩
    · have hn' : n ∈ net.nodes := mem_of_ne_last hn hnt
      by_cases hnh : n = head
      · rw [hnh, succs_cut_head (hnh ▸ hnt)] at hs
        rw [List.mem_singleton.mp hs, preds_cut_tail, hnh]
        exact List.mem_singleton_self head
      · rw [succs_cut_of_ne hnt hnh] at hs
        rw [mem_preds_cut hc hhead htail (hc.succ_mem hn' hs)]
        exact .inr ⟨hnh, hc.mem_preds hn' hs⟩
  pred_mem := by
    intro n p hn hp
    show p ∈ net.nodes ++ [tail]
    by_cases hnt : n = tail
    · rw [hnt, preds_cut_tail] at hp
      rw [List.mem_singleton.mp hp]
      exact List.mem_append_left _ hhead
    · have hn' : n ∈ net.nodes := mem_of_ne_last hn hnt
      rw [mem_preds_cut hc hhead htail hn'] at hp
      rcases hp with ⟨rfl, _⟩ | ⟨_, hp⟩
      · exact List.mem_append_right _ (List.mem_singleton_self p)
      · exact List.mem_append_left _ (hc.pred_mem hn' hp)
  mem_succs := by
    intro n p hn hp
    by_cases hnt : n = tail
    · rw [hnt, preds_cut_tail] at hp
      rw [List.mem_singleton.mp hp, succs_cut_head (ne_of_mem_of_not_mem hhead htail), hnt]
      exact List.mem_singleton_self tail
    · have hn' : n ∈ net.nodes := mem_of_ne_last hn hnt
      rw [mem_preds_cut hc hhead htail hn'] at hp
      rcases hp with ⟨rfl, h⟩ | ⟨hph, hp⟩
      · rw [succs_cut_tail]
        exact hc.mem_succs hn' h
      · rw [succs_cut_of_ne (ne_of_mem_of_not_mem (hc.pred_mem hn' hp) htail) hph]
        exact hc.mem_succs hn' hp

omit hc in
/-- The edges of a net are paths after a cut. -/
theorem reflTransGen_cut_of_edge {a b : Nat} (ha : a ∈ net.nodes) (h : net.Edge a b) :
    ReflTransGen (net.cut head tail).Edge a b := by
  have hat : a ≠ tail := ne_of_mem_of_not_mem ha htail
  by_cases hah : a = head
  · -- An edge of the head has become one to the tail and one behind it.
    subst hah
    have hfirst : (net.cut a tail).Edge a tail := by
      show tail ∈ (net.cut a tail).succs a
      rw [succs_cut_head hat]
      exact List.mem_singleton_self tail
    have hsecond : (net.cut a tail).Edge tail b := by
      show b ∈ (net.cut a tail).succs tail
      rw [succs_cut_tail]
      exact h
    exact (ReflTransGen.single hfirst).tail hsecond
  · refine .single ?_
    show b ∈ (net.cut head tail).succs a
    rw [succs_cut_of_ne hat hah]
    exact h

omit hc hhead in
theorem isEntry_cut {r : Nat} : (net.cut head tail).IsEntry r ↔ net.IsEntry r := by
  constructor
  · rintro ⟨hmem, hnil⟩
    have hrt : r ≠ tail := by
      rintro rfl
      rw [preds_cut_tail] at hnil
      exact absurd hnil (List.cons_ne_nil _ _)
    exact ⟨mem_of_ne_last hmem hrt,
      (preds_cut_eq_nil hrt).mp hnil⟩
  · rintro ⟨hmem, hnil⟩
    exact ⟨List.mem_append_left _ hmem,
      (preds_cut_eq_nil (ne_of_mem_of_not_mem hmem htail)).mpr hnil⟩

/-- After a cut, the head stands for its tail: what is reached is what was
reached before. -/
theorem reachable_of_cut {n : Nat} (h : (net.cut head tail).Reachable n) :
    net.Reachable (if n = tail then head else n) := by
  refine h.induction (P := fun n => net.Reachable (if n = tail then head else n)) ?_ ?_
  · intro r hr
    have hr' : net.IsEntry r := (isEntry_cut htail).mp hr
    rw [if_neg (ne_of_mem_of_not_mem hr'.1 htail)]
    exact hr'.reachable
  · intro a b _ ha hedge
    have hedge' : b ∈ (net.cut head tail).succs a := hedge
    by_cases hat : a = tail
    · -- Behind the tail comes what came behind the head.
      rw [hat, succs_cut_tail] at hedge'
      rw [if_pos hat] at ha
      rw [if_neg (ne_of_mem_of_not_mem (hc.succ_mem hhead hedge') htail)]
      exact ha.step hedge'
    · rw [if_neg hat] at ha
      by_cases hah : a = head
      · rw [hah, succs_cut_head (hah ▸ hat)] at hedge'
        rw [if_pos (List.mem_singleton.mp hedge'), ← hah]
        exact ha
      · rw [succs_cut_of_ne hat hah] at hedge'
        rw [if_neg (ne_of_mem_of_not_mem (hc.succ_mem (ha.mem hc) hedge') htail)]
        exact ha.step hedge'

theorem Reachable.cut {n : Nat} (h : net.Reachable n) : (net.cut head tail).Reachable n := by
  refine h.induction (fun r hr => ((isEntry_cut htail).mpr hr).reachable) ?_
  intro a b ha hcut hedge
  obtain ⟨r, hr, hpath⟩ := hcut
  exact ⟨r, hr, hpath.trans (reflTransGen_cut_of_edge hhead htail (ha.mem hc) hedge)⟩

/-- A cut reaches the nodes that were reached before. -/
theorem reachable_cut {n : Nat} (hn : n ∈ net.nodes) :
    (net.cut head tail).Reachable n ↔ net.Reachable n := by
  constructor
  · intro h
    have := reachable_of_cut hc hhead htail h
    rwa [if_neg (ne_of_mem_of_not_mem hn htail)] at this
  · exact fun h => h.cut hc hhead htail

/-- The tail of a cut is reached if the head was. -/
theorem reachable_cut_tail : (net.cut head tail).Reachable tail ↔ net.Reachable head := by
  constructor
  · intro h
    have := reachable_of_cut hc hhead htail h
    rwa [if_pos rfl] at this
  · intro h
    refine (h.cut hc hhead htail).step ?_
    show tail ∈ (net.cut head tail).succs head
    rw [succs_cut_head (ne_of_mem_of_not_mem hhead htail)]
    exact List.mem_singleton_self tail

end Cut

end Net

end KernelIntervals
