/-
The names of the blocks of a graph.

* `blockName_inj`, `controllingName_injective`, `controllingName_ne_blockName` — names that are made
  up tell what they were made of,
* `Dot.Graph.nodup_of_parse` — the nodes of a graph that was read have distinct names,
* `Dot.Graph.Unclaimed` — no node has a name that is made up for a block,
* `carve_names` — the blocks of a graph have distinct names exactly if that is so.

Design notes: the first block of a node has its name, which may be any. All other names are made up,
and end in a mark with digits behind it: a letter, an underscore and a number, or a number behind
the last letter of a fixed word. The mark is the last character that is no digit, so it can be found
in the name, and with it what stands before it and behind it.
-/
import Mathlib.Data.List.Pairwise
import KernelIntervals.Dot.Read
import KernelIntervals.Proofs.Names
import KernelIntervals.Proofs.Rows

namespace KernelIntervals

/-! ### Names that are made up -/

section Marks

variable {α : Type} {p : α → Prop} {xs ys ds es : List α} {c d : α}

theorem head_eq_of_append_cons (hds : ∀ x ∈ ds, p x) (hd : ¬ p d)
    {zs : List α} (h : c :: ds = zs ++ d :: es) : zs = [] ∧ c = d ∧ ds = es := by
  cases zs with
  | nil => exact ⟨rfl, List.cons.inj h⟩
  | cons z zs =>
    have hmem : d ∈ ds := by
      rw [(List.cons.inj h).2]
      exact List.mem_append_right zs List.mem_cons_self
    exact absurd (hds d hmem) hd

/-- The last element that is not of some kind is found in a list. -/
theorem append_cons_inj (hds : ∀ x ∈ ds, p x) (hes : ∀ x ∈ es, p x) (hc : ¬ p c) (hd : ¬ p d)
    (h : xs ++ c :: ds = ys ++ d :: es) : xs = ys ∧ c = d ∧ ds = es := by
  rcases List.append_eq_append_iff.mp h with ⟨zs, rfl, hz⟩ | ⟨zs, rfl, hz⟩
  · obtain ⟨rfl, hrest⟩ := head_eq_of_append_cons hds hd hz
    exact ⟨(List.append_nil xs).symm, hrest⟩
  · obtain ⟨rfl, rfl, rfl⟩ := head_eq_of_append_cons hes hc hz
    exact ⟨List.append_nil ys, rfl, rfl⟩

end Marks

/-- The last character of a made-up block name that is no digit. -/
def nameMark (nth : Nat) : Char :=
  if nth ≤ 26 then Char.ofNat ('A'.toNat + (nth - 1)) else '_'

/-- The digits behind it. -/
def nameDigits (nth : Nat) : List Char := if nth ≤ 26 then [] else (nth - 1).repr.toList

variable {i j k : Nat} {s t : String}

theorem toList_blockName (s : String) (h : 0 < i) :
    (blockName s i).toList = s.toList ++ nameMark i :: nameDigits i := by
  rw [blockName, if_neg (Nat.ne_of_gt h), nameMark, nameDigits]
  split
  · rw [String.toList_push]
  · rw [String.toList_append, String.toList_append, List.append_assoc]
    rfl

theorem toList_controllingName (k : Nat) :
    (controllingName k).toList = "Controlling_basicBloc".toList ++ 'k' :: k.repr.toList := by
  calc (controllingName k).toList
    _ = "Controlling_basicBlock".toList ++ k.repr.toList := String.toList_append
    _ = "Controlling_basicBloc".toList ++ 'k' :: k.repr.toList := by simp

theorem isDigit_of_mem_repr {c : Char} (h : c ∈ k.repr.toList) : c.isDigit = true := by
  rw [Nat.toList_repr] at h
  exact Nat.isDigit_of_mem_toDigits (by decide) (Nat.le_refl 10) h

theorem isDigit_of_mem_nameDigits {c : Char} (h : c ∈ nameDigits i) : c.isDigit = true := by
  rw [nameDigits] at h
  split at h
  · exact absurd h List.not_mem_nil
  · exact isDigit_of_mem_repr h

theorem repr_ne_nil : k.repr.toList ≠ [] := by
  rw [Nat.toList_repr]
  exact Nat.toDigits_ne_nil

theorem letter_toNat : ∀ i < 26, (Char.ofNat ('A'.toNat + i)).toNat = 'A'.toNat + i := by decide

theorem not_isDigit_nameMark : ¬ (nameMark i).isDigit = true := by
  rw [nameMark]
  split
  next hi =>
    have hletters : ∀ i ≤ 26, ¬ (Char.ofNat ('A'.toNat + (i - 1))).isDigit = true := by decide
    exact hletters i hi
  next => decide

/-- A mark and its digits tell the number of the block. -/
theorem nameMark_inj (hi : 0 < i) (hj : 0 < j) (hmark : nameMark i = nameMark j)
    (hdigits : nameDigits i = nameDigits j) : i = j := by
  simp only [nameMark, nameDigits] at hmark hdigits
  split at hdigits
  next hi' =>
    split at hdigits
    next hj' =>
      rw [if_pos hi', if_pos hj'] at hmark
      have hcodes := congrArg Char.toNat hmark
      rw [letter_toNat _ (by omega), letter_toNat _ (by omega)] at hcodes
      omega
    next => exact absurd hdigits.symm repr_ne_nil
  next =>
    split at hdigits
    next => exact absurd hdigits repr_ne_nil
    next =>
      have hnumbers := repr_injective (String.toList_inj.mp hdigits)
      omega

/-- The name of a later block of a node tells the node and the number of the block. -/
theorem blockName_inj (hi : 0 < i) (hj : 0 < j) (h : blockName s i = blockName t j) :
    s = t ∧ i = j := by
  have hlists := congrArg String.toList h
  rw [toList_blockName s hi, toList_blockName t hj] at hlists
  obtain ⟨hnames, hmark, hdigits⟩ := append_cons_inj (p := (·.isDigit = true))
    (fun _ => isDigit_of_mem_nameDigits) (fun _ => isDigit_of_mem_nameDigits)
    not_isDigit_nameMark not_isDigit_nameMark hlists
  exact ⟨String.toList_inj.mp hnames, nameMark_inj hi hj hmark hdigits⟩

theorem controllingName_injective : Function.Injective controllingName :=
  fun _ _ h => repr_injective ((String.append_right_inj _).mp h)

/-- No controlling block has the name of a later block of a node. -/
theorem controllingName_ne_blockName (hi : 0 < i) : controllingName k ≠ blockName s i := by
  intro h
  have hlists := congrArg String.toList h
  rw [toList_controllingName, toList_blockName s hi] at hlists
  obtain ⟨-, hmark, hdigits⟩ := append_cons_inj (p := (·.isDigit = true))
    (fun _ => isDigit_of_mem_repr) (fun _ => isDigit_of_mem_nameDigits) (by decide)
    not_isDigit_nameMark hlists
  rw [nameDigits] at hdigits
  -- The mark of a controlling block is a small letter.
  split at hdigits
  next => exact repr_ne_nil hdigits
  next hlarge =>
    rw [nameMark, if_neg hlarge] at hmark
    exact absurd hmark (by decide)

/-! ### Names of nodes -/

namespace Dot

variable {g g' : Graph} {tokens rest : List Located}

/-- A node is only added under a new name. -/
theorem nodup_of_declare {name : String} {label : Option String}
    (hnodup : (g.nodes.map (·.name)).Nodup) (h : g.declare name label = .ok g') :
    (g'.nodes.map (·.name)).Nodup := by
  unfold Graph.declare at h
  split at h
  next =>
    split at h
    · cases h
    · cases h
      exact hnodup
  next hnew =>
    cases h
    rw [List.map_append, List.nodup_append]
    refine ⟨hnodup, List.nodup_singleton _, fun s hs t ht heq => hnew ?_⟩
    obtain ⟨n, hn, rfl⟩ := List.mem_map.mp hs
    obtain rfl := List.mem_singleton.mp ht
    rw [Graph.nodeIndex?, List.findIdx?_isSome, List.any_eq_true]
    exact ⟨n, hn, beq_iff_eq.mpr heq⟩

theorem nodup_of_statement (hnodup : (g.nodes.map (·.name)).Nodup)
    (h : statement g tokens = .ok (g', rest)) : (g'.nodes.map (·.name)).Nodup := by
  unfold statement at h
  split at h
  next r _ =>
    cases hattrs : attributes r with
    | error e => simp [hattrs, Except.map] at h
    | ok p =>
      simp only [hattrs, Except.map, Except.ok.injEq, Prod.mk.injEq] at h
      exact h.1 ▸ hnodup
  next =>
    simp only [bind, Except.bind, pure, Except.pure] at h
    split at h <;> try simp at h
    split at h
    next =>
      split at h <;> try simp at h
      exact h.1 ▸ hnodup
    next =>
      split at h <;> try simp at h
      split at h <;> try simp at h
      split at h
      · split at h <;> try simp at h
        next hdeclare => exact h.1 ▸ nodup_of_declare hnodup hdeclare
      · simp only [Except.ok.injEq, Prod.mk.injEq] at h
        exact h.1 ▸ hnodup

theorem nodup_of_statements (hnodup : (g.nodes.map (·.name)).Nodup)
    (h : statements g tokens = .ok g') : (g'.nodes.map (·.name)).Nodup := by
  fun_induction statements g tokens with
  | case1 => cases h
  | case2 => exact Except.ok.inj h ▸ hnodup
  | case3 g t rest _ _ ih => exact ih hnodup h
  | case4 => cases h
  | case5 g t rest _ _ g₁ rest' hstatement _ ih =>
    exact ih (nodup_of_statement hnodup hstatement) h

/-- The nodes of a graph that was read have distinct names. -/
theorem Graph.nodup_of_parse {text : String} (h : Graph.parse text = .ok g) :
    (g.nodes.map (·.name)).Nodup := by
  simp only [Graph.parse, Graph.ofTokens, bind, Except.bind] at h
  split at h <;> try simp at h
  split at h <;> try simp at h
  split at h <;> try simp at h
  split at h <;> try simp at h
  refine nodup_of_statements ?_ h
  exact List.nodup_nil

/-- No node has the name of a later block of a node, or that of a controlling block. -/
structure Graph.Unclaimed (g : Graph) : Prop where
  later : ∀ n ∈ g.nodes, ∀ m ∈ g.nodes, ∀ i, 0 < i → i < (bodies m.listings).length →
    n.name ≠ blockName m.name i
  controlling : ∀ n ∈ g.nodes, ∀ i < total (fun n => guardCount n.listings) g.nodes,
    n.name ≠ controllingName i

end Dot

/-! ### Numbers of controlling blocks -/

section Numbers

variable {t u : Site} {base number lo : Nat} {nodes : List Dot.Node}

theorem mem_numbers (h : IsGuard t.listings k) :
    t.number + Nat.count (IsGuard t.listings) k ∈
      List.range' t.number (guardCount t.listings) := by
  have hlt := Nat.count_strict_mono h h.hasInsts.lt_length
  rw [List.mem_range'_1, guardCount]
  omega

theorem number_lt (ht : t ∈ sites base 0 0 nodes) (hk : IsGuard t.listings k) :
    t.number + Nat.count (IsGuard t.listings) k <
      total (fun n => guardCount n.listings) nodes := by
  have hmem : t.number + Nat.count (IsGuard t.listings) k ∈ (sites base 0 0 nodes).flatMap
      fun t => List.range' t.number (guardCount t.listings) :=
    List.mem_flatMap.mpr ⟨t, ht, mem_numbers hk⟩
  rw [numbers_sites, List.mem_range'_1] at hmem
  omega

/-- Each number below that of all controlling blocks is the number of one. -/
theorem exists_guard (base : Nat) (hi : i < total (fun n => guardCount n.listings) nodes) :
    ∃ t ∈ sites base 0 0 nodes, ∃ k, IsGuard t.listings k ∧
      t.number + Nat.count (IsGuard t.listings) k = i := by
  have hmem : i ∈ List.range' 0 (total (fun n => guardCount n.listings) nodes) := by
    rw [List.mem_range'_1]
    omega
  rw [← numbers_sites base 0 0] at hmem
  obtain ⟨t, ht, hmem⟩ := List.mem_flatMap.mp hmem
  rw [List.mem_range'_1, guardCount] at hmem
  have hcount : i - t.number < Nat.count (IsGuard t.listings) t.listings.length := by omega
  obtain ⟨k, -, hguard, hk⟩ := exists_count_eq hcount
  exact ⟨t, ht, k, hguard, by omega⟩

/-- Two controlling blocks have two numbers. -/
theorem number_inj (ht : t ∈ sites base number lo nodes) (hu : u ∈ sites base number lo nodes)
    (hk : IsGuard t.listings k) (hj : IsGuard u.listings j)
    (h : t.number + Nat.count (IsGuard t.listings) k =
      u.number + Nat.count (IsGuard u.listings) j) : t = u ∧ k = j := by
  have hnodup : ((sites base number lo nodes).flatMap
      fun t => List.range' t.number (guardCount t.listings)).Nodup := by
    rw [numbers_sites]
    exact List.nodup_range'
  have hsite : t = u := by
    -- The numbers of two nodes are apart.
    by_contra hne
    have : Std.Symm (Function.onFun List.Disjoint fun t : Site =>
        List.range' t.number (guardCount t.listings)) := ⟨fun _ _ hd => hd.symm⟩
    have hdisjoint := (List.nodup_flatMap.mp hnodup).2.forall ht hu hne
    exact hdisjoint (mem_numbers hk) (h ▸ mem_numbers hj)
  subst hsite
  exact ⟨rfl, Nat.count_injective hk hj (Nat.add_left_cancel h)⟩

end Numbers

/-! ### Names of blocks -/

section Homes

variable {ls : List (List Inst)}

/-- The basic blocks of a node are numbered from the first one on. -/
theorem exists_home (hi : i < max 1 (bodies ls).length) :
    ∃ k ∈ homes ls, Nat.count (IsBody ls) k = i := by
  by_cases hnil : bodies ls = []
  · refine ⟨0, mem_homes.mpr (.inr ⟨rfl, hnil⟩), ?_⟩
    rw [hnil, List.length_nil] at hi
    rw [Nat.count_zero]
    omega
  · have hpos := List.length_pos_of_ne_nil hnil
    rw [length_bodies] at hi hpos
    obtain ⟨k, -, hbody, hk⟩ := exists_count_eq (p := IsBody ls) (n := ls.length) (i := i) (by omega)
    exact ⟨k, mem_homes.mpr (.inl hbody), hk⟩

theorem home_inj (hk : k ∈ homes ls) (hj : j ∈ homes ls)
    (h : Nat.count (IsBody ls) k = Nat.count (IsBody ls) j) : k = j := by
  rcases mem_homes.mp hk with hk | ⟨rfl, hnil⟩ <;> rcases mem_homes.mp hj with hj | ⟨rfl, hnil'⟩
  · exact Nat.count_injective hk hj h
  · exact absurd hk.1 (bodies_eq_nil_iff.mp hnil' k)
  · exact absurd hj.1 (bodies_eq_nil_iff.mp hnil j)
  · rfl

theorem count_lt_length (hk : k ∈ homes ls) (hpos : 0 < Nat.count (IsBody ls) k) :
    Nat.count (IsBody ls) k < (bodies ls).length := by
  rcases mem_homes.mp hk with hbody | ⟨rfl, -⟩
  · rw [length_bodies]
    exact Nat.count_strict_mono hbody hbody.1.lt_length
  · simp at hpos

end Homes

theorem Site.name_of_guard {t : Site} (h : IsGuard t.listings k) :
    (t.face k).name = controllingName (t.number + Nat.count (IsGuard t.listings) k) :=
  if_pos h

theorem Site.name_of_home {t : Site} (h : k ∈ homes t.listings) :
    (t.face k).name = blockName t.node.name (Nat.count (IsBody t.listings) k) :=
  if_neg (not_isGuard_of_mem_homes h)

section Faces

variable {g : Dot.Graph} {base : Nat} {t u : Site}
  (ht : t ∈ sites base 0 0 g.nodes) (hu : u ∈ sites base 0 0 g.nodes)

include ht hu

/-- A controlling block and a basic block have two names. -/
theorem guard_name_ne (hclear : g.Unclaimed) (hk : IsGuard t.listings k)
    (hj : j ∈ homes u.listings) : (t.face k).name ≠ (u.face j).name := by
  rw [Site.name_of_guard hk, Site.name_of_home hj]
  rcases Nat.eq_zero_or_pos (Nat.count (IsBody u.listings) j) with hfirst | hlater
  · rw [hfirst]
    exact (hclear.controlling u.node (mem_nodes hu) _ (number_lt ht hk)).symm
  · exact controllingName_ne_blockName hlater

/-- The first block of a node and a later block of a node have two names. -/
theorem later_name_ne (hclear : g.Unclaimed) (hk : k ∈ homes t.listings)
    (hj : j ∈ homes u.listings) (hfirst : Nat.count (IsBody t.listings) k = 0)
    (hlater : 0 < Nat.count (IsBody u.listings) j) : (t.face k).name ≠ (u.face j).name := by
  rw [Site.name_of_home hk, Site.name_of_home hj, hfirst]
  exact hclear.later t.node (mem_nodes ht) u.node (mem_nodes hu) _ hlater
    (count_lt_length hj hlater)

/-- A name tells the node of a block, and its port. -/
theorem face_name_inj (hnodup : (g.nodes.map (·.name)).Nodup) (hclear : g.Unclaimed)
    (hk : IsMade t.listings k) (hj : IsMade u.listings j)
    (h : (t.face k).name = (u.face j).name) : t = u ∧ k = j := by
  rcases hk with hk | hk <;> rcases hj with hj | hj
  · -- Two basic blocks: the first ones have the names of their nodes, and later ones tell these.
    have hsame : t.node.name = u.node.name ∧
        Nat.count (IsBody t.listings) k = Nat.count (IsBody u.listings) j := by
      have hnames := h
      rw [Site.name_of_home hk, Site.name_of_home hj] at hnames
      rcases Nat.eq_zero_or_pos (Nat.count (IsBody t.listings) k) with hk0 | hkpos <;>
        rcases Nat.eq_zero_or_pos (Nat.count (IsBody u.listings) j) with hj0 | hjpos
      · rw [hk0, hj0] at hnames ⊢
        exact ⟨hnames, rfl⟩
      · exact absurd h (later_name_ne ht hu hclear hk hj hk0 hjpos)
      · exact absurd h.symm (later_name_ne hu ht hclear hj hk hj0 hkpos)
      · exact blockName_inj hkpos hjpos hnames
    have hgroup : t.group = u.group := by
      obtain ⟨-, hn⟩ := getElem?_of_mem_sites ht
      obtain ⟨-, hm⟩ := getElem?_of_mem_sites hu
      rw [Nat.sub_zero] at hn hm
      refine (List.getElem?_inj ?_ hnodup).mp ?_
      · rw [List.length_map]
        exact (List.getElem?_eq_some_iff.mp hn).1
      · rw [List.getElem?_map, List.getElem?_map, hn, hm]
        exact congrArg some hsame.1
    obtain rfl := site_eq_of_group ht hu hgroup
    exact ⟨rfl, home_inj hk hj hsame.2⟩
  · exact absurd h.symm (guard_name_ne hu ht hclear hj hk)
  · exact absurd h (guard_name_ne ht hu hclear hk hj)
  · rw [Site.name_of_guard hk, Site.name_of_guard hj] at h
    exact number_inj ht hu hk hj (controllingName_injective h)

end Faces

namespace Built

variable {g : Dot.Graph} {cs : List CarvedNode} {ids : List BlockId} {mid new : FlowGraph}
  {t u : Site}

theorem name?_eq {base : Nat} (h : Built g base cs ids mid new)
    (ht : t ∈ sites base 0 0 g.nodes) (hk : IsMade t.listings k) :
    new.name? (t.blockOf k) = some (t.face k).name := by
  obtain ⟨b, hb, hface⟩ := h.exists_block ht hk
  rw [FlowGraph.name?, hb]
  exact congrArg (fun f => some f.name) hface

/-- Among blocks that were all made of a graph, two of one name are one. -/
theorem distinctNames_iff (h : Built g 0 cs ids mid new)
    (hnodup : (g.nodes.map (·.name)).Nodup) : new.DistinctNames ↔ g.Unclaimed := by
  have hsize : ∀ {x}, x < new.blocks.size ↔ ∃ t ∈ sites 0 0 0 g.nodes, ∃ k,
      IsMade t.listings k ∧ t.blockOf k = x := fun {x} => by
    rw [← h.exists_blockOf_iff, and_iff_right (Nat.zero_le x)]
  constructor
  · intro hdistinct
    -- A node with a name that is made up for a block would give two blocks of that name.
    have hsame : ∀ {t u k j}, t ∈ sites 0 0 0 g.nodes → u ∈ sites 0 0 0 g.nodes →
        IsMade t.listings k → IsMade u.listings j → (t.face k).name = (u.face j).name →
        t = u ∧ k = j := by
      intro t u k j ht hu hk hj hname
      refine h.blockOf_inj hu ht hj hk (hdistinct _ (hsize.mpr ⟨t, ht, k, hk, rfl⟩) _
        (hsize.mpr ⟨u, hu, j, hj, rfl⟩) ?_)
      rw [h.name?_eq ht hk, h.name?_eq hu hj, hname]
    have hfirst : ∀ n ∈ g.nodes, ∃ t ∈ sites 0 0 0 g.nodes, ∃ k ∈ homes t.listings,
        Nat.count (IsBody t.listings) k = 0 ∧ (t.face k).name = n.name := by
      intro n hn
      obtain ⟨t, ht, rfl⟩ := exists_site_of_mem 0 0 0 hn
      have hpos : 0 < max 1 (bodies t.listings).length := by omega
      obtain ⟨k, hk, hcount⟩ := exists_home hpos
      refine ⟨t, ht, k, hk, hcount, ?_⟩
      rw [Site.name_of_home hk, hcount]
      rfl
    refine ⟨fun n hn m hm i hi hlt hname => ?_, fun n hn i hi hname => ?_⟩
    · obtain ⟨t, ht, k, hk, hcount, hn⟩ := hfirst n hn
      obtain ⟨u, hu, rfl⟩ := exists_site_of_mem 0 0 0 hm
      have hlast : i < max 1 (bodies u.listings).length := Nat.lt_of_lt_of_le hlt (Nat.le_max_right ..)
      obtain ⟨j, hj, hcount'⟩ := exists_home hlast
      have heq : (t.face k).name = (u.face j).name := by
        rw [Site.name_of_home hj, hcount', hn, hname]
      obtain ⟨rfl, rfl⟩ := hsame ht hu (.inl hk) (.inl hj) heq
      omega
    · obtain ⟨t, ht, k, hk, -, hn⟩ := hfirst n hn
      obtain ⟨u, hu, j, hj, hnumber⟩ := exists_guard 0 hi
      have heq : (t.face k).name = (u.face j).name := by
        rw [Site.name_of_guard hj, hnumber, hn, hname]
      obtain ⟨rfl, rfl⟩ := hsame ht hu (.inl hk) (.inr hj) heq
      exact not_isGuard_of_mem_homes hk hj
  · intro hclear x hx y hy hname
    obtain ⟨t, ht, k, hk, rfl⟩ := hsize.mp hx
    obtain ⟨u, hu, j, hj, rfl⟩ := hsize.mp hy
    rw [h.name?_eq ht hk, h.name?_eq hu hj] at hname
    obtain ⟨rfl, rfl⟩ := face_name_inj ht hu hnodup hclear hk hj (Option.some.inj hname)
    rfl

end Built

/-- The blocks that a text gives in a new context, controlling blocks included, have distinct names
exactly if no node has a name that is made up for one of the blocks, and exactly then every block is
found by its name. -/
theorem carve_names {text : String} {g : Dot.Graph} {log : Log} {ids : List BlockId}
    {state' : LoggedGraph} (hread : Dot.Graph.parse text = .ok g)
    (h : carve g ⟨{}, log⟩ = (.ok ids, state')) :
    (state'.graph.DistinctNames ↔ g.Unclaimed) ∧ (state'.graph.Resolves ↔ g.Unclaimed) := by
  obtain ⟨cs, mid, hbuilt⟩ := carve_built h
  have hdistinct := hbuilt.distinctNames_iff (Dot.Graph.nodup_of_parse hread)
  refine ⟨hdistinct, fun hresolves => hdistinct.mp hresolves.distinctNames, fun hclear => ?_⟩
  exact (hdistinct.mpr hclear).resolves

/-- A node of two blocks and a controlling block, and one whose name is like those of its blocks. -/
def unclaimed : Dot.Graph where
  nodes := [⟨"a", [⟨some "entry", "MOV R1, R2 ;"⟩, ⟨some "exit0", "MOV R3, R4 ;"⟩,
    ⟨some "exit1", "@P0 BRA aB ;"⟩]⟩, ⟨"aB", [⟨some "entry", "EXIT ;"⟩]⟩]

theorem names_unclaimed :
    Dot.Graph.parse "digraph \x7b
      a [label=\"\x7b<entry>MOV R1, R2 ;|<exit0>MOV R3, R4 ;|<exit1>@P0 BRA aB ;\x7d\"]
      aB [label=\"\x7b<entry>EXIT ;\x7d\"] \x7d" = .ok unclaimed ∧
    (carve unclaimed {}).1 = .ok [0, 1, 3] ∧
    (carve unclaimed {}).2.graph.names = ["a", "aA", "Controlling_basicBlock0", "aB"] ∧
    unclaimed.Unclaimed ∧ (carve unclaimed {}).2.graph.Resolves := by
  have hread : Dot.Graph.parse "digraph \x7b
      a [label=\"\x7b<entry>MOV R1, R2 ;|<exit0>MOV R3, R4 ;|<exit1>@P0 BRA aB ;\x7d\"]
      aB [label=\"\x7b<entry>EXIT ;\x7d\"] \x7d" = .ok unclaimed := by
    decide +kernel
  have hok : (carve unclaimed {}).1 = .ok [0, 1, 3] := by decide +kernel
  have hdistinct : (carve unclaimed {}).2.graph.DistinctNames := by decide +kernel
  obtain ⟨hnames, hresolves⟩ := carve_names hread (Prod.ext hok rfl)
  have hclear := hnames.mp hdistinct
  exact ⟨hread, hok, by decide +kernel, hclear, hresolves.mpr hclear⟩

/-- A node of two blocks, and one with the name of the second. -/
def claimed : Dot.Graph where
  nodes := [⟨"a", [⟨some "entry", "MOV R1, R2 ;"⟩, ⟨some "exit0", "MOV R3, R4 ;"⟩]⟩,
    ⟨"aA", [⟨some "entry", "EXIT ;"⟩]⟩]

/-- The block of the second node is not found by its name. -/
theorem clash_claimed :
    Dot.Graph.parse "digraph \x7b a [label=\"\x7b<entry>MOV R1, R2 ;|<exit0>MOV R3, R4 ;\x7d\"]
      aA [label=\"\x7b<entry>EXIT ;\x7d\"] \x7d" = .ok claimed ∧
    (carve claimed {}).1 = .ok [0, 1, 2] ∧
    let new := (carve claimed {}).2.graph
    ¬ new.DistinctNames ∧ new.name? 2 = some "aA" ∧ new.findBlock? "aA" = some 1 := by
  decide +kernel

end KernelIntervals
