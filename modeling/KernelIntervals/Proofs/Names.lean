/-
Names of blocks, and the names that tails get.

* `FlowGraph.names` — the names of all blocks, in the order the blocks were made,
* `FlowGraph.Resolves` — a block is found by its name,
* `FlowGraph.fragmentName_isLeast` — a tail gets the least number that gives an unused name,
* `Edit.split_names` — a split adds one unused name at most, also when it breaks off,
* `lasting_namedAfter` — so whatever a first pass does, names stay distinct,
* `split_named` — a split ends well, and its tail gets such a name,
* `names_resolve` — after a split and after a first pass every block is found by its name.

Design notes: a search for a number ends because the numbered names of one block all differ, so
that among more of them than there are blocks one is unused. This needs no names to be distinct,
and nothing about the name that is numbered, which may end in a number itself. A pass that breaks
off leaves a graph too, where the last split may be half done; its names are followed all the same.
-/
import Mathlib.Data.List.Nodup
import Mathlib.Data.List.Perm.Subperm
import Mathlib.Order.Bounds.Defs
import KernelIntervals.Proofs.Labels
import KernelIntervals.Proofs.Outcomes

namespace KernelIntervals

variable {g g' : FlowGraph} {n : BlockId} {name : String}

/-- A number is read back from its digits. -/
theorem repr_injective : Function.Injective Nat.repr := by
  intro i j h
  have hdigits := congrArg String.toList h
  rw [Nat.toList_repr, Nat.toList_repr] at hdigits
  have hread := congrArg (Nat.ofDigitChars 10 · 0) hdigits
  simpa only [Nat.ofDigitChars_ten_toDigits] using hread

/-! ### Looking names up -/

namespace FlowGraph

/-- The names of all blocks. -/
def names (g : FlowGraph) : List String := g.blocks.entries.toList.map (·.name)

/-- The block that has a name is found by it. -/
def Resolves (g : FlowGraph) : Prop :=
  ∀ n < g.blocks.size, ∀ name, g.name? n = some name → g.findBlock? name = some n

@[simp] theorem length_names (g : FlowGraph) : g.names.length = g.blocks.size := by
  simp [names, Arena.size]

theorem getElem?_names (g : FlowGraph) (n : BlockId) : g.names[n]? = g.name? n := by
  simp [names, name?, block?, Arena.get?]

theorem size_of_names (h : g'.names = g.names) : g'.blocks.size = g.blocks.size := by
  rw [← length_names, ← length_names, h]

@[simp] theorem names_addBlock (b : Block) : (g.addBlock b).names = g.names ++ [b.name] := by
  simp [names, addBlock, Arena.alloc]

theorem names_modifyBlock {f : Block → Block} (hf : ∀ b, (f b).name = b.name) :
    (g.modifyBlock n f).names = g.names := by
  refine List.ext_getElem? fun i => ?_
  rw [getElem?_names, getElem?_names, name?, name?, block?_modifyBlock]
  split
  · rw [Option.map_map]
    exact congrArg (fun k => (g.block? i).map k) (funext hf)
  · rfl

theorem names_assign (l : Level) (n : Nat) (o : Option IntervalId) :
    (g.assign l n o).names = g.names := by
  cases l with
  | block => exact names_modifyBlock fun _ => rfl
  | interval => rfl

theorem distinctNames_iff : g.DistinctNames ↔ g.names.Nodup := by
  rw [List.nodup_iff_getElem?_ne_getElem?]
  constructor
  · intro h i j hij hj heq
    rw [length_names] at hj
    rw [getElem?_names, getElem?_names] at heq
    exact Nat.ne_of_lt hij (h i (Nat.lt_trans hij hj) j hj heq)
  · intro h i hi j hj heq
    rw [← getElem?_names, ← getElem?_names] at heq
    rcases Nat.lt_trichotomy i j with hij | hij | hij
    · exact absurd heq (h i j hij (by simpa using hj))
    · exact hij
    · exact absurd heq.symm (h j i hij (by simpa using hi))

theorem findBlock?_eq (g : FlowGraph) (name : String) : g.findBlock? name =
    (List.range g.names.length).find? fun n => g.names[n]?.any (· == name) := by
  rw [length_names, findBlock?, Arena.ids]
  refine congrArg (List.find? · _) (funext fun n => ?_)
  rw [getElem?_names, name?, Option.any_map]

/-- Looking names up depends on the names alone. -/
theorem findBlock?_congr (h : g'.names = g.names) : g'.findBlock? = g.findBlock? := by
  funext name
  rw [findBlock?_eq, findBlock?_eq, h]

theorem findBlock?_eq_none_iff : g.findBlock? name = none ↔ name ∉ g.names := by
  rw [findBlock?_eq, List.find?_range_eq_none, List.mem_iff_getElem?]
  refine ⟨fun h ⟨i, hi⟩ => ?_, fun h i _ => ?_⟩
  · have hlt := (List.getElem?_eq_some_iff.mp hi).1
    simpa [hi] using h i hlt
  · cases hi : g.names[i]? with
    | none => rfl
    | some name' =>
      have hne : name' ≠ name := fun heq => h ⟨i, heq ▸ hi⟩
      simpa using hne

/-- Where names are distinct, every block is found by its name. -/
theorem DistinctNames.resolves (h : g.DistinctNames) : g.Resolves := by
  intro n hn name hname
  cases hfind : g.findBlock? name with
  | none =>
    rw [findBlock?_eq_none_iff, List.mem_iff_getElem?] at hfind
    exact absurd ⟨n, (g.getElem?_names n).trans hname⟩ hfind
  | some m =>
    rw [findBlock?_eq, List.find?_range_eq_some] at hfind
    obtain ⟨hm, hlt, -⟩ := hfind
    obtain ⟨name', hname', heq⟩ := (Option.any_eq_true _ _).mp hm
    rw [getElem?_names] at hname'
    rw [List.mem_range, length_names] at hlt
    rw [beq_iff_eq.mp heq] at hname'
    exact congrArg some (h m hlt n hn (hname'.trans hname.symm))

/-- Blocks that are found by their names have distinct ones. -/
theorem Resolves.distinctNames (h : g.Resolves) : g.DistinctNames := by
  intro m hm n hn heq
  obtain ⟨b, hb⟩ := Arena.exists_get? hm
  have hname : g.name? m = some b.name := congrArg (Option.map Block.name) hb
  have hfound := h m hm b.name hname
  rw [h n hn b.name (heq ▸ hname)] at hfound
  exact (Option.some.inj hfound).symm

/-! ### Numbered names -/

theorem numberedName_injective (name : String) : Function.Injective (numberedName name) :=
  fun _ _ h => repr_injective ((String.append_right_inj _).mp h)

/-- Among more numbers than there are blocks, one gives an unused name. -/
theorem exists_unused (g : FlowGraph) (name : String) :
    ∃ k ≤ g.blocks.size, numberedName name (g.blocks.size + k) ∉ g.names := by
  refine Classical.byContradiction fun hnone => ?_
  have htaken : ∀ k ≤ g.blocks.size, numberedName name (g.blocks.size + k) ∈ g.names :=
    fun k hk => Classical.byContradiction fun h => hnone ⟨k, hk, h⟩
  let tried := (List.range (g.blocks.size + 1)).map fun k => numberedName name (g.blocks.size + k)
  have hnodup : tried.Nodup := List.Nodup.map
    (fun i j h => Nat.add_left_cancel (numberedName_injective name h)) List.nodup_range
  have hsub : tried ⊆ g.names := by
    intro s hs
    obtain ⟨k, hk, rfl⟩ := List.mem_map.mp hs
    exact htaken k (Nat.le_of_lt_succ (List.mem_range.mp hk))
  have hle := (List.subperm_of_subset hnodup hsub).length_le
  simp only [tried, List.length_map, List.length_range, length_names] at hle
  omega

/-- The search for a name ends, and comes to the least number that gives an unused one. -/
theorem fragmentName_isLeast (g : FlowGraph) (name : String) :
    ∃ n, IsLeast {k | g.blocks.size ≤ k ∧ g.findBlock? (numberedName name k) = none} n ∧
      g.fragmentName name = numberedName name n := by
  obtain ⟨k, hk, hunused⟩ := g.exists_unused name
  rw [fragmentName, List.find?_map]
  cases hfind : (List.range (g.blocks.size + 1)).find? _ with
  | none =>
    rw [List.find?_range_eq_none] at hfind
    have hused := hfind k (Nat.lt_succ_of_le hk)
    rw [← findBlock?_eq_none_iff] at hunused
    simp [hunused] at hused
  | some j =>
    obtain ⟨hj, -, hbefore⟩ := List.find?_range_eq_some.mp hfind
    refine ⟨g.blocks.size + j, ⟨⟨Nat.le_add_right .., ?_⟩, ?_⟩, rfl⟩
    · simpa using hj
    · -- A smaller number was tried before.
      rintro n ⟨hle, hn⟩
      obtain ⟨i, rfl⟩ := Nat.exists_eq_add_of_le hle
      refine Nat.le_of_not_lt fun hlt => ?_
      have hused := hbefore i (by omega)
      simp [hn] at hused

theorem fragmentName_not_mem (g : FlowGraph) (name : String) : g.fragmentName name ∉ g.names := by
  obtain ⟨n, hleast, heq⟩ := g.fragmentName_isLeast name
  rw [heq]
  exact findBlock?_eq_none_iff.mp hleast.1.2

theorem fragmentName_congr (h : g'.names = g.names) : g'.fragmentName = g.fragmentName := by
  funext name
  rw [fragmentName, fragmentName, size_of_names h, findBlock?_congr h]

end FlowGraph

/-! ### Splits -/

namespace Edit

theorem keeps_names_updateBlock {f : Block → Block} (names : List String)
    (hf : ∀ b, (f b).name = b.name) : Keeps (·.names = names) (updateBlock n f) :=
  keeps_updateBlock fun _ hg => (FlowGraph.names_modifyBlock hf).trans hg

/-- A cut that does not break off gives one block more, of an unused name. -/
theorem cut_names (head : BlockId) (b : Block) (place : Nat) (running : RegSet) (g : FlowGraph) :
    Comes (cut head b place running) g (fun _ g' => g'.names = g.names ++ [g.fragmentName b.name])
      fun g' => g'.names = g.names ∨ g'.names = g.names ++ [g.fragmentName b.name] := by
  have hshort : Keeps (·.names = g.names)
      (updateBlock head fun b => { b with insts := b.insts.take place }) :=
    keeps_names_updateBlock _ fun _ => by rfl
  refine Comes.bind (Comes.bind ((hshort g rfl).mono (fun _ g₁ hg₁ => ?_) fun _ => .inl))
  refine Comes.bind (comes_newBlock (Comes.mono ?_ (fun _ _ => id) fun _ => .inr))
  -- From here on the tail is there, and no names change.
  refine Keeps.bind (keeps_forM fun _ => ?_) (fun _ => ?_) _ ?_
  · exact keeps_names_updateBlock _ fun _ => by rfl
  · refine Keeps.bind (keeps_names_updateBlock _ fun _ => by rfl) fun _ => ?_
    exact Keeps.bind (keeps_names_updateBlock _ fun _ => by rfl) fun _ => keeps_pure _
  · exact (FlowGraph.names_addBlock _).trans (congrArg (· ++ _) hg₁)

/-- A split changes no names, or adds the name of a tail. -/
theorem split_names (budget : Nat) (head : BlockId) (g : FlowGraph) :
    Comes (split budget head) g
      (fun r g' => r = none ∧ g'.names = g.names ∨ ∃ f b, r = some f ∧ g.block? head = some b ∧
        g'.names = g.names ++ [g.fragmentName b.name])
      fun g' => g'.names = g.names ∨ ∃ name, g'.names = g.names ++ [g.fragmentName name] := by
  refine Comes.bind (comes_query (fun b hb => ?_) fun _ => .inl rfl)
  generalize splitPoint budget b.insts = point
  obtain ⟨place?, running⟩ := point
  have hset : Keeps (·.names = g.names) (updateBlock head ({ · with outputs := running })) :=
    keeps_names_updateBlock _ fun _ => by rfl
  refine Comes.bind ((hset g rfl).mono (fun _ g₁ hg₁ => ?_) fun _ => .inl)
  cases place? with
  | none => exact .inl ⟨rfl, hg₁⟩
  | some place =>
    have hcut := cut_names head b place running g₁
    rw [hg₁, FlowGraph.fragmentName_congr hg₁] at hcut
    refine Comes.bind (hcut.mono (fun f g' hg' => ?_) fun g' hg' => ?_)
    · exact .inr ⟨f, b, rfl, hb, hg'⟩
    · exact hg'.imp id fun h => ⟨b.name, h⟩

end Edit

/-! ### Names that stay distinct -/

namespace FlowGraph

/-- All names are distinct, and some given ones are the first of them. -/
structure NamedAfter (names : List String) (g : FlowGraph) : Prop where
  kept : names <+: g.names
  nodup : g.names.Nodup

theorem NamedAfter.congr {names : List String} (h : NamedAfter names g)
    (heq : g'.names = g.names) : NamedAfter names g' :=
  ⟨heq ▸ h.kept, heq ▸ h.nodup⟩

/-- The name of a fragment is another one. -/
theorem NamedAfter.fragment {names : List String} (h : NamedAfter names g)
    (heq : g'.names = g.names ++ [g.fragmentName name]) : NamedAfter names g' where
  kept := heq ▸ h.kept.trans (List.prefix_append ..)
  nodup := by
    rw [heq]
    refine h.nodup.append (List.nodup_singleton _) fun s hs hs' => ?_
    exact g.fragmentName_not_mem name (List.mem_singleton.mp hs' ▸ hs)

end FlowGraph

/-- Whatever the first pass does to a graph, names stay distinct. -/
theorem lasting_namedAfter (budget : Nat) (names : List String) :
    Lasting budget (FlowGraph.NamedAfter names) where
  addInterval _ h := h.congr rfl
  modifyInterval _ _ _ h := h.congr rfl
  assign _ _ _ h := h.congr (FlowGraph.names_assign ..)
  setInputs _ _ _ h := h.congr (FlowGraph.names_modifyBlock fun _ => rfl)
  split n g h := by
    refine (Edit.split_names budget n g).mono ?_ ?_
    · rintro _ g' (⟨-, heq⟩ | ⟨_, _, -, -, heq⟩)
      · exact h.congr heq
      · exact h.fragment heq
    · rintro g' (heq | ⟨_, heq⟩)
      · exact h.congr heq
      · exact h.fragment heq

/-- A split of a block whose successors exist ends well, and a tail gets the name of its block with
the least number that gives an unused name. -/
theorem split_named {b : Block} (budget : Nat) (hb : g.block? n = some b)
    (hsuccs : ∀ s ∈ b.succs, s < g.blocks.size) :
    Ends (Edit.split budget n) g fun r g' => ∀ f, r = some f → f.tail = g.blocks.size ∧
      ∃ k, IsLeast {k | f.tail ≤ k ∧ g.findBlock? (FlowGraph.numberedName b.name k) = none} k ∧
        g'.name? f.tail = some (FlowGraph.numberedName b.name k) := by
  obtain ⟨r, g', hok, hsplit⟩ := split_ends budget hb hsuccs
  refine ⟨r, g', hok, ?_⟩
  rintro f rfl
  rcases hsplit with ⟨hnone, -, -⟩ | ⟨f', place, name, hf, -, htail, -⟩
  · cases hnone
  obtain rfl : f = f' := Option.some.inj hf
  rcases (Edit.split_names budget n g).of_eq_ok hok with ⟨hnone, -⟩ | ⟨_, b', -, hb', heq⟩
  · cases hnone
  obtain rfl : b = b' := Option.some.inj (hb.symm.trans hb')
  obtain ⟨k, hleast, hname⟩ := g.fragmentName_isLeast b.name
  refine ⟨htail, k, htail ▸ hleast, ?_⟩
  -- The name of the tail is the one that was added.
  rw [← hname, htail, ← FlowGraph.getElem?_names, heq, ← FlowGraph.length_names]
  exact List.getElem?_concat_length

/-- Where names are distinct, a split of a block whose successors exist ends well, and a tail gets
the name of its block with the least number, not below its own id, that no block has; after it, and
after any run of a first pass, blocks have the names they had, all names are distinct, and every
block is found by its name. -/
theorem names_resolve {g : FlowGraph} (hnames : g.DistinctNames) :
    (∀ (budget : Nat) (head : BlockId), head < g.blocks.size →
      (∀ s ∈ g.succs .block head, s < g.blocks.size) →
      Ends (Edit.split budget head) g fun r g' =>
        (∀ f, r = some f → f.tail = g.blocks.size ∧ ∃ name n, g.name? head = some name ∧
          IsLeast {k | f.tail ≤ k ∧ g.findBlock? (FlowGraph.numberedName name k) = none} n ∧
          g'.name? f.tail = some (FlowGraph.numberedName name n)) ∧
        g.names <+: g'.names ∧ g'.DistinctNames ∧ g'.Resolves) ∧
      ∀ (p : BlockGrouper) (blocks : List BlockId) (log : Log),
        let g' := (p.run blocks ⟨g, log⟩).state.graph
        g.names <+: g'.names ∧ g'.DistinctNames ∧ g'.Resolves := by
  have hstart : g.NamedAfter g.names := ⟨List.prefix_rfl, FlowGraph.distinctNames_iff.mp hnames⟩
  have hend : ∀ g', FlowGraph.NamedAfter g.names g' →
      g.names <+: g'.names ∧ g'.DistinctNames ∧ g'.Resolves := fun g' h =>
    have hdistinct := FlowGraph.distinctNames_iff.mpr h.nodup
    ⟨h.kept, hdistinct, hdistinct.resolves⟩
  refine ⟨fun budget head hlt hsuccs => ?_, fun p blocks log => ?_⟩
  · obtain ⟨b, hb⟩ := Arena.exists_get? hlt
    have hb : g.block? head = some b := hb
    have hsucc : g.succs .block head = b.succs := FlowGraph.see_of_block? hb _ _
    obtain ⟨r, g', hok, hnamed⟩ := split_named budget hb (hsucc ▸ hsuccs)
    have hlast := ((lasting_namedAfter budget g.names).split head g hstart).of_eq_ok hok
    refine ⟨r, g', hok, fun f hf => ?_, hend g' hlast⟩
    obtain ⟨htail, k, hleast, hname⟩ := hnamed f hf
    exact ⟨htail, b.name, k, congrArg (Option.map _) hb, hleast, hname⟩
  · exact hend _ (BlockGrouper.run_keeps (lasting_namedAfter p.budget _) blocks hstart)

/-- A block that will be split, and one with the name that its tail would get first. -/
def imitated : Dot.Graph where
  nodes := [⟨"b", [⟨some "entry", "MOV R1, R2 ;\\lMOV R3, R4 ;"⟩]⟩,
    ⟨"b_2", [⟨some "entry", "EXIT ;"⟩]⟩]
  edges := [⟨"b", some "entry", "b_2"⟩]

theorem names_resolve_imitated :
    let g := (carve imitated {}).2.graph
    g.DistinctNames ∧ g.names = ["b", "b_2"] ∧
      (∃ r ∈ Edit.split? 4 0 g, r.2.names = ["b", "b_2", "b_3"] ∧ r.2.Resolves) ∧
      (BlockGrouper.run ⟨4, {}⟩ [0, 1] ⟨g, #[]⟩).state.graph.Resolves := by
  intro g
  have hdistinct : g.DistinctNames := by decide +kernel
  obtain ⟨hsplit, hrun⟩ := names_resolve hdistinct
  refine ⟨hdistinct, by decide +kernel, ?_, (hrun ⟨4, {}⟩ [0, 1] #[]).2.2⟩
  have hnames : ∃ r ∈ Edit.split? 4 0 g, r.2.names = ["b", "b_2", "b_3"] := by decide +kernel
  obtain ⟨⟨f, g'⟩, hr, hnames⟩ := hnames
  have hends := hsplit 4 0 (by decide +kernel) (by decide +kernel)
  exact ⟨(f, g'), hr, hnames, (hends.of_eq_ok (Edit.split_eq_of_split? hr)).2.2.2⟩

end KernelIntervals
