/-
What the loop of the first pass takes from its worklist.

* `Pops` — a run of a loop, with the nodes that it takes from the worklist in order,
* `Pops.drain`, `exists_pops` — a loop that ends has such a run, and no other,
* `Sound.enlists_pops` — in a run of the first pass, the nodes that are taken are those that waited
  at its start, and then one for each interval that is made,
* `Sound.mem_pops_iff` — these are the nodes that opened an interval,
* `Subdivides.length_le` — a pass leaves at most as many blocks as there are instructions, and one
  for each block without instructions,
* `firstPass_pops` — so the loop ends, and takes each block that opened an interval once.

Design notes: the worklist is a queue, so the nodes that ever wait are taken in the order in which
they began to wait, and that is the order in which the intervals were made.
-/
import KernelIntervals.Proofs.Openers
import KernelIntervals.Proofs.Subdivision

namespace KernelIntervals

open Relation

/-- The loop that starts in `w` ends in `w'`, and takes these nodes from the worklist, one after
the other. -/
inductive Pops (v : Visit) : Workspace → List Nat → Workspace → Prop
  | done {w : Workspace} (hwork : w.worklist = []) : Pops v w [] w
  | pop {w w₁ w' : Workspace} {n : Nat} {rest ns : List Nat} (hwork : w.worklist = n :: rest)
      (hvisit : v.visit n { w with worklist := rest } = .ok () w₁) (h : Pops v w₁ ns w') :
      Pops v w (n :: ns) w'

variable {v : Visit} {w w' w₁ w₂ u : Workspace} {ns : List Nat} {l : Level} {base budget : Nat}
  {n : Nat} {blocks : List BlockId}

/-! ### Runs of a loop -/

theorem exists_pops (h : drain v w = .ok () w') : ∃ ns, Pops v w ns w' := by
  fun_induction drain v w with
  | case1 w hwork =>
    injection h with _ h
    exact ⟨[], h ▸ .done hwork⟩
  | case2 => injection h
  | case3 w n rest hwork w₁ hvisit _ ih =>
    obtain ⟨ns, hns⟩ := ih h
    exact ⟨n :: ns, .pop hwork hvisit hns⟩

theorem Pops.drain (h : Pops v w ns w') : drain v w = .ok () w' := by
  induction h with
  | done hwork => exact drain_of_nil hwork
  | pop hwork hvisit _ ih => exact (drain_of_cons hwork hvisit).trans ih

theorem Pops.idle (h : Pops v w ns w') : w'.worklist = [] := by
  induction h with
  | done hwork => exact hwork
  | pop _ _ _ ih => exact ih

/-- What is taken after some rounds is taken in all. -/
theorem Pops.after (h : Pops v w ns w') (ht : ReflTransGen (Turn v) w u) :
    ∃ before ns', ns = before ++ ns' ∧ Pops v u ns' w' := by
  induction ht with
  | refl => exact ⟨[], ns, rfl, h⟩
  | tail _ hturn ih =>
    obtain ⟨before, ns', rfl, hpops⟩ := ih
    obtain ⟨n, rest, hwork, hvisit⟩ := hturn
    cases hpops with
    | done hnil =>
      rw [hwork] at hnil
      injection hnil
    | @pop _ w₁ _ n' rest' ns' hwork' hvisit' hrest =>
      rw [hwork] at hwork'
      injection hwork' with hn hr
      subst hn hr
      rw [hvisit] at hvisit'
      injection hvisit' with _ hw
      exact ⟨before ++ [n], ns', by simp, hw ▸ hrest⟩

/-- What is taken was waiting in some round. -/
theorem Pops.exists_waiting (h : Pops v w ns w') (hn : n ∈ ns) :
    ∃ u, ReflTransGen (Turn v) w u ∧ n ∈ u.worklist := by
  induction h with
  | done => exact absurd hn List.not_mem_nil
  | @pop w w₁ _ m rest ns hwork hvisit _ ih =>
    rcases List.mem_cons.mp hn with rfl | hn
    · exact ⟨w, .refl, hwork ▸ List.mem_cons_self⟩
    · obtain ⟨u, hpath, hu⟩ := ih hn
      exact ⟨u, .head ⟨m, rest, hwork, hvisit⟩ hpath, hu⟩

/-! ### Runs of the first pass -/

theorem Enlists.cons {rest : List Nat} (hwork : w.worklist = n :: rest)
    (h : Enlists l { w with worklist := rest } { w' with worklist := ns }) :
    Enlists l w { w' with worklist := n :: ns } where
  owner_eq := h.owner_eq
  enlisted := by
    obtain ⟨ms, is, hms, hopened, howner⟩ := h.enlisted
    refine ⟨ms, is, ?_, hopened, howner⟩
    have hms : ns = rest ++ ms := hms
    show n :: ns = w.worklist ++ ms
    rw [hwork, hms, List.cons_append]

/-- The blocks that are taken are those that wait, and then one for each interval that is made. -/
theorem Sound.enlists_pops (h : Sound .block base none w) (hp : Pops (blockVisit budget) w ns w') :
    Enlists .block w { w' with worklist := ns } := by
  induction hp with
  | done hwork => exact enlists_of_eq hwork.symm rfl id
  | pop hwork hvisit _ ih =>
    obtain ⟨i, w₁, w₂, hturn⟩ := (visitBlock_ends h hwork).of_eq_ok hvisit
    exact .cons hwork ((h.enlists_turn hwork hturn).trans (ih (h.moves hturn.moves)))

theorem Sound.rounds (h : Sound .block base none w)
    (ht : ReflTransGen (Turn (blockVisit budget)) w u) : Sound .block base none u := by
  obtain ⟨⟨opener, hu⟩, _⟩ := id h
  exact ((blockRounds base budget).goesOn h hu ht).1

theorem members_of_blockMoves {m m' : Moment} (hm : ReflTransGen (BlockMove budget) m m') :
    m.2.members ⊆ m'.2.members := by
  induction hm with
  | refl => exact fun _ hx => hx
  | tail _ hstep ih => exact fun _ hx => hstep.mem_members (ih hx)

/-- The blocks that are taken are members in the end. -/
theorem Sound.members_of_pops (h : Sound .block base none w)
    (hp : Pops (blockVisit budget) w ns w') : w.members ⊆ w'.members ∧ ns ⊆ w'.members := by
  induction hp with
  | done => exact ⟨fun _ hx => hx, List.nil_subset _⟩
  | pop hwork hvisit _ ih =>
    obtain ⟨i, w₁, w₂, hturn⟩ := (visitBlock_ends h hwork).of_eq_ok hvisit
    obtain ⟨hmembers, hns⟩ := ih (h.moves hturn.moves)
    have hstart := List.Subset.trans (members_of_blockMoves hturn.moves) hmembers
    obtain ⟨⟨opener, hu⟩, _⟩ := h
    refine ⟨hstart, List.cons_subset.mpr ⟨hstart (hu.waiting.mem ?_), hns⟩⟩
    rw [hwork]
    exact List.mem_cons_self

/-- The blocks that are taken are those that opened an interval. -/
theorem Sound.mem_pops_iff (h : Sound .block base none w)
    (hp : Pops (blockVisit budget) w ns w') :
    n ∈ ns ↔ ∃ i, OpenedBy .block (blockVisit budget) w i n := by
  constructor
  · intro hn
    obtain ⟨u, hpath, hwaits⟩ := hp.exists_waiting hn
    obtain ⟨⟨opener, hu⟩, _⟩ := h.rounds hpath
    obtain ⟨i, hown, _⟩ := hu.waiting.alone hwaits
    exact ⟨i, u, hpath, hwaits, hown⟩
  · rintro ⟨i, u, hpath, hwaits, _⟩
    obtain ⟨before, ns', rfl, hp'⟩ := hp.after hpath
    obtain ⟨ms, _, hns', _⟩ := ((h.rounds hpath).enlists_pops hp').enlisted
    have hns' : ns' = u.worklist ++ ms := hns'
    rw [hns']
    exact List.mem_append_right _ (List.mem_append_left _ hwaits)

/-- From the start of a pass on, the blocks that are taken are members of the intervals, one of
each, and in the order in which the intervals were made. -/
theorem FirstPass.owners_of_pops (h : FirstPass budget blocks w w₁ w₂)
    (hp : Pops (blockVisit budget) w₁ ns w₂) :
    ns.map (w₂.graph.owner .block) = w₂.opened.map some := by
  obtain ⟨w₀, hcleared, hopens⟩ := h.cleared
  obtain ⟨ms, is, hns, hopened, howner⟩ := (hopens.enlists.trans (h.sound.enlists_pops hp)).enlisted
  have hns : ns = ms := hns.trans (by rw [hcleared.worklist, List.nil_append])
  have hopened : w₂.opened = is := hopened.trans (by rw [hcleared.opened, List.nil_append])
  rw [hns, hopened]
  exact howner

/-! ### How many blocks there can be -/

/-- Lists that are not empty have at least one element each. -/
theorem length_le_length_flatMap {α β : Type} {f : α → List β} {xs : List α}
    (h : ∀ x ∈ xs, 1 ≤ (f x).length) : xs.length ≤ (xs.flatMap f).length := by
  induction xs with
  | nil => exact Nat.le_refl 0
  | cons x xs ih =>
    have hx := h x List.mem_cons_self
    have hxs := ih fun y hy => h y (List.mem_cons_of_mem x hy)
    rw [List.flatMap_cons, List.length_append, List.length_cons]
    omega

/-- Some lists have at most as many elements as the bounds on them sum up to. -/
theorem length_flatMap_le {α β : Type} {f : α → List β} {bound : α → Nat} {xs : List α}
    (h : ∀ x ∈ xs, (f x).length ≤ bound x) : (xs.flatMap f).length ≤ total bound xs := by
  induction xs with
  | nil => exact Nat.le_refl 0
  | cons x xs ih =>
    have hx := h x List.mem_cons_self
    have hxs := ih fun y hy => h y (List.mem_cons_of_mem x hy)
    rw [List.flatMap_cons, List.length_append, total_cons]
    omega

namespace Subdivides

variable {g₀ g : FlowGraph} {nodes₀ nodes : List BlockId} {chain : BlockId → Chain} {b : BlockId}

/-- A block of some instructions has at most as many fragments. -/
theorem length_fragments_le (h : Subdivides g₀ nodes₀ g nodes chain) (hb : b ∈ nodes₀) :
    (chain b).fragments.length ≤ max 1 (g₀.insts .block b).length := by
  by_cases hfront : (chain b).front = []
  · rw [Chain.fragments_of_front hfront]
    exact Nat.le_max_left ..
  · have hpos : ∀ f ∈ (chain b).fragments, 1 ≤ (g.insts .block f).length := fun f hf =>
      List.length_pos_of_ne_nil (h.nonempty b hb hfront f hf)
    have hinsts := congrArg List.length (h.insts b hb)
    rw [List.length_map, List.length_map] at hinsts
    exact Nat.le_trans (hinsts ▸ length_le_length_flatMap hpos) (Nat.le_max_right ..)

/-- Blocks are subdivided into at most as many as they have instructions. -/
theorem length_le (h : Subdivides g₀ nodes₀ g nodes chain) :
    nodes.length ≤ total (fun b => max 1 (g₀.insts .block b).length) nodes₀ := by
  rw [← h.covered.length_eq]
  exact length_flatMap_le fun b hb => h.length_fragments_le hb

end Subdivides

/-- The loop over the worklist ends for every list of blocks that passes the check. It takes each
block that opened an interval once, as many as there are intervals, in the order in which these
were made. There are at most as many as the listed blocks have instructions, where a block
without instructions counts one. If the run returns intervals, it returns these. -/
theorem firstPass_pops (p : BlockGrouper) {blocks : List BlockId} {state : LoggedGraph}
    (hnodup : blocks.Nodup) (hverify : state.graph.verify blocks = .ok ()) :
    ∃ w₁ w₂ ns, Pass.start .block blocks (state.workspace p.scratch) = .ok () w₁ ∧
      drain (blockVisit p.budget) w₁ = .ok () w₂ ∧ Pops (blockVisit p.budget) w₁ ns w₂ ∧
      ns.Nodup ∧ (∀ n, n ∈ ns ↔ ∃ i, OpenedBy .block (blockVisit p.budget) w₁ i n) ∧
      ns.map (w₂.graph.owner .block) = w₂.opened.map some ∧ ns.length = w₂.opened.length ∧
      ns.length ≤ total (fun b => max 1 (state.graph.insts .block b).length) blocks ∧
      ∀ ig, (p.run blocks state).result = .ok ig → ig.intervals = w₂.opened := by
  obtain ⟨w₁, w₂, hpass⟩ :=
    firstPass_exists (w := state.workspace p.scratch) p.budget hverify hnodup
  obtain ⟨⟨opener, hu⟩, _⟩ := hpass.sound_end
  obtain ⟨ns, hpops⟩ := exists_pops hpass.looped
  have howners := hpass.owners_of_pops hpops
  have hns : ns.Nodup := by
    refine List.Nodup.of_map (w₂.graph.owner .block) ?_
    rw [howners]
    exact hu.grouped.nodup.map fun _ _ => Option.some.inj
  obtain ⟨chain, hsub⟩ := Subdivides.lineage.firstPass hpass hnodup
  refine ⟨w₁, w₂, ns, hpass.started, hpass.looped, hpops, hns,
    fun n => hpass.sound.mem_pops_iff hpops, howners, ?_, ?_, ?_⟩
  · simpa using congrArg List.length howners
  · exact ((hns.subperm (hpass.sound.members_of_pops hpops).2).length_le).trans hsub.length_le
  · intro ig hok
    obtain ⟨w', hok', _⟩ := ofResult_result_eq_ok hok
    exact (hpass.filled hok').2.1

/-- Three blocks are taken, where four could be. -/
theorem firstPass_pops_carvedLoops :
    [0, 1, 2].Nodup ∧ carvedLoops.graph.verify [0, 1, 2] = .ok () ∧
    ∃ w₁ w₂ ns, Pass.start .block [0, 1, 2] (carvedLoops.workspace {}) = .ok () w₁ ∧
      drain (blockVisit 4) w₁ = .ok () w₂ ∧ Pops (blockVisit 4) w₁ ns w₂ ∧ ns.Nodup ∧
      ns.length = w₂.opened.length ∧ w₂.opened = [0, 1, 2] ∧
      total (fun b => max 1 (carvedLoops.graph.insts .block b).length) [0, 1, 2] = 4 := by
  obtain ⟨w₁, w₂, ns, hstart, hloop, hpops, hns, _, _, hlength, _, hok⟩ :=
    firstPass_pops ⟨4, {}⟩ (by decide : [0, 1, 2].Nodup) verify_carvedLoops
  exact ⟨by decide, verify_carvedLoops, w₁, w₂, ns, hstart, hloop, hpops, hns, hlength,
    (hok _ run_carvedLoops).symm, by decide +kernel⟩

end KernelIntervals
