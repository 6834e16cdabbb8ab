/-
The first pass partitions the reachable blocks.

* `LoopStep` — the single steps of the loop over the waiting blocks,
* `LoopStep.owner_eq`, `owner_eq_of_steps` — a block that has an interval keeps it in
  every step, whatever state the step starts from,
* `Sound.steps` — every move of the loop is made of such steps,
* `Visits`, `visits_of_drain` — the rounds of the loop, one visit each,
* `Sound.steps_of_visit` — every round is made of such steps,
* `Partitioned` — the reachable blocks have one of the intervals each, and the other
  blocks are as they were,
* `firstPass_partitions` — the rounds of a first pass on a well-formed list of blocks
  go through such steps, and leave the blocks partitioned if it returns intervals.

Design notes: moves join what belongs together for the sake of the invariant. Here
they are taken apart again, so that nothing happens between two steps.
-/
import KernelIntervals.Proofs.Descent
import KernelIntervals.Proofs.FirstPass

namespace KernelIntervals

open Function Relation

/-! ### Single steps -/

/-- A single step of the loop over the waiting blocks. -/
inductive LoopStep (budget : Nat) : Workspace → Workspace → Prop
  /-- The first waiting block is taken. -/
  | take {w : Workspace} {n : BlockId} {rest : List BlockId} (hwork : w.worklist = n :: rest) :
      LoopStep budget w { w with worklist := rest }
  /-- Ancestors are marked. -/
  | mark {w : Workspace} (marker : Marker) : LoopStep budget w { w with marker }
  /-- A block that needs no split gets its outputs. -/
  | whole {w : Workspace} {n : BlockId} {b : Block} (hb : w.graph.block? n = some b)
      (hpoint : (splitPoint budget b.insts).1 = none) : LoopStep budget w { w with
        graph := w.graph.modifyBlock n ({ · with outputs := (splitPoint budget b.insts).2 }) }
  /-- A block is split, and the tail becomes a member. -/
  | split {w : Workspace} {n : BlockId} {b : Block} {place : Nat} {name : String}
      {g' : FlowGraph} {log : Log} (hb : w.graph.block? n = some b)
      (hpoint : (splitPoint budget b.insts).1 = some place)
      (hg : Severed w.graph n b place (splitPoint budget b.insts).2 name g') :
      LoopStep budget w { w with graph := g', log, members := w.members ++ [w.graph.blocks.size] }
  /-- A block without an interval opens one, and waits. -/
  | openGroup {w : Workspace} {n : BlockId} (hn : n < w.graph.extent .block)
      (hfree : w.graph.owner .block n = none) : LoopStep budget w (w.openGroup .block n)
  /-- A block that may join an interval joins it. -/
  | claim {w : Workspace} {n : BlockId} {i : IntervalId} (live : RegSet)
      (hn : n < w.graph.extent .block) (hadm : Admitted budget i n w.graph) :
      LoopStep budget w (w.claim i n live)
  /-- An interval gets the registers of its members. -/
  | sync {w w' : Workspace} {i : IntervalId} (hsync : Synced .block i w w') : LoopStep budget w w'

variable {base budget : Nat} {w w' : Workspace} {m m' : Moment} {n : BlockId} {i : IntervalId}
  {b : Block}

/-- A block that has an interval keeps it in every step. -/
theorem LoopStep.owner_eq (h : LoopStep budget w w') (hown : w.graph.owner .block n = some i) :
    w'.graph.owner .block n = some i := by
  cases h with
  | take hwork => exact hown
  | mark marker => exact hown
  | @whole n' b hb hpoint =>
    have hwhole := alike_whole w n' (splitPoint budget b.insts).2
    exact hwhole.owner ▸ hown
  | split hb hpoint hg => exact hg.owner hb ▸ hown
  | openGroup hn hfree =>
    rw [owner_openGroup hn]
    exact owner_update hfree hown
  | claim live hn hadm =>
    rw [owner_claim live hn]
    exact owner_update hadm.free hown
  | sync hsync => exact hsync.alike.owner ▸ hown

/-- A block that has an interval keeps it as long as the loop runs. -/
theorem owner_eq_of_steps (h : ReflTransGen (LoopStep budget) w w')
    (hown : w.graph.owner .block n = some i) : w'.graph.owner .block n = some i := by
  induction h with
  | refl => exact hown
  | tail _ hstep ih => exact hstep.owner_eq ih

/-! ### Moves are made of steps -/

theorem Opens.steps (h : Opens .block w w') : ReflTransGen (LoopStep budget) w w' := by
  refine ReflTransGen.mono ?_ _ _ h
  rintro w w' ⟨n, _, hn, hfree, _, rfl⟩
  exact .openGroup hn hfree

theorem Settled.steps (h : Settled budget n b w w') (hb : w.graph.block? n = some b) :
    ReflTransGen (LoopStep budget) w w' := by
  cases h with
  | whole hpoint => exact .single (.whole hb hpoint)
  | @parted place name g' log hpoint hg =>
    have hsplit : LoopStep budget w
        { w with graph := g', log, members := w.members ++ [w.graph.blocks.size] } :=
      .split hb hpoint hg
    exact (ReflTransGen.single hsplit).tail (.openGroup hg.size_lt hg.owner_tail)

theorem Sound.steps_of_move (h : Sound .block base m.1 m.2) (hm : BlockMove budget m m') :
    ReflTransGen (LoopStep budget) m.2 m'.2 := by
  cases hm with
  | @take w w₁ w₂ n rest i b hwork hown hb hset hsync =>
    have hsettle : ReflTransGen (LoopStep budget) { w with worklist := rest } w₁ := hset.steps hb
    exact ((ReflTransGen.single (.take hwork)).trans hsettle).tail (.sync hsync)
  | mark marker => exact .single (.mark marker)
  | @join w w₁ w₂ n i b live hn hadm _ hb hset hsync =>
    have hclaim : LoopStep budget w (w.claim i n live) := .claim live (h.lt_extent hn) hadm
    exact ((ReflTransGen.single hclaim).trans (hset.steps hb)).tail (.sync hsync)
  | leave hopens hdone => exact hopens.steps

/-- The moves of a loop are made of single steps. -/
theorem Sound.steps (h : Sound .block base m.1 m.2) (hm : ReflTransGen (BlockMove budget) m m') :
    ReflTransGen (LoopStep budget) m.2 m'.2 := by
  induction hm with
  | refl => exact .refl
  | tail hpath hstep ih => exact ih.trans ((h.moves hpath).steps_of_move hstep)

/-! ### Rounds of the loop -/

/-- A round of the loop: the first waiting block is visited. -/
def Visits (budget : Nat) (w w' : Workspace) : Prop :=
  ∃ n rest, w.worklist = n :: rest ∧
    Pass.visitBlock budget n { w with worklist := rest } = .ok () w'

/-- The loop goes from round to round. -/
theorem visits_of_drain (h : drain (blockVisit budget) w = .ok () w') :
    ReflTransGen (Visits budget) w w' := turns_of_drain h

theorem Sound.moves_of_visit (h : Sound .block base none w) (hv : Visits budget w w') :
    ReflTransGen (BlockMove budget) (none, w) (none, w') := by
  obtain ⟨n, rest, hwork, hvisit⟩ := hv
  obtain ⟨_, _, _, hturn⟩ := (visitBlock_ends h hwork).of_eq_ok hvisit
  exact hturn.moves

theorem Sound.visits (h : Sound .block base none w) (hv : ReflTransGen (Visits budget) w w') :
    Sound .block base none w' := by
  induction hv with
  | refl => exact h
  | tail _ hvisit ih => exact ih.moves (ih.moves_of_visit hvisit)

/-- Every round is made of single steps. -/
theorem Sound.steps_of_visit (h : Sound .block base none w) (hv : Visits budget w w') :
    ReflTransGen (LoopStep budget) w w' :=
  Sound.steps (m := (none, w)) h (h.moves_of_visit hv)

/-! ### The partition -/

/-- A block has the same instructions and edges in two graphs. -/
structure Untouched (g₀ g : FlowGraph) (n : BlockId) : Prop where
  insts : g.insts .block n = g₀.insts .block n
  preds : g.preds .block n = g₀.preds .block n
  succs : g.succs .block n = g₀.succs .block n

/-- The reachable ones among the blocks `ig.blocks` of `g`, and no others, have one of
the intervals each. The others are blocks of `g₀` that were not reachable there, and
are as they were. -/
structure Partitioned (g₀ : FlowGraph) (blocks : List BlockId) (g : FlowGraph)
    (ig : IntervalGraph) : Prop where
  owner_isSome_iff : ∀ n ∈ ig.blocks,
    (g.owner .block n).isSome ↔ (g.net .block ig.blocks).Reachable n
  mem_intervals : ∀ n ∈ ig.blocks, ∀ i, g.owner .block n = some i → i ∈ ig.intervals
  nodup : ig.intervals.Nodup
  exists_member : ∀ i ∈ ig.intervals, ∃ n ∈ ig.blocks, g.owner .block n = some i
  unreachable_iff : ∀ n, n ∈ ig.blocks ∧ ¬ (g.net .block ig.blocks).Reachable n ↔
    n ∈ blocks ∧ ¬ (g₀.net .block blocks).Reachable n
  untouched : ∀ n ∈ ig.blocks, ¬ (g.net .block ig.blocks).Reachable n → Untouched g₀ g n

/-- The blocks at the end of a first pass come from those that it was given. -/
theorem FirstPass.descends {blocks : List BlockId} {w₁ w₂ : Workspace}
    (h : FirstPass budget blocks w w₁ w₂) : Descends w.graph blocks w₂.graph w₂.members :=
  Descends.lineage.firstPass h

/-- The rounds of a first pass on a well-formed list of blocks go through single steps
that keep the intervals of blocks, and leave the blocks partitioned if the pass returns
intervals. -/
theorem firstPass_partitions (p : BlockGrouper) (blocks : List BlockId) (state : LoggedGraph)
    (hverify : state.graph.verify blocks = .ok ()) (hnodup : blocks.Nodup) :
    (∃ w₁ w₂, Pass.start .block blocks (state.workspace p.scratch) = .ok () w₁ ∧
      drain (blockVisit p.budget) w₁ = .ok () w₂ ∧ ReflTransGen (Visits p.budget) w₁ w₂ ∧
      ∀ u v, ReflTransGen (Visits p.budget) w₁ u → Visits p.budget u v →
        ReflTransGen (LoopStep p.budget) u v) ∧
    (∀ u v, ReflTransGen (LoopStep p.budget) u v → ∀ n i,
      u.graph.owner .block n = some i → v.graph.owner .block n = some i) ∧
    ∀ ig, (p.run blocks state).result = .ok ig →
      Partitioned state.graph blocks (p.run blocks state).state.graph ig := by
  refine ⟨?_, fun u v hsteps n i hown => owner_eq_of_steps hsteps hown, fun ig hrun => ?_⟩
  · obtain ⟨w₁, w₂, hpass⟩ :=
      firstPass_exists (w := state.workspace p.scratch) p.budget hverify hnodup
    refine ⟨w₁, w₂, hpass.started, hpass.looped, visits_of_drain hpass.looped, ?_⟩
    intro u v hrounds hvisit
    exact (hpass.sound.visits hrounds).steps_of_visit hvisit
  · obtain ⟨_, _, hpass, hblocks, _, hsame, opener, hend⟩ := run_eq_ok hnodup hrun
    have hdescends : Descends state.graph blocks (p.run blocks state).state.graph ig.blocks := by
      rw [hblocks]
      exact hpass.descends.trans (.of_eq (FlowGraph.see_block_congr hsame)
        (FlowGraph.see_block_congr hsame) (FlowGraph.see_block_congr hsame))
    refine ⟨hend.owner_isSome_iff, ?_, hend.grouped.nodup, ?_, ?_, ?_⟩
    · exact fun n hn i hown => hend.grouped.mem_opened hn hown
    · exact fun i hi => ⟨opener i, hend.grouped.opener_mem hi, hend.grouped.owner_opener hi⟩
    · intro n
      constructor
      · rintro ⟨hn, hnot⟩
        obtain ⟨hn₀, _⟩ := hdescends.unreached n hn hnot
        exact ⟨hn₀, fun hreach => hnot ((hdescends.kept n hn₀).2.mpr hreach)⟩
      · rintro ⟨hn₀, hnot⟩
        obtain ⟨hn, hreach⟩ := hdescends.kept n hn₀
        exact ⟨hn, fun h => hnot (hreach.mp h)⟩
    · intro n hn hnot
      obtain ⟨_, hinsts, hpreds, hsuccs⟩ := hdescends.unreached n hn hnot
      exact ⟨hinsts, hpreds, hsuccs⟩

theorem partitions_carvedLoops :
    carvedLoops.graph.verify [0, 1, 2] = .ok () ∧ [0, 1, 2].Nodup ∧
    (∃ w₁ w₂, Pass.start .block [0, 1, 2] (carvedLoops.workspace {}) = .ok () w₁ ∧
      drain (blockVisit 4) w₁ = .ok () w₂ ∧ ReflTransGen (Visits 4) w₁ w₂ ∧
      ∀ u v, ReflTransGen (Visits 4) w₁ u → Visits 4 u v → ReflTransGen (LoopStep 4) u v) ∧
    (∀ u v, ReflTransGen (LoopStep 4) u v → ∀ n i,
      u.graph.owner .block n = some i → v.graph.owner .block n = some i) ∧
    (BlockGrouper.run ⟨4, {}⟩ [0, 1, 2] carvedLoops).result = .ok ⟨[0, 1, 2, 3], [0, 1, 2]⟩ ∧
    Partitioned carvedLoops.graph [0, 1, 2]
      (BlockGrouper.run ⟨4, {}⟩ [0, 1, 2] carvedLoops).state.graph
      ⟨[0, 1, 2, 3], [0, 1, 2]⟩ := by
  obtain ⟨hloop, hkeep, hend⟩ :=
    firstPass_partitions ⟨4, {}⟩ [0, 1, 2] carvedLoops verify_carvedLoops (by decide)
  exact ⟨verify_carvedLoops, by decide, hloop, hkeep, run_carvedLoops, hend _ run_carvedLoops⟩

end KernelIntervals
