/-
What a pass leaves of the blocks that it cuts.

* `Workspace.Done` — a block has an owner and does not wait, so it was settled,
* `Trimmed` — blocks that were settled have the registers of their instructions, and a tail follows
  a block that was settled and has no room for its first instruction,
* `Trimmed.settled`, `Sound.trimmed_moves` — the loop of a pass keeps this, whatever registers the
  blocks have at its start,
* `FirstPass.trimmed`, `Crowded.not_fitting` — so when the loop ends, no fragment has room for an
  instruction of the next,
* `run_cutsGreedily` — a run that returns intervals has cut blocks greedily, into as few fragments
  as possible.

Design notes: a block that joins an interval may be cut then, if its outputs are not the registers
of its instructions. Every block is settled once, and is not changed any more after that, but a
tail that was cut off may be cut again.
-/
import Mathlib.Data.List.Nodup
import Mathlib.Data.List.Pairwise
import KernelIntervals.Proofs.GreedyCut
import KernelIntervals.Proofs.Partition
import KernelIntervals.Proofs.Tails

namespace KernelIntervals

open Function Relation

/-- A block was settled: it has an owner, and does not wait. -/
def Workspace.Done (w : Workspace) (n : BlockId) : Prop :=
  w.graph.owner .block n ≠ none ∧ n ∉ w.worklist

/-- Blocks that are done have the registers of their instructions. A block that was not among the
given `blocks` follows one that is done, which has no room for its first instruction. -/
structure Trimmed (budget : Nat) (blocks : List BlockId) (done : BlockId → Prop) (w : Workspace) :
    Prop where
  exact : ∀ n ∈ w.members, done n →
    w.graph.regs .block n = instRegs (w.graph.insts .block n)
  tail : ∀ t ∈ w.members, t ∉ blocks → ∃ h, w.graph.preds .block t = [h] ∧ done h ∧
    Crowded budget w.graph h t

variable {base budget : Nat} {blocks : List BlockId} {w w₀ w₁ w₂ w' : Workspace}
  {m m' : Moment} {n x : BlockId} {i : IntervalId} {b : Block} {opener : IntervalId → Nat}
  {done done' : BlockId → Prop}

/-! ### Blocks that are settled -/

/-- A block that is settled gets the registers of its instructions. -/
theorem Settled.exact (h : Settled budget n b w w') (hb : w.graph.block? n = some b) :
    w'.graph.regs .block n = instRegs (w'.graph.insts .block n) := by
  have hinsts : w.graph.insts .block n = b.insts := FlowGraph.see_of_block? hb _ _
  have hall := splitPoint_regs budget b.insts
  rw [(h.regs_and_head hb).1, hall]
  cases h with
  | whole hpoint =>
    rw [hpoint]
    show _ = instRegs ((w.graph.modifyBlock n _).insts .block n)
    rw [insts_whole, hinsts]
  | @parted place name g' log hpoint hg =>
    have hbodies := sameBodies_openGroup
      { w with graph := g', log, members := w.members ++ [w.graph.blocks.size] } .block
      w.graph.blocks.size
    rw [hpoint, hbodies.insts]
    show _ = instRegs (g'.insts .block n)
    rw [hg.insts_head]

/-- Other blocks keep their instructions and registers. -/
theorem Settled.same_of_ne (h : Settled budget n b w w') (hne : x ≠ n)
    (hlt : x < w.graph.extent .block) : w'.graph.insts .block x = w.graph.insts .block x ∧
      w'.graph.regs .block x = w.graph.regs .block x := by
  cases h with
  | whole hpoint =>
    exact ⟨FlowGraph.see_modifyBlock_of_ne (Ne.symm hne),
      FlowGraph.see_modifyBlock_of_ne (Ne.symm hne)⟩
  | @parted place name g' log hpoint hg =>
    have hbodies := sameBodies_openGroup
      { w with graph := g', log, members := w.members ++ [w.graph.blocks.size] } .block
      w.graph.blocks.size
    rw [hbodies.insts, hbodies.regs]
    exact ⟨hg.insts_of_ne hne (Nat.ne_of_lt hlt), hg.regs_of_ne hne (Nat.ne_of_lt hlt)⟩

/-- What is done is done after a block is settled, and nothing else is. -/
theorem Settled.done_iff (h : Settled budget n b w w') (hb : w.graph.block? n = some b) :
    w'.Done x ↔ w.Done x := by
  cases h with
  | whole =>
    have howner := (alike_whole w n (splitPoint budget b.insts).2).owner
    rw [Workspace.Done, Workspace.Done, howner]
  | @parted place name g' log hpoint hg =>
    have howner : ∀ y, (Workspace.openGroup .block w.graph.blocks.size { w with
        graph := g', log, members := w.members ++ [w.graph.blocks.size] }).graph.owner .block y =
        update (w.graph.owner .block) w.graph.blocks.size (some g'.intervals.size) y := by
      intro y
      rw [owner_openGroup hg.size_lt, hg.owner hb]
    show _ ∧ x ∉ w.worklist ++ [w.graph.blocks.size] ↔ _
    rw [howner, List.mem_append, List.mem_singleton, not_or, Workspace.Done]
    by_cases hxt : x = w.graph.blocks.size
    · rw [hxt]
      exact iff_of_false (fun h => h.2.2 rfl) fun h => h.1 Underway.owner_size
    · rw [update_of_ne hxt]
      exact and_congr_right fun _ => and_iff_left hxt

/-! ### The moves of a pass -/

theorem Trimmed.congr (h : Trimmed budget blocks done w) (hmembers : w'.members = w.members)
    (hinsts : w'.graph.insts .block = w.graph.insts .block)
    (hregs : w'.graph.regs .block = w.graph.regs .block)
    (hpreds : w'.graph.preds .block = w.graph.preds .block)
    (hdone : ∀ x, done' x ↔ done x) : Trimmed budget blocks done' w' := by
  constructor
  · rw [hmembers, hinsts, hregs]
    exact fun n hn hdn => h.exact n hn ((hdone n).mp hdn)
  · rw [hmembers, hpreds]
    intro t ht hnot
    obtain ⟨head, hp, hd, hcrowded⟩ := h.tail t ht hnot
    rw [Crowded, ← hinsts, ← hregs] at hcrowded
    exact ⟨head, hp, (hdone head).mpr hd, hcrowded⟩

/-- All is trimmed once the block is settled that was not yet done. -/
theorem Trimmed.settled (h : Trimmed budget blocks (fun x => w.Done x ∧ x ≠ n) w)
    (hu : Underway .block base (some i) opener w) (hb : w.graph.block? n = some b)
    (hn : n ∈ w.members) (hdone : w.Done n) (hset : Settled budget n b w w') :
    Trimmed budget blocks w'.Done w' := by
  have hkept := fun x => (hset.done_iff hb : w'.Done x ↔ w.Done x)
  refine ⟨fun x hx hdx => ?_, fun t ht hnot => ?_⟩
  · by_cases hxn : x = n
    · rw [hxn]
      exact hset.exact hb
    · have hdx := (hkept x).mp hdx
      have hlt : x < w.graph.extent .block := by
        by_contra hge
        exact hdx.1 (FlowGraph.see_eq_default (Nat.le_of_not_lt hge) _ _)
      have hmem : x ∈ w.members := by
        cases hset with
        | whole => exact hx
        | parted => exact Net.mem_of_ne_last hx (Nat.ne_of_lt hlt)
      obtain ⟨hinsts, hregs⟩ := hset.same_of_ne hxn hlt
      rw [hinsts, hregs]
      exact h.exact x hmem ⟨hdx, hxn⟩
  · cases hset with
    | whole hpoint =>
      obtain ⟨head, hpreds, ⟨hd, hne⟩, y, hy, hsize⟩ := h.tail t ht hnot
      refine ⟨head, ?_, (hkept head).mpr hd, y, ?_, ?_⟩
      · rw [(alike_whole w n (splitPoint budget b.insts).2).preds]
        exact hpreds
      · show ((w.graph.modifyBlock n _).insts .block t).head? = _
        rw [insts_whole]
        exact hy
      · show budget ≤ ((w.graph.modifyBlock n _).regs .block head ∪ _).size
        rw [FlowGraph.regs, FlowGraph.see_modifyBlock_of_ne (Ne.symm hne)]
        exact hsize
    | @parted place name g' log hpoint hg =>
      have hc := hu.halved log hb hn hpoint hg
      by_cases hnew : t = w.graph.blocks.size
      · obtain ⟨hpreds, hown, hidle, hcrowded⟩ := hc.tail_new hdone.1 hdone.2
        rw [hnew]
        exact ⟨n, hpreds, ⟨hown, hidle⟩, hcrowded⟩
      · have hmem : t ∈ w.members := Net.mem_of_ne_last ht hnew
        obtain ⟨head, hpreds, ⟨⟨hown, hidle⟩, hne⟩, hcrowded⟩ := h.tail t hmem hnot
        obtain ⟨hpreds', hown', hidle', hcrowded'⟩ :=
          hc.tail_old hu.closed hmem hpreds hown hidle hne hcrowded
        exact ⟨head, hpreds', ⟨hown', hidle'⟩, hcrowded'⟩

theorem Trimmed.synced (h : Trimmed budget blocks w.Done w) (hsync : Synced .block i w w') :
    Trimmed budget blocks w'.Done w' := by
  have hs := hsync.steady
  refine h.congr hs.alike.members hs.insts hs.regs (congrFun hs.alike.preds .block) fun x => ?_
  rw [Workspace.Done, Workspace.Done, hs.alike.owner, hs.alike.worklist]

/-- Blocks that open regions wait. -/
theorem Opens.done_iff (h : Opens .block w w') : w'.Done x ↔ w.Done x := by
  induction h with
  | refl => exact Iff.rfl
  | tail _ hstep ih =>
    obtain ⟨n, _, hlt, hfree, _, rfl⟩ := hstep
    rw [← ih, Workspace.Done, Workspace.Done, owner_openGroup hlt]
    show _ ∧ x ∉ _ ++ [n] ↔ _
    rw [List.mem_append, List.mem_singleton, not_or]
    by_cases hxn : x = n
    · rw [hxn]
      exact iff_of_false (fun h => h.2.2 rfl) fun h => h.1 hfree
    · rw [update_of_ne hxn]
      exact and_congr_right fun _ => and_iff_left hxn

theorem Trimmed.opens (h : Trimmed budget blocks w.Done w) (ho : Opens .block w w') :
    Trimmed budget blocks w'.Done w' :=
  h.congr ho.members (congrFun ho.sameBodies.insts .block) (congrFun ho.sameBodies.regs .block)
    (congrFun ho.sameBodies.preds .block) fun _ => ho.done_iff

/-- Every move keeps blocks trimmed. -/
theorem Sound.trimmed_move (hs : Sound .block base m.1 m.2)
    (h : Trimmed budget blocks m.2.Done m.2) (hm : BlockMove budget m m') :
    Trimmed budget blocks m'.2.Done m'.2 := by
  cases hm with
  | @take w w₁ w₂ n rest i b hwork hown hb hset hsync =>
    obtain ⟨j, hn, hj, _, ⟨opener, hu⟩, _⟩ := hs.pop hwork
    obtain rfl : j = i := Option.some.inj (hj.symm.trans hown)
    obtain ⟨⟨_, hw⟩, _⟩ := hs
    have hrest : n ∉ rest := by
      have hnodup := hw.waiting.nodup
      rw [show w.worklist = n :: rest from hwork, List.nodup_cons] at hnodup
      exact hnodup.1
    have hdone : Workspace.Done { w with worklist := rest } n :=
      ⟨hown ▸ Option.some_ne_none j, hrest⟩
    refine Trimmed.synced (Trimmed.settled ?_ hu hb hn hdone hset) hsync
    refine h.congr rfl rfl rfl rfl fun x => ?_
    show (_ ∧ x ∉ rest) ∧ x ≠ n ↔ _ ∧ x ∉ w.worklist
    rw [hwork, List.mem_cons, not_or, and_assoc, and_comm (a := x ∉ rest)]
  | mark marker => exact h.congr rfl rfl rfl rfl fun _ => Iff.rfl
  | @join w w₁ w₂ n i b live hn hadm _ hb hset hsync =>
    obtain ⟨⟨opener, hclaim⟩, _⟩ := hs.claim live hn hadm
    have howner := owner_claim (i := i) live (hs.lt_extent hn)
    have hidle : n ∉ w.worklist := by
      intro hwaits
      obtain ⟨⟨_, hw⟩, _⟩ := hs
      obtain ⟨k, hk, _⟩ := hw.waiting.alone hwaits
      rw [hadm.free] at hk
      injection hk
    have hdone : (w.claim i n live).Done n := by
      rw [Workspace.Done, howner, update_self]
      exact ⟨Option.some_ne_none i, hidle⟩
    refine Trimmed.synced (Trimmed.settled ?_ hclaim hb hn hdone hset) hsync
    have hbodies := sameBodies_claim w i n live
    refine h.congr rfl (congrFun hbodies.insts .block) (congrFun hbodies.regs .block)
      (congrFun hbodies.preds .block) fun x => ?_
    show (_ ∧ x ∉ w.worklist) ∧ x ≠ n ↔ _ ∧ x ∉ w.worklist
    rw [howner]
    by_cases hxn : x = n
    · rw [hxn]
      exact iff_of_false (fun h => h.2 rfl) fun h => h.1 hadm.free
    · rw [update_of_ne hxn]
      exact and_iff_left hxn
  | leave hopens hdone => exact h.opens hopens

/-- The loop of a pass keeps blocks trimmed. -/
theorem Sound.trimmed_moves (hs : Sound .block base m.1 m.2)
    (h : Trimmed budget blocks m.2.Done m.2) (hm : ReflTransGen (BlockMove budget) m m') :
    Trimmed budget blocks m'.2.Done m'.2 := by
  induction hm with
  | refl => exact h
  | tail hpath hstep ih => exact Sound.trimmed_move (hs.moves hpath) ih hstep

/-! ### The end of a pass -/

/-- When the loop ends, blocks are trimmed. -/
theorem FirstPass.trimmed (h : FirstPass budget blocks w w₁ w₂) :
    Trimmed budget blocks w₂.Done w₂ := by
  refine h.sound.trimmed_moves ⟨fun n hn hdone => ?_, fun t ht hnot => ?_⟩ h.moves
  · -- Whatever has an owner when the loop starts is waiting.
    obtain ⟨⟨opener, hu⟩, _⟩ := h.sound
    obtain ⟨j, hj⟩ := Option.ne_none_iff_exists'.mp hdone.1
    obtain hnone | ⟨x, hx, hxj⟩ := h.busy_start (hu.grouped.mem_opened hn hj)
    · injection hnone
    · obtain ⟨k, hk, halone⟩ := hu.waiting.alone hx
      obtain rfl : k = j := Option.some.inj (hk.symm.trans hxj)
      exact absurd (halone n hn hj ▸ hx) hdone.2
  · have hmembers : w₁.members = blocks := congrArg Net.nodes h.net_start
    exact absurd (hmembers ▸ ht) hnot

/-- A block that has no room for an instruction would not fit with it. -/
theorem Crowded.not_fitting {g : FlowGraph} {h t : BlockId} (hcrowded : Crowded budget g h t)
    (hexact : g.regs .block h = instRegs (g.insts .block h)) :
    ∃ i, (g.insts .block t).head? = some i ∧ ¬ Fitting budget (g.insts .block h ++ [i]) := by
  obtain ⟨i, hi, hsize⟩ := hcrowded
  refine ⟨i, hi, Nat.not_lt.mpr (Nat.le_trans hsize (RegSet.size_le fun r hr => ?_))⟩
  rw [hexact] at hr
  refine (RegSet.mem_union.mp hr).elim ?_ ?_
  · exact instRegs_subset (fun x hx => List.mem_append_left _ hx) r
  · exact instRegs_subset (fun x hx => List.mem_append_right _ hx) r

namespace Subdivides

variable {g₀ g : FlowGraph} {nodes₀ nodes : List BlockId} {chain : BlockId → Chain} {c f : BlockId}

/-- Fragments behind the first one are new blocks. -/
theorem not_mem_of_tail (h : Subdivides g₀ nodes₀ g nodes chain) (hc : c ∈ nodes₀)
    (hf : f ∈ (chain c).fragments.tail) : f ∉ nodes₀ := by
  intro hmem
  obtain ⟨hnodup, hdisjoint⟩ := List.nodup_flatMap.mp (h.covered.nodup_iff.mpr h.nodup)
  obtain ⟨rest, hrest⟩ := List.head?_eq_some_iff.mp (h.head c hc)
  have hfirst : f ∈ (chain f).fragments := List.mem_of_head? (h.head f hmem)
  by_cases hfc : f = c
  · have hn := hnodup c hc
    rw [hrest] at hf hn
    exact (List.nodup_cons.mp hn).1 (hfc ▸ hf)
  · have : Std.Symm (List.Disjoint on fun b => (chain b).fragments) :=
      ⟨fun _ _ hd _ ha hb => hd hb ha⟩
    exact hdisjoint.forall hmem hc hfc hfirst (List.mem_of_mem_tail hf)

/-- All fragments of a reachable block are reachable. -/
theorem reachable_fragment (h : Subdivides g₀ nodes₀ g nodes chain) (hc : c ∈ nodes₀)
    (hreach : (g.net .block nodes).Reachable c) (hf : f ∈ (chain c).fragments) :
    (g.net .block nodes).Reachable f := by
  obtain ⟨rest, hrest⟩ := List.head?_eq_some_iff.mp (h.head c hc)
  have hlinked := h.linked c hc
  rw [hrest] at hlinked hf
  refine hlinked.induction (g.net .block nodes).Reachable _ ?_ (fun _ => hreach) f hf
  rintro x y ⟨hsucc, _⟩ hx
  refine hx.step ?_
  show y ∈ g.succs .block x
  rw [hsucc]
  exact List.mem_singleton_self y

/-- If the fragments of a block fit, and none has room for an instruction of the next one, the
block was cut greedily. -/
theorem exists_greedyCut (h : Subdivides g₀ nodes₀ g nodes chain) (hc : c ∈ nodes₀)
    (hexact : ∀ f ∈ (chain c).fragments, g.regs .block f = instRegs (g.insts .block f))
    (hfits : ∀ f ∈ (chain c).fragments, Fitting budget (g.insts .block f))
    (htails : ∀ t ∈ nodes, t ∉ nodes₀ → ∃ h, g.preds .block t = [h] ∧ Crowded budget g h t) :
    ∃ pieces, GreedyCut budget (g₀.insts .block c) pieces ∧
      pieces.map (·.map Inst.unlabelled) =
        (chain c).fragments.map fun f => (g.insts .block f).map Inst.unlabelled := by
  have hcrowded : ((chain c).fragments.map (g.insts .block)).IsChain fun xs ys =>
      ∃ i, ys.head? = some i ∧ ¬ Fitting budget (xs ++ [i]) := by
    refine (List.isChain_map _).mpr ((h.linked c hc).imp_of_mem_tail_imp fun x y hx hy hlink => ?_)
    obtain ⟨head, hhead, hcrowded⟩ := htails y
      (h.mem_of_fragment hc (List.mem_of_mem_tail hy)) (h.not_mem_of_tail hc hy)
    obtain rfl : x = head := List.singleton_inj.mp (hlink.2.symm.trans hhead)
    exact hcrowded.not_fitting (hexact x hx)
  obtain ⟨rest, hrest⟩ := List.head?_eq_some_iff.mp (h.head c hc)
  have hcut : GreedyCut budget ((chain c).fragments.flatMap (g.insts .block))
      ((chain c).fragments.map (g.insts .block)) := by
    rw [hrest] at hfits hcrowded ⊢
    exact greedyCut_of_crowded (List.forall_mem_map.mpr hfits) hcrowded
  obtain ⟨pieces, hpieces, hmap⟩ := hcut.congr (h.insts c hc)
  exact ⟨pieces, hpieces, hmap.trans List.map_map⟩

end Subdivides

/-- A run that returns intervals has cut the instructions of every reachable block greedily: each
fragment is the longest run of instructions, from where the one before it ended, that mention
fewer registers than the budget. All fragments have the registers of their instructions as
outputs, and no division of the instructions into such pieces has fewer of them. -/
theorem run_cutsGreedily (p : BlockGrouper) (blocks : List BlockId) (state : LoggedGraph)
    (ig : IntervalGraph) (hnodup : blocks.Nodup) (hrun : (p.run blocks state).result = .ok ig) :
    let g' := (p.run blocks state).state.graph
    ∃ chain, Subdivides state.graph blocks g' ig.blocks chain ∧
      ∀ c ∈ blocks, (state.graph.net .block blocks).Reachable c →
        (∃ pieces, GreedyCut p.budget (state.graph.insts .block c) pieces ∧
          pieces.map (·.map Inst.unlabelled) =
            (chain c).fragments.map fun f => (g'.insts .block f).map Inst.unlabelled) ∧
        (∀ f ∈ (chain c).fragments, g'.regs .block f = instRegs (g'.insts .block f)) ∧
        (state.graph.insts .block c ≠ [] → ∀ others : List (List Inst),
          others.flatten = state.graph.insts .block c →
          (∀ other ∈ others, other ≠ [] ∧ Fitting p.budget other) →
          (chain c).fragments.length ≤ others.length) := by
  intro g'
  obtain ⟨w₁, w₂, hpass, hblocks, _, hsame, opener, hend⟩ := run_eq_ok hnodup hrun
  obtain ⟨chain, hsub⟩ := Subdivides.lineage.run hnodup hrun hnodup
  refine ⟨chain, hsub, fun c hc hreach => ?_⟩
  have hinsts : g'.insts .block = w₂.graph.insts .block := FlowGraph.see_block_congr hsame
  have hregs : g'.regs .block = w₂.graph.regs .block := FlowGraph.see_block_congr hsame
  have hpreds : g'.preds .block = w₂.graph.preds .block := FlowGraph.see_block_congr hsame
  have howner : g'.owner .block = w₂.graph.owner .block := FlowGraph.see_block_congr hsame
  have hreach' : (g'.net .block ig.blocks).Reachable c :=
    ((Descends.lineage.run hnodup hrun).kept c hc).2.mpr hreach
  -- Every fragment has an owner, so it was settled, and it fits because its interval does.
  have hmem : ∀ f ∈ (chain c).fragments, f ∈ ig.blocks := fun f hf => hsub.mem_of_fragment hc hf
  have hown : ∀ f ∈ (chain c).fragments, ∃ i, g'.owner .block f = some i := fun f hf =>
    Option.isSome_iff_exists.mp ((hend.owner_isSome_iff f (hmem f hf)).mpr
      (hsub.reachable_fragment hc hreach' hf))
  have htrimmed := hpass.trimmed
  have hexact : ∀ f ∈ (chain c).fragments, g'.regs .block f = instRegs (g'.insts .block f) := by
    intro f hf
    obtain ⟨i, hi⟩ := hown f hf
    rw [hinsts, hregs]
    refine htrimmed.exact f (hblocks ▸ hmem f hf) ⟨?_, hpass.idle ▸ List.not_mem_nil⟩
    rw [← howner, hi]
    exact Option.some_ne_none i
  have hfits : ∀ f ∈ (chain c).fragments, Fitting p.budget (g'.insts .block f) := by
    intro f hf
    obtain ⟨i, hi⟩ := hown f hf
    have hopened := hend.grouped.mem_opened (hmem f hf) hi
    rw [Fitting, ← hexact f hf]
    refine Nat.lt_of_le_of_lt (RegSet.size_le fun r hr => ?_) (hend.fits i hopened).1
    exact (hend.regs i hopened r).mpr ⟨f, hmem f hf, hi, hr⟩
  have htails : ∀ t ∈ ig.blocks, t ∉ blocks →
      ∃ h, g'.preds .block t = [h] ∧ Crowded p.budget g' h t := by
    intro t ht hnot
    obtain ⟨h, hp, _, hcrowded⟩ := htrimmed.tail t (hblocks ▸ ht) hnot
    rw [Crowded, ← hinsts, ← hregs] at hcrowded
    exact ⟨h, hpreds ▸ hp, hcrowded⟩
  obtain ⟨pieces, hpieces, hmap⟩ := hsub.exists_greedyCut hc hexact hfits htails
  have hlength : pieces.length = (chain c).fragments.length := by
    simpa using congrArg List.length hmap
  refine ⟨⟨pieces, hpieces, hmap⟩, hexact, fun hne others hflatten hothers => ?_⟩
  rw [← hlength]
  exact hpieces.length_le hne (fun other hother => (hothers other hother).2) hflatten

/-- The first block has two fragments, and could not have fewer. -/
theorem cutsGreedily_carvedLoops :
    let g' := (BlockGrouper.run ⟨4, {}⟩ [0, 1, 2] carvedLoops).state.graph
    [0, 1, 2].Nodup ∧
    (BlockGrouper.run ⟨4, {}⟩ [0, 1, 2] carvedLoops).result = .ok ⟨[0, 1, 2, 3], [0, 1, 2]⟩ ∧
    ∃ chain, Subdivides carvedLoops.graph [0, 1, 2] g' [0, 1, 2, 3] chain ∧
      ∀ c ∈ [0, 1, 2], (carvedLoops.graph.net .block [0, 1, 2]).Reachable c →
        ∃ pieces, GreedyCut 4 (carvedLoops.graph.insts .block c) pieces ∧
          pieces.map (·.map Inst.unlabelled) =
            (chain c).fragments.map fun f => (g'.insts .block f).map Inst.unlabelled := by
  intro g'
  obtain ⟨chain, hsub, hall⟩ :=
    run_cutsGreedily ⟨4, {}⟩ [0, 1, 2] carvedLoops _ (by decide) run_carvedLoops
  exact ⟨by decide, run_carvedLoops, chain, hsub, fun c hc hreach => (hall c hc hreach).1⟩

end KernelIntervals
