/-
What the blocks of a pass have to do with the blocks that it was given.

* `Descends` — every block comes from a block that was given and is reachable iff
  that one was; every instruction that was given is in some block; what is not
  reachable is as it was given,
* `Descends.cut`, `Descends.lineage` — a cut makes such blocks, and so does a pass.

Design notes: the tail of a cut has its branches renamed, so instructions are
compared by the registers that they mention.
-/
import KernelIntervals.Proofs.Lineage

namespace KernelIntervals

/-- The blocks `nodes` of `g` come from the blocks `nodes₀` of `g₀`. -/
structure Descends (g₀ : FlowGraph) (nodes₀ : List BlockId) (g : FlowGraph)
    (nodes : List BlockId) : Prop where
  kept : ∀ b ∈ nodes₀, b ∈ nodes ∧
    ((g.net .block nodes).Reachable b ↔ (g₀.net .block nodes₀).Reachable b)
  origin : ∀ f ∈ nodes, ∃ b ∈ nodes₀,
    ((g₀.net .block nodes₀).Reachable b ↔ (g.net .block nodes).Reachable f) ∧
      ∀ x ∈ g.insts .block f, ∃ y ∈ g₀.insts .block b, y.regs = x.regs
  survives : ∀ b ∈ nodes₀, ∀ y ∈ g₀.insts .block b, ∃ f ∈ nodes,
    ((g.net .block nodes).Reachable f ↔ (g₀.net .block nodes₀).Reachable b) ∧
      ∃ x ∈ g.insts .block f, x.regs = y.regs
  unreached : ∀ f ∈ nodes, ¬ (g.net .block nodes).Reachable f → f ∈ nodes₀ ∧
    g.insts .block f = g₀.insts .block f ∧ g.preds .block f = g₀.preds .block f ∧
      g.succs .block f = g₀.succs .block f

variable {g₀ g₁ g g' : FlowGraph} {nodes₀ nodes₁ nodes : List BlockId} {b : Block}

namespace Descends

/-- Blocks with the same instructions and edges come from each other. -/
theorem of_eq (hinsts : g'.insts .block = g.insts .block)
    (hpreds : g'.preds .block = g.preds .block) (hsuccs : g'.succs .block = g.succs .block) :
    Descends g nodes g' nodes := by
  have hnet : g'.net .block nodes = g.net .block nodes := by
    rw [FlowGraph.net, FlowGraph.net, hpreds, hsuccs]
  refine ⟨?_, ?_, ?_, ?_⟩
  · intro b hb
    rw [hnet]
    exact ⟨hb, Iff.rfl⟩
  · intro f hf
    rw [hnet, hinsts]
    exact ⟨f, hf, Iff.rfl, fun x hx => ⟨x, hx, rfl⟩⟩
  · intro b hb y hy
    rw [hnet, hinsts]
    exact ⟨b, hb, Iff.rfl, y, hy, rfl⟩
  · intro f hf _
    rw [hinsts, hpreds, hsuccs]
    exact ⟨hf, rfl, rfl, rfl⟩

theorem trans (h : Descends g₀ nodes₀ g₁ nodes₁) (h' : Descends g₁ nodes₁ g nodes) :
    Descends g₀ nodes₀ g nodes := by
  refine ⟨?_, ?_, ?_, ?_⟩
  · intro b hb
    obtain ⟨hb₁, hreach₁⟩ := h.kept b hb
    obtain ⟨hb', hreach⟩ := h'.kept b hb₁
    exact ⟨hb', hreach.trans hreach₁⟩
  · intro f hf
    obtain ⟨c, hc, hreach, hinsts⟩ := h'.origin f hf
    obtain ⟨b, hb, hreach₁, hinsts₁⟩ := h.origin c hc
    refine ⟨b, hb, hreach₁.trans hreach, fun x hx => ?_⟩
    obtain ⟨y, hy, hyx⟩ := hinsts x hx
    obtain ⟨z, hz, hzy⟩ := hinsts₁ y hy
    exact ⟨z, hz, hzy.trans hyx⟩
  · intro b hb z hz
    obtain ⟨c, hc, hreach₁, y, hy, hyz⟩ := h.survives b hb z hz
    obtain ⟨f, hf, hreach, x, hx, hxy⟩ := h'.survives c hc y hy
    exact ⟨f, hf, hreach.trans hreach₁, x, hx, hxy.trans hyz⟩
  · intro f hf hnot
    obtain ⟨hf₁, hinsts, hpreds, hsuccs⟩ := h'.unreached f hf hnot
    obtain ⟨hf₀, hinsts₁, hpreds₁, hsuccs₁⟩ :=
      h.unreached f hf₁ fun hreach => hnot ((h'.kept f hf₁).2.mpr hreach)
    exact ⟨hf₀, hinsts.trans hinsts₁, hpreds.trans hpreds₁, hsuccs.trans hsuccs₁⟩

/-- A cut of a reachable block makes blocks that come from those before. -/
theorem cut {place : Nat} {running : RegSet} {name : String} {head : BlockId}
    (h : CleanCut nodes g head b place running name g') :
    Descends g nodes g' (nodes ++ [g.blocks.size]) := by
  obtain ⟨hc, _, hsize, hhead, hreach, hb, _, _, hg, hnet⟩ := h
  have hinsts : g.insts .block head = b.insts := FlowGraph.see_of_block? hb _ _
  have hkept : ∀ f ∈ nodes, (g'.net .block (nodes ++ [g.blocks.size])).Reachable f ↔
      (g.net .block nodes).Reachable f := by
    intro f hf
    rw [hnet]
    exact Net.reachable_cut hc hhead hsize hf
  -- The tail is reached through the head, and stands for it.
  have htail : (g'.net .block (nodes ++ [g.blocks.size])).Reachable g.blocks.size := by
    rw [hnet, Net.reachable_cut_tail hc hhead hsize]
    exact hreach
  refine ⟨fun f hf => ⟨List.mem_append_left _ hf, hkept f hf⟩, ?_, ?_, ?_⟩
  · intro f hf
    by_cases hft : f = g.blocks.size
    · refine ⟨head, hhead, ?_, fun x hx => ?_⟩
      · rw [hft]
        exact iff_of_true hreach htail
      · rw [hft, hg.insts_tail] at hx
        obtain ⟨y, hy, rfl⟩ := List.mem_map.mp hx
        rw [hinsts]
        exact ⟨y, List.mem_of_mem_drop hy, (Inst.regs_renameLabel ..).symm⟩
    · have hf' := Net.mem_of_ne_last hf hft
      refine ⟨f, hf', (hkept f hf').symm, fun x hx => ?_⟩
      by_cases hfh : f = head
      · rw [hfh, hg.insts_head] at hx
        rw [hfh, hinsts]
        exact ⟨x, List.mem_of_mem_take hx, rfl⟩
      · rw [hg.insts_of_ne hfh hft] at hx
        exact ⟨x, hx, rfl⟩
  · intro f hf y hy
    by_cases hfh : f = head
    · rw [hfh, hinsts, ← List.take_append_drop place b.insts] at hy
      rcases List.mem_append.mp hy with hy | hy
      · refine ⟨f, List.mem_append_left _ hf, hkept f hf, y, ?_, rfl⟩
        rw [hfh, hg.insts_head]
        exact hy
      · refine ⟨g.blocks.size, List.mem_append_right _ (List.mem_singleton_self _), ?_,
          y.renameLabel b.name name, ?_, Inst.regs_renameLabel ..⟩
        · rw [hfh]
          exact iff_of_true htail hreach
        · rw [hg.insts_tail]
          exact List.mem_map_of_mem hy
    · refine ⟨f, List.mem_append_left _ hf, hkept f hf, y, ?_, rfl⟩
      rw [hg.insts_of_ne hfh (ne_of_mem_of_not_mem hf hsize)]
      exact hy
  · intro f hf hnot
    have hft : f ≠ g.blocks.size := fun h => hnot (h ▸ htail)
    have hf' := Net.mem_of_ne_last hf hft
    have hfh : f ≠ head := fun h => hnot ((hkept f hf').mpr (h ▸ hreach))
    -- A block that is not reached does not follow the head, so its edges stay.
    have hnext : f ∉ (g.net .block nodes).succs head := fun h =>
      hnot ((hkept f hf').mpr (hreach.step h))
    refine ⟨hf', hg.insts_of_ne hfh hft, ?_, ?_⟩
    · show (g'.net .block (nodes ++ [g.blocks.size])).preds f = _
      rw [hnet]
      exact Net.preds_cut_of_not_mem hft hnext
    · show (g'.net .block (nodes ++ [g.blocks.size])).succs f = _
      rw [hnet]
      exact Net.succs_cut_of_ne hft hfh

theorem lineage : Lineage Descends :=
  ⟨fun h => .of_eq h.insts h.preds h.succs, trans, cut⟩

end Descends

end KernelIntervals
