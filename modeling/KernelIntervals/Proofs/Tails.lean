/-
Listed blocks and tails while the first pass runs.

* `Led` — a predecessor by which a block got into its region,
* `Tracked` — what is known of free blocks, blocks with few registers, tails, and blocks
  that were led to,
* `Evolves`, `Tracked.evolves` — changes that cut no block keep this,
* `Tracked.halved` — and so does taking a block that is cut,
* `FirstPass.tracked_start` — it holds when the loop starts.

Design notes: a tail follows its head for good, because the head does not wait any more and
is not cut again. Of the tail itself only the first instruction is sure to stay.
-/
import KernelIntervals.Proofs.ExactMoves
import KernelIntervals.Proofs.FirstPass

namespace KernelIntervals

open Function Relation

/-- Another block leads to the block `c` of the region `j`, from the same region or from one
that was visited before. -/
def Led (w : Workspace) (current : Option IntervalId) (c : BlockId) (j : IntervalId) : Prop :=
  ∃ p ∈ w.graph.preds .block c, p ≠ c ∧
    ∃ k, w.graph.owner .block p = some k ∧ (k = j ∨ ¬ w.Busy .block current k)

/-- What is known of the blocks of a pass over `blocks`, which it was given in `g₀`. -/
structure Tracked (budget : Nat) (g₀ : FlowGraph) (blocks : List BlockId)
    (current : Option IntervalId) (w : Workspace) : Prop where
  listed : blocks <+: w.members
  free : ∀ x ∈ w.members, w.graph.owner .block x = none → x ∈ blocks
  intact : ∀ c ∈ blocks, w.graph.owner .block c = none →
    w.graph.regs .block c = g₀.regs .block c
  narrow : ∀ c ∈ blocks, (g₀.regs .block c).size < budget →
    w.graph.regs .block c = g₀.regs .block c
  tail : ∀ t ∈ w.members, t ∉ blocks → ∃ h, w.graph.preds .block t = [h] ∧
    w.graph.owner .block h ≠ none ∧ h ∉ w.worklist ∧ Crowded budget w.graph h t
  led : ∀ c ∈ blocks, ∀ j, w.graph.owner .block c = some j → w.graph.preds .block c ≠ [] →
    Led w current c j

variable {base budget : Nat} {g₀ : FlowGraph} {blocks ns : List BlockId}
  {current current' : Option IntervalId} {w w₁ w₂ w' : Workspace} {n t : BlockId}
  {i j : IntervalId} {opener : IntervalId → Nat} {rest : List BlockId}

/-! ### Changes that cut no block -/

/-- No block is cut, no waiting region is new but those of blocks that were free, and these
were led to. -/
structure Evolves (current : Option IntervalId) (w : Workspace) (current' : Option IntervalId)
    (w' : Workspace) : Prop where
  members : w'.members = w.members
  preds : w'.graph.preds .block = w.graph.preds .block
  insts : w'.graph.insts .block = w.graph.insts .block
  regs : w'.graph.regs .block = w.graph.regs .block
  owner : ∀ x k, w.graph.owner .block x = some k → w'.graph.owner .block x = some k
  waits : ∀ x ∈ w'.worklist, x ∈ w.worklist ∨ w.graph.owner .block x = none
  busy : ∀ x ∈ w.members, ∀ k, w.graph.owner .block x = some k →
    w'.Busy .block current' k → w.Busy .block current k
  led : ∀ c ∈ w.members, w.graph.owner .block c = none → ∀ j,
    w'.graph.owner .block c = some j → w'.graph.preds .block c ≠ [] → Led w' current' c j

theorem Tracked.evolves (h : Tracked budget g₀ blocks current w)
    (hu : Underway .block base current opener w) (he : Evolves current w current' w') :
    Tracked budget g₀ blocks current' w' := by
  have hfree : ∀ x, w'.graph.owner .block x = none → w.graph.owner .block x = none :=
    fun x hx => owner_eq_none (he.owner x) hx
  refine ⟨?_, fun x hx hnone => ?_, fun c hc hnone => ?_, ?_, fun t ht hnot => ?_,
    fun c hc j hown hne => ?_⟩
  · rw [he.members]
    exact h.listed
  · rw [he.members] at hx
    exact h.free x hx (hfree x hnone)
  · rw [he.regs]
    exact h.intact c hc (hfree c hnone)
  · rw [he.regs]
    exact h.narrow
  · rw [he.members] at ht
    obtain ⟨head, hpreds, hhead, hidle, hcrowded⟩ := h.tail t ht hnot
    refine ⟨head, he.preds ▸ hpreds, fun hnone => hhead (hfree head hnone), fun hwaits => ?_, ?_⟩
    · exact (he.waits head hwaits).elim hidle hhead
    · rw [Crowded, he.insts, he.regs]
      exact hcrowded
  · have hmem : c ∈ w.members := h.listed.subset hc
    cases hbefore : w.graph.owner .block c with
    | none => exact he.led c hmem hbefore j hown hne
    | some k =>
      obtain rfl : k = j := Option.some.inj ((he.owner c k hbefore).symm.trans hown)
      obtain ⟨p, hp, hpc, k', hpk, hvisited⟩ := h.led c hc k hbefore (he.preds ▸ hne)
      refine ⟨p, he.preds ▸ hp, hpc, k', he.owner p k' hpk, hvisited.imp_right ?_⟩
      exact fun hidle hbusy => hidle (he.busy p (hu.exists_pred hmem hp).1 k' hpk hbusy)

/-- The block that is taken stays as it was. -/
theorem Steady.evolves (h : Steady i { w with worklist := rest } w')
    (hwork : w.worklist = n :: rest) (hown : w.graph.owner .block n = some i) :
    Evolves none w (some i) w' where
  members := h.alike.members
  preds := congrFun h.alike.preds .block
  insts := h.insts
  regs := h.regs
  owner := fun x k hx => (congrFun h.alike.owner x).trans hx
  waits := by
    intro x hx
    rw [h.alike.worklist] at hx
    exact .inl (hwork ▸ List.mem_cons_of_mem n hx)
  busy := by
    rintro x _ k _ (hk | ⟨m, hm, hmk⟩)
    · exact .inr ⟨n, hwork ▸ List.mem_cons_self, hk ▸ hown⟩
    · rw [h.alike.worklist] at hm
      rw [h.alike.owner] at hmk
      exact .inr ⟨m, hwork ▸ List.mem_cons_of_mem n hm, hmk⟩
  led := by
    intro c _ hfree j hsome
    rw [h.alike.owner] at hsome
    rw [show w.graph.owner .block c = some j from hsome] at hfree
    injection hfree

/-- A region swells in a scan. -/
theorem Swells.evolves (h : Swells i ns w w') (hu : Underway .block base (some i) opener w) :
    Evolves (some i) w (some i) w' where
  members := h.members
  preds := h.preds
  insts := h.insts
  regs := h.regs
  owner := fun _ _ hx => h.owner_eq hx
  waits := fun x hx => .inl (h.worklist ▸ hx)
  busy := by
    rintro x _ k _ (hk | ⟨m, hm, hmk⟩)
    · exact .inl hk
    · rw [h.worklist] at hm
      obtain ⟨k', hk', _⟩ := hu.waiting.alone hm
      obtain rfl : k' = k := Option.some.inj ((h.owner_eq hk').symm.trans hmk)
      exact .inr ⟨m, hm, hk'⟩
  led := by
    intro c _ hfree j hown hne
    rcases h.owner c with heq | ⟨_, _, hi⟩
    · rw [heq, hfree] at hown
      injection hown
    · obtain rfl : i = j := Option.some.inj (hi.symm.trans hown)
      obtain ⟨p, hp⟩ := List.exists_mem_of_ne_nil _ hne
      obtain ⟨hpc, hpi⟩ := h.joined c hfree hi p (h.preds ▸ hp)
      exact ⟨p, hp, hpc, i, hpi, .inl rfl⟩

/-- A visit ends: the blocks behind its region open regions. -/
theorem Leaves.evolves (h : Leaves .block i w w') (hu : Underway .block base (some i) opener w) :
    Evolves (some i) w none w' where
  members := h.opens.members
  preds := congrFun h.opens.sameBodies.preds .block
  insts := congrFun h.opens.sameBodies.insts .block
  regs := congrFun h.opens.sameBodies.regs .block
  owner := fun _ _ hx => h.opens.owner_eq hx
  waits := fun _ hx => h.opens.waits hx
  busy := by
    intro x hx k hown hbusy
    have hlt := (hu.opened_range k (hu.grouped.mem_opened hx hown)).2
    rcases h.opens.busy_of_lt hlt hbusy with hk | hk
    · injection hk
    · exact .inr hk
  led := by
    intro c hc hfree j hown hne
    obtain ⟨m, hm, hmi, hsucc⟩ := h.behind c hfree (hown ▸ Option.some_ne_none j)
    obtain ⟨hi, hidle⟩ := hu.idle i rfl
    refine ⟨m, ?_, ne_of_owner hfree hmi, i, h.opens.owner_eq hmi, .inr fun hbusy => ?_⟩
    · rw [h.opens.sameBodies.preds]
      exact hu.closed.mem_preds hm hsucc
    · rcases h.opens.busy_of_lt (hu.opened_range i hi).2 hbusy with hi | ⟨x, hx, hxi⟩
      · injection hi
      · exact hidle x hx hxi

/-! ### A block is cut -/

theorem Halved.preds (h : Halved budget i n t j w w') :
    w'.graph.preds .block = ((w.net .block).cut n t).preds := congrArg Net.preds h.net

theorem Halved.owner_of_ne (h : Halved budget i n t j w w') {x : BlockId} (hx : x ≠ t) :
    w'.graph.owner .block x = w.graph.owner .block x := by
  rw [h.owner, update_of_ne hx]

theorem Halved.owner_eq (h : Halved budget i n t j w w') {x : BlockId} {k : IntervalId}
    (hx : w.graph.owner .block x = some k) : w'.graph.owner .block x = some k :=
  (h.owner_of_ne (ne_of_owner h.free hx)).trans hx

theorem Halved.not_waiting (h : Halved budget i n t j w w') {x : BlockId} (hx : x ∉ w.worklist)
    (hxt : x ≠ t) : x ∉ w'.worklist := by
  rw [h.worklist]
  exact fun hx' => hx (Net.mem_of_ne_last hx' hxt)

/-- The tail follows its head, which does not wait any more. -/
theorem Halved.tail_new (h : Halved budget i n t j w w') (hown : w.graph.owner .block n ≠ none)
    (hidle : n ∉ w.worklist) : w'.graph.preds .block t = [n] ∧ w'.graph.owner .block n ≠ none ∧
      n ∉ w'.worklist ∧ Crowded budget w'.graph n t := by
  have hnt : n ≠ t := ne_of_mem_of_not_mem h.mem h.fresh
  refine ⟨?_, ?_, h.not_waiting hidle hnt, h.crowded⟩
  · rw [h.preds, Net.preds_cut_tail]
  · rw [h.owner_of_ne hnt]
    exact hown

/-- The tails that were there follow their heads, which are other blocks than the one that is
cut. -/
theorem Halved.tail_old (h : Halved budget i n t j w w') (hc : (w.net .block).Closed)
    {x head : BlockId} (hx : x ∈ w.members) (hpreds : w.graph.preds .block x = [head])
    (hhead : w.graph.owner .block head ≠ none) (hidle : head ∉ w.worklist) (hne : head ≠ n)
    (hcrowded : Crowded budget w.graph head x) : w'.graph.preds .block x = [head] ∧
      w'.graph.owner .block head ≠ none ∧ head ∉ w'.worklist ∧ Crowded budget w'.graph head x := by
  have hpred : head ∈ (w.net .block).preds x := by
    show head ∈ w.graph.preds .block x
    rw [hpreds]
    exact List.mem_singleton_self head
  have hmem : head ∈ w.members := hc.pred_mem hx hpred
  have hxt : x ≠ t := ne_of_mem_of_not_mem hx h.fresh
  have hht : head ≠ t := ne_of_mem_of_not_mem hmem h.fresh
  obtain ⟨y, hy, hsize⟩ := hcrowded
  have hsucc : x ∉ w.graph.succs .block n := by
    intro hsucc
    have hpred' : n ∈ w.graph.preds .block x := hc.mem_preds h.mem hsucc
    rw [hpreds] at hpred'
    exact hne (List.mem_singleton.mp hpred').symm
  refine ⟨?_, ?_, h.not_waiting hidle hht, y, (h.heads x hxt).trans hy, ?_⟩
  · rw [h.preds, Net.preds_cut_of_not_mem hxt hsucc]
    exact hpreds
  · rw [h.owner_of_ne hht]
    exact hhead
  · rw [h.regs head hne hht]
    exact hsize

section Taken

variable (hu : Underway .block base none opener w) (hwork : w.worklist = n :: rest)
  (hown : w.graph.owner .block n = some i)
  (hc : Halved budget i n t j { w with worklist := rest } w')

include hu hwork hown hc

/-- The regions that are to be visited were so before, but for that of the tail. -/
theorem busy_of_halved {x : BlockId} {k : IntervalId} (hx : x ∈ w.members)
    (hxk : w.graph.owner .block x = some k) (hbusy : w'.Busy .block (some i) k) :
    w.Busy .block none k := by
  rcases hbusy with hk | ⟨m, hm, hmk⟩
  · exact .inr ⟨n, hwork ▸ List.mem_cons_self, hk ▸ hown⟩
  · have hmt : m ≠ t := by
      rintro rfl
      rw [hc.owner, update_self] at hmk
      exact hc.new (Option.some.inj hmk ▸ hu.grouped.mem_opened hx hxk)
    rw [hc.worklist] at hm
    rw [hc.owner_of_ne hmt] at hmk
    exact .inr ⟨m, hwork ▸ List.mem_cons_of_mem n (Net.mem_of_ne_last hm hmt), hmk⟩

/-- What led to a block is not cut: it would be alone in its region. -/
theorem Led.halved {c : BlockId} {k : IntervalId} (h : Led w none c k) (hmem : c ∈ w.members)
    (hck : w.graph.owner .block c = some k)
    (halone : ∀ m ∈ w.members, w.graph.owner .block m = some i → m = n) :
    Led w' (some i) c k := by
  obtain ⟨p, hp, hpc, k', hpk, hvisited⟩ := h
  have hpn : p ≠ n := by
    rintro rfl
    obtain rfl : k' = i := Option.some.inj (hpk.symm.trans hown)
    obtain rfl := hvisited.resolve_right fun hidle =>
      hidle (.inr ⟨p, hwork ▸ List.mem_cons_self, hown⟩)
    exact hpc (halone c hmem hck).symm
  have hp' : p ∈ ((w.net .block).cut n t).preds c :=
    (Net.mem_preds_cut hu.closed hc.mem hc.fresh hmem).mpr (.inr ⟨hpn, hp⟩)
  refine ⟨p, hc.preds ▸ hp', hpc, k', hc.owner_eq hpk, hvisited.imp_right fun hidle hbusy => ?_⟩
  exact hidle (busy_of_halved hu hwork hown hc (hu.exists_pred hmem hp).1 hpk hbusy)

/-- The block that is taken is cut. -/
theorem Tracked.halved (h : Tracked budget g₀ blocks none w)
    (hexact : ∀ n ∈ w.members, w.graph.regs .block n = instRegs (w.graph.insts .block n))
    (halone : ∀ m ∈ w.members, w.graph.owner .block m = some i → m = n) :
    Tracked budget g₀ blocks (some i) w' := by
  have hlisted : ∀ c ∈ blocks, c ∈ w.members ∧ c ≠ t := fun c hc' =>
    ⟨h.listed.subset hc', ne_of_mem_of_not_mem (h.listed.subset hc') hc.fresh⟩
  refine ⟨?_, fun x hx hnone => ?_, fun c hc' hnone => ?_, fun c hc' hfew => ?_,
    fun x hx hnot => ?_, fun c hc' k hck hne => ?_⟩
  · rw [hc.members]
    exact h.listed.trans (List.prefix_append _ _)
  · have hxt : x ≠ t := by
      rintro rfl
      rw [hc.owner, update_self] at hnone
      injection hnone
    rw [hc.members] at hx
    exact h.free x (Net.mem_of_ne_last hx hxt) ((hc.owner_of_ne hxt).symm.trans hnone)
  · obtain ⟨_, hct⟩ := hlisted c hc'
    have hfree : w.graph.owner .block c = none := (hc.owner_of_ne hct).symm.trans hnone
    exact (hc.regs c (ne_of_owner hfree hown).symm hct).trans (h.intact c hc' hfree)
  · obtain ⟨hmem, hct⟩ := hlisted c hc'
    have hsame := h.narrow c hc' hfew
    refine (hc.regs c ?_ hct).trans hsame
    -- A block with few registers is not cut.
    rintro rfl
    rw [← hsame, hexact c hmem] at hfew
    exact Nat.lt_irrefl _ (Nat.lt_of_lt_of_le hfew hc.full)
  · have hnodup := hu.waiting.nodup
    rw [hwork, List.nodup_cons] at hnodup
    by_cases hxt : x = t
    · subst hxt
      exact ⟨n, hc.tail_new (hown ▸ Option.some_ne_none i) hnodup.1⟩
    · have hmem : x ∈ w.members := Net.mem_of_ne_last (hc.members ▸ hx) hxt
      obtain ⟨head, hpreds, hhead, hidle, hcrowded⟩ := h.tail x hmem hnot
      -- The head of a tail does not wait, so it is not the block that is cut.
      rw [hwork, List.mem_cons, not_or] at hidle
      exact ⟨head, hc.tail_old hu.closed hmem hpreds hhead hidle.2 hidle.1 hcrowded⟩
  · obtain ⟨hmem, hct⟩ := hlisted c hc'
    have hck' : w.graph.owner .block c = some k := (hc.owner_of_ne hct).symm.trans hck
    rw [hc.preds, ne_eq, Net.preds_cut_eq_nil hct] at hne
    exact (h.led c hc' k hck' hne).halved hu hwork hown hc hmem hck' halone

end Taken

/-! ### The start of a pass -/

/-- When the loop starts, there are no tails, and the blocks with an owner have no
predecessors. -/
theorem FirstPass.tracked_start (h : FirstPass budget blocks w w₁ w₂)
    (hv : w.graph.verify blocks = .ok ()) (hnodup : blocks.Nodup) :
    Tracked budget w.graph blocks none w₁ := by
  obtain ⟨hexist, hclosed⟩ := FlowGraph.verify_eq_ok hv
  obtain ⟨_, _, hentries⟩ := (start_ends hexist hnodup hclosed).of_eq_ok h.started
  obtain ⟨w₀, hcleared, hopens⟩ := h.cleared
  have hmembers : w₁.members = blocks := hopens.members.trans hcleared.members
  have hregs : w₁.graph.regs .block = w.graph.regs .block := by
    rw [hopens.sameBodies.regs, hcleared.bodies.regs]
  refine ⟨?_, fun x hx _ => hmembers ▸ hx, fun c _ _ => congrFun hregs c,
    fun c _ _ => congrFun hregs c, fun t ht hnot => ?_, fun c hc j hown hne => ?_⟩
  · exact hmembers.symm ▸ List.prefix_refl blocks
  · exact absurd (hmembers ▸ ht) hnot
  · exact absurd (hentries c hc (hown ▸ Option.some_ne_none j)) hne

end KernelIntervals
