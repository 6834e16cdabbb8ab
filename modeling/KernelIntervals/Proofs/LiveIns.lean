/-
The registers live on entry to blocks, after a first pass.

* `LoopStep.inputs_cases`, `inputs_eq_of_steps` — a block that has an interval keeps its live-in
  registers, so they are settled when it joins,
* `dry_of_steps`, `Fresh` — blocks without an interval have none, and neither have waiting blocks,
* `Carries`, `Stocked` — the live-in registers of one member of a region, and of all of them,
* `Filling`, `Scan.filling` — a scan leaves its region stocked, where the live-in registers of a
  member come from members upstream,
* `Supplied` — so all regions that were visited are stocked between two visits,
* `liveIns_carry` — and all intervals are when a run returns them.

Design notes: the live-in registers of a block are found once, from the members there are when it
joins, while the law compares blocks that joined at different moments. Within the scan of a region
no edges change, so what is upstream of a predecessor is upstream of the block, and members only
get more. Of regions that are not scanned it is enough that they rest.
-/
import KernelIntervals.Proofs.Departure
import KernelIntervals.Proofs.Maximality
import KernelIntervals.Proofs.Outcomes
import KernelIntervals.Proofs.Reachability

namespace KernelIntervals

open Function Relation

variable {base budget : Nat} {g g' : FlowGraph} {blocks nodes nodes' ns : List BlockId}
  {w w₁ w₂ w' : Workspace} {n c e x : BlockId} {i k : IntervalId} {b : Block} {live : RegSet}
  {rest : List BlockId} {opener : IntervalId → Nat} {r : Reg}

/-! ### Steps and live-in registers -/

theorem FlowGraph.inputs_congr (h : g'.blocks = g.blocks) : g'.inputs = g.inputs := by
  funext n
  rw [inputs, inputs, block?, block?, h]

theorem FlowGraph.inputs_size (g : FlowGraph) : g.inputs g.blocks.size = ∅ := by
  rw [inputs, block?, Arena.get?_eq_none_iff.mpr (Nat.le_refl _)]
  rfl

theorem FlowGraph.inputs_setInputs (hn : n < g.extent .block) (live : RegSet) :
    (g.modifyBlock n ({ · with inputs := live })).inputs = update g.inputs n live := by
  funext m
  obtain ⟨b, hb⟩ : ∃ b, g.block? n = some b := Arena.exists_get? hn
  by_cases hnm : n = m
  · rw [← hnm, update_self, inputs, block?_modifyBlock, if_pos rfl, hb]
    rfl
  · rw [update_of_ne (Ne.symm hnm), inputs, inputs, block?_modifyBlock, if_neg hnm]

theorem inputs_openGroup : (w.openGroup .block n).graph.inputs = update w.graph.inputs n ∅ := by
  funext m
  refine (FlowGraph.inputs_assign _).trans ?_
  by_cases hnm : n = m
  · rw [if_pos hnm, ← hnm, update_self]
  · rw [if_neg hnm, update_of_ne (Ne.symm hnm)]
    rfl

theorem inputs_claim (i : IntervalId) (hn : n < w.graph.extent .block) (live : RegSet) :
    (w.claim i n live).graph.inputs = update w.graph.inputs n live := by
  have hextent : n < (w.graph.assign .block n (some i)).extent .block :=
    (FlowGraph.extent_assign (some i)).symm ▸ hn
  refine (FlowGraph.inputs_setInputs hextent live).trans (funext fun m => ?_)
  by_cases hmn : m = n
  · rw [hmn, update_self, update_self]
  · rw [update_of_ne hmn, update_of_ne hmn, FlowGraph.inputs_assign, if_neg (Ne.symm hmn)]

/-- A cut changes no live-in registers, and the tail has none. -/
theorem Severed.inputs_eq {place : Nat} {running : RegSet} {name : String}
    (hg : Severed g n b place running name g') (hb : g.block? n = some b) :
    g'.inputs = g.inputs := by
  funext m
  by_cases hm : m = g.blocks.size
  · rw [hm, hg.inputs_tail, g.inputs_size]
  · exact hg.inputs_of_ne hb hm

theorem Synced.inputs_eq {l : Level} (h : Synced l i w w') : w'.graph.inputs = w.graph.inputs := by
  obtain ⟨regs, _, rfl⟩ := h
  rfl

theorem Settled.inputs_eq (h : Settled budget n b w w') (hb : w.graph.block? n = some b) :
    w'.graph.inputs = w.graph.inputs := by
  cases h with
  | whole => exact funext fun _ => FlowGraph.inputs_modifyBlock fun _ => rfl
  | @parted place name g' log hpoint hg =>
    rw [inputs_openGroup]
    show update g'.inputs w.graph.blocks.size ∅ = _
    rw [hg.inputs_eq hb, ← w.graph.inputs_size, update_eq_self]

/-- In a step at most one block gets other live-in registers, and that gets an interval. -/
theorem LoopStep.inputs_cases (h : LoopStep budget w w') :
    w'.graph.inputs = w.graph.inputs ∨ ∃ n live, w.graph.owner .block n = none ∧
      w'.graph.owner .block n ≠ none ∧ w'.graph.inputs = update w.graph.inputs n live := by
  cases h with
  | take hwork => exact .inl rfl
  | mark marker => exact .inl rfl
  | whole hb hpoint => exact .inl (funext fun _ => FlowGraph.inputs_modifyBlock fun _ => rfl)
  | split hb hpoint hg => exact .inl (hg.inputs_eq hb)
  | @openGroup n hn hfree =>
    refine .inr ⟨n, ∅, hfree, ?_, inputs_openGroup⟩
    rw [owner_openGroup hn, update_self]
    exact Option.some_ne_none _
  | @claim n i live hn hadm =>
    refine .inr ⟨n, live, hadm.free, ?_, inputs_claim i hn live⟩
    rw [owner_claim live hn, update_self]
    exact Option.some_ne_none _
  | sync hsync => exact .inl hsync.inputs_eq

theorem LoopStep.inputs_eq (h : LoopStep budget w w') (hown : w.graph.owner .block x = some i) :
    w'.graph.inputs x = w.graph.inputs x := by
  rcases h.inputs_cases with heq | ⟨n, live, hfree, _, heq⟩
  · rw [heq]
  · rw [heq, update_of_ne (ne_of_owner hfree hown)]

/-- A block that has an interval keeps its live-in registers. -/
theorem inputs_eq_of_steps (h : ReflTransGen (LoopStep budget) w w')
    (hown : w.graph.owner .block x = some i) : w'.graph.inputs x = w.graph.inputs x := by
  induction h with
  | refl => rfl
  | tail hpath hstep ih => exact (hstep.inputs_eq (owner_eq_of_steps hpath hown)).trans ih

/-- A block has no live-in registers as long as it has no interval. -/
theorem dry_of_steps (h : ReflTransGen (LoopStep budget) w w') (hx : w.graph.inputs x = ∅)
    (hfree : w'.graph.owner .block x = none) : w'.graph.inputs x = ∅ := by
  induction h with
  | refl => exact hx
  | tail hpath hstep ih =>
    have hbefore := ih (owner_eq_none (fun _ => hstep.owner_eq) hfree)
    rcases hstep.inputs_cases with heq | ⟨n, live, _, hsome, heq⟩
    · rw [heq, hbefore]
    · have hne : x ≠ n := fun hxn => hsome (hxn ▸ hfree)
      rw [heq, update_of_ne hne, hbefore]

/-- Blocks that wait have opened an interval, and have no live-in registers. -/
def Fresh (w : Workspace) : Prop :=
  ∀ n ∈ w.worklist, w.graph.owner .block n ≠ none ∧ w.graph.inputs n = ∅

/-- A block that waits after a step was waiting before, or has just opened an interval. -/
theorem LoopStep.waits (h : LoopStep budget w w') (hx : x ∈ w'.worklist) :
    x ∈ w.worklist ∨ w'.graph.owner .block x ≠ none ∧ w'.graph.inputs x = ∅ := by
  cases h with
  | take hwork => exact .inl (hwork ▸ List.mem_cons_of_mem _ hx)
  | mark marker => exact .inl hx
  | whole hb hpoint => exact .inl hx
  | split hb hpoint hg => exact .inl hx
  | @openGroup n hn hfree =>
    refine (List.mem_append.mp hx).imp_right fun hx => ?_
    rw [List.mem_singleton.mp hx, owner_openGroup hn, inputs_openGroup, update_self, update_self]
    exact ⟨Option.some_ne_none _, rfl⟩
  | claim live hn hadm => exact .inl hx
  | sync hsync => exact .inl (hsync.alike.worklist ▸ hx)

theorem Fresh.steps (hf : Fresh w) (h : ReflTransGen (LoopStep budget) w w') : Fresh w' := by
  induction h with
  | refl => exact hf
  | tail _ hstep ih =>
    intro x hx
    refine (hstep.waits hx).elim (fun hx => ?_) id
    obtain ⟨hown, hdry⟩ := ih x hx
    obtain ⟨i, hi⟩ := Option.ne_none_iff_exists'.mp hown
    rw [hstep.owner_eq hi, hstep.inputs_eq hi]
    exact ⟨Option.some_ne_none i, hdry⟩

/-! ### Stocked regions -/

/-- The live-in registers of the block `c`, a member of the region `k` among `nodes`: they are
fewer than the budget, they are registers of members, the outputs of the block are among them, and
so are the outputs and the live-in registers of its predecessors, which are members as well. -/
structure Carries (budget : Nat) (g : FlowGraph) (nodes : List BlockId) (k : IntervalId)
    (c : BlockId) : Prop where
  few : (g.inputs c).size < budget
  held : ∀ r ∈ g.inputs c, ∃ m ∈ nodes, g.owner .block m = some k ∧ r ∈ g.regs .block m
  outputs : ∀ r ∈ g.regs .block c, r ∈ g.inputs c
  inside : ∀ p ∈ g.preds .block c, g.owner .block p = some k
  passed : ∀ p ∈ g.preds .block c, ∀ r, r ∈ g.regs .block p ∨ r ∈ g.inputs p → r ∈ g.inputs c

/-- The opener `e` of the region `k` has no live-in registers, and all other members carry what
they get from their predecessors. -/
structure Stocked (budget : Nat) (g : FlowGraph) (nodes : List BlockId) (e : BlockId)
    (k : IntervalId) : Prop where
  entry : g.inputs e = ∅
  carries : ∀ c ∈ nodes, g.owner .block c = some k → c ≠ e → Carries budget g nodes k c

/-- A region gets no fewer members, and those that it has keep their outputs and live-in
registers. -/
structure Keeping (k : IntervalId) (g : FlowGraph) (nodes : List BlockId) (g' : FlowGraph)
    (nodes' : List BlockId) : Prop where
  members : nodes ⊆ nodes'
  owner : ∀ x, g.owner .block x = some k → g'.owner .block x = some k
  regs : ∀ x, g.owner .block x = some k → g'.regs .block x = g.regs .block x
  inputs : ∀ x, g.owner .block x = some k → g'.inputs x = g.inputs x

theorem Carries.keeping (h : Carries budget g nodes k c) (hk : Keeping k g nodes g' nodes')
    (hown : g.owner .block c = some k) (hpreds : g'.preds .block c = g.preds .block c) :
    Carries budget g' nodes' k c := by
  refine ⟨?_, fun r hr => ?_, fun r hr => ?_, fun p hp => ?_, fun p hp r hr => ?_⟩
  · rw [hk.inputs c hown]
    exact h.few
  · rw [hk.inputs c hown] at hr
    obtain ⟨m, hm, hmk, hmr⟩ := h.held r hr
    exact ⟨m, hk.members hm, hk.owner m hmk, (hk.regs m hmk).symm ▸ hmr⟩
  · rw [hk.regs c hown] at hr
    rw [hk.inputs c hown]
    exact h.outputs r hr
  · exact hk.owner p (h.inside p (hpreds ▸ hp))
  · have hp : p ∈ g.preds .block c := hpreds ▸ hp
    rw [hk.regs p (h.inside p hp), hk.inputs p (h.inside p hp)] at hr
    rw [hk.inputs c hown]
    exact h.passed p hp r hr

/-- A region that rests stays stocked. -/
theorem Stocked.rests (h : Stocked budget w.graph w.members e k) (hr : Rests k w w')
    (hsteps : ReflTransGen (LoopStep budget) w w') (he : w.graph.owner .block e = some k) :
    Stocked budget w'.graph w'.members e k := by
  have hkeeping : Keeping k w.graph w.members w'.graph w'.members :=
    ⟨hr.members, fun x => (hr.owner x).mpr, hr.regs, fun _ => inputs_eq_of_steps hsteps⟩
  refine ⟨(hkeeping.inputs e he).trans h.entry, fun c hc hown hne => ?_⟩
  have hown := (hr.owner c).mp hown
  have hc := hr.mem c hc hown
  have hcarries := h.carries c hc hown hne
  exact hcarries.keeping hkeeping hown (hr.preds c hc (.inl hcarries.inside))

/-! ### A scan -/

namespace Upstream

theorem trans (h : Upstream g nodes i n r) (hreach : g.Reaches .block n c) :
    Upstream g nodes i c r := by
  obtain ⟨m, hm, ⟨hown, hpath⟩, hr⟩ := h
  exact ⟨m, hm, ⟨hown, ReflTransGen.trans hpath hreach⟩, hr⟩

theorem keeping (h : Upstream g nodes i n r) (hk : Keeping i g nodes g' nodes')
    (hpreds : g'.preds .block = g.preds .block) : Upstream g' nodes' i n r := by
  obtain ⟨m, hm, ⟨hown, hpath⟩, hr⟩ := h
  refine ⟨m, hk.members hm, ⟨hk.owner m hown, ?_⟩, (hk.regs m hown).symm ▸ hr⟩
  have hfeeds : g'.Feeds .block = g.Feeds .block := by
    funext a b
    rw [FlowGraph.Feeds, FlowGraph.Feeds, hpreds]
  rw [FlowGraph.Reaches, hfeeds]
  exact hpath

end Upstream

/-- While the region `i` is grown, it is stocked, and the live-in registers of its members come
from members upstream. -/
structure Filling (budget : Nat) (i : IntervalId) (e : BlockId) (w : Workspace) : Prop where
  owner : w.graph.owner .block e = some i
  stocked : Stocked budget w.graph w.members e i
  drawn : ∀ c ∈ w.members, w.graph.owner .block c = some i → ∀ r ∈ w.graph.inputs c,
    Upstream w.graph w.members i c r

/-- What a member that leads to a block has, is upstream of the block. -/
theorem Filling.upstream (h : Filling budget i e w) (hp : x ∈ w.graph.preds .block n)
    (hx : x ∈ w.members) (hown : w.graph.owner .block x = some i)
    (hr : r ∈ w.graph.regs .block x ∨ r ∈ w.graph.inputs x) :
    Upstream w.graph w.members i n r := by
  have hreach : w.graph.Reaches .block x n := ReflTransGen.single hp
  rcases hr with hr | hr
  · exact ⟨x, hx, ⟨hown, hreach⟩, hr⟩
  · exact (h.drawn x hx hown r hr).trans hreach

/-- A block that joins gets the registers that were found to be live on entry to it. -/
theorem Joins.inputs (h : Joins budget i n w w') (hs : Sound .block base (some i) w) :
    ∃ live, LiveIn budget i n w.members w.graph live ∧
      w'.graph.inputs = update w.graph.inputs n live := by
  obtain ⟨hn, _, live, b, w₁, hlive, hb, hset, hsync⟩ := h
  refine ⟨live, hlive, ?_⟩
  rw [hsync.inputs_eq, hset.inputs_eq hb]
  exact inputs_claim i (hs.lt_extent hn) live

section Scan

variable (hs : Sound .block base (some i) w) (ht : Tallied budget none w)

include hs ht

theorem Joins.keeping (hj : Joins budget i n w w') :
    Keeping i w.graph w.members w'.graph w'.members := by
  have hswells := hj.swells hs ht.exact
  refine ⟨hswells.members ▸ List.Subset.refl _, fun _ => hswells.owner_eq,
    fun x _ => congrFun hswells.regs x, fun x hx => ?_⟩
  obtain ⟨live, _, hinputs⟩ := hj.inputs hs
  rw [hinputs, update_of_ne (ne_of_owner hj.admitted.free hx)]

/-- The live-in registers of a block that has joined come from upstream. -/
theorem Joins.drawn (hj : Joins budget i n w w') :
    ∀ r ∈ w'.graph.inputs n, Upstream w'.graph w'.members i n r := by
  intro r hr
  have hswells := hj.swells hs ht.exact
  obtain ⟨live, hlive, hinputs⟩ := hj.inputs hs
  rw [hinputs, update_self] at hr
  rcases (hlive.mem_iff r).mp hr with hr | hr
  · refine ⟨n, hswells.members ▸ hj.mem, ⟨?_, .refl⟩, congrFun hswells.regs n ▸ hr⟩
    rw [hj.owner hs ht.exact, update_self]
  · exact hr.keeping (hj.keeping hs ht) hswells.preds

/-- A block that has joined carries what it gets from its predecessors. -/
theorem Joins.carries (hj : Joins budget i n w w') (h : Filling budget i e w) :
    Carries budget w'.graph w'.members i n := by
  have hswells := hj.swells hs ht.exact
  have hkeeping := hj.keeping hs ht
  have hpreds := congrFun hswells.preds n
  obtain ⟨live, hlive, hinputs⟩ := hj.inputs hs
  have hlive' : w'.graph.inputs n = live := by
    rw [hinputs, update_self]
  refine ⟨?_, fun r hr => ?_, fun r hr => ?_, fun p hp => ?_, fun p hp r hr => ?_⟩
  · rw [hlive']
    exact hlive.few
  · obtain ⟨m, hm, ⟨hmi, _⟩, hmr⟩ := hj.drawn hs ht r hr
    exact ⟨m, hm, hmi, hmr⟩
  · rw [hlive', hlive.mem_iff, ← hswells.regs]
    exact .inl hr
  · exact hkeeping.owner p (hj.admitted.preds p (hpreds ▸ hp))
  · rw [hpreds] at hp
    have hown := hj.admitted.preds p hp
    obtain ⟨opener, hu⟩ := hs.underway
    rw [hkeeping.regs p hown, hkeeping.inputs p hown] at hr
    rw [hlive', hlive.mem_iff]
    exact .inr (h.upstream hp (hu.exists_pred hj.mem hp).1 hown hr)

/-- A region is stocked when one more block has joined. -/
theorem Joins.filling (hj : Joins budget i n w w') (h : Filling budget i e w) :
    Filling budget i e w' := by
  have hswells := hj.swells hs ht.exact
  have hkeeping := hj.keeping hs ht
  have hcases : ∀ c, w'.graph.owner .block c = some i →
      c = n ∨ w.graph.owner .block c = some i := by
    intro c hown
    rcases hswells.owner c with heq | ⟨hc, _, _⟩
    · exact .inr (heq ▸ hown)
    · exact .inl (List.mem_singleton.mp hc)
  refine ⟨hkeeping.owner e h.owner, ⟨?_, fun c hc hown hne => ?_⟩, fun c hc hown r hr => ?_⟩
  · exact (hkeeping.inputs e h.owner).trans h.stocked.entry
  · rcases hcases c hown with rfl | hown
    · exact hj.carries hs ht h
    · have hcarries := h.stocked.carries c (hswells.members ▸ hc) hown hne
      exact hcarries.keeping hkeeping hown (congrFun hswells.preds c)
  · rcases hcases c hown with rfl | hown
    · exact hj.drawn hs ht r hr
    · rw [hkeeping.inputs c hown] at hr
      exact (h.drawn c (hswells.members ▸ hc) hown r hr).keeping hkeeping hswells.preds

/-- A scan keeps its region stocked. -/
theorem Scan.filling (hbudget : 0 < budget) (hscan : Scan budget i ns w w')
    (h : Filling budget i e w) : Filling budget i e w' := by
  induction hscan with
  | done => exact h
  | @decline n ns w w' marker _ _ ih =>
    have hmark : BlockMove budget (some i, w) (some i, { w with marker }) := .mark marker
    exact ih (hs.move hmark) (Sound.tallied_move hbudget hs ht hmark) ⟨h.owner, h.stocked, h.drawn⟩
  | @join n ns w w₁ w' marker hjoins _ ih =>
    have hmark : BlockMove budget (some i, w) (some i, { w with marker }) := .mark marker
    have hs₁ := hs.move hmark
    have ht₁ := Sound.tallied_move hbudget hs ht hmark
    exact ih (hs₁.move hjoins.move) (Sound.tallied_move hbudget hs₁ ht₁ hjoins.move)
      (hjoins.filling hs₁ ht₁ ⟨h.owner, h.stocked, h.drawn⟩)

end Scan

/-! ### The loop -/

/-- Between two visits, all regions that were visited are stocked. -/
structure Supplied (base budget : Nat) (w : Workspace) : Prop where
  seeded : Seeded .block w
  tallied : Tallied budget none w
  fresh : Fresh w
  stocked : ∃ opener, Underway .block base none opener w ∧ ∀ k ∈ w.opened,
    ¬ w.Busy .block none k → Stocked budget w.graph w.members (opener k) k

namespace Supplied

variable (h : Supplied base budget w) (hbudget : 0 < budget)

include h

theorem sound : Sound .block base none w := by
  obtain ⟨opener, hu, _⟩ := h.stocked
  exact ⟨⟨opener, hu⟩, h.seeded⟩

include hbudget

/-- The region of a visit is stocked when it has grown. -/
theorem stocked_turn (hwork : w.worklist = n :: rest) (hturn : BlockTurn budget n i w w₁ w₂ w') :
    Stocked budget w₂.graph w₂.members n i := by
  have hs := h.sound
  obtain ⟨hn, hown, halone⟩ := hs.alone_taken h.tallied hwork hturn
  -- The block was waiting, and is alone in its region when it has been taken.
  obtain ⟨hsome, hdry⟩ := h.fresh n (hwork ▸ List.mem_cons_self)
  obtain ⟨j, hj⟩ := Option.ne_none_iff_exists'.mp hsome
  have hentry : w₁.graph.inputs n = ∅ :=
    (inputs_eq_of_steps (hs.steps_of_move hturn.taken) hj).trans hdry
  have hstart : Filling budget i n w₁ := by
    refine ⟨hown, ⟨hentry, fun c hc hci hne => absurd (halone c hc hci) hne⟩, ?_⟩
    intro c hc hci r hr
    rw [halone c hc hci, hentry] at hr
    exact absurd hr (RegSet.not_mem_empty r)
  rcases hturn.grown with hscan | ⟨rfl, _⟩
  · have ht₁ := Sound.tallied_move hbudget hs h.tallied hturn.taken
    exact (hscan.filling (hs.move hturn.taken) ht₁ hbudget hstart).stocked
  · exact hstart.stocked

/-- A visit leaves its region stocked, and the regions that were visited before. -/
theorem turn (hwork : w.worklist = n :: rest) (hturn : BlockTurn budget n i w w₁ w₂ w') :
    Supplied base budget w' := by
  have hs := h.sound
  have hsteps := hs.steps hturn.moves
  obtain ⟨opener, hu, hstocked⟩ := h.stocked
  obtain ⟨opener', hu', hidle⟩ := hu.idle_turn hs h.tallied hwork hturn hbudget
  refine ⟨(hs.moves hturn.moves).seeded, hs.tallied_moves hbudget h.tallied hturn.moves,
    h.fresh.steps hsteps, opener', hu', fun k hk hnot => ?_⟩
  obtain ⟨hk, hsame, hleaves, hcases⟩ := hidle k hk hnot
  have howner := hu.grouped.owner_opener hk
  rw [hsame]
  rcases hcases with ⟨rfl, hopener⟩ | ⟨hbefore, hrests⟩
  · rw [hopener] at howner ⊢
    have howner₂ := owner_eq_of_steps (hs.steps (.head hturn.taken hturn.growth)) howner
    exact (h.stocked_turn hbudget hwork hturn).rests hleaves hturn.left.opens.steps howner₂
  · exact (hstocked k hk hbefore).rests hrests hsteps howner

end Supplied

/-! ### The pass -/

theorem release_all_eq {l : Level} {nodes : List Nat} (hexist : ∀ n ∈ nodes, n < w.graph.extent l) :
    nodes.forM (Pass.release l) w = .ok () { w with graph := w.graph.clear l nodes } := by
  induction nodes generalizing w with
  | nil => rfl
  | cons n nodes ih =>
    obtain ⟨_, _, hreleased, rfl⟩ := release_ends (hexist n List.mem_cons_self)
    refine (bind_of_eq_ok hreleased).trans (ih fun m hm => ?_)
    show m < (w.graph.assign l n none).extent l
    rw [FlowGraph.extent_assign]
    exact hexist m (List.mem_cons_of_mem n hm)

/-- When a pass starts, its blocks have no live-in registers. -/
theorem start_dries (hexist : ∀ n ∈ blocks, n < w.graph.extent .block)
    (hstart : Pass.start .block blocks w = .ok () w₁) : ∀ n ∈ blocks, w₁.graph.inputs n = ∅ := by
  intro n hn
  have hentered : Pass.start .block blocks w = blocks.forM (Pass.openEntry .block) { w with
      graph := w.graph.clear .block blocks, members := blocks, opened := [], worklist := [] } :=
    (bind_of_eq_ok rfl).trans (bind_of_eq_ok (release_all_eq hexist))
  rw [hentered] at hstart
  -- An interval that is opened takes live-in registers away and gives none.
  have hopens : ∀ m (u : Workspace), u.graph.inputs n = ∅ →
      (u.openGroup .block m).graph.inputs n = ∅ := by
    intro m u hu
    rw [inputs_openGroup]
    by_cases hnm : n = m
    · rw [hnm, update_self]
    · rw [update_of_ne hnm, hu]
  have hkeeps : Pass.KeepsGraph (·.inputs n = ∅) (blocks.forM (Pass.openEntry .block)) :=
    keeps_forM fun m => (Pass.keeps_query (P := (·.inputs n = ∅)) _).bind fun _ =>
      keeps_ite (keeps_modify (hopens m)) (keeps_pure ())
  exact (hkeeps _ (FlowGraph.inputs_clear hn)).of_eq_ok hstart

namespace FirstPass

variable (h : FirstPass budget blocks w w₁ w₂)

include h

/-- No region was visited when the loop starts, and all waiting blocks have just opened theirs. -/
theorem supplied_start (hexist : ∀ n ∈ blocks, n < w.graph.extent .block)
    (hexact : Exact w.graph blocks) : Supplied w.graph.intervals.size budget w₁ := by
  obtain ⟨w₀, hcleared, hopens⟩ := h.cleared
  obtain ⟨⟨opener, hu⟩, hseeded⟩ := h.sound
  have hfresh : Fresh w₀ := by
    intro n hn
    rw [hcleared.worklist] at hn
    exact absurd hn List.not_mem_nil
  have hsteps : ReflTransGen (LoopStep budget) w₀ w₁ := hopens.steps
  exact ⟨hseeded, h.tallied_start hexist hexact, hfresh.steps hsteps, opener, hu,
    fun k hk hidle => absurd (h.busy_start hk) hidle⟩

/-- All regions are stocked when the loop ends. -/
theorem stocked (hbudget : 0 < budget) (hexist : ∀ n ∈ blocks, n < w.graph.extent .block)
    (hexact : Exact w.graph blocks) : ∃ opener,
      Underway .block w.graph.intervals.size none opener w₂ ∧
        ∀ k ∈ w₂.opened, Stocked budget w₂.graph w₂.members (opener k) k := by
  have hend : Supplied w.graph.intervals.size budget w₂ := by
    refine (drain_induction (P := Supplied w.graph.intervals.size budget) ?_
      (h.supplied_start hexist hexact) h.looped).1
    intro n rest u u' hwork hu hvisit
    obtain ⟨_, _, _, hturn⟩ := (visitBlock_ends hu.sound hwork).of_eq_ok hvisit
    exact hu.turn hbudget hwork hturn
  obtain ⟨opener, hu, hstocked⟩ := hend.stocked
  exact ⟨opener, hu, fun k hk => hstocked k hk (h.not_busy_end k)⟩

/-- Blocks that have no interval when the loop ends have no live-in registers either. -/
theorem inputs_free (hbudget : 0 < budget) (hnodup : blocks.Nodup) (hexact : Exact w.graph blocks)
    (hv : w.graph.verify blocks = .ok ()) (hc : c ∈ w₂.members)
    (hfree : w₂.graph.owner .block c = none) : w₂.graph.inputs c = ∅ := by
  obtain ⟨htracked, _⟩ := h.gathered hbudget hv hnodup hexact
  have hdry := start_dries (FlowGraph.verify_eq_ok hv).1 h.started c (htracked.free c hc hfree)
  exact dry_of_steps (h.sound.steps h.moves) hdry hfree

end FirstPass

/-! ### Runs -/

/-- If a run over blocks that have the registers of their instructions returns intervals, blocks
without an interval and blocks that opened one have no live-in registers. Those of all other blocks
are fewer than the budget and registers of the interval, and the outputs of the block are among
them, and with the outputs of each predecessor its live-in registers as well. -/
theorem liveIns_carry {p : BlockGrouper} {state : LoggedGraph} {ig : IntervalGraph}
    (hnodup : blocks.Nodup) (hexact : Exact state.graph blocks)
    (hrun : (p.run blocks state).result = .ok ig) :
    let g := (p.run blocks state).state.graph
    (∀ c ∈ ig.blocks, g.owner .block c = none → g.inputs c = ∅) ∧
    ∀ i ∈ ig.intervals, ∃ e, (∀ n, p.Opens blocks state i n ↔ n = e) ∧ g.inputs e = ∅ ∧
      ∀ c ∈ ig.blocks, g.owner .block c = some i → c ≠ e →
        (∀ r ∈ g.regs .block c, r ∈ g.inputs c) ∧ (∀ r ∈ g.inputs c, r ∈ g.regs .interval i) ∧
        (g.inputs c).size < p.budget ∧ ∀ q ∈ g.preds .block c,
          (∀ r ∈ g.regs .block q, r ∈ g.inputs c) ∧ ∀ r ∈ g.inputs q, r ∈ g.inputs c := by
  obtain ⟨hbudget, hv⟩ := verify_of_run_eq_ok hrun
  have hexist := (FlowGraph.verify_eq_ok hv).1
  have hbudget := Nat.pos_of_ne_zero hbudget
  obtain ⟨w₁, w₂, hpass, hblocks, hintervals, hsame, opener, hend⟩ := run_eq_ok hnodup hrun
  have hopens : ∀ i ∈ ig.intervals, ∀ n, p.Opens blocks state i n ↔ n = opener i :=
    fun _ hi _ => BlockGrouper.opens_iff hnodup hrun hend hi
  obtain ⟨opener', hu, hstocked⟩ := hpass.stocked hbudget hexist hexact
  intro g
  -- Blocks are as they were at the end of the loop.
  have hinputs : g.inputs = w₂.graph.inputs := FlowGraph.inputs_congr hsame
  have hregs : g.regs .block = w₂.graph.regs .block := FlowGraph.see_block_congr hsame
  have hpreds : g.preds .block = w₂.graph.preds .block := FlowGraph.see_block_congr hsame
  have howner : g.owner .block = w₂.graph.owner .block := FlowGraph.see_block_congr hsame
  have hgrouped : Grouped (g.net .block ig.blocks) (g.owner .block) opener' ig.intervals := by
    rw [FlowGraph.net_block_congr hsame, hblocks, howner, hintervals]
    exact hu.grouped
  refine ⟨fun c hc hfree => ?_, fun i hi => ⟨opener i, hopens i hi, ?_⟩⟩
  · rw [hinputs]
    exact hpass.inputs_free hbudget hnodup hexact hv (hblocks ▸ hc) (howner ▸ hfree)
  have hkeeping : Keeping i w₂.graph w₂.members g ig.blocks :=
    ⟨hblocks ▸ List.Subset.refl _, fun _ => howner ▸ id, fun x _ => congrFun hregs x,
      fun x _ => congrFun hinputs x⟩
  have hstock := hstocked i (hintervals ▸ hi)
  rw [← hgrouped.opener_unique hend.grouped hend.closed hi, hinputs]
  refine ⟨hstock.entry, fun c hc hown hne => ?_⟩
  have hown₂ : w₂.graph.owner .block c = some i := howner ▸ hown
  have hcarries := (hstock.carries c (hblocks ▸ hc) hown₂ hne).keeping hkeeping hown₂
    (congrFun hpreds c)
  rw [← hinputs]
  refine ⟨hcarries.outputs, fun r hr => (hend.regs i hi r).mpr (hcarries.held r hr), hcarries.few,
    fun q hq => ⟨fun r hr => ?_, fun r hr => ?_⟩⟩
  · exact hcarries.passed q hq r (.inl hr)
  · exact hcarries.passed q hq r (.inr hr)

/-- At a budget of 8 registers all blocks join the first one, and carry its registers. -/
theorem liveIns_carry_carvedRow :
    let run := BlockGrouper.run ⟨8, {}⟩ [0, 1, 2] carvedRow
    let g := run.state.graph
    [0, 1, 2].Nodup ∧ Exact carvedRow.graph [0, 1, 2] ∧ run.result = .ok ⟨[0, 1, 2], [0]⟩ ∧
    g.owner .block 1 = some 0 ∧ (g.inputs 1).size = 4 ∧
    (∀ c ∈ [0, 1, 2], g.owner .block c = none → g.inputs c = ∅) ∧
    ∀ i ∈ [0], ∃ e, (∀ n, BlockGrouper.Opens ⟨8, {}⟩ [0, 1, 2] carvedRow i n ↔ n = e) ∧
      g.inputs e = ∅ ∧ ∀ c ∈ [0, 1, 2], g.owner .block c = some i → c ≠ e →
        (∀ r ∈ g.regs .block c, r ∈ g.inputs c) ∧ (∀ r ∈ g.inputs c, r ∈ g.regs .interval i) ∧
        (g.inputs c).size < 8 ∧ ∀ q ∈ g.preds .block c,
          (∀ r ∈ g.regs .block q, r ∈ g.inputs c) ∧ ∀ r ∈ g.inputs q, r ∈ g.inputs c := by
  intro run g
  have hrun : run.result = .ok ⟨[0, 1, 2], [0]⟩ := by decide +kernel
  exact ⟨by decide, exact_carvedRow, hrun, by decide +kernel, by decide +kernel,
    liveIns_carry (by decide) exact_carvedRow hrun⟩

end KernelIntervals
