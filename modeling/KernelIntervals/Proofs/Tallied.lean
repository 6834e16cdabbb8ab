/-
The registers of the intervals while the first pass runs.

* `Held` — an interval has the registers of its members, and they stay below the
  budget unless a member has an instruction that alone reaches it,
* `Tallied` — blocks have the registers of their instructions, and all intervals are
  held but those still to be visited,
* `Sound.tallied_moves` — the loop of a pass keeps this.

Design notes: a block that joins has fewer registers than the budget, so it is not
split any more, and the interval has room for all of it.
-/
import KernelIntervals.Proofs.BlockMoves
import KernelIntervals.Proofs.SplitPoints

namespace KernelIntervals

open Function Relation

/-- An interval has the registers of its members, and not too many of them. -/
structure Held (budget : Nat) (w : Workspace) (i : IntervalId) : Prop where
  regs : ∀ r, r ∈ w.graph.regs .interval i ↔
    ∃ m ∈ w.members, w.graph.owner .block m = some i ∧ r ∈ w.graph.regs .block m
  bound : (w.graph.regs .interval i).size < budget ∨
    ∃ m ∈ w.members, w.graph.owner .block m = some i ∧
      ∃ x ∈ w.graph.insts .block m, budget ≤ x.width

/-- Blocks have the registers of their instructions, and intervals are held once they
were visited, apart from `busy`. -/
structure Tallied (budget : Nat) (busy : Option IntervalId) (w : Workspace) : Prop where
  exact : ∀ n ∈ w.members, w.graph.regs .block n = instRegs (w.graph.insts .block n)
  held : ∀ i ∈ w.opened, busy ≠ some i → (∀ m ∈ w.worklist, w.graph.owner .block m ≠ some i) →
    Held budget w i

variable {base budget : Nat} {busy : Option IntervalId} {opener : IntervalId → Nat}
  {w w' : Workspace} {m m' : Moment} {n : BlockId} {i j : IntervalId} {b : Block}
  {current : Option IntervalId} {place : Nat} {name : String} {g' : FlowGraph}

/-- What is held depends on the interval and its members only. -/
theorem Held.congr (h : Held budget w i)
    (hregs : w'.graph.regs .interval i = w.graph.regs .interval i)
    (hmem : ∀ m, m ∈ w'.members ∧ w'.graph.owner .block m = some i ↔
      m ∈ w.members ∧ w.graph.owner .block m = some i)
    (hsame : ∀ m ∈ w.members, w.graph.owner .block m = some i →
      w'.graph.regs .block m = w.graph.regs .block m ∧
        w'.graph.insts .block m = w.graph.insts .block m) : Held budget w' i := by
  constructor
  · intro r
    rw [hregs, h.regs]
    constructor
    · rintro ⟨m, hm, hown, hr⟩
      obtain ⟨hm', hown'⟩ := (hmem m).mpr ⟨hm, hown⟩
      exact ⟨m, hm', hown', (hsame m hm hown).1 ▸ hr⟩
    · rintro ⟨m, hm', hown', hr⟩
      obtain ⟨hm, hown⟩ := (hmem m).mp ⟨hm', hown'⟩
      exact ⟨m, hm, hown, (hsame m hm hown).1 ▸ hr⟩
  · rw [hregs]
    refine h.bound.imp_right ?_
    rintro ⟨m, hm, hown, x, hx, hwide⟩
    obtain ⟨hm', hown'⟩ := (hmem m).mpr ⟨hm, hown⟩
    exact ⟨m, hm', hown', x, (hsame m hm hown).2 ▸ hx, hwide⟩

/-! ### The steps of a pass -/

theorem Tallied.openGroup (h : Tallied budget busy w) (hn : n < w.graph.extent .block)
    (hfree : w.graph.owner .block n = none) (hopened : ∀ i ∈ w.opened, i < w.graph.intervals.size) :
    Tallied budget busy (w.openGroup .block n) := by
  have howner := owner_openGroup hn
  have hbodies := sameBodies_openGroup w .block n
  constructor
  · rw [hbodies.regs, hbodies.insts]
    exact h.exact
  · intro i hi hbusy hidle
    rcases List.mem_append.mp hi with hi | hi
    · have hne : w.graph.intervals.size ≠ i := (Nat.ne_of_lt (hopened i hi)).symm
      have hiff : ∀ m, (w.openGroup .block n).graph.owner .block m = some i ↔
          w.graph.owner .block m = some i := by
        intro m
        rw [howner]
        exact owner_update_iff hfree hne
      refine (h.held i hi hbusy fun m hm hown => ?_).congr ?_ ?_ ?_
      · exact hidle m (List.mem_append_left _ hm) ((hiff m).mpr hown)
      · rw [hbodies.regs]
      · exact fun m => and_congr_right fun _ => hiff m
      · intro m _ _
        rw [hbodies.regs, hbodies.insts]
        exact ⟨rfl, rfl⟩
    · refine absurd ?_ (hidle n (List.mem_append_right _ (List.mem_singleton_self n)))
      rw [howner, update_self, List.mem_singleton.mp hi]

theorem Tallied.opens (h : Tallied budget busy w)
    (hopened : ∀ i ∈ w.opened, i < w.graph.intervals.size) (ho : Opens .block w w') :
    Tallied budget busy w' := by
  induction ho with
  | refl => exact h
  | tail hpath hstep ih =>
    obtain ⟨n, hn, hlt, hfree, _, rfl⟩ := hstep
    exact ih.openGroup hlt hfree (Opens.opened_lt hpath hopened)

/-- A visit begins. -/
theorem Tallied.pop {rest : List BlockId} (h : Tallied budget none w)
    (hwork : w.worklist = n :: rest) (hown : w.graph.owner .block n = some i) :
    Tallied budget (some i) { w with worklist := rest } := by
  refine ⟨h.exact, fun j hj hbusy hidle => ?_⟩
  have hheld : Held budget w j := by
    refine h.held j hj (Option.some_ne_none j).symm fun m hm hmj => ?_
    rw [hwork] at hm
    rcases List.mem_cons.mp hm with rfl | hm
    · exact hbusy (hown.symm.trans hmj)
    · exact hidle m hm hmj
  exact ⟨hheld.regs, hheld.bound⟩

/-- A block is claimed for the interval that is visited. -/
theorem Tallied.claim (live : RegSet) (h : Tallied budget none w) (hn : n < w.graph.extent .block)
    (hfree : w.graph.owner .block n = none) :
    Tallied budget (some i) (w.claim i n live) := by
  have hbodies := sameBodies_claim w i n live
  constructor
  · rw [hbodies.regs, hbodies.insts]
    exact h.exact
  · intro j hj hbusy hidle
    have hne : i ≠ j := fun hij => hbusy (congrArg some hij)
    have hiff : ∀ m, (w.claim i n live).graph.owner .block m = some j ↔
        w.graph.owner .block m = some j := by
      intro m
      rw [owner_claim live hn]
      exact owner_update_iff hfree hne
    refine (h.held j hj (Option.some_ne_none j).symm fun m hm hown => ?_).congr ?_ ?_ ?_
    · exact hidle m hm ((hiff m).mpr hown)
    · rw [hbodies.regs]
    · exact fun m => and_congr_right fun _ => hiff m
    · intro m _ _
      rw [hbodies.regs, hbodies.insts]
      exact ⟨rfl, rfl⟩

/-- A block that is whole has all its registers as outputs. -/
theorem regs_whole (hb : w.graph.block? n = some b) (regs : RegSet) :
    (w.graph.modifyBlock n ({ · with outputs := regs })).regs .block n = regs := by
  rw [FlowGraph.regs, FlowGraph.see_block, FlowGraph.block?_modifyBlock, if_pos rfl, hb]
  rfl

theorem insts_whole (g : FlowGraph) (n : BlockId) (regs : RegSet) :
    (g.modifyBlock n ({ · with outputs := regs })).insts .block = g.insts .block :=
  FlowGraph.see_modifyBlock fun _ => rfl

/-- A block of another interval is none of the interval that is visited. -/
theorem ne_of_owner_ne {owner : BlockId → Option IntervalId} {m : BlockId}
    (hown : owner n = some i) (hne : some i ≠ some j) (hm : owner m = some j) : m ≠ n := by
  rintro rfl
  exact hne (hown.symm.trans hm)

/-- A block of the interval that is visited gets its outputs. -/
theorem Tallied.whole (h : Tallied budget (some i) w) (hb : w.graph.block? n = some b)
    (hown : w.graph.owner .block n = some i) (hpoint : (splitPoint budget b.insts).1 = none) :
    Tallied budget (some i) { w with
      graph := w.graph.modifyBlock n ({ · with outputs := (splitPoint budget b.insts).2 }) } := by
  have hinsts : w.graph.insts .block n = b.insts := FlowGraph.see_of_block? hb _ _
  have howner := (alike_whole w n (splitPoint budget b.insts).2).owner
  have hall := splitPoint_regs budget b.insts
  rw [hpoint] at hall
  constructor
  · intro m hm
    show (w.graph.modifyBlock n _).regs .block m =
      instRegs ((w.graph.modifyBlock n _).insts .block m)
    rw [insts_whole]
    by_cases hmn : m = n
    · rw [hmn, regs_whole hb, hall, hinsts]
    · rw [FlowGraph.regs, FlowGraph.see_modifyBlock_of_ne (Ne.symm hmn)]
      exact h.exact m hm
  · intro j hj hbusy hidle
    rw [howner] at hidle
    refine (h.held j hj hbusy hidle).congr rfl (fun m => ?_) fun m _ hm => ?_
    · rw [howner]
    · have hnm : n ≠ m := (ne_of_owner_ne hown hbusy hm).symm
      exact ⟨FlowGraph.see_modifyBlock_of_ne hnm, FlowGraph.see_modifyBlock_of_ne hnm⟩

/-- A block of the interval that is visited is cut. -/
theorem Tallied.severed (log : Log) (h : Tallied budget (some i) w)
    (hb : w.graph.block? n = some b) (hown : w.graph.owner .block n = some i)
    (hpoint : (splitPoint budget b.insts).1 = some place)
    (hg : Severed w.graph n b place (splitPoint budget b.insts).2 name g') :
    Tallied budget (some i)
      { w with graph := g', log, members := w.members ++ [w.graph.blocks.size] } := by
  have howner := hg.owner hb
  have hall := splitPoint_regs budget b.insts
  rw [hpoint] at hall
  constructor
  · intro m hm
    show g'.regs .block m = instRegs (g'.insts .block m)
    by_cases hmt : m = w.graph.blocks.size
    · rw [hmt, hg.regs_tail]
    · by_cases hmn : m = n
      · rw [hmn, hg.regs_head, hg.insts_head, hall]
      · rw [hg.regs_of_ne hmn hmt, hg.insts_of_ne hmn hmt]
        exact h.exact m (Net.mem_of_ne_last hm hmt)
  · intro j hj hbusy hidle
    have hidle' : ∀ m ∈ w.worklist, w.graph.owner .block m ≠ some j := by
      rw [← howner]
      exact hidle
    have hne : ∀ m, w.graph.owner .block m = some j → m ≠ w.graph.blocks.size :=
      fun m hm => ne_of_owner Underway.owner_size hm
    refine (h.held j hj hbusy hidle').congr ?_ ?_ ?_
    · exact congrFun (hg.see_interval _ _) j
    · intro m
      show m ∈ w.members ++ [w.graph.blocks.size] ∧ g'.owner .block m = some j ↔ _
      rw [howner]
      refine and_congr_left fun hm => ⟨fun h => ?_, List.mem_append_left _⟩
      exact Net.mem_of_ne_last h (hne m hm)
    · intro m _ hm
      have hmn : m ≠ n := ne_of_owner_ne hown hbusy hm
      exact ⟨hg.regs_of_ne hmn (hne m hm), hg.insts_of_ne hmn (hne m hm)⟩

/-- A block of the interval that is visited is settled. -/
theorem Tallied.settled (h : Tallied budget (some i) w)
    (hu : Underway .block base (some i) opener w) (hb : w.graph.block? n = some b)
    (hown : w.graph.owner .block n = some i) (hset : Settled budget n b w w') :
    Tallied budget (some i) w' := by
  cases hset with
  | whole hpoint => exact h.whole hb hown hpoint
  | @parted place name g' log hpoint hg =>
    refine (h.severed log hb hown hpoint hg).openGroup hg.size_lt hg.owner_tail fun j hj => ?_
    show j < g'.intervals.size
    rw [hg.intervals]
    exact (hu.opened_range j hj).2

theorem regs_synced {l : Level} (h : Synced l i w w') {j : IntervalId} (hj : i ≠ j) :
    w'.graph.regs .interval j = w.graph.regs .interval j := by
  obtain ⟨regs, _, rfl⟩ := h
  exact FlowGraph.see_modifyInterval_of_ne hj

/-- The registers of the interval that is visited are found, and there are not too
many. -/
theorem Tallied.synced (h : Tallied budget (some i) w) (hi : i < w.graph.intervals.size)
    (hsync : Synced .block i w w')
    (hbound : ∀ regs : RegSet, (∀ r ∈ regs, ∃ m ∈ w.members, w.graph.owner .block m = some i ∧
        r ∈ w.graph.regs .block m) → regs.size < budget ∨ ∃ m ∈ w.members,
      w.graph.owner .block m = some i ∧ ∃ x ∈ w.graph.insts .block m, budget ≤ x.width) :
    Tallied budget none w' := by
  have hother := fun j => regs_synced hsync (j := j)
  obtain ⟨regs, hmem, rfl⟩ := hsync
  refine ⟨h.exact, fun j hj _ hidle => ?_⟩
  by_cases hij : i = j
  · subst hij
    have hregs : (w.graph.modifyInterval i ({ · with regs })).regs .interval i = regs := by
      obtain ⟨v, hv⟩ : ∃ v, w.graph.interval? i = some v := Arena.exists_get? hi
      rw [FlowGraph.regs, FlowGraph.see, FlowGraph.node?, FlowGraph.interval?_modifyInterval,
        if_pos rfl, hv]
      rfl
    refine ⟨fun r => ?_, ?_⟩
    · show r ∈ (w.graph.modifyInterval i ({ · with regs })).regs .interval i ↔ _
      rw [hregs]
      exact hmem r
    · show ((w.graph.modifyInterval i ({ · with regs })).regs .interval i).size < budget ∨ _
      rw [hregs]
      exact hbound regs fun r hr => (hmem r).mp hr
  · have hbusy : some i ≠ some j := fun he => hij (Option.some.inj he)
    have hheld := h.held j hj hbusy hidle
    exact hheld.congr (hother j hij) (fun _ => Iff.rfl) fun _ _ _ => ⟨rfl, rfl⟩

/-! ### How many registers an interval has -/

/-- The registers and the first instruction of a block that was settled. -/
theorem Settled.regs_and_head (h : Settled budget n b w w') (hb : w.graph.block? n = some b) :
    w'.graph.regs .block n = (splitPoint budget b.insts).2 ∧
      ∀ x rest, b.insts = x :: rest → x ∈ w'.graph.insts .block n := by
  cases h with
  | whole hpoint =>
    refine ⟨regs_whole hb _, fun x rest hx => ?_⟩
    show x ∈ (w.graph.modifyBlock n _).insts .block n
    rw [insts_whole, FlowGraph.insts, FlowGraph.see_of_block? hb]
    show x ∈ b.insts
    rw [hx]
    exact List.mem_cons_self
  | @parted place name g' log hpoint hg =>
    have hbodies := sameBodies_openGroup
      { w with graph := g', log, members := w.members ++ [w.graph.blocks.size] } .block
      w.graph.blocks.size
    refine ⟨?_, fun x rest hx => ?_⟩
    · rw [hbodies.regs]
      exact hg.regs_head
    · rw [hbodies.insts]
      show x ∈ g'.insts .block n
      obtain ⟨k, rfl⟩ : ∃ k, place = k + 1 :=
        ⟨place - 1, (Nat.succ_pred (Nat.pos_iff_ne_zero.mp
          (splitPoint_bounds (Prod.ext hpoint rfl)).1)).symm⟩
      rw [hg.insts_head, hx, List.take_succ_cons]
      exact List.mem_cons_self

/-- Settling keeps owners. -/
theorem Settled.owner_eq (h : Settled budget n b w w') (hb : w.graph.block? n = some b)
    {x : BlockId} (hown : w.graph.owner .block x = some i) :
    w'.graph.owner .block x = some i := by
  cases h with
  | whole hpoint =>
    have howner := (alike_whole w n (splitPoint budget b.insts).2).owner
    exact howner ▸ hown
  | @parted place name g' log hpoint hg =>
    rw [owner_openGroup (w := { w with graph := g', log, members := w.members ++
      [w.graph.blocks.size] }) hg.size_lt]
    exact owner_update hg.owner_tail (hg.owner hb ▸ hown)

/-- Settling gives the interval of a block no new members. -/
theorem Settled.mem_of_owner (h : Settled budget n b w w') (hb : w.graph.block? n = some b)
    (hi : i < w.graph.intervals.size) {x : BlockId} (hx : x ∈ w'.members)
    (hown : w'.graph.owner .block x = some i) :
    x ∈ w.members ∧ w.graph.owner .block x = some i := by
  cases h with
  | whole hpoint =>
    have howner := (alike_whole w n (splitPoint budget b.insts).2).owner
    exact ⟨hx, howner ▸ hown⟩
  | @parted place name g' log hpoint hg =>
    rw [owner_openGroup (w := { w with graph := g', log, members := w.members ++
      [w.graph.blocks.size] }) hg.size_lt] at hown
    by_cases hxt : x = w.graph.blocks.size
    · rw [hxt, update_self] at hown
      have hnew : g'.intervals.size = i := Option.some.inj hown
      rw [hg.intervals] at hnew
      exact absurd hi (Nat.not_lt.mpr (Nat.le_of_eq hnew))
    · rw [update_of_ne hxt] at hown
      exact ⟨Net.mem_of_ne_last hx hxt, hg.owner hb ▸ hown⟩

/-- Taking a block: its interval has the registers of the block, which stay below the
budget unless the first instruction alone reaches it. -/
theorem Sound.tallied_take (hbudget : 0 < budget) {w₁ w₂ : Workspace} {rest : List BlockId}
    (hs : Sound .block base none w) (ht : Tallied budget none w) (hwork : w.worklist = n :: rest)
    (hown : w.graph.owner .block n = some i) (hb : w.graph.block? n = some b)
    (hset : Settled budget n b { w with worklist := rest } w₁)
    (hsync : Synced .block i w₁ w₂) : Tallied budget none w₂ := by
  obtain ⟨j, hn, hj, halone, hsound⟩ := hs.pop hwork
  have hij : j = i := Option.some.inj (hj.symm.trans hown)
  subst hij
  obtain ⟨⟨opener, hu⟩, _⟩ := id hsound
  have ht₁ := (ht.pop hwork hown).settled hu hb hown hset
  have hlt := (hsound.settled_opener hb hn hown halone hset).lt_size
  refine ht₁.synced hlt hsync fun regs hregs => ?_
  obtain ⟨houtputs, hfirst⟩ := hset.regs_and_head hb
  -- The block is alone in its interval.
  rcases splitPoint_size hbudget b.insts with hsize | ⟨x, tail, hx, hwide⟩
  · refine .inl (Nat.lt_of_le_of_lt (RegSet.size_le fun r hr => ?_) hsize)
    obtain ⟨m, hm, hmj, hmr⟩ := hregs r hr
    obtain ⟨hm, hmj⟩ := hset.mem_of_owner hb hsound.lt_size hm hmj
    rw [← houtputs, ← halone m hm hmj]
    exact hmr
  · exact .inr ⟨n, hset.mem_members hn, hset.owner_eq hb hown, x, hfirst x tail hx, hwide⟩

/-- The interval that is visited holds the registers of its members. -/
theorem Sound.held (hs : Sound .block base (some i) w) (ht : Tallied budget none w) :
    Held budget w i := by
  obtain ⟨⟨opener, hu⟩, _⟩ := hs
  obtain ⟨hi, hidle⟩ := hu.idle i rfl
  exact ht.held i hi (Option.some_ne_none i).symm hidle

/-- An interval that a block may join has room for all its instructions. -/
theorem Admitted.room_insts {insts : List Inst} (h : Admitted budget i n w.graph)
    (hexact : w.graph.regs .block n = instRegs insts) : (instRegs insts).size < budget := by
  refine Nat.lt_of_le_of_lt (RegSet.size_le fun r hr => ?_) h.room
  exact RegSet.mem_union.mpr (.inr (hexact ▸ hr))

/-- A block that has room in an interval joins it whole, so all registers of members are
registers of the interval before or of the block. -/
theorem Held.mem_regs_of_joined {w₁ : Workspace} {live : RegSet} {r : Reg}
    (h : Held budget w i) (hexact : w.graph.regs .block n = instRegs b.insts)
    (hlt : n < w.graph.extent .block) (hb : (w.claim i n live).graph.block? n = some b)
    (hroom : (instRegs b.insts).size < budget)
    (hset : Settled budget n b (w.claim i n live) w₁) {m : BlockId} (hm : m ∈ w₁.members)
    (hmi : w₁.graph.owner .block m = some i) (hr : r ∈ w₁.graph.regs .block m) :
    r ∈ w.graph.regs .interval i ∨ r ∈ w.graph.regs .block n := by
  cases hset with
  | whole hpoint =>
    have hall := splitPoint_regs budget b.insts
    rw [hpoint] at hall
    by_cases hmn : m = n
    · subst hmn
      have hregs := regs_whole hb (splitPoint budget b.insts).2
      rw [hexact, ← hall, ← hregs]
      exact .inr hr
    · have howner := (alike_whole (w.claim i n live) n (splitPoint budget b.insts).2).owner
      have hregs : ((w.claim i n live).graph.modifyBlock n
          ({ · with outputs := (splitPoint budget b.insts).2 })).regs .block m =
          (w.claim i n live).graph.regs .block m :=
        FlowGraph.see_modifyBlock_of_ne (Ne.symm hmn)
      have hr' : r ∈ w.graph.regs .block m := by
        rw [← (sameBodies_claim w i n live).regs, ← hregs]
        exact hr
      have hmi' : w.graph.owner .block m = some i := by
        have hclaim : (w.claim i n live).graph.owner .block m = some i := howner ▸ hmi
        rwa [owner_claim live hlt, update_of_ne hmn] at hclaim
      exact .inl ((h.regs r).mpr ⟨m, hm, hmi', hr'⟩)
  | parted hpoint hg =>
    rw [splitPoint_eq_none hroom] at hpoint
    injection hpoint

/-- Joining: the interval has room for the registers of the block. -/
theorem Sound.tallied_join {w₁ w₂ : Workspace} {live : RegSet}
    (hs : Sound .block base (some i) w) (ht : Tallied budget none w) (hn : n ∈ w.members)
    (hadm : Admitted budget i n w.graph) (hb : (w.claim i n live).graph.block? n = some b)
    (hset : Settled budget n b (w.claim i n live) w₁) (hsync : Synced .block i w₁ w₂) :
    Tallied budget none w₂ := by
  obtain ⟨⟨opener, hclaim⟩, _⟩ := hs.claim live hn hadm
  have hlt : n < w.graph.extent .block := hs.lt_extent hn
  have hown : (w.claim i n live).graph.owner .block n = some i := by
    rw [owner_claim live hlt, update_self]
  have hexact : w.graph.regs .block n = instRegs b.insts := by
    rw [ht.exact n hn, ← (sameBodies_claim w i n live).insts]
    exact congrArg instRegs (FlowGraph.see_of_block? hb _ _)
  have hheld := hs.held ht
  -- What was admitted has room for all registers of the block, so there is no split.
  have hroom := hadm.room_insts hexact
  have ht₁ := (ht.claim (i := i) live hlt hadm.free).settled hclaim hb hown hset
  have hsize : i < w₁.graph.intervals.size :=
    (hs.settled_joined hn hadm.free hadm.preds (alike_claim ..) hb hset).lt_size
  refine ht₁.synced hsize hsync fun regs hregs => .inl ?_
  refine Nat.lt_of_le_of_lt (RegSet.size_le fun r hr => ?_) hadm.room
  obtain ⟨m, hm, hmi, hmr⟩ := hregs r hr
  exact RegSet.mem_union.mpr (hheld.mem_regs_of_joined hexact hlt hb hroom hset hm hmi hmr)

/-- Every move keeps the registers tallied. -/
theorem Sound.tallied_move (hbudget : 0 < budget) (hs : Sound .block base m.1 m.2)
    (ht : Tallied budget none m.2) (hm : BlockMove budget m m') : Tallied budget none m'.2 := by
  cases hm with
  | take hwork hown hb hset hsync => exact hs.tallied_take hbudget ht hwork hown hb hset hsync
  | mark marker => exact ⟨ht.exact, fun j hj hbusy hidle =>
      have hheld := ht.held j hj hbusy hidle
      ⟨hheld.regs, hheld.bound⟩⟩
  | join hn hadm _ hb hset hsync => exact hs.tallied_join ht hn hadm hb hset hsync
  | leave hopens hdone =>
    obtain ⟨⟨opener, hu⟩, _⟩ := hs
    exact ht.opens (fun i hi => (hu.opened_range i hi).2) hopens

/-- The loop of a pass keeps the registers tallied. -/
theorem Sound.tallied_moves (hbudget : 0 < budget) (hs : Sound .block base m.1 m.2)
    (ht : Tallied budget none m.2) (hm : ReflTransGen (BlockMove budget) m m') :
    Tallied budget none m'.2 := by
  induction hm with
  | refl => exact ht
  | tail hpath hstep ih => exact Sound.tallied_move hbudget (hs.moves hpath) ih hstep

end KernelIntervals
