/-
Visits of blocks that have the registers of their instructions.

* `Steady` — nothing is different but the registers of one interval, marks and the log,
* `Crowded`, `Halved` — a block was cut, and its registers leave no room for the first
  instruction of the tail, which opened a region,
* `Sound.take_cases` — a block that is taken stays as it was or is halved,
* `Joins.steady` — a block that joins stays as it was,
* `Swells`, `Sound.swells` — so a scan gives its region new blocks, and changes no other
  thing.

Design notes: a block that may join fits as a whole, so it is cut neither then nor, as it
never waits, later. Only the blocks that open a region are ever cut.
-/
import KernelIntervals.Proofs.Tallied

namespace KernelIntervals

open Function Relation

variable {base budget : Nat} {w w₁ w₂ w' : Workspace} {n t : BlockId} {i j : IntervalId}
  {b : Block} {opener : IntervalId → Nat} {ns : List BlockId}

/-! ### Nothing is different -/

/-- Two workspaces that differ in the registers of the interval `i`, marks and log only. -/
structure Steady (i : IntervalId) (w w' : Workspace) : Prop where
  alike : Alike .block w w'
  insts : w'.graph.insts .block = w.graph.insts .block
  regs : w'.graph.regs .block = w.graph.regs .block
  others : ∀ k, k ≠ i → w'.graph.regs .interval k = w.graph.regs .interval k

theorem Steady.trans (h : Steady i w w₁) (h' : Steady i w₁ w') : Steady i w w' where
  alike := h.alike.trans h'.alike
  insts := h'.insts.trans h.insts
  regs := h'.regs.trans h.regs
  others := fun k hk => (h'.others k hk).trans (h.others k hk)

theorem steady_marker (w : Workspace) (i : IntervalId) (marker : Marker) :
    Steady i w { w with marker } := ⟨alike_marker .block w marker, rfl, rfl, fun _ _ => rfl⟩

theorem Synced.steady (h : Synced .block i w w') : Steady i w w' := by
  refine ⟨h.alike, ?_, ?_, fun k hk => regs_synced h (Ne.symm hk)⟩
  · obtain ⟨regs, _, rfl⟩ := h
    rfl
  · obtain ⟨regs, _, rfl⟩ := h
    rfl

theorem steady_claim (w : Workspace) (i : IntervalId) (n : BlockId) (live : RegSet) :
    Steady i (w.assign .block n i) (w.claim i n live) := by
  have hbodies := sameBodies_claim w i n live
  have hassign := sameBodies_assign w.graph .block n (some i)
  refine ⟨alike_claim w i n live, ?_, ?_, fun k _ => ?_⟩
  · rw [hbodies.insts]
    exact (congrFun hassign.insts .block).symm
  · rw [hbodies.regs]
    exact (congrFun hassign.regs .block).symm
  · rw [hbodies.regs]
    exact (congrFun (congrFun hassign.regs .interval) k).symm

/-- A block that is whole gets the registers that it had. -/
theorem steady_whole (i : IntervalId) (hb : w.graph.block? n = some b)
    (hexact : w.graph.regs .block n = instRegs (w.graph.insts .block n))
    (hpoint : (splitPoint budget b.insts).1 = none) :
    Steady i w { w with
      graph := w.graph.modifyBlock n ({ · with outputs := (splitPoint budget b.insts).2 }) } := by
  have hinsts : w.graph.insts .block n = b.insts := FlowGraph.see_of_block? hb _ _
  have hall := splitPoint_regs budget b.insts
  rw [hpoint] at hall
  refine ⟨alike_whole w n _, insts_whole w.graph n _, ?_, fun _ _ => rfl⟩
  funext x
  by_cases hx : n = x
  · subst hx
    rw [hexact, hinsts]
    exact (regs_whole hb _).trans hall
  · exact FlowGraph.see_modifyBlock_of_ne hx

/-! ### A block is cut -/

/-- The registers of `h` leave no room for the first instruction of `t`. -/
def Crowded (budget : Nat) (g : FlowGraph) (h t : BlockId) : Prop :=
  ∃ x, (g.insts .block t).head? = some x ∧ budget ≤ (g.regs .block h ∪ instRegs [x]).size

/-- The block `n` was cut, and its tail `t` opened the region `j`. Otherwise only the
registers of the interval `i`, marks and the log are different. -/
structure Halved (budget : Nat) (i : IntervalId) (n t : BlockId) (j : IntervalId)
    (w w' : Workspace) : Prop where
  mem : n ∈ w.members
  fresh : t ∉ w.members
  free : w.graph.owner .block t = none
  new : j ∉ w.opened
  full : budget ≤ (instRegs (w.graph.insts .block n)).size
  members : w'.members = w.members ++ [t]
  worklist : w'.worklist = w.worklist ++ [t]
  net : w'.net .block = (w.net .block).cut n t
  owner : w'.graph.owner .block = update (w.graph.owner .block) t (some j)
  heads : ∀ x, x ≠ t → (w'.graph.insts .block x).head? = (w.graph.insts .block x).head?
  regs : ∀ x, x ≠ n → x ≠ t → w'.graph.regs .block x = w.graph.regs .block x
  crowded : Crowded budget w'.graph n t
  others : ∀ k, k ≠ i → w'.graph.regs .interval k = w.graph.regs .interval k

theorem Halved.steady (h : Halved budget i n t j w w₁) (hs : Steady i w₁ w') :
    Halved budget i n t j w w' := by
  refine ⟨h.mem, h.fresh, h.free, h.new, h.full, ?_, ?_, ?_, ?_, ?_, ?_, ?_, ?_⟩
  · rw [hs.alike.members, h.members]
  · rw [hs.alike.worklist, h.worklist]
  · rw [hs.alike.net, h.net]
  · rw [hs.alike.owner, h.owner]
  · rw [hs.insts]
    exact h.heads
  · rw [hs.regs]
    exact h.regs
  · rw [Crowded, hs.insts, hs.regs]
    exact h.crowded
  · exact fun k hk => (hs.others k hk).trans (h.others k hk)

/-- The registers before a split point leave no room for the instruction there. -/
theorem Severed.crowded {place : Nat} {name : String} {g g' : FlowGraph}
    (hg : Severed g n b place (splitPoint budget b.insts).2 name g')
    (hpoint : (splitPoint budget b.insts).1 = some place) :
    Crowded budget g' n g.blocks.size := by
  obtain ⟨x, hx, hsize⟩ := splitPoint_next hpoint
  refine ⟨x.renameLabel b.name name, ?_, Nat.le_trans hsize (RegSet.size_le fun r hr => ?_)⟩
  · rw [hg.insts_tail, List.head?_map, List.head?_drop, hx]
    rfl
  · rw [hg.regs_head, RegSet.mem_union, mem_instRegs]
    refine (RegSet.mem_insertAll.mp hr).imp_right fun hr => ?_
    exact ⟨_, List.mem_singleton_self _, (Inst.regs_renameLabel b.name name x).symm ▸ hr⟩

/-- A block that is cut when it is settled is halved. -/
theorem Underway.halved {place : Nat} {name : String} {g' : FlowGraph} (log : Log)
    (hu : Underway .block base (some i) opener w) (hb : w.graph.block? n = some b)
    (hn : n ∈ w.members) (hpoint : (splitPoint budget b.insts).1 = some place)
    (hg : Severed w.graph n b place (splitPoint budget b.insts).2 name g') :
    Halved budget i n w.graph.blocks.size w.graph.intervals.size w
      (Workspace.openGroup .block w.graph.blocks.size
        { w with graph := g', log, members := w.members ++ [w.graph.blocks.size] }) := by
  have hinsts : w.graph.insts .block n = b.insts := FlowGraph.see_of_block? hb _ _
  have hbodies := sameBodies_openGroup
    { w with graph := g', log, members := w.members ++ [w.graph.blocks.size] } .block
    w.graph.blocks.size
  refine ⟨hn, hu.size_not_mem, Underway.owner_size, hu.size_not_mem_opened, ?_, rfl, rfl, ?_, ?_,
    ?_, ?_, ?_, ?_⟩
  · refine Nat.le_of_not_lt fun hroom => ?_
    rw [hinsts] at hroom
    rw [splitPoint_eq_none hroom] at hpoint
    injection hpoint
  · rw [net_openGroup]
    exact hu.net_severed hb hn hg
  · rw [owner_openGroup hg.size_lt, hg.owner hb]
    show update (w.graph.owner .block) w.graph.blocks.size (some g'.intervals.size) = _
    rw [hg.intervals]
  · intro x hx
    rw [hbodies.insts]
    show (g'.insts .block x).head? = _
    by_cases hxn : x = n
    · obtain ⟨hpos, _⟩ := splitPoint_bounds (Prod.ext hpoint rfl)
      rw [hxn, hg.insts_head, hinsts, List.head?_take, if_neg (Nat.ne_of_gt hpos)]
    · rw [hg.insts_of_ne hxn hx]
  · intro x hxn hx
    rw [hbodies.regs]
    exact hg.regs_of_ne hxn hx
  · rw [Crowded, hbodies.insts, hbodies.regs]
    exact hg.crowded hpoint
  · intro k _
    rw [hbodies.regs]
    exact congrFun (hg.see_interval _ _) k

/-- A block that is settled stays as it was or is halved. -/
theorem Underway.settled_cases (hu : Underway .block base (some i) opener w)
    (hb : w.graph.block? n = some b) (hn : n ∈ w.members)
    (hexact : w.graph.regs .block n = instRegs (w.graph.insts .block n))
    (hset : Settled budget n b w w') :
    Steady i w w' ∨ ∃ t j, Halved budget i n t j w w' := by
  cases hset with
  | whole hpoint => exact .inl (steady_whole i hb hexact hpoint)
  | parted hpoint hg => exact .inr ⟨_, _, hu.halved _ hb hn hpoint hg⟩

/-- A block that is taken stays as it was or is halved. -/
theorem Sound.take_cases {rest : List BlockId} (h : Sound .block base none w)
    (hexact : ∀ n ∈ w.members, w.graph.regs .block n = instRegs (w.graph.insts .block n))
    (hwork : w.worklist = n :: rest) (hm : BlockMove budget (none, w) (some i, w')) :
    n ∈ w.members ∧ w.graph.owner .block n = some i ∧
      (∀ m ∈ w.members, w.graph.owner .block m = some i → m = n) ∧
      (Steady i { w with worklist := rest } w' ∨
        ∃ t j, Halved budget i n t j { w with worklist := rest } w') := by
  cases hm with
  | take hwork' hown hb hset hsync =>
    obtain ⟨rfl, rfl⟩ := List.cons.inj (hwork.symm.trans hwork')
    obtain ⟨j, hn, hj, halone, ⟨opener, hu⟩, _⟩ := h.pop hwork
    obtain rfl : j = i := Option.some.inj (hj.symm.trans hown)
    refine ⟨hn, hown, halone, ?_⟩
    refine (hu.settled_cases hb hn (hexact n hn) hset).imp ?_ ?_
    · exact fun hsteady => hsteady.trans hsync.steady
    · rintro ⟨t, k, hhalved⟩
      exact ⟨t, k, hhalved.steady hsync.steady⟩

/-! ### Blocks join -/

/-- A block that joins fits as a whole, so it stays as it was. -/
theorem Joins.steady (h : Joins budget i n w w')
    (hexact : ∀ n ∈ w.members, w.graph.regs .block n = instRegs (w.graph.insts .block n)) :
    Steady i (w.assign .block n i) w' := by
  obtain ⟨hn, hadm, live, b, w₁, _, hb, hset, hsync⟩ := h
  have hclaim := steady_claim w i n live
  have hbodies := sameBodies_claim w i n live
  have hexact' : (w.claim i n live).graph.regs .block n =
      instRegs ((w.claim i n live).graph.insts .block n) := by
    rw [hbodies.regs, hbodies.insts]
    exact hexact n hn
  have hinsts : w.graph.insts .block n = b.insts := by
    rw [← hbodies.insts]
    exact FlowGraph.see_of_block? hb _ _
  cases hset with
  | whole hpoint => exact (hclaim.trans (steady_whole i hb hexact' hpoint)).trans hsync.steady
  | parted hpoint hg =>
    rw [splitPoint_eq_none (hadm.room_insts (hinsts ▸ hexact n hn))] at hpoint
    injection hpoint

/-- In a scan of the blocks `ns`, some free ones join the region `i`, which then has all
their predecessors. Otherwise only its registers, marks and the log are different. -/
structure Swells (i : IntervalId) (ns : List BlockId) (w w' : Workspace) : Prop where
  members : w'.members = w.members
  worklist : w'.worklist = w.worklist
  preds : w'.graph.preds .block = w.graph.preds .block
  insts : w'.graph.insts .block = w.graph.insts .block
  regs : w'.graph.regs .block = w.graph.regs .block
  others : ∀ k, k ≠ i → w'.graph.regs .interval k = w.graph.regs .interval k
  owner : ∀ x, w'.graph.owner .block x = w.graph.owner .block x ∨
    x ∈ ns ∧ w.graph.owner .block x = none ∧ w'.graph.owner .block x = some i
  joined : ∀ x, w.graph.owner .block x = none → w'.graph.owner .block x = some i →
    ∀ p ∈ w.graph.preds .block x, p ≠ x ∧ w'.graph.owner .block p = some i

namespace Swells

theorem owner_eq (h : Swells i ns w w') {x : BlockId} {k : IntervalId}
    (hx : w.graph.owner .block x = some k) : w'.graph.owner .block x = some k := by
  rcases h.owner x with heq | ⟨_, hnone, _⟩
  · rw [heq, hx]
  · rw [hnone] at hx
    injection hx

theorem mono {ns' : List BlockId} (h : Swells i ns w w') (hsub : ns ⊆ ns') : Swells i ns' w w' :=
  { h with owner := fun x => (h.owner x).imp_right fun ⟨hx, hown⟩ => ⟨hsub hx, hown⟩ }

theorem trans {ns' : List BlockId} (h : Swells i ns w w₁) (h' : Swells i ns' w₁ w') :
    Swells i (ns ++ ns') w w' where
  members := h'.members.trans h.members
  worklist := h'.worklist.trans h.worklist
  preds := h'.preds.trans h.preds
  insts := h'.insts.trans h.insts
  regs := h'.regs.trans h.regs
  others := fun k hk => (h'.others k hk).trans (h.others k hk)
  owner := by
    intro x
    rcases h'.owner x with heq' | ⟨hx, hfree, hown⟩
    · rw [heq']
      exact (h.owner x).imp_right fun ⟨hx, hrest⟩ => ⟨List.mem_append_left _ hx, hrest⟩
    · rcases h.owner x with heq | ⟨_, _, hsome⟩
      · exact .inr ⟨List.mem_append_right _ hx, heq ▸ hfree, hown⟩
      · rw [hfree] at hsome
        injection hsome
  joined := by
    intro x hfree hown p hp
    rcases h'.owner x with heq' | ⟨_, hfree', _⟩
    · obtain ⟨hne, hpi⟩ := h.joined x hfree (heq' ▸ hown) p hp
      exact ⟨hne, h'.owner_eq hpi⟩
    · exact h'.joined x hfree' hown p (h.preds ▸ hp)

theorem of_steady (h : Steady i w w') : Swells i [] w w' where
  members := h.alike.members
  worklist := h.alike.worklist
  preds := congrFun h.alike.preds .block
  insts := h.insts
  regs := h.regs
  others := h.others
  owner := fun x => .inl (congrFun h.alike.owner x)
  joined := by
    intro x hfree hown
    rw [h.alike.owner, hfree] at hown
    injection hown

end Swells

theorem Joins.owner (h : Joins budget i n w w') (hs : Sound .block base (some i) w)
    (hexact : ∀ n ∈ w.members, w.graph.regs .block n = instRegs (w.graph.insts .block n)) :
    w'.graph.owner .block = update (w.graph.owner .block) n (some i) := by
  rw [(h.steady hexact).alike.owner]
  exact FlowGraph.owner_assign _ (hs.lt_extent h.mem)

/-- A block that joins is the one by which its region swells. -/
theorem Joins.swells (h : Joins budget i n w w') (hs : Sound .block base (some i) w)
    (hexact : ∀ n ∈ w.members, w.graph.regs .block n = instRegs (w.graph.insts .block n)) :
    Swells i [n] w w' := by
  have hsteady := h.steady hexact
  have hbodies := sameBodies_assign w.graph .block n (some i)
  have hfree := h.admitted.free
  have howner := h.owner hs hexact
  refine ⟨hsteady.alike.members, hsteady.alike.worklist, ?_, ?_, ?_, fun k hk => ?_,
    fun x => ?_, fun x hnone hsome p hp => ?_⟩
  · rw [hsteady.alike.preds]
    exact congrFun hbodies.preds .block
  · rw [hsteady.insts]
    exact congrFun hbodies.insts .block
  · rw [hsteady.regs]
    exact congrFun hbodies.regs .block
  · rw [hsteady.others k hk]
    exact congrFun (congrFun hbodies.regs .interval) k
  · rw [howner]
    by_cases hxn : x = n
    · subst hxn
      exact .inr ⟨List.mem_singleton_self x, hfree, update_self ..⟩
    · exact .inl (update_of_ne hxn ..)
  · rw [howner] at hsome ⊢
    obtain rfl : x = n := by
      by_contra hxn
      rw [update_of_ne hxn, hnone] at hsome
      injection hsome
    have hpi := h.admitted.preds p hp
    exact ⟨ne_of_owner hfree hpi, owner_update hfree hpi⟩

/-- A scan of some blocks makes its region swell by some of them. -/
theorem Sound.swells (hbudget : 0 < budget) (hs : Sound .block base (some i) w)
    (ht : Tallied budget none w) (hscan : Scan budget i ns w w') : Swells i ns w w' := by
  induction hscan with
  | @done w => exact .of_steady (steady_marker w i w.marker)
  | @decline n ns w w' marker _ hrest ih =>
    have hmark : BlockMove budget (some i, w) (some i, { w with marker }) := .mark marker
    have hafter := ih (hs.move hmark) (Sound.tallied_move hbudget hs ht hmark)
    have hswells := (Swells.of_steady (steady_marker w i marker)).trans hafter
    exact hswells.mono (List.subset_cons_self n ns)
  | @join n ns w w₁ w' marker hjoins hrest ih =>
    have hmark : BlockMove budget (some i, w) (some i, { w with marker }) := .mark marker
    have hs₁ : Sound .block base (some i) { w with marker } := hs.move hmark
    have ht₁ := Sound.tallied_move hbudget hs ht hmark
    have hjoin := hjoins.swells hs₁ ht₁.exact
    have hafter := ih (hs₁.move hjoins.move) (Sound.tallied_move hbudget hs₁ ht₁ hjoins.move)
    exact (Swells.of_steady (steady_marker w i marker)).trans (hjoin.trans hafter)

end KernelIntervals
