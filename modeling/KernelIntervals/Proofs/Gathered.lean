/-
Which blocks the first pass gathers in a region.

* `before`, `Joinable` — the members of a region that stand in the list before a block, and
  whether the block can join them,
* `Gathered` — the members of a region, its opener apart, are the listed blocks with few registers
  that can join those before them,
* `Sound.joined_iff` — which block joins in a scan, told by those that joined before,
* `Tracked.gathered_of_scan` — so a scan leaves its region gathered,
* `Rests`, `Gathered.rests` — a region that is not visited stays as it is,
* `Greedy`, `FirstPass.gathered` — so all regions are gathered when a first pass ends.

Design notes: a region is grown in one scan in the order of the list, so whether a block joins
depends on those before it only. No member is cut later on, and no predecessor of a block that
only the region leads to. So the end of a pass still shows what was decided in each scan.
-/
import KernelIntervals.Proofs.Narrow
import KernelIntervals.Proofs.Openers
import KernelIntervals.Proofs.Tails

namespace KernelIntervals

open Function Relation

variable {base budget : Nat} {g₀ g g' : FlowGraph} {blocks nodes ns ns' : List BlockId}
  {w w₁ w₂ w' u : Workspace} {n t e c x : BlockId} {i j k : IntervalId}
  {opener : IntervalId → Nat} {rest : List BlockId} {current current' : Option IntervalId}
  {owner : BlockId → Option IntervalId}

/-! ### Blocks that can join others -/

/-- The registers of some blocks. -/
def FlowGraph.blockRegs (g : FlowGraph) (ns : List BlockId) : RegSet :=
  RegSet.ofList (ns.flatMap fun n => (g.regs .block n).toList)

theorem FlowGraph.mem_blockRegs {r : Reg} :
    r ∈ g.blockRegs ns ↔ ∃ n ∈ ns, r ∈ g.regs .block n :=
  RegSet.mem_ofList.trans List.mem_flatMap

theorem FlowGraph.blockRegs_congr
    (h : ∀ n ∈ ns, g'.regs .block n = g.regs .block n) : g'.blockRegs ns = g.blockRegs ns := by
  refine congrArg RegSet.ofList (List.flatMap_congr fun n hn => ?_)
  rw [h n hn]

theorem FlowGraph.size_le_blockRegs (hn : n ∈ ns) :
    (g.regs .block n).size ≤ (g.blockRegs ns).size :=
  RegSet.size_le fun _ hr => mem_blockRegs.mpr ⟨n, hn, hr⟩

/-- The opener `e` of the region `k`, and its members that stand in the list before the
block `c`. -/
def before (owner : BlockId → Option IntervalId) (nodes : List BlockId) (e : BlockId)
    (k : IntervalId) (c : BlockId) : List BlockId :=
  e :: (nodes.takeWhile (· ≠ c)).filter fun n => owner n = some k

theorem mem_before :
    x ∈ before owner nodes e k c ↔ x = e ∨ x ∈ nodes.takeWhile (· ≠ c) ∧ owner x = some k := by
  rw [before, List.mem_cons, List.mem_filter, decide_eq_true_eq]

theorem opener_mem_before : e ∈ before owner nodes e k c := List.mem_cons_self

theorem before_congr {owner' : BlockId → Option IntervalId}
    (h : ∀ x ∈ nodes.takeWhile (· ≠ c), owner' x = some j ↔ owner x = some k) :
    before owner' nodes e j c = before owner nodes e k c := by
  refine congrArg (e :: ·) (List.filter_congr fun x hx => ?_)
  rw [decide_eq_decide]
  exact h x hx

theorem takeWhile_ne_append {front back : List BlockId} (h : c ∉ front) :
    (front ++ c :: back).takeWhile (· ≠ c) = front := by
  rw [List.takeWhile_append_of_pos fun x hx => decide_eq_true (ne_of_mem_of_not_mem hx h),
    List.takeWhile_cons_of_neg (by simp), List.append_nil]

/-- The blocks before a listed one are the same if more blocks are listed behind. -/
theorem before_of_listed (h : blocks <+: nodes) (hc : c ∈ blocks) :
    before owner nodes e k c = before owner blocks e k c := by
  obtain ⟨front, back, rfl, hfront⟩ := List.eq_append_cons_of_mem hc
  obtain ⟨tails, rfl⟩ := h
  rw [before, before, List.append_assoc, List.cons_append, takeWhile_ne_append hfront,
    takeWhile_ne_append hfront]

/-- Only the blocks `front` lead to the block `c`, and together they all have fewer registers than
the budget. -/
structure Joinable (budget : Nat) (g : FlowGraph) (front : List BlockId) (c : BlockId) : Prop where
  led : g.preds .block c ≠ []
  inside : ∀ p ∈ g.preds .block c, p ∈ front
  room : (g.blockRegs (c :: front)).size < budget

instance (budget : Nat) (g : FlowGraph) (front : List BlockId) (c : BlockId) :
    Decidable (Joinable budget g front c) :=
  decidable_of_iff (g.preds .block c ≠ [] ∧ (∀ p ∈ g.preds .block c, p ∈ front) ∧
      (g.blockRegs (c :: front)).size < budget)
    ⟨fun ⟨hled, hin, hroom⟩ => ⟨hled, hin, hroom⟩, fun h => ⟨h.led, h.inside, h.room⟩⟩

theorem joinable_congr (hpreds : g'.preds .block c = g.preds .block c)
    (hregs : ∀ n ∈ c :: ns, g'.regs .block n = g.regs .block n) :
    Joinable budget g' ns c ↔ Joinable budget g ns c := by
  have hsame := FlowGraph.blockRegs_congr hregs
  constructor
  · exact fun h => ⟨hpreds ▸ h.led, hpreds ▸ h.inside, hsame ▸ h.room⟩
  · exact fun h => ⟨hpreds ▸ h.led, hpreds ▸ h.inside, hsame ▸ h.room⟩

/-- The members of the region `k`, its opener `e` apart, are listed in `blocks`: those that had
few registers in `g₀` and can join the members before them. -/
structure Gathered (budget : Nat) (g₀ : FlowGraph) (blocks : List BlockId) (g : FlowGraph)
    (nodes : List BlockId) (e : BlockId) (k : IntervalId) : Prop where
  listed : ∀ c ∈ nodes, c ≠ e → g.owner .block c = some k → c ∈ blocks
  owner_iff : ∀ c ∈ blocks, c ≠ e → (g.owner .block c = some k ↔
    (g₀.regs .block c).size < budget ∧
      Joinable budget g (before (g.owner .block) blocks e k c) c)

theorem Gathered.congr (h : Gathered budget g₀ blocks g nodes e k)
    (howner : g'.owner .block = g.owner .block) (hpreds : g'.preds .block = g.preds .block)
    (hregs : g'.regs .block = g.regs .block) : Gathered budget g₀ blocks g' nodes e k := by
  refine ⟨howner ▸ h.listed, fun c hc hne => ?_⟩
  rw [howner, h.owner_iff c hc hne]
  exact and_congr_right fun _ =>
    (joinable_congr (congrFun hpreds c) fun n _ => congrFun hregs n).symm

/-! ### What a scan does -/

theorem Scan.split (h : Scan budget i (ns ++ ns') w w') :
    ∃ u, Scan budget i ns w u ∧ Scan budget i ns' u w' := by
  induction ns generalizing w with
  | nil => exact ⟨w, .done, h⟩
  | cons n ns ih =>
    cases h with
    | decline marker hdeclined hrest =>
      obtain ⟨u, hfront, hback⟩ := ih hrest
      exact ⟨u, .decline marker hdeclined hfront, hback⟩
    | join marker hjoins hrest =>
      obtain ⟨u, hfront, hback⟩ := ih hrest
      exact ⟨u, .join marker hjoins hfront, hback⟩

/-- A block may join the region that is visited exactly if it is free and can join its members. -/
theorem Sound.admitted_iff_joinable (hs : Sound .block base (some i) w)
    (ht : Tallied budget none w) (hc : c ∈ w.members) (hsub : ns ⊆ w.members)
    (hns : ∀ m ∈ w.members, w.graph.owner .block m = some i ↔ m ∈ ns) :
    Admitted budget i c w.graph ↔
      w.graph.owner .block c = none ∧ Joinable budget w.graph ns c := by
  obtain ⟨opener, hu⟩ := hs.underway
  have hregs : w.graph.regs .interval i ∪ w.graph.regs .block c = w.graph.blockRegs (c :: ns) := by
    refine RegSet.ext_mem fun r => ?_
    rw [RegSet.mem_union, (hs.held ht).regs r, FlowGraph.mem_blockRegs, List.exists_mem_cons_iff,
      or_comm]
    refine or_congr_right (exists_congr fun m => ⟨?_, ?_⟩)
    · rintro ⟨hm, hmi, hr⟩
      exact ⟨(hns m hm).mp hmi, hr⟩
    · rintro ⟨hm, hr⟩
      exact ⟨hsub hm, (hns m (hsub hm)).mpr hm, hr⟩
  constructor
  · rintro ⟨hfree, hpreds, hroom⟩
    exact ⟨hfree, hs.seeded.preds_ne_nil hc hfree,
      fun p hp => (hns p (hu.exists_pred hc hp).1).mp (hpreds p hp), hregs ▸ hroom⟩
  · rintro ⟨hfree, _, hin, hroom⟩
    exact ⟨hfree, fun p hp => (hns p (hu.exists_pred hc hp).1).mpr (hin p hp), hregs ▸ hroom⟩

section Scan

variable (hbudget : 0 < budget) (hs : Sound .block base (some i) w)
  (ht : Tallied budget none w)

include hbudget hs ht

/-- A block that may join when a scan comes to it does so. -/
theorem Sound.joined_of_admitted (hscan : Scan budget i (c :: ns) w w')
    (hadm : Admitted budget i c w.graph) : w'.graph.owner .block c = some i := by
  cases hscan with
  | decline marker hdeclined hrest =>
    have hfull := hdeclined hadm.free hadm.preds fun m hm hmi r hr =>
      ((hs.held ht).regs r).mpr ⟨m, hm, hmi, hr⟩
    exact absurd hadm.room (Nat.not_lt.mpr hfull)
  | join marker hjoins hrest =>
    have hmark : BlockMove budget (some i, w) (some i, { w with marker }) := .mark marker
    have hs₁ : Sound .block base (some i) { w with marker } := hs.move hmark
    have ht₁ := Sound.tallied_move hbudget hs ht hmark
    refine ((hs₁.move hjoins.move).swells hbudget
      (Sound.tallied_move hbudget hs₁ ht₁ hjoins.move) hrest).owner_eq ?_
    rw [hjoins.owner hs₁ ht₁.exact, update_self]

/-- A block that joined in a scan was let in when the scan came to it. -/
theorem Sound.admitted_of_joined (hscan : Scan budget i (c :: ns) w w') (hc : c ∉ ns)
    (hout : w.graph.owner .block c ≠ some i) (hown : w'.graph.owner .block c = some i) :
    Admitted budget i c w.graph := by
  cases hscan with
  | decline marker hdeclined hrest =>
    have hmark : BlockMove budget (some i, w) (some i, { w with marker }) := .mark marker
    have hback := (hs.move hmark).swells hbudget (Sound.tallied_move hbudget hs ht hmark) hrest
    rcases hback.owner c with heq | ⟨hmem, _, _⟩
    · exact absurd (heq.symm.trans hown) hout
    · exact absurd hmem hc
  | join marker hjoins hrest => exact hjoins.admitted

/-- A block joins in a scan exactly if it is free when the scan comes to it and can join the
members that the region has then. -/
theorem Sound.joined_iff {front : List BlockId} (hscan : Scan budget i (c :: ns) w w')
    (hc : c ∉ ns) (hmem : c ∈ w.members) (hsub : front ⊆ w.members)
    (hfront : ∀ m ∈ w.members, w.graph.owner .block m = some i ↔ m ∈ front) (hnot : c ∉ front) :
    w'.graph.owner .block c = some i ↔
      w.graph.owner .block c = none ∧ Joinable budget w'.graph front c := by
  have hswells := hs.swells hbudget ht hscan
  rw [joinable_congr (congrFun hswells.preds c) fun n _ => congrFun hswells.regs n,
    ← hs.admitted_iff_joinable ht hmem hsub hfront]
  exact ⟨hs.admitted_of_joined hbudget ht hscan hc (mt (hfront c hmem).mp hnot),
    hs.joined_of_admitted hbudget ht hscan⟩

end Scan

/-- Between two parts of a scan, the region has its opener, and those of the first part that it has
at the end. -/
theorem Swells.owner_iff_between (hfront : Swells i ns w u) (hback : Swells i ns' u w')
    (hdisj : ∀ x ∈ ns, x ∉ ns') (he : w.graph.owner .block e = some i)
    (halone : ∀ m ∈ w.members, w.graph.owner .block m = some i → m = e) (hx : x ∈ w.members) :
    u.graph.owner .block x = some i ↔ x = e ∨ x ∈ ns ∧ w'.graph.owner .block x = some i := by
  constructor
  · intro hown
    rcases hfront.owner x with heq | ⟨hmem, _, _⟩
    · exact .inl (halone x hx (heq ▸ hown))
    · exact .inr ⟨hmem, hback.owner_eq hown⟩
  · rintro (rfl | ⟨hmem, hown⟩)
    · exact hfront.owner_eq he
    · rcases hback.owner x with heq | ⟨hmem', _, _⟩
      · exact heq ▸ hown
      · exact absurd hmem' (hdisj x hmem)

/-- What only the region that is visited leads to has no owner: another region that it could
have been opened from would have been visited before. -/
theorem Tracked.free_of_led (h : Tracked budget g₀ blocks (some i) w) (hc : c ∈ blocks)
    (hout : w.graph.owner .block c ≠ some i) (hne : w.graph.preds .block c ≠ [])
    (hin : ∀ p ∈ w.graph.preds .block c, w.graph.owner .block p = some i) :
    w.graph.owner .block c = none := by
  cases hown : w.graph.owner .block c with
  | none => rfl
  | some j =>
    obtain ⟨p, hp, _, k, hpk, hvisited⟩ := h.led c hc j hown hne
    obtain rfl : i = k := Option.some.inj ((hin p hp).symm.trans hpk)
    rcases hvisited with rfl | hidle
    · exact absurd hown hout
    · exact absurd (.inl rfl) hidle

/-- A scan of all members leaves its region gathered. -/
theorem Tracked.gathered_of_scan (hbudget : 0 < budget) (hs : Sound .block base (some i) w)
    (ht : Tallied budget none w) (h : Tracked budget g₀ blocks (some i) w)
    (h' : Tracked budget g₀ blocks (some i) w') (hscan : Scan budget i w.members w w')
    (he : e ∈ w.members) (hown : w.graph.owner .block e = some i)
    (halone : ∀ m ∈ w.members, w.graph.owner .block m = some i → m = e) :
    Gathered budget g₀ blocks w'.graph w'.members e i := by
  have hwhole := hs.swells hbudget ht hscan
  obtain ⟨opener, hu⟩ := hs.underway
  refine ⟨fun c hc hne hci => ?_, fun c hc hne => ?_⟩
  · rw [hwhole.members] at hc
    rcases hwhole.owner c with heq | ⟨_, hfree, _⟩
    · exact absurd (halone c hc (heq ▸ hci)) hne
    · exact h.free c hc hfree
  -- The scan comes to the block between those listed before it and the others.
  obtain ⟨front, back, hblocks, hfront⟩ := List.eq_append_cons_of_mem hc
  obtain ⟨tails, htails⟩ := h.listed
  have hmembers : w.members = front ++ c :: (back ++ tails) := by
    rw [← htails, hblocks, List.append_assoc, List.cons_append]
  have htake : blocks.takeWhile (· ≠ c) = front := hblocks ▸ takeWhile_ne_append hfront
  obtain ⟨_, hback, hdisj⟩ := List.nodup_append.mp (hmembers ▸ hu.nodup)
  rw [hmembers] at hscan
  obtain ⟨u, hfirst, hlast⟩ := hscan.split
  have hsu : Sound .block base (some i) u := hs.moves hfirst.moves
  have htu : Tallied budget none u := hs.tallied_moves hbudget ht hfirst.moves
  have hswells := hs.swells hbudget ht hfirst
  have hswells' := hsu.swells hbudget htu hlast
  have hbetween : ∀ m ∈ u.members, u.graph.owner .block m = some i ↔
      m ∈ before (w'.graph.owner .block) blocks e i c := by
    intro m hm
    rw [mem_before, htake]
    exact hswells.owner_iff_between hswells' (fun x hx hx' => hdisj x hx x hx' rfl) hown halone
      (hswells.members ▸ hm)
  have hsub : before (w'.graph.owner .block) blocks e i c ⊆ u.members := by
    intro x hx
    rw [hswells.members]
    rcases mem_before.mp hx with rfl | ⟨hx, _⟩
    · exact he
    · exact h.listed.subset (List.takeWhile_subset _ hx)
  have hnot : c ∉ before (w'.graph.owner .block) blocks e i c := by
    rw [mem_before, htake]
    exact fun h => h.elim hne fun h => hfront h.1
  have hjoined := hsu.joined_iff hbudget htu hlast (List.nodup_cons.mp hback).1
    (hswells.members ▸ h.listed.subset hc) hsub hbetween hnot
  constructor
  · intro hci
    obtain ⟨hfree, hjoin⟩ := hjoined.mp hci
    refine ⟨?_, hjoin⟩
    -- The block was free until then, so it has the registers that it was listed with.
    rw [← h.intact c hc (owner_eq_none (fun _ => hswells.owner_eq) hfree), ← hwhole.regs]
    exact Nat.lt_of_le_of_lt (FlowGraph.size_le_blockRegs List.mem_cons_self) hjoin.room
  · rintro ⟨_, hjoin⟩
    by_contra hout
    have hfree := h'.free_of_led hc hout hjoin.led fun p hp => ?_
    · exact hout (hjoined.mpr ⟨owner_eq_none (fun _ => hswells'.owner_eq) hfree, hjoin⟩)
    · rcases mem_before.mp (hjoin.inside p hp) with rfl | ⟨_, hpi⟩
      · exact hwhole.owner_eq hown
      · exact hpi

/-- A region that is not grown, because its block alone reaches the budget, has gathered what can
join it. -/
theorem gathered_of_full (hfull : budget ≤ (g.regs .block e).size)
    (halone : ∀ m ∈ nodes, g.owner .block m = some i → m = e) (hsub : blocks ⊆ nodes) :
    Gathered budget g₀ blocks g nodes e i := by
  refine ⟨fun c hc hne hown => absurd (halone c hc hown) hne, fun c hc hne => ?_⟩
  refine iff_of_false (fun hown => hne (halone c (hsub hc) hown)) fun ⟨_, hjoinable⟩ => ?_
  refine absurd hjoinable.room (Nat.not_lt.mpr (Nat.le_trans hfull ?_))
  exact FlowGraph.size_le_blockRegs (List.mem_cons_of_mem c opener_mem_before)

/-! ### Regions that are not visited -/

/-- The region `k` is left as it is, and no tail comes between it and the blocks that only it
leads to. -/
structure Rests (k : IntervalId) (w w' : Workspace) : Prop where
  members : w.members ⊆ w'.members
  owner : ∀ x, w'.graph.owner .block x = some k ↔ w.graph.owner .block x = some k
  mem : ∀ x ∈ w'.members, w.graph.owner .block x = some k → x ∈ w.members
  regs : ∀ x, w.graph.owner .block x = some k → w'.graph.regs .block x = w.graph.regs .block x
  preds : ∀ c ∈ w.members,
    (∀ p ∈ w.graph.preds .block c, w.graph.owner .block p = some k) ∨
      (∀ p ∈ w'.graph.preds .block c, w'.graph.owner .block p = some k) →
    w'.graph.preds .block c = w.graph.preds .block c

theorem Rests.trans (h : Rests k w w₁) (h' : Rests k w₁ w') : Rests k w w' where
  members := List.Subset.trans h.members h'.members
  owner := fun x => (h'.owner x).trans (h.owner x)
  mem := fun x hx hown => h.mem x (h'.mem x hx ((h.owner x).mpr hown)) hown
  regs := fun x hown => (h'.regs x ((h.owner x).mpr hown)).trans (h.regs x hown)
  preds := by
    rintro c hc (hin | hin)
    · have hfirst := h.preds c hc (.inl hin)
      refine (h'.preds c (h.members hc) (.inl fun p hp => (h.owner p).mpr ?_)).trans hfirst
      exact hin p (hfirst ▸ hp)
    · have hlater := h'.preds c (h.members hc) (.inr hin)
      refine hlater.trans (h.preds c hc (.inr fun p hp => (h'.owner p).mp ?_))
      exact hin p (hlater ▸ hp)

theorem Steady.rests (h : Steady i { w with worklist := rest } w') : Rests k w w' where
  members := h.alike.members ▸ List.Subset.refl _
  owner := fun x => by rw [h.alike.owner]
  mem := fun x hx _ => h.alike.members ▸ hx
  regs := fun x _ => congrFun h.regs x
  preds := fun c _ _ => congrFun (congrFun h.alike.preds .block) c

/-- Behind a block that is cut there is a tail of another region. -/
theorem Halved.rests (hu : Underway .block base none opener w)
    (h : Halved budget i n t j { w with worklist := rest } w')
    (hown : w.graph.owner .block n = some i) (hk : k ∈ w.opened) (hki : k ≠ i) :
    Rests k w w' := by
  have hfree : w.graph.owner .block t = none := h.free
  have hnk : w.graph.owner .block n ≠ some k :=
    fun hnk => hki (Option.some.inj (hnk.symm.trans hown))
  have htk : w'.graph.owner .block t ≠ some k := by
    rw [h.owner, update_self]
    exact fun hjk => h.new (Option.some.inj hjk ▸ hk)
  refine ⟨h.members ▸ List.subset_append_left .., fun x => ?_, fun x hx hxk => ?_, fun x hxk => ?_,
    fun c hc hin => ?_⟩
  · by_cases hxt : x = t
    · rw [hxt, hfree]
      exact iff_of_false htk (Option.some_ne_none k).symm
    · rw [h.owner_of_ne hxt]
  · rw [h.members] at hx
    exact Net.mem_of_ne_last hx (ne_of_owner hfree hxk)
  · exact h.regs x (fun hxn => hnk (hxn ▸ hxk)) (ne_of_owner hfree hxk)
  · have hct : c ≠ t := ne_of_mem_of_not_mem hc h.fresh
    rw [h.preds] at hin ⊢
    refine Net.preds_cut_of_not_mem hct fun hsucc => ?_
    have hpred : n ∈ w.graph.preds .block c := hu.closed.mem_preds h.mem hsucc
    rcases hin with hin | hin
    · exact hnk (hin n hpred)
    · exact htk (hin t ((Net.mem_preds_cut hu.closed h.mem h.fresh hc).mpr (.inl ⟨rfl, hpred⟩)))

theorem Swells.rests (h : Swells i ns w w') (hki : k ≠ i) : Rests k w w' where
  members := h.members ▸ List.Subset.refl _
  owner := by
    intro x
    rcases h.owner x with heq | ⟨_, hnone, hsome⟩
    · rw [heq]
    · rw [hnone, hsome]
      exact iff_of_false (fun hik => hki (Option.some.inj hik).symm) (Option.some_ne_none k).symm
  mem := fun x hx _ => h.members ▸ hx
  regs := fun x _ => congrFun h.regs x
  preds := fun c _ _ => congrFun h.preds c

theorem Leaves.rests (h : Leaves .block i w w') (hk : k < w.graph.intervals.size) :
    Rests k w w' where
  members := h.opens.members ▸ List.Subset.refl _
  owner := fun _ => ⟨h.opens.owner_of_lt hk, h.opens.owner_eq⟩
  mem := fun _ hx _ => h.opens.members ▸ hx
  regs := fun x _ => congrFun (congrFun h.opens.sameBodies.regs .block) x
  preds := fun c _ _ => congrFun (congrFun h.opens.sameBodies.preds .block) c

/-- What a region has gathered stays so while the region rests. -/
theorem Gathered.rests (h : Gathered budget g₀ blocks w.graph w.members e k) (hr : Rests k w w')
    (he : w.graph.owner .block e = some k) (ht : Tracked budget g₀ blocks current w)
    (ht' : Tracked budget g₀ blocks current' w') :
    Gathered budget g₀ blocks w'.graph w'.members e k := by
  refine ⟨fun c hc hne hown => ?_, fun c hc hne => ?_⟩
  · have hown := (hr.owner c).mp hown
    exact h.listed c (hr.mem c hc hown) hne hown
  have hbefore : before (w'.graph.owner .block) blocks e k c =
      before (w.graph.owner .block) blocks e k c := before_congr fun x _ => hr.owner x
  have hin : ∀ x ∈ before (w.graph.owner .block) blocks e k c, w.graph.owner .block x = some k := by
    intro x hx
    rcases mem_before.mp hx with rfl | ⟨_, hxk⟩
    · exact he
    · exact hxk
  rw [hr.owner, h.owner_iff c hc hne, hbefore]
  refine and_congr_right fun hfew => ?_
  have hregs : ∀ x ∈ c :: before (w.graph.owner .block) blocks e k c,
      w'.graph.regs .block x = w.graph.regs .block x := by
    intro x hx
    rcases List.mem_cons.mp hx with rfl | hx
    · rw [ht'.narrow x hc hfew, ht.narrow x hc hfew]
    · exact hr.regs x (hin x hx)
  have hpreds := hr.preds c (ht.listed.subset hc)
  constructor
  · intro hjoin
    refine (joinable_congr (hpreds (.inl fun p hp => ?_)) hregs).mpr hjoin
    exact hin p (hjoin.inside p hp)
  · intro hjoin
    refine (joinable_congr (hpreds (.inr fun p hp => ?_)) hregs).mp hjoin
    exact (hr.owner p).mpr (hin p (hjoin.inside p hp))

/-! ### A visit -/

section Turn

variable (hs : Sound .block base none w) (ht : Tallied budget none w)
  (hwork : w.worklist = n :: rest) (hturn : BlockTurn budget n i w w₁ w₂ w')

include hs ht hwork hturn

/-- The block that is visited is taken: blocks are tracked as before. -/
theorem Tracked.taken (h : Tracked budget g₀ blocks none w) :
    Tracked budget g₀ blocks (some i) w₁ := by
  obtain ⟨hn, hown, halone, hcases⟩ := hs.take_cases ht.exact hwork hturn.taken
  obtain ⟨⟨opener, hu⟩, _⟩ := hs
  rcases hcases with hsteady | ⟨t, j, hhalved⟩
  · exact h.evolves hu (hsteady.evolves hwork hown)
  · exact h.halved hu hwork hown hhalved ht.exact halone

/-- Other regions are left as they are when a block is taken. -/
theorem Sound.rests_taken (hk : k ∈ w.opened) (hki : k ≠ i) : Rests k w w₁ := by
  obtain ⟨_, hown, _, hcases⟩ := hs.take_cases ht.exact hwork hturn.taken
  obtain ⟨⟨opener, hu⟩, _⟩ := hs
  rcases hcases with hsteady | ⟨t, j, hhalved⟩
  · exact hsteady.rests
  · exact hhalved.rests hu hown hk hki

/-- The block that is taken is still alone in its region. -/
theorem Sound.alone_taken : n ∈ w₁.members ∧ w₁.graph.owner .block n = some i ∧
    ∀ m ∈ w₁.members, w₁.graph.owner .block m = some i → m = n := by
  obtain ⟨hn, hown, halone, hcases⟩ := hs.take_cases ht.exact hwork hturn.taken
  refine ⟨hturn.taken.mem_members hn, owner_eq_of_steps (hs.steps_of_move hturn.taken) hown, ?_⟩
  obtain ⟨⟨opener, hu⟩, _⟩ := hs
  intro m hm hmi
  rcases hcases with hsteady | ⟨t, j, hhalved⟩
  · rw [hsteady.alike.members] at hm
    rw [hsteady.alike.owner] at hmi
    exact halone m hm hmi
  · have hmt : m ≠ t := by
      rintro rfl
      rw [hhalved.owner, update_self] at hmi
      exact hhalved.new (Option.some.inj hmi ▸ hu.grouped.mem_opened hn hown)
    rw [hhalved.members] at hm
    exact halone m (Net.mem_of_ne_last hm hmt) ((hhalved.owner_of_ne hmt).symm.trans hmi)

variable (hbudget : 0 < budget)

include hbudget

omit hwork in
/-- The region of the visit swells. -/
theorem Sound.swells_turn : ∃ ns, Swells i ns w₁ w₂ := by
  have ht₁ : Tallied budget none w₁ := Sound.tallied_move hbudget hs ht hturn.taken
  rcases hturn.grown with hscan | ⟨rfl, _⟩
  · exact ⟨_, (hs.move hturn.taken).swells hbudget ht₁ hscan⟩
  · exact ⟨[], .of_steady (steady_marker w₂ i w₂.marker)⟩

/-- The region of the visit is gathered when it has grown. -/
theorem Tracked.gathered_turn (h : Tracked budget g₀ blocks none w)
    (h₂ : Tracked budget g₀ blocks (some i) w₂) :
    Gathered budget g₀ blocks w₂.graph w₂.members n i := by
  have h₁ := h.taken hs ht hwork hturn
  obtain ⟨hn, hown, halone⟩ := hs.alone_taken ht hwork hturn
  rcases hturn.grown with hscan | ⟨rfl, hfull⟩
  · exact h₁.gathered_of_scan hbudget (hs.move hturn.taken)
      (Sound.tallied_move hbudget hs ht hturn.taken) h₂ hscan hn hown halone
  · exact gathered_of_full hfull halone h₁.listed.subset

/-- A region that is idle after a visit was there before it, with the same opener. Either it was
visited, and was waiting for that, or it was idle already and has rested. -/
theorem Underway.idle_turn (hu : Underway .block base none opener w) : ∃ opener',
    Underway .block base none opener' w' ∧ ∀ k ∈ w'.opened, ¬ w'.Busy .block none k →
      k ∈ w.opened ∧ opener' k = opener k ∧ Rests k w₂ w' ∧
        (k = i ∧ opener k = n ∨ ¬ w.Busy .block none k ∧ Rests k w w') := by
  obtain ⟨hn, hown, halone, _⟩ := hs.take_cases ht.exact hwork hturn.taken
  obtain ⟨ns, hswells⟩ := hs.swells_turn ht hturn hbudget
  have hqueued := hs.queued_turn hwork hturn
  have hgrowth : ReflTransGen (BlockMove budget) (none, w) (some i, w₂) :=
    .head hturn.taken hturn.growth
  obtain ⟨⟨opener₂, hu₂, hgrown₂⟩, _⟩ := hu.blockMoves hs.seeded hgrowth
  obtain ⟨⟨opener', hu', hgrown⟩, _⟩ := hu.blockMoves hs.seeded hturn.moves
  refine ⟨opener', hu', fun k hk hidle => ?_⟩
  have hk : k ∈ w.opened := (hqueued.fresh k hk).resolve_right hidle
  have hleaves : Rests k w₂ w' := hturn.left.rests (hu₂.opened_range k (hgrown₂.opener_eq hk).1).2
  refine ⟨hk, (hgrown.opener_eq hk).2, hleaves, ?_⟩
  by_cases hki : k = i
  · subst hki
    exact .inl ⟨rfl, halone _ (hu.grouped.opener_mem hk) (hu.grouped.owner_opener hk)⟩
  · have htaken := hs.rests_taken ht hwork hturn hk hki
    refine .inr ⟨?_, (htaken.trans (hswells.rests hki)).trans hleaves⟩
    rintro (hbusy | ⟨m, hm, hmk⟩)
    · injection hbusy
    · rw [hwork] at hm
      rcases List.mem_cons.mp hm with rfl | hm
      · exact hki (Option.some.inj (hmk.symm.trans hown))
      · exact hidle (hqueued.busy k (.inr ⟨m, hm, hmk⟩))

end Turn

/-- Between two visits, all regions that were visited are gathered. -/
structure Greedy (base budget : Nat) (g₀ : FlowGraph) (blocks : List BlockId) (w : Workspace) :
    Prop where
  seeded : Seeded .block w
  tallied : Tallied budget none w
  tracked : Tracked budget g₀ blocks none w
  gathered : ∃ opener, Underway .block base none opener w ∧ ∀ k ∈ w.opened,
    ¬ w.Busy .block none k → Gathered budget g₀ blocks w.graph w.members (opener k) k

theorem Greedy.sound (h : Greedy base budget g₀ blocks w) : Sound .block base none w := by
  obtain ⟨opener, hu, _⟩ := h.gathered
  exact ⟨⟨opener, hu⟩, h.seeded⟩

/-- A visit leaves its region gathered, and the regions that were visited before. -/
theorem Greedy.turn (hbudget : 0 < budget) (h : Greedy base budget g₀ blocks w)
    (hwork : w.worklist = n :: rest) (hturn : BlockTurn budget n i w w₁ w₂ w') :
    Greedy base budget g₀ blocks w' := by
  have hs := h.sound
  obtain ⟨_, ht, htracked, opener, hu, hgathered⟩ := h
  -- The blocks are tracked from the one that is taken to those that open regions.
  have htracked₁ := htracked.taken hs ht hwork hturn
  have hs₁ : Sound .block base (some i) w₁ := hs.move hturn.taken
  have hs₂ : Sound .block base (some i) w₂ := hs₁.moves hturn.growth
  obtain ⟨ns, hswells⟩ := hs.swells_turn ht hturn hbudget
  obtain ⟨opener₁, hu₁⟩ := hs₁.underway
  obtain ⟨opener₂, hu₂⟩ := hs₂.underway
  have htracked₂ : Tracked budget g₀ blocks (some i) w₂ :=
    htracked₁.evolves hu₁ (hswells.evolves hu₁)
  have htracked' : Tracked budget g₀ blocks none w' :=
    htracked₂.evolves hu₂ (hturn.left.evolves hu₂)
  obtain ⟨opener', hu', hidle⟩ := hu.idle_turn hs ht hwork hturn hbudget
  refine ⟨(hs.moves hturn.moves).seeded, hs.tallied_moves hbudget ht hturn.moves, htracked',
    opener', hu', fun k hk hnot => ?_⟩
  obtain ⟨hk, hsame, hleaves, hcases⟩ := hidle k hk hnot
  have howner := hu.grouped.owner_opener hk
  rw [hsame]
  rcases hcases with ⟨rfl, hopener⟩ | ⟨hbefore, hrests⟩
  · rw [hopener] at howner ⊢
    have howner₂ := owner_eq_of_steps (hs.steps (.head hturn.taken hturn.growth)) howner
    exact (htracked.gathered_turn hs ht hwork hturn hbudget htracked₂).rests hleaves howner₂
      htracked₂ htracked'
  · exact (hgathered k hk hbefore).rests hrests howner htracked htracked'

/-- The loop of a first pass gathers regions greedily. -/
theorem FirstPass.greedy (h : FirstPass budget blocks w w₁ w₂) (hbudget : 0 < budget)
    (hv : w.graph.verify blocks = .ok ()) (hnodup : blocks.Nodup)
    (hexact : Exact w.graph blocks) :
    Greedy w.graph.intervals.size budget w.graph blocks w₂ := by
  have hstart : Greedy w.graph.intervals.size budget w.graph blocks w₁ := by
    obtain ⟨⟨opener, hu⟩, hseeded⟩ := h.sound
    exact ⟨hseeded, h.tallied_start (FlowGraph.verify_eq_ok hv).1 hexact,
      h.tracked_start hv hnodup, opener, hu, fun k hk hidle => absurd (h.busy_start hk) hidle⟩
  refine (drain_induction (P := Greedy w.graph.intervals.size budget w.graph blocks) ?_ hstart
    h.looped).1
  intro n rest u u' hwork hu hvisit
  obtain ⟨_, _, _, hturn⟩ := (visitBlock_ends hu.sound hwork).of_eq_ok hvisit
  exact hu.turn hbudget hwork hturn

/-- All regions are gathered when the loop of a first pass ends. -/
theorem FirstPass.gathered (h : FirstPass budget blocks w w₁ w₂) (hbudget : 0 < budget)
    (hv : w.graph.verify blocks = .ok ()) (hnodup : blocks.Nodup)
    (hexact : Exact w.graph blocks) :
    Tracked budget w.graph blocks none w₂ ∧
      ∃ opener, Underway .block w.graph.intervals.size none opener w₂ ∧
        ∀ k ∈ w₂.opened, Gathered budget w.graph blocks w₂.graph w₂.members (opener k) k := by
  obtain ⟨_, _, htracked, opener, hu, hgathered⟩ := h.greedy hbudget hv hnodup hexact
  exact ⟨htracked, opener, hu, fun k hk => hgathered k hk (h.not_busy_end k)⟩

end KernelIntervals
