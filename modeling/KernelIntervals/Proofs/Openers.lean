/-
The node that opened an interval.

* `OpenedBy` — the node that opened an interval in the rounds of a loop,
* `Enlists` — within a visit, nodes begin to wait one for each new interval,
* `Queued` — so nodes that wait go on waiting, and a new interval has one,
* `Rounds` — what the rounds of the loops of both passes have in common,
* `Rounds.openedBy_iff` — an interval was opened by the opener of its region, and by no
  other node,
* `blockRounds`, `intervalRounds` — the loops of both passes are such.

Design notes: a workspace does not say who opened an interval. But a node waits from the
moment it opens one until it is visited, and no other member of the interval ever waits.
-/
import KernelIntervals.Proofs.CoarseBudget
import KernelIntervals.Proofs.Partition

namespace KernelIntervals

open Function Relation

/-- In the loop that starts in `w`, the node `n` opens the interval `i`: before some round it
waits for the visit of `i`. -/
def OpenedBy (l : Level) (v : Visit) (w : Workspace) (i : IntervalId) (n : Nat) : Prop :=
  ∃ u, ReflTransGen (Turn v) w u ∧ n ∈ u.worklist ∧ u.graph.owner l n = some i

variable {l : Level} {base budget : Nat} {v : Visit} {w w' w'' w₁ w₂ : Workspace} {n : Nat}
  {i j : IntervalId} {b : Block} {opener opener' : IntervalId → Nat} {limits : CoarsenLimits}
  {m m' : Moment} {current : Option IntervalId} {I : Workspace → Prop}

/-! ### Within a visit -/

/-- What begins to wait comes behind what waits already, and new intervals come behind those that
are there. The nodes that begin to wait are members of the new intervals, one each and in the same
order, and no node loses its owner. -/
structure Enlists (l : Level) (w w' : Workspace) : Prop where
  owner_eq : ∀ {m j}, w.graph.owner l m = some j → w'.graph.owner l m = some j
  enlisted : ∃ ns is, w'.worklist = w.worklist ++ ns ∧ w'.opened = w.opened ++ is ∧
    ns.map (w'.graph.owner l) = is.map some

theorem map_owner_eq {ns : List Nat} {is : List IntervalId} {g g' : FlowGraph}
    (hkept : ∀ {m j}, g.owner l m = some j → g'.owner l m = some j)
    (h : ns.map (g.owner l) = is.map some) : ns.map (g'.owner l) = is.map some := by
  rw [← h]
  refine List.map_congr_left fun m hm => ?_
  obtain ⟨j, _, hj⟩ := List.mem_map.mp (h ▸ List.mem_map_of_mem hm)
  rw [← hj, hkept hj.symm]

theorem Enlists.trans (h : Enlists l w w') (h' : Enlists l w' w'') : Enlists l w w'' where
  owner_eq hj := h'.owner_eq (h.owner_eq hj)
  enlisted := by
    obtain ⟨ns, is, hwork, hopened, howner⟩ := h.enlisted
    obtain ⟨ns', is', hwork', hopened', howner'⟩ := h'.enlisted
    refine ⟨ns ++ ns', is ++ is', ?_, ?_, ?_⟩
    · rw [hwork', hwork, List.append_assoc]
    · rw [hopened', hopened, List.append_assoc]
    · rw [List.map_append, List.map_append, map_owner_eq h'.owner_eq howner, howner']

/-- Nothing begins to wait where no interval is made. -/
theorem enlists_of_eq (hwork : w'.worklist = w.worklist) (hopened : w'.opened = w.opened)
    (howner : ∀ {m j}, w.graph.owner l m = some j → w'.graph.owner l m = some j) :
    Enlists l w w' :=
  ⟨howner, [], [], by rw [hwork, List.append_nil], by rw [hopened, List.append_nil], rfl⟩

theorem Alike.enlists (h : Alike l w w') : Enlists l w w' :=
  enlists_of_eq h.worklist h.opened fun hj => by rwa [h.owner]

/-- A node that opens an interval waits. -/
theorem enlists_openGroup (hn : n < w.graph.extent l) (hfree : w.graph.owner l n = none) :
    Enlists l w (w.openGroup l n) := by
  have howner := owner_openGroup hn
  constructor
  · intro m j hown
    rw [howner]
    exact owner_update hfree hown
  · refine ⟨[n], [w.graph.intervals.size], rfl, rfl, ?_⟩
    rw [howner, List.map_singleton, update_self]
    rfl

theorem Opens.enlists (h : Opens l w w') : Enlists l w w' := by
  induction h with
  | refl => exact enlists_of_eq rfl rfl id
  | tail _ hstep ih =>
    obtain ⟨n, _, hn, hfree, _, rfl⟩ := hstep
    exact ih.trans (enlists_openGroup hn hfree)

theorem enlists_assign (hn : n < w.graph.extent l) (hfree : w.graph.owner l n = none) :
    Enlists l w (w.assign l n i) := by
  refine enlists_of_eq rfl rfl fun {m j} hown => ?_
  show (w.graph.assign l n (some i)).owner l m = some j
  rw [FlowGraph.owner_assign _ hn]
  exact owner_update hfree hown

/-- If a block is split, its tail waits. -/
theorem Settled.enlists (h : Settled budget n b w w') (hb : w.graph.block? n = some b) :
    Enlists .block w w' := by
  cases h with
  | whole => exact (alike_whole w n _).enlists
  | @parted place name g' log hpoint hg =>
    have hcut : Enlists .block w
        { w with graph := g', log, members := w.members ++ [w.graph.blocks.size] } :=
      enlists_of_eq rfl rfl fun {m j} hj => by
        show g'.owner .block m = some j
        rw [hg.owner hb, hj]
    exact hcut.trans (enlists_openGroup hg.size_lt hg.owner_tail)

theorem Sound.enlists_join (h : Sound .block base (some i) w) (hm : Joins budget i n w w') :
    Enlists .block w w' := by
  obtain ⟨hn, hadm, live, b, w₁, _, hb, hset, hsync⟩ := hm
  have hclaim : Enlists .block w (w.claim i n live) :=
    (enlists_assign (h.lt_extent hn) hadm.free).trans (alike_claim w i n live).enlists
  exact (hclaim.trans (hset.enlists hb)).trans hsync.alike.enlists

theorem Sound.enlists_scan {ns : List BlockId} (h : Sound .block base (some i) w)
    (hscan : Scan budget i ns w w') : Enlists .block w w' := by
  induction hscan with
  | done => exact enlists_of_eq rfl rfl id
  | decline marker _ _ ih =>
    exact (alike_marker ..).enlists.trans (ih (h.alike (alike_marker .block _ marker)))
  | join marker hjoins _ ih =>
    have h' := h.alike (alike_marker .block _ marker)
    exact ((alike_marker ..).enlists.trans (h'.enlists_join hjoins)).trans
      (ih (h'.move hjoins.move))

/-- A visit of a block makes new intervals that wait. -/
theorem Sound.enlists_turn {rest : List BlockId} (h : Sound .block base none w)
    (hwork : w.worklist = n :: rest) (ht : BlockTurn budget n i w w₁ w₂ w') :
    Enlists .block { w with worklist := rest } w' := by
  have h₁ : Sound .block base (some i) w₁ := h.move ht.taken
  have htake : Enlists .block { w with worklist := rest } w₁ := by
    cases ht.taken with
    | take hwork' hown hb hset hsync =>
      rw [hwork] at hwork'
      injection hwork' with _ hrest
      subst hrest
      exact (hset.enlists hb).trans hsync.alike.enlists
  refine (htake.trans ?_).trans ht.left.opens.enlists
  rcases ht.grown with hscan | ⟨rfl, _⟩
  · exact h₁.enlists_scan hscan
  · exact enlists_of_eq rfl rfl id

theorem Under.enlists_growth (h : Under base (some i) w) (hg : IntervalGrowth limits i w w') :
    Enlists .interval w w' := by
  induction hg with
  | refl => exact enlists_of_eq rfl rfl id
  | @tail w₁ w₂ hpath hstep ih =>
    obtain ⟨⟨⟨opener, hu⟩, _⟩, _⟩ := h.moves (IntervalGrowth.moves hpath)
    refine ih.trans ?_
    cases hstep with
    | mark marker => exact (alike_marker ..).enlists
    | fold hn hfold =>
      exact (enlists_assign (hu.exists_node _ hn) hfold.free).trans (alike_fold ..).enlists

/-- A visit of an interval makes new coarse intervals that wait. -/
theorem Under.enlists_turn {rest : List IntervalId} (h : Under base none w)
    (hwork : w.worklist = n :: rest) (ht : IntervalTurn limits i w w₁ w₂ w') :
    Enlists .interval { w with worklist := rest } w' := by
  have hrest : ∀ {n' rest'}, w.worklist = n' :: rest' → rest' = rest := by
    intro n' rest' hwork'
    rw [hwork] at hwork'
    injection hwork' with _ hrest
    exact hrest.symm
  have h₁ : Under base (some i) w₁ := h.move ht.taken
  have htake : Enlists .interval { w with worklist := rest } w₁ := by
    cases ht.taken with
    | take hwork' hown hroom =>
      obtain rfl := hrest hwork'
      exact (alike_setRegs ..).enlists
    | skip hwork' hown hfull =>
      obtain rfl := hrest hwork'
      exact enlists_of_eq rfl rfl id
  refine (htake.trans (h₁.enlists_growth ht.grown)).trans ?_
  cases ht.left with
  | leave hleaves _ => exact hleaves.opens.enlists

/-- Intervals that are still to be visited remain so, and so are those that are new. -/
structure Queued (l : Level) (w w' : Workspace) : Prop where
  busy : ∀ j, w.Busy l none j → w'.Busy l none j
  fresh : ∀ j ∈ w'.opened, j ∈ w.opened ∨ w'.Busy l none j

theorem Enlists.queued (h : Enlists l w w') : Queued l w w' := by
  obtain ⟨ns, is, hwork, hopened, howner⟩ := h.enlisted
  constructor
  · rintro j (hj | ⟨m, hm, hown⟩)
    · injection hj
    · exact .inr ⟨m, hwork ▸ List.mem_append_left ns hm, h.owner_eq hown⟩
  · intro j hj
    rw [hopened] at hj
    refine (List.mem_append.mp hj).imp_right fun hj => ?_
    obtain ⟨m, hm, hown⟩ := List.mem_map.mp (howner ▸ List.mem_map_of_mem hj)
    exact .inr ⟨m, hwork ▸ List.mem_append_right w.worklist hm, hown⟩

theorem Sound.queued_turn {rest : List BlockId} (h : Sound .block base none w)
    (hwork : w.worklist = n :: rest) (ht : BlockTurn budget n i w w₁ w₂ w') :
    Queued .block { w with worklist := rest } w' :=
  (h.enlists_turn hwork ht).queued

theorem Under.queued_turn {rest : List IntervalId} (h : Under base none w)
    (hwork : w.worklist = n :: rest) (ht : IntervalTurn limits i w w₁ w₂ w') :
    Queued .interval { w with worklist := rest } w' :=
  (h.enlists_turn hwork ht).queued

/-! ### Who opened an interval -/

/-- The rounds of a loop keep `I`, by which every entry has an owner. From round to round the
regions grow, and those that are new are still to be visited. -/
structure Rounds (l : Level) (base : Nat) (v : Visit) (I : Workspace → Prop) : Prop where
  seeded : ∀ {w}, I w → Seeded l w
  kept : ∀ {w w'}, I w → Turn v w w' → I w'
  grown : ∀ {w w' opener}, I w → Underway l base none opener w → Turn v w w' →
    GoesOn l base opener w none w'
  fresh : ∀ {w w'}, I w → Turn v w w' → ∀ j ∈ w'.opened, j ∈ w.opened ∨ w'.Busy l none j

namespace Rounds

variable (h : Rounds l base v I) (hw : I w)

include h hw

theorem goesOn (hu : Underway l base none opener w) (ht : ReflTransGen (Turn v) w w') :
    I w' ∧ GoesOn l base opener w none w' := by
  induction ht with
  | refl => exact ⟨hw, hu.goesOn (h.seeded hw)⟩
  | tail _ hturn ih =>
    obtain ⟨hI, ⟨opener', hu', hgrown⟩, _⟩ := ih
    exact ⟨h.kept hI hturn, (h.grown hI hu' hturn).after hgrown⟩

/-- Every interval was still to be visited in some round. -/
theorem exists_busy (hu : Underway l base none opener w)
    (hstart : ∀ j ∈ w.opened, w.Busy l none j) (ht : ReflTransGen (Turn v) w w')
    (hj : j ∈ w'.opened) : ∃ u, ReflTransGen (Turn v) w u ∧ u.Busy l none j := by
  induction ht with
  | refl => exact ⟨w, .refl, hstart j hj⟩
  | @tail w₁ w₂ hpath hturn ih =>
    have hI := (h.goesOn hw hu hpath).1
    exact (h.fresh hI hturn j hj).elim ih fun hbusy => ⟨w₂, hpath.tail hturn, hbusy⟩

/-- At the end of the loop, an interval was opened by the opener of its region and by no
other node. -/
theorem openedBy_iff (hu : Underway l base none opener w)
    (hstart : ∀ j ∈ w.opened, w.Busy l none j) (hloop : drain v w = .ok () w')
    (hu' : Underway l base none opener' w') (hi : i ∈ w'.opened) :
    OpenedBy l v w i n ↔ n = opener' i := by
  have hforward : ∀ n, OpenedBy l v w i n → n = opener' i := by
    rintro n ⟨u, hpath, hn, hown⟩
    obtain ⟨hI, ⟨openerᵤ, huᵤ, _⟩, _⟩ := h.goesOn hw hu hpath
    have hmem : i ∈ u.opened := huᵤ.grouped.mem_opened (huᵤ.waiting.mem hn) hown
    -- In that round the node is alone in its region, so it is the opener.
    obtain ⟨k, hk, halone⟩ := huᵤ.waiting.alone hn
    obtain rfl : k = i := Option.some.inj (hk.symm.trans hown)
    have hopener : openerᵤ k = n :=
      halone _ (huᵤ.grouped.opener_mem hmem) (huᵤ.grouped.owner_opener hmem)
    have hrest : ReflTransGen (Turn v) u w' := turns_of_drain ((drain_of_turns hpath).trans hloop)
    obtain ⟨_, ⟨opener'', hu'', hgrown⟩, _⟩ := h.goesOn hI huᵤ hrest
    have hsame : opener'' k = openerᵤ k := (hgrown.opener_eq hmem).2
    rw [← hopener, ← hsame]
    exact hu''.grouped.opener_unique hu'.grouped hu'.closed hi
  refine ⟨hforward n, ?_⟩
  rintro rfl
  obtain ⟨u, hpath, hk | ⟨m, hm, hown⟩⟩ := h.exists_busy hw hu hstart (turns_of_drain hloop) hi
  · injection hk
  · have hopened : OpenedBy l v w i m := ⟨u, hpath, hm, hown⟩
    exact hforward m hopened ▸ hopened

end Rounds

/-! ### Both passes -/

theorem blockRounds (base budget : Nat) :
    Rounds .block base (blockVisit budget) (Sound .block base none) where
  seeded := fun hw => hw.seeded
  kept := by
    rintro w w' hw ⟨n, rest, hwork, hvisit⟩
    obtain ⟨_, _, _, hturn⟩ := (visitBlock_ends hw hwork).of_eq_ok hvisit
    exact hw.moves hturn.moves
  grown := by
    rintro w w' opener hw hu ⟨n, rest, hwork, hvisit⟩
    obtain ⟨_, _, _, hturn⟩ := (visitBlock_ends hw hwork).of_eq_ok hvisit
    exact hu.blockMoves hw.seeded hturn.moves
  fresh := by
    rintro w w' hw ⟨n, rest, hwork, hvisit⟩
    obtain ⟨_, _, _, hturn⟩ := (visitBlock_ends hw hwork).of_eq_ok hvisit
    exact (hw.queued_turn hwork hturn).fresh

theorem intervalRounds (base : Nat) (limits : CoarsenLimits) :
    Rounds .interval base (intervalVisit limits) (Under base none) where
  seeded := fun hw => hw.sound.seeded
  kept := by
    rintro w w' hw ⟨n, rest, hwork, hvisit⟩
    obtain ⟨_, _, _, hturn⟩ := (visitInterval_ends hw hwork).of_eq_ok hvisit
    exact hw.moves hturn.moves
  grown := by
    rintro w w' opener hw hu ⟨n, rest, hwork, hvisit⟩
    obtain ⟨_, _, _, hturn⟩ := (visitInterval_ends hw hwork).of_eq_ok hvisit
    exact hu.intervalMoves hw.sound.seeded hturn.moves
  fresh := by
    rintro w w' hw ⟨n, rest, hwork, hvisit⟩
    obtain ⟨_, _, _, hturn⟩ := (visitInterval_ends hw hwork).of_eq_ok hvisit
    exact (hw.queued_turn hwork hturn).fresh

end KernelIntervals
