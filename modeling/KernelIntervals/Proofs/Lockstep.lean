/-
Two passes side by side over graphs that correspond.

* `Abreast` — two passes are at the same point, in graphs that correspond, and the first one has
  left alone what a pass leaves alone,
* `Onward` — they are so later on, and know no less,
* `Abreast.openGroup`, `Abreast.openFrontier`, `Abreast.markAncestors` — so they are after the steps
  that the passes of both levels share,
* `Abreast.complete` — they fill in their intervals with the same, or break off for the same
  reason,
* `startsAbreast` — two passes start abreast in graphs that correspond but for the owners of the
  nodes that are to be grouped.

Design notes: no step but the last one breaks off, as all that a pass comes to is known, and
what is known exists. A pass is abreast of itself; this is how it is shown that it does not break
off, and that it upholds the program.
-/
import KernelIntervals.Proofs.Agreement
import KernelIntervals.Proofs.Findings
import KernelIntervals.Proofs.SecondPass
import KernelIntervals.Proofs.Upkeep

namespace KernelIntervals

open Function

/-- The blocks of the program while a pass runs: a pass over blocks adds to them. -/
def Workspace.listed (w : Workspace) (blocks : List BlockId) : Level → List BlockId
  | .block => w.members
  | .interval => blocks

/-- A node is one of those that correspond. -/
def Workspace.Knows (w : Workspace) (C : Kinship) (p : Program) (l : Level) (n : Nat) : Prop :=
  C.Knows (w.listed p.blocks l) w.graph l n

/-- What a pass over the program `p` has left alone: over blocks, the program is upheld, and over
intervals, they are as they were, apart from the owners of those that are grouped. -/
def Past (C : Kinship) (p : Program) (w : Workspace) : Level → Prop
  | .block => Upheld p ⟨w.graph, w.members⟩
  | .interval => Kept C.base C.old p.graph w.graph

/-- Two passes over the program `p`, and over one that corresponds to it, are at the same point. -/
structure Abreast (C : Kinship) (p : Program) (l : Level) (w w' : Workspace) : Prop where
  kin : Kin C (w.listed p.blocks l) w.graph w'.graph
  members : w'.members = w.members.map (C.num l)
  opened : w'.opened = w.opened.map (C.num .interval)
  worklist : w'.worklist = w.worklist.map (C.num l)
  knows : ∀ n ∈ w.members, w.Knows C p l n
  waiting : ∀ n ∈ w.worklist, w.Knows C p l n ∧ w.graph.owner l n ≠ none
  made : ∀ i ∈ w.opened, C.New w.graph i
  past : Past C p w l

/-- From `w` on, two passes have gone on abreast, to `u` and `u'`. -/
structure Onward (C : Kinship) (p : Program) (l : Level) (w u u' : Workspace) : Prop where
  abreast : Abreast C p l u u'
  knows : ∀ n, w.Knows C p l n → u.Knows C p l n
  new : ∀ i, C.New w.graph i → C.New u.graph i

variable {C : Kinship} {p : Program} {l : Level} {w w' u u' v v' : Workspace} {n : Nat}
  {i : IntervalId} {breaks : Fault → Workspace → Fault → Workspace → Prop}

theorem Abreast.onward (h : Abreast C p l w w') : Onward C p l w w w' :=
  ⟨h, fun _ => id, fun _ => id⟩

theorem Onward.trans (h : Onward C p l w u u') (h' : Onward C p l u v v') : Onward C p l w v v' :=
  ⟨h'.abreast, fun n hn => h'.knows n (h.knows n hn), fun i hi => h'.new i (h.new i hi)⟩

theorem Onward.agree {r : EStateM.Result Fault Workspace Unit}
    {r' : EStateM.Result Fault Workspace Unit} (h : Onward C p l w u u')
    (hr : Agree (fun _ v _ v' => Onward C p l u v v') breaks r r') :
    Agree (fun _ v _ v' => Onward C p l w v v') breaks r r' :=
  hr.mono_ends fun _ _ _ _ h' => h.trans h'

/-- Steps for known nodes, one after the other. -/
theorem Abreast.forM {f f' : Nat → Pass Unit} {xs : List Nat}
    (hstep : ∀ x u u', Onward C p l w u u' → u.Knows C p l x →
      Agree (fun _ v _ v' => Onward C p l u v v') breaks (f x u) (f' (C.num l x) u'))
    (h : Abreast C p l w w') (hxs : ∀ x ∈ xs, w.Knows C p l x) :
    Agree (fun _ u _ u' => Onward C p l w u u') breaks (xs.forM f w)
      ((xs.map (C.num l)).forM f' w') :=
  agree_forM_inv (P := Onward C p l w) (fun x hx u u' hu =>
    hu.agree (hstep x u u' hu (hu.knows x (hxs x hx)))) h.onward

/-! ### What a step leaves alone -/

/-- What a single change of a graph leaves alone in a pass. -/
def Spares (C : Kinship) (g g' : FlowGraph) : Level → Prop
  | .block => g'.frame? = g.frame? ∧ g'.blocks.size = g.blocks.size
  | .interval => Kept C.base C.old g g'

theorem Past.spares (h : Past C p w l) (hs : Spares C w.graph u.graph l)
    (hmembers : u.members = w.members) : Past C p u l := by
  cases l with
  | block =>
    have hstep := h.wellFormed.upheld_of_frame hs.2 hs.1
    rw [Past, hmembers]
    exact h.trans hstep
  | interval => exact Kept.trans h hs

theorem spares_of_blocks_eq {g g' : FlowGraph} (hblocks : g'.blocks = g.blocks)
    (hkept : Kept C.base C.old g g') : Spares C g g' l := by
  cases l with
  | block => exact ⟨FlowGraph.frame?_congr hblocks, congrArg Arena.size hblocks⟩
  | interval => exact hkept

theorem spares_modifyInterval (g : FlowGraph) (hi : C.base ≤ i) (f : Interval → Interval) :
    Spares C g (g.modifyInterval i f) l :=
  spares_of_blocks_eq rfl (.modifyInterval _ _ hi f)

theorem spares_addInterval (g : FlowGraph) : Spares C g (g.addInterval {}) l :=
  spares_of_blocks_eq rfl (.addInterval ..)

theorem spares_assign {blocks : List BlockId} {g : FlowGraph} (hn : C.Knows blocks g l n)
    (hlt : n < g.extent l) (o : Option IntervalId) : Spares C g (g.assign l n o) l := by
  cases l with
  | block =>
    exact ⟨FlowGraph.frame?_modifyBlock fun _ => rfl, Arena.size_modify ..⟩
  | interval =>
    refine Kept.assign _ (fun hbase => hn.2.resolve_left (Nat.not_le.mpr hbase)) hlt o

namespace Abreast

variable (h : Abreast C p l w w')

include h

theorem lt_extent (hn : w.Knows C p l n) : n < w.graph.extent l := h.kin.lt_extent hn

/-- A change of corresponding nodes that keeps the lists and gives no waiting node back. -/
theorem change (hkin : Kin C (w.listed p.blocks l) u.graph u'.graph)
    (hmembers : u.members = w.members) (hopened : u.opened = w.opened)
    (hwork : u.worklist = w.worklist) (hmembers' : u'.members = w'.members)
    (hopened' : u'.opened = w'.opened) (hwork' : u'.worklist = w'.worklist)
    (hsize : u.graph.intervals.size = w.graph.intervals.size)
    (howner : ∀ n, w.graph.owner l n ≠ none → u.graph.owner l n ≠ none)
    (hspares : Spares C w.graph u.graph l) : Onward C p l w u u' := by
  have hlisted : u.listed p.blocks l = w.listed p.blocks l := by
    cases l with
    | block => exact hmembers
    | interval => rfl
  have hle := Nat.le_of_eq hsize.symm
  have hknows : ∀ n, w.Knows C p l n → u.Knows C p l n := fun n hn => by
    rw [Workspace.Knows, hlisted]
    exact hn.mono hle
  have hnew : ∀ i, C.New w.graph i → C.New u.graph i := fun i hi => hi.mono hle
  refine ⟨⟨hlisted ▸ hkin, ?_, ?_, ?_, ?_, ?_, ?_, h.past.spares hspares hmembers⟩, hknows, hnew⟩
  · rw [hmembers', hmembers, h.members]
  · rw [hopened', hopened, h.opened]
  · rw [hwork', hwork, h.worklist]
  · rw [hmembers]
    exact fun n hn => hknows n (h.knows n hn)
  · rw [hwork]
    exact fun n hn => ⟨hknows n (h.waiting n hn).1, howner n (h.waiting n hn).2⟩
  · rw [hopened]
    exact fun i hi => hnew i (h.made i hi)

/-- The first nodes that wait are taken from the worklists. -/
theorem pop {rest : List Nat} (hwork : w.worklist = n :: rest) :
    Abreast C p l { w with worklist := rest } { w' with worklist := rest.map (C.num l) } := by
  refine ⟨?_, h.members, h.opened, rfl, ?_, fun m hm => ?_, h.made, ?_⟩
  · cases l <;> exact h.kin
  · cases l <;> exact h.knows
  · have hwait := h.waiting m (hwork ▸ List.mem_cons_of_mem n hm)
    cases l <;> exact hwait
  · cases l <;> exact h.past

/-! ### Opening intervals -/

omit h in
theorem le_size_openGroup :
    w.graph.intervals.size ≤ (w.openGroup l n).graph.intervals.size :=
  size_openGroup ▸ Nat.le_succ _

omit h in
theorem knows_openGroup {m : Nat} (hm : w.Knows C p l m) : (w.openGroup l n).Knows C p l m := by
  cases l with
  | block => exact hm
  | interval => exact Kinship.Knows.mono hm le_size_openGroup

omit h in
theorem knows_addInterval (hn : w.Knows C p l n) :
    C.Knows (w.listed p.blocks l) (w.graph.addInterval {}) l n :=
  hn.mono (Nat.le_of_lt (Arena.size_alloc .. ▸ Nat.lt_succ_self _))

theorem kin_openGroup (hn : w.Knows C p l n) :
    Kin C (w.listed p.blocks l) (w.openGroup l n).graph (w'.openGroup l (C.num l n)).graph := by
  have hsize : (w.graph.addInterval {}).intervals.size = w.graph.intervals.size + 1 :=
    Arena.size_alloc ..
  have hassign := h.kin.addInterval.assign (knows_addInterval hn) (o := some w.graph.intervals.size)
    (fun i hi => by
      obtain rfl := Option.some.inj hi
      exact ⟨h.kin.base_le, hsize ▸ Nat.lt_succ_self _⟩)
  rw [Option.map_some, h.kin.num_size] at hassign
  exact hassign

theorem past_openGroup (hn : w.Knows C p l n) : Past C p (w.openGroup l n) l := by
  have hadded := knows_addInterval hn
  have hpast : Past C p { w with graph := w.graph.addInterval {} } l :=
    h.past.spares (spares_addInterval w.graph) rfl
  exact hpast.spares (spares_assign hadded (h.kin.addInterval.lt_extent hadded) _) rfl

/-- Corresponding nodes open intervals. -/
theorem openGroup (hn : w.Knows C p l n) :
    Onward C p l w (w.openGroup l n) (w'.openGroup l (C.num l n)) := by
  have hkin := h.kin_openGroup hn
  have hnew : ∀ i, C.New w.graph i → C.New (w.openGroup l n).graph i :=
    fun i hi => hi.mono le_size_openGroup
  have hmade : C.New (w.openGroup l n).graph w.graph.intervals.size :=
    ⟨h.kin.base_le, size_openGroup ▸ Nat.lt_succ_self _⟩
  refine ⟨⟨?_, h.members, ?_, ?_, fun m hm => knows_openGroup (h.knows m hm), fun m hm => ?_,
    fun i hi => ?_, h.past_openGroup hn⟩, fun _ => knows_openGroup, hnew⟩
  · cases l with
    | block => exact hkin
    | interval => exact hkin
  · show w'.opened ++ [w'.graph.intervals.size] = (w.opened ++ [w.graph.intervals.size]).map _
    rw [List.map_append, h.opened, List.map_singleton, h.kin.num_size]
  · show w'.worklist ++ [C.num l n] = (w.worklist ++ [n]).map _
    rw [List.map_append, h.worklist, List.map_singleton]
  · rw [owner_openGroup (h.lt_extent hn)]
    rcases List.mem_append.mp hm with hm | hm
    · exact ⟨knows_openGroup (h.waiting m hm).1, owner_update_ne_none fun _ => (h.waiting m hm).2⟩
    · rw [List.mem_singleton.mp hm, update_self]
      exact ⟨knows_openGroup hn, Option.some_ne_none _⟩
  · rcases List.mem_append.mp hi with hi | hi
    · exact hnew i (h.made i hi)
    · exact List.mem_singleton.mp hi ▸ hmade

/-- A node opens an interval unless it is a member of one. -/
theorem openFree (hn : w.Knows C p l n) : Agree (fun _ u _ u' => Onward C p l w u u') breaks
    (Pass.openFree l n w) (Pass.openFree l (C.num l n) w') := by
  obtain ⟨free, hfree, hfree'⟩ := h.kin.unowned hn
  refine Agree.bind (Pass.agree_query hfree hfree' ?_)
  cases free with
  | false => exact agree_pure h.onward
  | true => exact agree_modify (h.openGroup hn)

theorem openFrontier (i : IntervalId) : Agree (fun _ u _ u' => Onward C p l w u u') breaks
    (Pass.openFrontier l i w) (Pass.openFrontier l (C.num .interval i) w') := by
  obtain ⟨found, hfound, hfound', hknows⟩ := h.kin.frontier i h.knows
  rw [← h.members] at hfound'
  refine Agree.bind (Pass.agree_survey hfound hfound' ?_)
  exact Abreast.forM (fun x u u' hu hx => hu.abreast.openFree hx) h hknows

/-! ### Marking ancestors -/

/-- Corresponding nodes have the same ancestors. -/
theorem markAncestors (hn : w.Knows C p l n) :
    Agree (fun _ u _ u' => ∃ m m', SameMarks (w.Knows C p l) (C.num l) m m' ∧
        u = { w with marker := m } ∧ u' = { w' with marker := m' }) breaks
      (Pass.markAncestors l n w) (Pass.markAncestors l (C.num l n) w') := by
  have hrow : ∀ k, w.Knows C p l k → ∃ a : Node, (w.graph.predTable l)[k]? = some a.preds ∧
      (w'.graph.predTable l)[C.num l k]? = some (a.preds.map (C.num l)) ∧
      ∀ x ∈ a.preds, w.Knows C p l x := by
    intro k hk
    obtain ⟨a, a', ha, ha', hakin⟩ := h.kin.node l k hk
    refine ⟨a, ?_, ?_, hakin.pred_known⟩
    · rw [FlowGraph.getElem?_predTable, ha]
      rfl
    · rw [FlowGraph.getElem?_predTable, ha', ← hakin.preds]
      rfl
  have hmark : Agree (fun _ u _ u' => SameMarks (w.Knows C p l) (C.num l) u u')
      (fun e _ f _ => f = e ∧ ∃ k, w.Knows C p l k ∧ (w.graph.predTable l)[k]? = none)
      (Marker.mark (w.graph.predTable l) n w.marker)
      (Marker.mark (w'.graph.predTable l) (C.num l n) w'.marker) := agree_mark (C.num_injective l)
    (fun k hk => by
      obtain ⟨a, hrow, hrow', _⟩ := hrow k hk
      rw [hrow, hrow', Option.map_some])
    (fun k ps hk hps => by
      obtain ⟨a, hrow, _, hknown⟩ := hrow k hk
      obtain rfl := Option.some.inj (hrow.symm.trans hps)
      exact hknown)
    hn w.marker w'.marker
  refine (Pass.agree_markAncestors hmark).mono ?_ ?_
  · rintro _ _ _ _ ⟨m, m', hmarks, rfl, rfl⟩
    exact ⟨m, m', hmarks, rfl, rfl⟩
  · rintro _ _ _ _ ⟨_, _, ⟨_, k, hk, hnone⟩, _, _⟩
    obtain ⟨a, hrow, _⟩ := hrow k hk
    rw [hnone] at hrow
    injection hrow

theorem remark (m m' : Marker) :
    Onward C p l w { w with marker := m } { w' with marker := m' } :=
  h.change h.kin rfl rfl rfl rfl rfl rfl rfl (fun _ => id) <| by
    cases l with
    | block => exact ⟨rfl, rfl⟩
    | interval => exact .refl ..

/-- Two new intervals that correspond are changed, but not what they are members of. -/
theorem updateInterval (hi : C.New w.graph i) {f f' : Interval → Interval}
    (hf : ∀ v, (f v).nextLevel = v.nextLevel)
    (hkin : Kin C (w.listed p.blocks l) (w.graph.modifyInterval i f)
      (w'.graph.modifyInterval (C.num .interval i) f')) :
    Agree (fun _ u _ u' => Onward C p l w u u') breaks
      (Pass.edit (Edit.updateInterval i f) w)
      (Pass.edit (Edit.updateInterval (C.num .interval i) f') w') := by
  obtain ⟨v, v', hv, hv', _⟩ := h.kin.interval hi.knows
  refine Pass.agree_updateInterval hv hv' (h.change hkin rfl rfl rfl rfl rfl rfl
    (Arena.size_modify ..) (fun n hn => ?_) (spares_modifyInterval _ hi.1 f))
  have howner : (w.graph.modifyInterval i f).owner l = w.graph.owner l :=
    FlowGraph.see_modifyInterval hf
  rw [howner]
  exact hn

theorem setRegs (hi : C.New w.graph i) {regs regs' : RegSet} (hregs : C.regs regs regs') :
    Agree (fun _ u _ u' => Onward C p l w u u') breaks
      (Pass.edit (Edit.updateInterval i ({ · with regs })) w)
      (Pass.edit (Edit.updateInterval (C.num .interval i) ({ · with regs := regs' })) w') :=
  h.updateInterval hi (fun _ => rfl) (h.kin.setRegs i hregs)

end Abreast

/-! ### Filling in -/

namespace Fault

/-- The fault with another number for the interval that it is about. -/
def renumber (ρ : IntervalId → IntervalId) : Fault → Fault
  | .interval (.registerOutOfRange i source) => .interval (.registerOutOfRange (ρ i) source)
  | .interval (.budgetViolation i regs budget) => .interval (.budgetViolation (ρ i) regs budget)
  | fault => fault

/-- A fault for which an interval is not filled in. -/
inductive IsRefusal (budget : Nat) : Fault → Prop
  | outOfRange (i : IntervalId) (source : RegOutOfRange) :
      IsRefusal budget (.interval (.registerOutOfRange i source))
  | overBudget (i : IntervalId) (regs : Nat) :
      IsRefusal budget (.interval (.budgetViolation i regs budget))

end Fault

/-- Two passes break off abreast, as corresponding intervals are not filled in. -/
structure RefusedAbreast (C : Kinship) (p : Program) (l : Level) (budget : Nat) (e : Fault)
    (u : Workspace) (f : Fault) (u' : Workspace) : Prop where
  abreast : Abreast C p l u u'
  refusal : e.IsRefusal budget
  renumbered : f = e.renumber (C.num .interval)

namespace Abreast

/-- Corresponding intervals are filled in, or are refused for the same reason. -/
theorem completeOne (budget : Nat) (h : Abreast C p l w w') (hi : C.New w.graph i) :
    Agree (fun _ u _ u' => Onward C p l w u u') (RefusedAbreast C p l budget)
      (Pass.completeOne l budget i w) (Pass.completeOne l budget (C.num .interval i) w') := by
  obtain ⟨s, s', hs, hs', hakin⟩ := h.kin.summary i h.knows
  rw [← h.members] at hs'
  refine Agree.bind (Pass.agree_survey hs hs' ?_)
  have herror := C.error_iff hakin.regs
  cases hvector : RegVector.ofSet s.regs with
  | error source =>
    rw [(herror source).mpr hvector]
    exact agree_throw ⟨h, .outOfRange i source, rfl⟩
  | ok vector =>
    cases hvector' : RegVector.ofSet s'.regs with
    | error source =>
      have hnone := (herror source).mp hvector'
      rw [hvector] at hnone
      injection hnone
    | ok vector' =>
      dsimp only
      rw [C.size_eq hakin.regs]
      by_cases hover : budget ≤ s.regs.size
      · rw [if_pos hover, if_pos hover]
        exact agree_throw ⟨h, .overBudget i s.regs.size, rfl⟩
      · rw [if_neg hover, if_neg hover]
        exact h.updateInterval hi (fun _ => rfl) (h.kin.fill hakin i vector vector')

/-- All new intervals are filled in, or corresponding ones are refused for the same reason. -/
theorem complete (budget : Nat) (h : Abreast C p l w w') :
    Agree (fun _ u _ u' => Onward C p l w u u') (RefusedAbreast C p l budget)
      (Pass.complete l budget w) (Pass.complete l budget w') := by
  show Agree _ _ (w.opened.forM (Pass.completeOne l budget) w)
    (w'.opened.forM (Pass.completeOne l budget) w')
  rw [h.opened]
  exact agree_forM_inv (P := Onward C p l w) (fun i hi u u' hu =>
    hu.agree (hu.abreast.completeOne budget (hu.new i (h.made i hi)))) h.onward

end Abreast

/-! ### Starting -/

namespace FlowGraph

/-- The graph without owners for some nodes. -/
def clear (g : FlowGraph) (l : Level) (nodes : List Nat) : FlowGraph :=
  nodes.foldl (fun g n => g.assign l n none) g

theorem extent_clear (g : FlowGraph) (l : Level) (nodes : List Nat) :
    (g.clear l nodes).extent = g.extent := by
  induction nodes generalizing g with
  | nil => rfl
  | cons n nodes ih => exact (ih _).trans (funext fun _ => extent_assign none)

end FlowGraph

/-- Graphs that correspond do so without the owners of known nodes. -/
theorem Kin.clear {blocks : List BlockId} {g g' : FlowGraph} {nodes : List Nat}
    (hk : Kin C blocks g g') (hnodes : ∀ n ∈ nodes, C.Knows blocks g l n) :
    Kin C blocks (g.clear l nodes) (g'.clear l (nodes.map (C.num l))) := by
  induction nodes generalizing g g' with
  | nil => exact hk
  | cons n nodes ih =>
    have hassign : Kin C blocks (g.assign l n none) (g'.assign l (C.num l n) none) :=
      hk.assign (hnodes n List.mem_cons_self) fun _ hi => by injection hi
    have hsize : (g.assign l n none).intervals.size = g.intervals.size :=
      (FlowGraph.extent_assign none : (g.assign l n none).extent .interval = _)
    exact ih hassign fun m hm =>
      (hnodes m (List.mem_cons_of_mem n hm)).mono (Nat.le_of_eq hsize.symm)

/-- Two passes start abreast: what is left is to take the owners of `rest` away. -/
structure Releasing (C : Kinship) (p : Program) (l : Level) (nodes rest : List Nat)
    (w w' : Workspace) : Prop where
  kin : Kin C (w.listed p.blocks l) (w.graph.clear l rest) (w'.graph.clear l (rest.map (C.num l)))
  members : w.members = nodes ∧ w'.members = nodes.map (C.num l)
  opened : w.opened = [] ∧ w'.opened = []
  worklist : w.worklist = [] ∧ w'.worklist = []
  knows : ∀ n ∈ nodes, w.Knows C p l n
  left : ∀ n ∈ rest, n ∈ nodes
  past : Past C p w l

namespace Releasing

variable {nodes rest : List Nat}

/-- The next node loses its owner. -/
theorem step (h : Releasing C p l nodes (n :: rest) w w') :
    Agree (fun _ u _ u' => Releasing C p l nodes rest u u') breaks (Pass.release l n w)
      (Pass.release l (C.num l n) w') := by
  have hn := h.knows n (h.left n List.mem_cons_self)
  have hextent := FlowGraph.extent_clear w.graph l (n :: rest)
  have hextent' := FlowGraph.extent_clear w'.graph l ((n :: rest).map (C.num l))
  have hn' : C.Knows (w.listed p.blocks l) (w.graph.clear l (n :: rest)) l n :=
    hn.mono (Nat.le_of_eq (congrFun hextent .interval).symm)
  have hlt : n < w.graph.extent l := by
    rw [← hextent]
    exact h.kin.lt_extent hn'
  have hlt' : C.num l n < w'.graph.extent l := by
    rw [← hextent']
    exact h.kin.lt_extent_num hn'
  refine Agree.bind (Pass.agree_query (FlowGraph.node?_eq_some hlt) (FlowGraph.node?_eq_some hlt')
    (agree_modify ?_))
  have hsize : (w.graph.assign l n none).intervals.size = w.graph.intervals.size :=
    (FlowGraph.extent_assign none : (w.graph.assign l n none).extent .interval = _)
  refine ⟨?_, h.members, h.opened, h.worklist, fun m hm => ?_,
    fun m hm => h.left m (List.mem_cons_of_mem n hm), h.past.spares (spares_assign hn hlt none) rfl⟩
  · cases l with
    | block => exact h.kin
    | interval => exact h.kin
  · have hm := h.knows m hm
    cases l with
    | block => exact hm
    | interval => exact Kinship.Knows.mono hm (Nat.le_of_eq hsize.symm)

/-- When all owners are taken away, the passes are abreast. -/
theorem abreast (h : Releasing C p l nodes [] w w') : Abreast C p l w w' where
  kin := h.kin
  members := by rw [h.members.1, h.members.2]
  opened := by rw [h.opened.1, h.opened.2, List.map_nil]
  worklist := by rw [h.worklist.1, h.worklist.2, List.map_nil]
  knows := by
    rw [h.members.1]
    exact h.knows
  waiting := by
    rw [h.worklist.1]
    exact fun n hn => absurd hn List.not_mem_nil
  made := by
    rw [h.opened.1]
    exact fun i hi => absurd hi List.not_mem_nil
  past := h.past

end Releasing

/-- A node without predecessors opens an interval. -/
theorem Abreast.openEntry (h : Abreast C p l w w') (hn : w.Knows C p l n) :
    Agree (fun _ u _ u' => Onward C p l w u u') breaks (Pass.openEntry l n w)
      (Pass.openEntry l (C.num l n) w') := by
  obtain ⟨a, a', ha, ha', hakin⟩ := h.kin.node l n hn
  refine Agree.bind (Pass.agree_query ha ha' ?_)
  rw [hakin.preds, List.isEmpty_map]
  cases a.preds.isEmpty with
  | false => exact agree_pure h.onward
  | true => exact agree_modify (h.openGroup hn)

/-- Two passes start abreast in graphs that correspond but for the owners of the nodes. -/
theorem startsAbreast {nodes : List Nat}
    (h : Releasing C p l nodes nodes { w with members := nodes, opened := [], worklist := [] }
      { w' with members := nodes.map (C.num l), opened := [], worklist := [] }) :
    Agree (fun _ u _ u' => Abreast C p l u u' ∧ ∀ n ∈ nodes, u.Knows C p l n) breaks
      (Pass.start l nodes w)
      (Pass.start l (nodes.map (C.num l)) w') := by
  refine Agree.bind (agree_modify (Agree.bind ?_))
  refine (agree_forM (P := Releasing C p l nodes) (fun n rest u u' hu => hu.step) h).mono_ends ?_
  intro _ u _ u' hu
  have hknows : ∀ n ∈ nodes, u.Knows C p l n := hu.knows
  exact (Abreast.forM (fun n v v' hv hn => hv.abreast.openEntry hn) hu.abreast hknows).mono_ends
    fun _ _ _ _ hv => ⟨hv.abreast, fun n hn => hv.knows n (hknows n hn)⟩

end KernelIntervals
