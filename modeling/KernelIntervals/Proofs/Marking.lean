/-
Marks are exact.

* `FlowGraph.Reaches` — a node reaches another through recorded predecessors,
* `Marker.markAll_ends` — nodes whose predecessors are listed can be marked,
* `Marker.markAll_sound` — only what reaches the nodes of the stack gets marked,
* `Marker.markAll_complete` — all that reaches a marked node is marked in the end,
* `markAncestors_exact` — a query ends, and marks a node and all that reach it,
* `MarkEvent`, `MarkEvent.replay` — queries between which the graph changes,
* `marks_exact` — after any such history the marks are those of the last query.

Design notes: the node on top of the stack may be on it more than once, and a node that is
marked may wait there still. So neither half is told by the stack alone: what is marked or
waits reaches the node that was asked for, and a predecessor of a marked node is marked or
waits. The marker may hold stamps of any number of queries, as those of other generations
are no marks.
-/
import KernelIntervals.Grouping.BlockVisit
import KernelIntervals.Proofs.Ends
import KernelIntervals.Proofs.Observe

namespace KernelIntervals

open Relation

variable {l : Level} {g : FlowGraph} {w : Workspace} {n : Nat}

/-! ### What reaches a node -/

namespace FlowGraph

/-- The node `a` is recorded as a predecessor of `b`. -/
def Feeds (g : FlowGraph) (l : Level) (a b : Nat) : Prop := a ∈ g.preds l b

/-- The node `a` is `b`, or reaches it through recorded predecessors. -/
def Reaches (g : FlowGraph) (l : Level) : Nat → Nat → Prop := ReflTransGen (g.Feeds l)

/-- The predecessors of all nodes exist. -/
def PredsExist (g : FlowGraph) (l : Level) : Prop :=
  ∀ n < g.extent l, ∀ p ∈ g.preds l n, p < g.extent l

instance (g : FlowGraph) (l : Level) : Decidable (g.PredsExist l) :=
  inferInstanceAs (Decidable (∀ n < g.extent l, ∀ p ∈ g.preds l n, p < g.extent l))

theorem getElem?_predTable_of_lt (h : n < g.extent l) :
    (g.predTable l)[n]? = some (g.preds l n) := by
  rw [getElem?_predTable, node?_eq_some h]
  rfl

theorem preds_of_getElem?_predTable {ps : List Nat} (h : (g.predTable l)[n]? = some ps) :
    g.preds l n = ps := by
  have hlt : n < g.extent l := by
    refine Nat.lt_of_not_le fun hle => ?_
    rw [getElem?_predTable, node?_eq_none hle] at h
    cases h
  exact Option.some.inj ((getElem?_predTable_of_lt hlt).symm.trans h)

end FlowGraph

/-! ### One query -/

namespace Marker

variable {preds : Array (List Nat)} {m m' : Marker} {stack : List Nat}

theorem mem_unmarked {ns : List Nat} : n ∈ m.unmarked ns ↔ n ∈ ns ∧ m.isMarked n = false := by
  simp [unmarked]

/-- Nodes whose predecessors are listed can be marked with all their ancestors. -/
theorem markAll_ends {nodes : List Nat} (hgen : m.generation ≠ 0)
    (hnodes : ∀ n ∈ nodes, ∃ ps, preds[n]? = some ps ∧ ∀ p ∈ ps, p ∈ nodes)
    (hstack : ∀ n ∈ stack, n ∈ nodes) : ∃ m', markAll preds m hgen stack = .ok () m' := by
  fun_induction markAll preds m hgen stack with
  | case1 m => exact ⟨m, rfl⟩
  | case2 m hgen n stack hmark ih => exact ih fun x hx => hstack x (List.mem_cons_of_mem n hx)
  | case3 m hgen n stack hmark hn =>
    obtain ⟨ps, hps, _⟩ := hnodes n (hstack n List.mem_cons_self)
    rw [hn] at hps
    injection hps
  | case4 m hgen n stack hmark ps hn _ _ ih =>
    refine ih fun x hx => ?_
    rcases List.mem_append.mp hx with hx | hx
    -- The predecessors that go on the stack are listed, as the node was.
    · obtain ⟨ps', hps', hlisted⟩ := hnodes n (hstack n List.mem_cons_self)
      rw [hn] at hps'
      injection hps' with hps'
      exact hlisted x (hps' ▸ mem_of_mem_unmarked hx)
    · exact hstack x (List.mem_cons_of_mem n hx)

/-- Nothing gets marked outside a set that is closed under predecessors. -/
theorem markAll_sound {P : Nat → Prop}
    (hpreds : ∀ n ps, P n → preds[n]? = some ps → ∀ p ∈ ps, P p) (hgen : m.generation ≠ 0)
    (hmarked : ∀ x, m.isMarked x = true → P x) (hstack : ∀ x ∈ stack, P x) :
    ∀ m', markAll preds m hgen stack = .ok () m' → ∀ x, m'.isMarked x = true → P x := by
  fun_induction markAll preds m hgen stack with
  | case1 m => rintro _ ⟨⟩; exact hmarked
  | case2 m hgen n stack hmark ih =>
    exact ih hmarked fun x hx => hstack x (List.mem_cons_of_mem n hx)
  | case3 m hgen n stack hmark hn => rintro _ ⟨⟩
  | case4 m hgen n stack hmark ps hn _ _ ih =>
    have hP : P n := hstack n List.mem_cons_self
    refine ih (fun x hx => ?_) fun x hx => ?_
    · rw [isMarked_stamp hgen, Bool.or_eq_true, beq_iff_eq] at hx
      rcases hx with rfl | hx
      · exact hP
      · exact hmarked x hx
    · rcases List.mem_append.mp hx with hx | hx
      · exact hpreds n ps hP hn x (mem_unmarked.mp hx).1
      · exact hstack x (List.mem_cons_of_mem n hx)

/-- The predecessors of marked nodes are marked or on the stack. -/
def Spreads (preds : Array (List Nat)) (m : Marker) (stack : List Nat) : Prop :=
  ∀ n ps, m.isMarked n = true → preds[n]? = some ps → ∀ p ∈ ps, m.isMarked p = true ∨ p ∈ stack

theorem Spreads.skip (h : Spreads preds m (n :: stack)) (hn : m.isMarked n = true) :
    Spreads preds m stack := by
  intro x ps hx hps p hp
  rcases h x ps hx hps p hp with hmark | hmem
  · exact .inl hmark
  · rcases List.mem_cons.mp hmem with rfl | hmem
    · exact .inl hn
    · exact .inr hmem

theorem Spreads.stamp {ps : List Nat} (h : Spreads preds m (n :: stack))
    (hgen : m.generation ≠ 0) (hn : preds[n]? = some ps) :
    Spreads preds (m.stamp n) ((m.stamp n).unmarked ps ++ stack) := by
  intro x qs hx hqs p hp
  by_cases hmark : (m.stamp n).isMarked p = true
  · exact .inl hmark
  refine .inr (List.mem_append.mpr ?_)
  simp only [isMarked_stamp hgen, Bool.or_eq_true, beq_iff_eq, not_or] at hx hmark
  rcases hx with rfl | hx
  -- The predecessors of the node that is stamped go on the stack, unless they are marked.
  · rw [hn] at hqs
    obtain rfl := Option.some.inj hqs
    refine .inl (mem_unmarked.mpr ⟨hp, ?_⟩)
    simpa [isMarked_stamp hgen] using hmark
  · rcases h x qs hx hqs p hp with hmark' | hmem
    · exact absurd hmark' hmark.2
    · rcases List.mem_cons.mp hmem with rfl | hmem
      · exact absurd rfl hmark.1
      · exact .inr hmem

/-- In the end all of the stack is marked, and so are the predecessors of all that is. -/
theorem markAll_complete (hgen : m.generation ≠ 0) (hspread : Spreads preds m stack) :
    ∀ m', markAll preds m hgen stack = .ok () m' →
      (∀ x, m.isMarked x = true ∨ x ∈ stack → m'.isMarked x = true) ∧ Spreads preds m' [] := by
  fun_induction markAll preds m hgen stack with
  | case1 m =>
    rintro _ ⟨⟩
    exact ⟨fun x hx => hx.resolve_right List.not_mem_nil, hspread⟩
  | case2 m hgen n stack hmark ih =>
    intro m' hm'
    obtain ⟨hkept, hclosed⟩ := ih (hspread.skip hmark) m' hm'
    refine ⟨fun x hx => hkept x ?_, hclosed⟩
    rcases hx with hx | hx
    · exact .inl hx
    · rcases List.mem_cons.mp hx with rfl | hx
      · exact .inl hmark
      · exact .inr hx
  | case3 m hgen n stack hmark hn => rintro _ ⟨⟩
  | case4 m hgen n stack hmark ps hn _ _ ih =>
    intro m' hm'
    obtain ⟨hkept, hclosed⟩ := ih (hspread.stamp hgen hn) m' hm'
    refine ⟨fun x hx => hkept x ?_, hclosed⟩
    rw [isMarked_stamp hgen, Bool.or_eq_true, beq_iff_eq]
    rcases hx with hx | hx
    · exact .inl (.inr hx)
    · rcases List.mem_cons.mp hx with rfl | hx
      · exact .inl (.inl rfl)
      · exact .inr (List.mem_append_right _ hx)

/-- A query for a node of a list that is closed under predecessors ends, whatever was asked
before, and marks the node and all that reach it. -/
theorem mark_exact {nodes : List Nat} (hexist : ∀ x ∈ nodes, x < g.extent l)
    (hpreds : ∀ x ∈ nodes, ∀ p ∈ g.preds l x, p ∈ nodes) (hn : n ∈ nodes) (m : Marker) :
    Ends (mark (g.predTable l) n) m fun _ m' =>
      ∀ x, m'.isMarked x = true ↔ g.Reaches l x n := by
  have hgen := m.generation_nextGeneration_ne_zero
  have hrow : ∀ x ∈ nodes, ∃ ps, (g.predTable l)[x]? = some ps ∧ ∀ p ∈ ps, p ∈ nodes :=
    fun x hx => ⟨_, FlowGraph.getElem?_predTable_of_lt (hexist x hx), hpreds x hx⟩
  have hstack : ∀ x ∈ [n], x ∈ nodes := fun x hx => List.mem_singleton.mp hx ▸ hn
  obtain ⟨m', hm'⟩ := markAll_ends hgen hrow hstack
  refine ⟨(), m', hm', fun x => ⟨?_, fun hreach => ?_⟩⟩
  · refine markAll_sound (P := fun x => g.Reaches l x n) ?_ hgen ?_ ?_ m' hm' x
    · intro y ps hy hps p hp
      rw [← FlowGraph.preds_of_getElem?_predTable hps] at hp
      exact ReflTransGen.head hp hy
    · intro y hy
      rw [m.isMarked_nextGeneration] at hy
      cases hy
    · intro y hy
      rw [List.mem_singleton.mp hy]
      exact .refl
  · have hspread : Spreads (g.predTable l) m.nextGeneration [n] := by
      intro y ps hy
      rw [m.isMarked_nextGeneration] at hy
      cases hy
    obtain ⟨hkept, hclosed⟩ := markAll_complete hgen hspread m' hm'
    -- Back along the path, all nodes are listed and marked.
    have hboth : x ∈ nodes ∧ m'.isMarked x = true := by
      induction hreach using ReflTransGen.head_induction_on with
      | refl => exact ⟨hn, hkept n (.inr List.mem_cons_self)⟩
      | head hedge _ ih =>
        refine ⟨hpreds _ ih.1 _ hedge, ?_⟩
        have hmark := hclosed _ _ ih.2 (FlowGraph.getElem?_predTable_of_lt (hexist _ ih.1)) _ hedge
        exact hmark.resolve_right List.not_mem_nil
    exact hboth.2

end Marker

/-- Marking the ancestors of a listed node ends well, and exactly they are marked then. -/
theorem markAncestors_exact (hexist : ∀ x ∈ w.members, x < w.graph.extent l)
    (hpreds : ∀ x ∈ w.members, ∀ p ∈ w.graph.preds l x, p ∈ w.members) (hn : n ∈ w.members) :
    Ends (Pass.markAncestors l n) w fun _ w' => ∃ marker : Marker, w' = { w with marker } ∧
      ∀ x, marker.isMarked x = true ↔ w.graph.Reaches l x n := by
  obtain ⟨_, m', hm', hexact⟩ := Marker.mark_exact hexist hpreds hn w.marker
  refine ⟨(), { w with marker := m' }, ?_, m', rfl, hexact⟩
  rw [Pass.markAncestors, hm']

/-- A listed node can be marked with its ancestors if the predecessors of listed nodes are
listed. -/
theorem markAncestors_ends_of_listed (hexist : ∀ x ∈ w.members, x < w.graph.extent l)
    (hpreds : ∀ x ∈ w.members, ∀ p ∈ w.graph.preds l x, p ∈ w.members) (hn : n ∈ w.members) :
    Ends (Pass.markAncestors l n) w fun _ w' => ∃ marker, w' = { w with marker } :=
  (markAncestors_exact hexist hpreds hn).mono fun _ _ ⟨marker, hmarked, _⟩ => ⟨marker, hmarked⟩

/-! ### Histories of queries -/

/-- What happens to a graph and to the marker that is used for one level of it. -/
inductive MarkEvent
  /-- The graph becomes another one. -/
  | change (g : FlowGraph)
  /-- The ancestors of a node are marked. -/
  | query (n : Nat)

namespace MarkEvent

/-- Makes the queries of a history that starts with the graph `g`. -/
def replay (l : Level) : FlowGraph → List MarkEvent → EStateM Fault Marker Unit
  | _, [] => pure ()
  | _, change g :: events => replay l g events
  | g, query n :: events => do
    Marker.mark (g.predTable l) n
    replay l g events

/-- Every query is for a node that exists, at a moment when all predecessors exist. -/
def Posed (l : Level) : FlowGraph → List MarkEvent → Prop
  | _, [] => True
  | _, change g :: events => Posed l g events
  | g, query n :: events => n < g.extent l ∧ g.PredsExist l ∧ Posed l g events

/-- The last query of a history with the graph at that moment, where `last` is the one before
the history. -/
def lastQuery : Option (FlowGraph × Nat) → FlowGraph → List MarkEvent → Option (FlowGraph × Nat)
  | last, _, [] => last
  | last, _, change g :: events => lastQuery last g events
  | _, g, query n :: events => lastQuery (some (g, n)) g events

/-- The marks are those of a query; without one nothing is marked. -/
def Recalls (l : Level) (asked : Option (FlowGraph × Nat)) (m : Marker) : Prop :=
  ∀ x, m.isMarked x = true ↔ ∃ g n, asked = some (g, n) ∧ g.Reaches l x n

theorem recalls_empty : Recalls l none ∅ := by
  intro x
  refine ⟨fun hx => ?_, fun ⟨_, _, hnone, _⟩ => ?_⟩
  · cases hx
  · cases hnone

/-- A query that is posed well replaces what the marks recall. -/
theorem recalls_query (hn : n < g.extent l) (hpreds : g.PredsExist l) (m : Marker) :
    Ends (Marker.mark (g.predTable l) n) m fun _ m' => Recalls l (some (g, n)) m' := by
  have hmem : ∀ x, x ∈ List.range (g.extent l) ↔ x < g.extent l := fun _ => List.mem_range
  have hlisted : ∀ x ∈ List.range (g.extent l), ∀ p ∈ g.preds l x, p ∈ List.range (g.extent l) :=
    fun x hx p hp => (hmem p).mpr (hpreds x ((hmem x).mp hx) p hp)
  refine (Marker.mark_exact (fun x => (hmem x).mp) hlisted ((hmem n).mpr hn) m).mono ?_
  intro _ m' hexact x
  refine (hexact x).trans ⟨fun hreach => ⟨g, n, rfl, hreach⟩, ?_⟩
  rintro ⟨_, _, ⟨⟩, hreach⟩
  exact hreach

theorem replay_recalls {last : Option (FlowGraph × Nat)} {m : Marker} {events : List MarkEvent}
    (hposed : Posed l g events) (hm : Recalls l last m) :
    Ends (replay l g events) m fun _ m' => Recalls l (lastQuery last g events) m' := by
  induction events generalizing g last m with
  | nil => exact ends_pure hm
  | cons event events ih =>
    cases event with
    | change g' => exact ih hposed hm
    | query n =>
      obtain ⟨hn, hpreds, hrest⟩ := hposed
      exact Ends.bind ((recalls_query hn hpreds m).mono fun _ _ hm' => ih hrest hm')

end MarkEvent

/-- However often a new marker was asked, and however the graph changed in between, every query
ends, and what is marked is the node of the last query and all that reached it at that moment. -/
theorem marks_exact (l : Level) (g : FlowGraph) (events : List MarkEvent)
    (hposed : MarkEvent.Posed l g events) :
    Ends (MarkEvent.replay l g events) ∅ fun _ m => ∀ x, m.isMarked x = true ↔
      ∃ g' n, MarkEvent.lastQuery none g events = some (g', n) ∧ g'.Reaches l x n :=
  MarkEvent.replay_recalls hposed MarkEvent.recalls_empty

/-- Two blocks in a ring, and a third one behind them. -/
def ring : FlowGraph :=
  let nodes := [ "a", "b", "c" ].map (Block.ofInsts · [])
  (((nodes.foldl FlowGraph.addBlock {}).link 0 1).link 1 0).link 1 2

/-- The block behind the ring is marked by the first query, and is no ancestor in the second,
before which the ring gets one more predecessor. -/
theorem marks_exact_ring :
    let grown := (ring.addBlock (Block.ofInsts "d" [])).link 3 0
    let events := [.query 2, .change grown, .query 1]
    MarkEvent.Posed .block ring events ∧ Ends (MarkEvent.replay .block ring events) ∅ fun _ m =>
      ∀ x, m.isMarked x = true ↔ grown.Reaches .block x 1 := by
  intro grown events
  have hposed : MarkEvent.Posed .block ring events :=
    ⟨by decide +kernel, by decide +kernel, by decide +kernel, by decide +kernel, trivial⟩
  refine ⟨hposed, (marks_exact .block ring events hposed).mono fun _ m hm x => (hm x).trans ?_⟩
  refine ⟨?_, fun hreach => ⟨grown, 1, rfl, hreach⟩⟩
  rintro ⟨_, _, ⟨⟩, hreach⟩
  exact hreach

end KernelIntervals
