/-
Well-formed blocks stay well formed whatever is done with them.

* `Becomes` — what one operation makes of the graph of a program: an edge between two of its
  blocks, a split of one of them, or a first pass over them all,
* `Program.Next` — the program after one operation, with the blocks that were made since,
* `WellFormed.upheld_addEdge`, `WellFormed.upheld_split`, `WellFormed.upheld_run` — each operation
  upholds a program,
* `verify_of_operations` — so do any number of them, and the check is passed still.

Design notes: an operation that breaks off leaves a graph too, with what it did until then; that
graph is what the program becomes. A first pass goes over all blocks of the program, so over the
tails of earlier splits too, and may be one that was used before.
-/
import Mathlib.Logic.Relation
import KernelIntervals.Proofs.Departure
import KernelIntervals.Proofs.Discipline

namespace KernelIntervals

open Relation

/-- The graph that an edit leaves, whether or not it breaks off. -/
def Edit.left {α : Type} (change : Edit α) (g : FlowGraph) : FlowGraph :=
  match change g with
  | .ok _ g' => g'
  | .error _ g' => g'

/-- One operation on the blocks of a program leaves the graph `g'`. -/
inductive Becomes (p : Program) : FlowGraph → Prop
  | link {source target : BlockId} (hs : source ∈ p.blocks) (ht : target ∈ p.blocks) :
      Becomes p ((Edit.addEdge source target).left p.graph)
  | split (budget : Nat) {n : BlockId} (hn : n ∈ p.blocks) :
      Becomes p ((Edit.split budget n).left p.graph)
  | group (pass : BlockGrouper) (log : Log) :
      Becomes p (pass.run p.blocks ⟨p.graph, log⟩).state.graph

/-- The program has become another one in one operation. The blocks that were made are listed
behind the others. -/
def Program.Next (p p' : Program) : Prop :=
  Becomes p p'.graph ∧ p'.blocks = p.blocks ++ p.graph.created p'.graph

variable {p p' : Program} {g' : FlowGraph}

theorem Ends.left {α : Type} {change : Edit α} {g : FlowGraph} {post : α → FlowGraph → Prop}
    (h : Ends change g post) : ∃ a, post a (change.left g) := by
  obtain ⟨a, g', hok, hpost⟩ := h
  refine ⟨a, ?_⟩
  rw [Edit.left, hok]
  exact hpost

/-! ### One operation -/

theorem WellFormed.upheld_addEdge (h : WellFormed p.graph p.blocks) {source target : BlockId}
    (hs : source ∈ p.blocks) (ht : target ∈ p.blocks) :
    Upheld p ⟨(Edit.addEdge source target).left p.graph, p.blocks⟩ := by
  obtain ⟨b, hb⟩ := h.exists_block hs
  have hlt : target < (p.graph.modifyBlock source (·.addSucc target)).blocks.size :=
    Nat.lt_of_lt_of_eq (h.exist target ht) (Arena.size_modify ..).symm
  obtain ⟨c, hc⟩ := Arena.exists_get? hlt
  have hends : Ends (Edit.addEdge source target) p.graph
      fun _ g => g = p.graph.link source target :=
    Ends.bind (Edit.ends_updateBlock hb (Edit.ends_updateBlock hc rfl))
  obtain ⟨_, hleft⟩ := hends.left
  rw [hleft]
  exact h.upheld_link hs ht

theorem WellFormed.upheld_split (h : WellFormed p.graph p.blocks) (budget : Nat) {n : BlockId}
    (hn : n ∈ p.blocks) : ∃ blocks, Upheld p ⟨(Edit.split budget n).left p.graph, blocks⟩ := by
  obtain ⟨b, hb⟩ := h.exists_block hn
  obtain ⟨_, hleft⟩ := (split_ends budget hb (h.succs_lt hn hb)).left
  rcases hleft with ⟨_, _, hwhole⟩ | ⟨f, place, name, _, _, _, hsevered⟩
  · rw [hwhole]
    exact ⟨p.blocks, h.upheld_of_frame (Arena.size_modify ..)
      (FlowGraph.frame?_modifyBlock fun _ => rfl)⟩
  · exact ⟨_, h.upheld_severed hb hn hsevered⟩

theorem WellFormed.upheld_run (h : WellFormed p.graph p.blocks) (pass : BlockGrouper) (log : Log) :
    ∃ blocks, Upheld p ⟨(pass.run p.blocks ⟨p.graph, log⟩).state.graph, blocks⟩ := by
  by_cases hbudget : pass.budget = 0
  · rw [BlockGrouper.run_zero hbudget]
    exact ⟨p.blocks, .refl h⟩
  have hwell : WellFormed (LoggedGraph.workspace ⟨p.graph, log⟩ pass.scratch).graph p.blocks := h
  rw [BlockGrouper.run]
  rcases groupBlocks_upheld hbudget hwell with
    ⟨a, u, hok, hupheld⟩ | ⟨e, u, herror, _, hupheld⟩
  · rw [hok]
    exact ⟨a.blocks, hupheld⟩
  · rw [herror]
    exact ⟨u.members, hupheld⟩

/-- One operation upholds a program. -/
theorem WellFormed.becomes (h : WellFormed p.graph p.blocks) (hstep : Becomes p g') :
    Upheld p ⟨g', p.blocks ++ p.graph.created g'⟩ := by
  have hall : ∃ blocks, Upheld p ⟨g', blocks⟩ := by
    cases hstep with
    | link hs ht => exact ⟨p.blocks, h.upheld_addEdge hs ht⟩
    | split budget hn => exact h.upheld_split budget hn
    | group pass log => exact h.upheld_run pass log
  obtain ⟨blocks, hupheld⟩ := hall
  obtain rfl : blocks = p.blocks ++ p.graph.created g' := hupheld.blocks
  exact hupheld

theorem Upheld.next {p₀ : Program} (h : Upheld p₀ p) (hstep : p.Next p') : Upheld p₀ p' := by
  obtain ⟨hbecomes, hblocks⟩ := hstep
  have hupheld := h.wellFormed.becomes hbecomes
  rw [← hblocks] at hupheld
  exact h.trans hupheld

/-! ### Any number of operations -/

theorem WellFormed.upheld_of_operations (h : WellFormed p.graph p.blocks)
    (hpath : ReflTransGen Program.Next p p') : Upheld p p' := by
  induction hpath with
  | refl => exact .refl h
  | tail _ hstep ih => exact ih.next hstep

/-- A list of blocks that passes the check still does so after any number of operations, followed
by the blocks that were made since, and no edge is there twice if none was. -/
theorem verify_of_operations {g : FlowGraph} {listed : List BlockId}
    (hverify : g.verify listed = .ok ()) (hpath : ReflTransGen Program.Next ⟨g, listed⟩ p') :
    p'.blocks = listed ++ g.created p'.graph ∧
      p'.graph.verify (listed ++ g.created p'.graph) = .ok () ∧
      (DuplicateFree g listed → DuplicateFree p'.graph (listed ++ g.created p'.graph)) := by
  have hupheld := (FlowGraph.verify_eq_ok_iff.mp hverify).upheld_of_operations
    (p := ⟨g, listed⟩) hpath
  have hblocks : p'.blocks = listed ++ g.created p'.graph := hupheld.blocks
  rw [← hblocks]
  exact ⟨rfl, FlowGraph.verify_eq_ok_iff.mpr hupheld.wellFormed, hupheld.duplicateFree⟩

/-- A pass with a budget of 2 breaks off after it has split the first block. The blocks that it
leaves are well formed, and are so with an edge back from the tail. -/
theorem verify_of_operations_carvedLoops :
    let broken := (BlockGrouper.run ⟨2, {}⟩ [0, 1, 2] carvedLoops)
    let p' : Program := ⟨(Edit.addEdge 3 0).left broken.state.graph, [0, 1, 2, 3]⟩
    broken.result = .error (.interval (.budgetViolation 0 2 2)) ∧
      carvedLoops.graph.verify [0, 1, 2] = .ok () ∧
      ReflTransGen Program.Next ⟨carvedLoops.graph, [0, 1, 2]⟩ p' ∧
      p'.graph.verify ([0, 1, 2] ++ carvedLoops.graph.created p'.graph) = .ok () := by
  have hpath : ReflTransGen Program.Next ⟨carvedLoops.graph, [0, 1, 2]⟩
      ⟨(Edit.addEdge 3 0).left (BlockGrouper.run ⟨2, {}⟩ [0, 1, 2] carvedLoops).state.graph,
        [0, 1, 2, 3]⟩ := by
    refine .tail (b := ⟨(BlockGrouper.run ⟨2, {}⟩ [0, 1, 2] carvedLoops).state.graph, [0, 1, 2, 3]⟩)
      (.single ⟨.group ⟨2, {}⟩ carvedLoops.log, ?_⟩) ⟨.link ?_ ?_, ?_⟩ <;> decide +kernel
  exact ⟨by decide +kernel, verify_carvedLoops, hpath,
    (verify_of_operations verify_carvedLoops hpath).2.1⟩

end KernelIntervals
