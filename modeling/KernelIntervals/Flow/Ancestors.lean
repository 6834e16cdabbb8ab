/-
Marking the ancestors of a node.

* `Marker` — which nodes the last query marked,
* `Marker.mark` — a query: it marks a node and all that reach it,
* `Marker.isMarked_nextGeneration` — a new query starts without marks,
* `Marker.isMarked_stamp` — a stamp marks one node and changes no other,
* `Marker.pending_stamp_add_le` — a new mark leaves less work, so queries end.

Design notes: every query has a generation of its own, and a node is marked if
its stamp is of the current generation, so a new query forgets the old marks
without touching them. Generation 0 is before all queries and marks nothing. A
generation has 32 bits; when they are used up, all stamps are taken back. So no
stamp is ahead of the current generation, which is why none can be taken for a
mark of the next query.
-/
import KernelIntervals.Measure
import KernelIntervals.Flow.Fault

namespace KernelIntervals

/-- Stamps of generations on nodes; a node without a stamp has the stamp 0. -/
structure Marker where
  stamps : Array Nat
  generation : Nat
  le_generation : ∀ s ∈ stamps, s ≤ generation

namespace Marker

/-- The marker without stamps. -/
def blank (generation : Nat) : Marker where
  stamps := #[]
  generation
  le_generation s hs := absurd hs (Array.not_mem_empty s)

instance : EmptyCollection Marker := ⟨blank 0⟩

instance : Inhabited Marker := ⟨∅⟩

/-- The stamp of a node. -/
def stampOf (m : Marker) (n : Nat) : Nat := m.stamps[n]?.getD 0

/-- Whether the last query marked a node. -/
def isMarked (m : Marker) (n : Nat) : Bool :=
  m.generation != 0 && m.stampOf n == m.generation

theorem stampOf_le (m : Marker) (n : Nat) : m.stampOf n ≤ m.generation := by
  rw [stampOf]
  cases hn : m.stamps[n]? with
  | none => exact Nat.zero_le _
  | some s => exact m.le_generation s (Array.mem_of_getElem? hn)

/-- The marker at the start of a new query. -/
def nextGeneration (m : Marker) : Marker :=
  if m.generation + 1 < UInt32.size then
    { m with
      generation := m.generation + 1
      le_generation := fun s hs => Nat.le_succ_of_le (m.le_generation s hs) }
  else blank 1

theorem generation_nextGeneration_ne_zero (m : Marker) : m.nextGeneration.generation ≠ 0 := by
  rw [nextGeneration]
  split
  · exact Nat.succ_ne_zero _
  · exact Nat.one_ne_zero

/-- A new query starts without marks. -/
theorem isMarked_nextGeneration (m : Marker) (n : Nat) : m.nextGeneration.isMarked n = false := by
  rw [nextGeneration]
  split
  · have hold : m.stampOf n ≠ m.generation + 1 := Nat.ne_of_lt (Nat.lt_succ_of_le (m.stampOf_le n))
    have hnone : (m.stampOf n == m.generation + 1) = false := beq_eq_false_iff_ne.mpr hold
    exact (congrArg (_ && ·) hnone).trans (Bool.and_false _)
  · rfl

/-- Room for the stamp of a node. -/
def room (m : Marker) (n : Nat) : Array Nat :=
  m.stamps ++ Array.replicate (n + 1 - m.stamps.size) 0

theorem room_le_generation (m : Marker) (n : Nat) : ∀ s ∈ m.room n, s ≤ m.generation := by
  intro s hs
  rcases Array.mem_append.mp hs with hs | hs
  · exact m.le_generation s hs
  · rw [(Array.mem_replicate.mp hs).2]
    exact Nat.zero_le _

/-- The marker with one more node marked. -/
def stamp (m : Marker) (n : Nat) : Marker where
  stamps := (m.room n).setIfInBounds n m.generation
  generation := m.generation
  le_generation := by
    intro s hs
    rcases Array.mem_or_eq_of_mem_setIfInBounds hs with hs | rfl
    · exact m.room_le_generation n s hs
    · exact Nat.le_refl _

@[simp] theorem generation_stamp (m : Marker) (n : Nat) :
    (m.stamp n).generation = m.generation := rfl

theorem stampOf_stamp (m : Marker) (n k : Nat) :
    (m.stamp n).stampOf k = if k = n then m.generation else m.stampOf k := by
  simp only [stampOf, stamp, room, Array.getElem?_setIfInBounds, Array.getElem?_append,
    Array.getElem?_replicate, Array.size_append, Array.size_replicate]
  grind

theorem isMarked_stamp {m : Marker} (h : m.generation ≠ 0) (n k : Nat) :
    (m.stamp n).isMarked k = (k == n || m.isMarked k) := by
  simp only [isMarked, generation_stamp, stampOf_stamp]
  by_cases hk : k = n <;> simp [h, hk]

/-! ### Queries -/

/-- The work that is left: the unmarked nodes with their predecessors. -/
def pending (preds : Array (List Nat)) (m : Marker) : Nat :=
  total (fun n => if m.isMarked n then 0 else (preds[n]?.getD []).length + 1)
    (List.range preds.size)

theorem pending_stamp_add_le {preds : Array (List Nat)} {m : Marker} {n : Nat}
    {ps : List Nat} (hgen : m.generation ≠ 0) (hmark : m.isMarked n = false)
    (hn : preds[n]? = some ps) :
    (m.stamp n).pending preds + (ps.length + 1) ≤ m.pending preds := by
  have hlt : n < preds.size := (Array.getElem?_eq_some_iff.mp hn).1
  refine total_add_le (List.mem_range.mpr hlt) (fun x => ?_) ?_
  · rw [isMarked_stamp hgen]
    by_cases hx : x = n
    · simp [hx]
    · simp [hx]
  · rw [isMarked_stamp hgen]
    simp [hmark, hn]

/-- The unmarked nodes of a list, the last one first. -/
def unmarked (m : Marker) (ns : List Nat) : List Nat :=
  (ns.filter (!m.isMarked ·)).reverse

theorem length_unmarked_le (m : Marker) (ns : List Nat) : (m.unmarked ns).length ≤ ns.length := by
  simpa [unmarked] using List.length_filter_le _ ns

theorem mem_of_mem_unmarked {m : Marker} {ns : List Nat} {n : Nat} (h : n ∈ m.unmarked ns) :
    n ∈ ns :=
  (List.mem_filter.mp (List.mem_reverse.mp h)).1

/-- Marks the nodes of a stack, last in first out, and all that reach them. -/
def markAll (preds : Array (List Nat)) (m : Marker) (hgen : m.generation ≠ 0) :
    List Nat → EStateM.Result Fault Marker Unit
  | [] => .ok () m
  | n :: stack =>
    match hmark : m.isMarked n with
    | true => markAll preds m hgen stack
    | false =>
      match hn : preds[n]? with
      -- The stamp is set before the predecessors are looked up.
      | none => .error .dangling (m.stamp n)
      | some ps =>
        have := pending_stamp_add_le hgen hmark hn
        have := length_unmarked_le (m.stamp n) ps
        markAll preds (m.stamp n) hgen ((m.stamp n).unmarked ps ++ stack)
termination_by stack => m.pending preds + stack.length
decreasing_by all_goals simp only [List.length_append, List.length_cons]; omega

/-! What one step does, by the mark and the entry of the node on top. -/

section MarkAll

variable {preds : Array (List Nat)} {m : Marker} {n : Nat} {stack : List Nat}

theorem markAll_of_marked (hgen : m.generation ≠ 0) (hmark : m.isMarked n = true) :
    markAll preds m hgen (n :: stack) = markAll preds m hgen stack := by
  rw [markAll]
  split
  next => rfl
  next hfalse =>
    rw [hmark] at hfalse
    injection hfalse

theorem markAll_of_missing (hgen : m.generation ≠ 0) (hmark : m.isMarked n = false)
    (hn : preds[n]? = none) :
    markAll preds m hgen (n :: stack) = .error .dangling (m.stamp n) := by
  rw [markAll]
  split
  next htrue =>
    rw [hmark] at htrue
    injection htrue
  next =>
    split
    next => rfl
    next ps hps =>
      rw [hn] at hps
      injection hps

theorem markAll_of_unmarked {ps : List Nat} (hgen : m.generation ≠ 0)
    (hmark : m.isMarked n = false) (hn : preds[n]? = some ps) :
    markAll preds m hgen (n :: stack) =
      markAll preds (m.stamp n) hgen ((m.stamp n).unmarked ps ++ stack) := by
  rw [markAll]
  split
  next htrue =>
    rw [hmark] at htrue
    injection htrue
  next =>
    split
    next hnone =>
      rw [hn] at hnone
      injection hnone
    next ps' hps' =>
      obtain rfl : ps = ps' := Option.some.inj (hn.symm.trans hps')
      rfl

end MarkAll

/-- Marks a node and all that reach it, where `preds` lists the predecessors of
every node; the marks of the query before are gone. -/
def mark (preds : Array (List Nat)) (n : Nat) : EStateM Fault Marker Unit := fun m =>
  m.nextGeneration.markAll preds m.generation_nextGeneration_ne_zero [n]

end Marker

end KernelIntervals
