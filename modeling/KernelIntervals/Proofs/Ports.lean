/-
What becomes of the ports of a node.

* `Dot.Node.listings` — the instructions of the ports of a node,
* `IsGuard`, `IsBody` — the instructions of a port become a controlling block, or a basic block,
* `guards`, `bodies` — the ports of either kind, in order,
* `homes` — the ports that the basic blocks of a node stand for,
* `lastBody?` — the last port up to a given one that becomes a basic block,
* `guardBehind?` — the last port that guards the block made of a given one,
* `IsMade` — a block is made for a port,
* `blockOf`, `blockCount` — the block that is made for a port, if blocks are numbered from some
  number on, and how many there are.

Design notes: ports are told apart by their instructions alone. A port can only guard a block if a
port before it has instructions, and then there is one, because the first of these has none before
it and becomes a basic block itself. So none of this speaks of blocks that were made.
-/
import Mathlib.Data.Nat.Count
import Mathlib.Order.Bounds.Defs
import KernelIntervals.Flow.Carve

namespace KernelIntervals

/-! ### Lists of places -/

section Range

variable {p : Nat → Prop} {k m n : Nat}

/-- What the last of some places is not is found before it. -/
theorem lt_of_lt_succ_of_not (hn : ¬ p n) (hk : k < n + 1) (hp : p k) : k < n := by
  have hne : k ≠ n := by
    rintro rfl
    exact hn hp
  omega

theorem filter_range_succ (p : Nat → Prop) [DecidablePred p] (n : Nat) :
    (List.range (n + 1)).filter (p ·) =
      (List.range n).filter (p ·) ++ if p n then [n] else [] := by
  rw [List.range_succ, List.filter_append]
  by_cases h : p n <;> simp [h]

variable [DecidablePred p]

/-- The last of the places with a property is the greatest one. -/
theorem getLast?_filter_range :
    ((List.range n).filter (p ·)).getLast? = some m ↔ IsGreatest {k | k < n ∧ p k} m := by
  induction n with
  | zero =>
    refine iff_of_false (by simp) fun h => ?_
    exact Nat.not_lt_zero _ h.1.1
  | succ n ih =>
    rw [filter_range_succ]
    by_cases hn : p n
    · rw [if_pos hn, List.getLast?_concat, Option.some_inj]
      constructor
      · rintro rfl
        exact ⟨⟨Nat.lt_succ_self n, hn⟩, fun k hk => Nat.le_of_lt_succ hk.1⟩
      · intro h
        exact Nat.le_antisymm (h.2 ⟨Nat.lt_succ_self n, hn⟩) (Nat.le_of_lt_succ h.1.1)
    · have hset : {k | k < n + 1 ∧ p k} = {k | k < n ∧ p k} := by
        ext k
        refine and_congr_left fun hk => ⟨fun hlt => ?_, fun hlt => Nat.lt_succ_of_lt hlt⟩
        exact lt_of_lt_succ_of_not hn hlt hk
      rw [if_neg hn, List.append_nil, hset]
      exact ih

theorem getLast?_filter_range_eq_none :
    ((List.range n).filter (p ·)).getLast? = none ↔ ∀ k < n, ¬ p k := by
  simp

/-- Every number below that of the places with a property is the number before one of them. -/
theorem exists_count_eq {i : Nat} (h : i < Nat.count p n) : ∃ k < n, p k ∧ Nat.count p k = i := by
  induction n with
  | zero => simp at h
  | succ n ih =>
    rw [Nat.count_succ] at h
    by_cases hi : i < Nat.count p n
    · obtain ⟨k, hk, hrest⟩ := ih hi
      exact ⟨k, Nat.lt_succ_of_lt hk, hrest⟩
    · -- The number is that of all places before the last one, so the last one is meant.
      split at h
      next hn => exact ⟨n, Nat.lt_succ_self n, hn, by omega⟩
      next => omega

end Range

/-! ### Roles of ports -/

/-- The instructions of a port, none if its text is no listing. -/
def Dot.Port.listing (p : Dot.Port) : List Inst :=
  match parseStatements p.text with
  | .ok insts => insts
  | .error _ => []

/-- The instructions of the ports of a node. -/
def Dot.Node.listings (n : Dot.Node) : List (List Inst) := n.ports.map Dot.Port.listing

theorem Dot.Port.listing_eq {p : Dot.Port} {insts : List Inst}
    (h : parseStatements p.text = .ok insts) : p.listing = insts := by
  rw [listing, h]

/-- The port at a place has instructions. -/
def HasInsts (ls : List (List Inst)) (k : Nat) : Prop := ls.getD k [] ≠ []

/-- The instructions of the port at a place decide whether a block before them branches. -/
def IsGuard (ls : List (List Inst)) (k : Nat) : Prop :=
  isControllingSegment (ls.getD k []) = true ∧ ∃ j < k, HasInsts ls j

/-- The instructions of the port at a place are a basic block. -/
def IsBody (ls : List (List Inst)) (k : Nat) : Prop := HasInsts ls k ∧ ¬ IsGuard ls k

instance (ls : List (List Inst)) : DecidablePred (HasInsts ls) := fun k =>
  inferInstanceAs (Decidable (ls.getD k [] ≠ []))

instance (ls : List (List Inst)) : DecidablePred (IsGuard ls) := fun k =>
  inferInstanceAs (Decidable (isControllingSegment (ls.getD k []) = true ∧ ∃ j < k, HasInsts ls j))

instance (ls : List (List Inst)) : DecidablePred (IsBody ls) := fun k =>
  inferInstanceAs (Decidable (HasInsts ls k ∧ ¬ IsGuard ls k))

/-- The ports that become basic blocks. -/
def bodies (ls : List (List Inst)) : List Nat := (List.range ls.length).filter (IsBody ls ·)

/-- The ports that become controlling blocks. -/
def guards (ls : List (List Inst)) : List Nat := (List.range ls.length).filter (IsGuard ls ·)

/-- The ports that the basic blocks of a node stand for. A node without instructions has a basic
block all the same, and that one stands for the first port. -/
def homes (ls : List (List Inst)) : List Nat := if bodies ls = [] then [0] else bodies ls

/-- The last port that became a basic block when the port at a place is done. -/
def lastBody? (ls : List (List Inst)) (k : Nat) : Option Nat :=
  ((List.range (k + 1)).filter (IsBody ls ·)).getLast?

/-- The last of the first `n` ports that guards the block made of the port `m`. -/
def guardBehind? (ls : List (List Inst)) (n m : Nat) : Option Nat :=
  ((List.range n).filter fun k => IsGuard ls k ∧ lastBody? ls k = some m).getLast?

variable {ls : List (List Inst)} {j k m n : Nat}

theorem HasInsts.lt_length (h : HasInsts ls k) : k < ls.length := by
  refine Nat.lt_of_not_le fun hle => h ?_
  rw [List.getD_eq_getElem?_getD, List.getElem?_eq_none hle]
  rfl

theorem IsGuard.hasInsts (h : IsGuard ls k) : HasInsts ls k := by
  intro hempty
  have hcontrolling := h.1
  rw [hempty] at hcontrolling
  cases hcontrolling

theorem hasInsts_iff : HasInsts ls k ↔ IsGuard ls k ∨ IsBody ls k := by
  by_cases h : IsGuard ls k
  · exact iff_of_true h.hasInsts (.inl h)
  · simp [IsBody, h]

theorem mem_bodies : k ∈ bodies ls ↔ IsBody ls k := by
  simp only [bodies, List.mem_filter, List.mem_range, decide_eq_true_eq, and_iff_right_iff_imp]
  exact fun h => h.1.lt_length

theorem length_bodies (ls : List (List Inst)) :
    (bodies ls).length = Nat.count (IsBody ls) ls.length := by
  rw [bodies, ← List.countP_eq_length_filter]
  rfl

theorem mem_guards : k ∈ guards ls ↔ IsGuard ls k := by
  simp only [guards, List.mem_filter, List.mem_range, decide_eq_true_eq, and_iff_right_iff_imp]
  exact fun h => h.hasInsts.lt_length

/-- The first port with instructions becomes a basic block. -/
theorem HasInsts.exists_isBody (h : HasInsts ls k) : ∃ j ≤ k, IsBody ls j := by
  induction k using Nat.strongRecOn with
  | _ k ih =>
    rcases hasInsts_iff.mp h with hguard | hbody
    · -- A port can only be a guard if there are instructions before it.
      obtain ⟨j, hj, hinsts⟩ := hguard.2
      obtain ⟨i, hi, hbody⟩ := ih j hj hinsts
      exact ⟨i, by omega, hbody⟩
    · exact ⟨k, Nat.le_refl k, hbody⟩

/-- A node has basic blocks made of ports if a port has instructions. -/
theorem bodies_eq_nil_iff : bodies ls = [] ↔ ∀ k, ¬ HasInsts ls k := by
  rw [List.eq_nil_iff_forall_not_mem]
  constructor
  · intro h k hk
    obtain ⟨j, -, hbody⟩ := hk.exists_isBody
    exact h j (mem_bodies.mpr hbody)
  · exact fun h k hk => h k (mem_bodies.mp hk).1

theorem homes_of_ne_nil (h : bodies ls ≠ []) : homes ls = bodies ls := if_neg h

theorem homes_of_eq_nil (h : bodies ls = []) : homes ls = [0] := if_pos h

theorem mem_homes : k ∈ homes ls ↔ IsBody ls k ∨ k = 0 ∧ bodies ls = [] := by
  by_cases hnil : bodies ls = []
  · have hbody : ¬ IsBody ls k := fun h => bodies_eq_nil_iff.mp hnil k h.1
    simp [homes_of_eq_nil hnil, hbody, hnil]
  · simp [homes_of_ne_nil hnil, mem_bodies, hnil]

theorem homes_ne_nil : homes ls ≠ [] := by
  rw [homes]
  split
  · exact List.cons_ne_nil 0 []
  · assumption

theorem lastBody?_eq_some : lastBody? ls k = some m ↔ IsGreatest {j | j ≤ k ∧ IsBody ls j} m := by
  rw [lastBody?, getLast?_filter_range]
  simp only [Nat.lt_succ_iff]

theorem lastBody?_eq_none : lastBody? ls k = none ↔ ∀ j ≤ k, ¬ IsBody ls j := by
  rw [lastBody?, getLast?_filter_range_eq_none]
  simp only [Nat.lt_succ_iff]

/-- What is guarded is a block that was made before. -/
theorem IsGuard.exists_lastBody (h : IsGuard ls k) : ∃ m, lastBody? ls k = some m := by
  obtain ⟨j, hj, hbody⟩ := h.hasInsts.exists_isBody
  refine Option.ne_none_iff_exists'.mp fun hnone => ?_
  exact lastBody?_eq_none.mp hnone j hj hbody

/-- A port that becomes no basic block leaves the last one what it was. -/
theorem lastBody?_of_not_isBody (h : ¬ IsBody ls k) :
    lastBody? ls k = ((List.range k).filter (IsBody ls ·)).getLast? := by
  rw [lastBody?, filter_range_succ, if_neg h, List.append_nil]

theorem guardBehind?_eq_some : guardBehind? ls n m = some k ↔
    IsGreatest {k | k < n ∧ IsGuard ls k ∧ lastBody? ls k = some m} k :=
  getLast?_filter_range

/-- One more port guards the block that is the last one, if it guards any. -/
theorem guardBehind?_succ (ls : List (List Inst)) (n m : Nat) : guardBehind? ls (n + 1) m =
    if IsGuard ls n ∧ lastBody? ls n = some m then some n else guardBehind? ls n m := by
  rw [guardBehind?, filter_range_succ]
  split
  · rw [List.getLast?_concat]
  · rw [List.append_nil, guardBehind?]

/-- No port guards the block of a later one. -/
theorem guardBehind?_self (ls : List (List Inst)) (n : Nat) : guardBehind? ls n n = none := by
  refine getLast?_filter_range_eq_none.mpr fun k hk hguard => ?_
  have hle : n ≤ k := (lastBody?_eq_some.mp hguard.2).1.1
  omega

/-! ### Blocks of ports -/

/-- A block is made for the port at a place. -/
def IsMade (ls : List (List Inst)) (k : Nat) : Prop := k ∈ homes ls ∨ IsGuard ls k

theorem HasInsts.isMade (h : HasInsts ls k) : IsMade ls k := by
  rcases hasInsts_iff.mp h with hguard | hbody
  · exact .inr hguard
  · exact .inl (mem_homes.mpr (.inl hbody))

/-- A block without instructions is the only one of its node. -/
theorem IsMade.hasInsts_or (h : IsMade ls k) : HasInsts ls k ∨ k = 0 ∧ bodies ls = [] := by
  rcases h with hhome | hguard
  · exact (mem_homes.mp hhome).imp_left fun hbody => hbody.1
  · exact .inl hguard.hasInsts

theorem not_isGuard_of_mem_homes (h : k ∈ homes ls) : ¬ IsGuard ls k := by
  intro hguard
  rcases mem_homes.mp h with hbody | ⟨-, hnil⟩
  · exact hbody.2 hguard
  · exact bodies_eq_nil_iff.mp hnil k hguard.hasInsts

/-- The block that is made for the port at a place, if the blocks made for ports have the numbers
from `base` on. -/
def blockOf (base : Nat) (ls : List (List Inst)) (k : Nat) : Nat :=
  base + Nat.count (HasInsts ls) k

/-- How many blocks are made. -/
def blockCount (ls : List (List Inst)) : Nat := max 1 (Nat.count (HasInsts ls) ls.length)

variable {base : Nat}

@[simp] theorem blockOf_zero : blockOf base ls 0 = base := by
  simp [blockOf]

theorem blockOf_succ (base : Nat) (ls : List (List Inst)) (k : Nat) :
    blockOf base ls (k + 1) = blockOf base ls k + if HasInsts ls k then 1 else 0 := by
  rw [blockOf, blockOf, Nat.count_succ, Nat.add_assoc]

theorem base_le_blockOf : base ≤ blockOf base ls k := Nat.le_add_right ..

theorem blockOf_lt (h : HasInsts ls k) (hk : k < n) : blockOf base ls k < blockOf base ls n :=
  Nat.add_lt_add_left (Nat.count_strict_mono h hk) base

theorem blockOf_inj (hj : HasInsts ls j) (hk : HasInsts ls k)
    (h : blockOf base ls j = blockOf base ls k) : j = k :=
  Nat.count_injective hj hk (Nat.add_left_cancel h)

theorem blockCount_eq (h : bodies ls ≠ []) :
    blockCount ls = Nat.count (HasInsts ls) ls.length := by
  obtain ⟨k, hk⟩ := List.exists_mem_of_ne_nil _ h
  have hinsts := (mem_bodies.mp hk).1
  have hlt := Nat.count_strict_mono hinsts hinsts.lt_length
  rw [blockCount]
  omega

/-- The number after all blocks that were made of instructions. -/
theorem blockOf_length (h : bodies ls ≠ []) :
    blockOf base ls ls.length = base + blockCount ls := by
  rw [blockOf, blockCount_eq h]

theorem blockOf_eq_base (h : bodies ls = []) (k : Nat) : blockOf base ls k = base := by
  rw [blockOf, Nat.count_of_forall_not fun j _ => bodies_eq_nil_iff.mp h j, Nat.add_zero]

theorem blockCount_eq_one (h : bodies ls = []) : blockCount ls = 1 := by
  rw [blockCount, Nat.count_of_forall_not fun j _ => bodies_eq_nil_iff.mp h j]
  rfl

theorem IsMade.blockOf_lt (h : IsMade ls k) : blockOf base ls k < base + blockCount ls := by
  rcases h.hasInsts_or with hinsts | ⟨-, hnil⟩
  · rw [← blockOf_length fun hnil => bodies_eq_nil_iff.mp hnil k hinsts]
    exact KernelIntervals.blockOf_lt hinsts hinsts.lt_length
  · rw [blockOf_eq_base hnil, blockCount_eq_one hnil]
    omega

theorem IsMade.blockOf_inj (hj : IsMade ls j) (hk : IsMade ls k)
    (h : blockOf base ls j = blockOf base ls k) : j = k := by
  rcases hj.hasInsts_or with hj | ⟨rfl, hnil⟩
  · rcases hk.hasInsts_or with hk | ⟨-, hnil⟩
    · exact KernelIntervals.blockOf_inj hj hk h
    · exact absurd hj (bodies_eq_nil_iff.mp hnil j)
  · rcases hk.hasInsts_or with hk | ⟨rfl, -⟩
    · exact absurd hk (bodies_eq_nil_iff.mp hnil k)
    · rfl

/-- Each number in between is that of a block. -/
theorem exists_blockOf {x : Nat} (hle : base ≤ x) (hlt : x < base + blockCount ls) :
    ∃ k, IsMade ls k ∧ blockOf base ls k = x := by
  by_cases hnil : bodies ls = []
  · refine ⟨0, .inl ?_, ?_⟩
    · rw [homes_of_eq_nil hnil]
      exact List.mem_singleton_self 0
    · rw [blockCount_eq_one hnil] at hlt
      rw [blockOf_zero]
      omega
  · rw [← blockOf_length hnil, blockOf] at hlt
    have hcount : x - base < Nat.count (HasInsts ls) ls.length := by omega
    obtain ⟨k, -, hinsts, heq⟩ := exists_count_eq hcount
    refine ⟨k, hinsts.isMade, ?_⟩
    rw [blockOf, heq]
    omega

end KernelIntervals
