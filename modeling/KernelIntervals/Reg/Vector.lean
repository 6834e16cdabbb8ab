/-
Register sets as machine words.

* `RegVector` — a word of 64 bits, bit `i` stands for register `i`,
* `RegVector.ofSet` — the vector of a set, refused if a register has no bit,
* `RegVector.contains`, `RegVector.size`, `RegVector.isEmpty`.
-/
import KernelIntervals.Reg.Set

namespace KernelIntervals

/-- The number of registers that a vector has bits for. -/
def vectorWidth : Nat := 64

/-- A set of registers below `vectorWidth`. -/
@[ext] structure RegVector where
  bits : BitVec vectorWidth
deriving DecidableEq

/-- A register that has no bit in a vector of the given width. -/
structure RegOutOfRange where
  reg : Reg
  width : Nat
deriving DecidableEq

namespace RegOutOfRange

def message (e : RegOutOfRange) : String :=
  "register " ++ e.reg.name ++ " does not fit in a " ++ e.width.repr ++ "-slot register vector"

end RegOutOfRange

namespace RegVector

/-- The vector without registers. -/
def empty : RegVector := ⟨0⟩

instance : Inhabited RegVector := ⟨empty⟩

/-- The vector with the bits of some registers set too. -/
def insertAll (v : RegVector) (rs : List Reg) : RegVector :=
  ⟨rs.foldl (fun bits r => bits ||| BitVec.twoPow vectorWidth r.num) v.bits⟩

/-- The vector of a set, or the least register of the set that has no bit. -/
def ofSet (s : RegSet) : Except RegOutOfRange RegVector :=
  match s.toList.find? (vectorWidth ≤ ·.num) with
  | some r => .error ⟨r, vectorWidth⟩
  | none => .ok (empty.insertAll s.toList)

/-- Whether the bit of a register is set; registers without a bit are not in. -/
def contains (v : RegVector) (r : Reg) : Bool := v.bits.getLsbD r.num

/-- The number of bits set. -/
def size (v : RegVector) : Nat := (List.range vectorWidth).countP v.bits.getLsbD

def isEmpty (v : RegVector) : Bool := v.bits == 0

theorem contains_insertAll {v : RegVector} {rs : List Reg} {r : Reg}
    (h : r.num < vectorWidth) :
    (v.insertAll rs).contains r ↔ v.contains r ∨ r ∈ rs := by
  induction rs generalizing v with
  | nil => simp [insertAll]
  | cons x rs ih =>
    have hstep : v.insertAll (x :: rs) =
        insertAll ⟨v.bits ||| BitVec.twoPow vectorWidth x.num⟩ rs := rfl
    rw [hstep, ih]
    simp only [contains, BitVec.getLsbD_or, BitVec.getLsbD_twoPow, Bool.or_eq_true,
      Bool.and_eq_true, decide_eq_true_eq, List.mem_cons, Reg.ext_iff]
    grind

/-- A vector contains the registers of the set it was built from. -/
theorem contains_of_ofSet {s : RegSet} {v : RegVector} (h : ofSet s = .ok v) (r : Reg) :
    v.contains r ↔ r ∈ s := by
  rw [ofSet] at h
  split at h
  · simp at h
  next hnone =>
    simp only [Except.ok.injEq] at h
    subst h
    by_cases hr : r.num < vectorWidth
    · rw [contains_insertAll hr]
      simp [contains, empty, RegSet.mem_def]
    · constructor
      · intro hc
        exact absurd (BitVec.lt_of_getLsbD hc) hr
      · intro hmem
        have := List.find?_eq_none.mp hnone r hmem
        simp at this
        omega

end RegVector

end KernelIntervals
