/-
Sets of characters given by ranges of code points.

* `inRanges` — whether a code point lies in one of some closed ranges.
-/

namespace KernelIntervals.Text

/-- Whether a code point lies in one of the closed ranges. -/
def inRanges (ranges : Array (Nat × Nat)) (code : Nat) : Bool :=
  ranges.any fun (low, high) => low ≤ code && code ≤ high

theorem inRanges_iff {ranges : Array (Nat × Nat)} {code : Nat} :
    inRanges ranges code ↔ ∃ r ∈ ranges, r.1 ≤ code ∧ code ≤ r.2 := by
  simp [inRanges, Array.any_eq_true, Array.mem_iff_getElem]
  grind

end KernelIntervals.Text
