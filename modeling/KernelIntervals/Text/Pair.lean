/-
Separators of two characters.

* `breakAtPair` — the text before and behind the first occurrence of a pair,
* `splitAtPair` — the pieces between all occurrences, found from left to right.
-/

namespace KernelIntervals.Text

/-- The text before the first occurrence of `a` followed by `b`, and the text
behind it. -/
def breakAtPair (a b : Char) : List Char → Option (List Char × List Char)
  | c :: d :: rest =>
    if c = a ∧ d = b then some ([], rest)
    else (breakAtPair a b (d :: rest)).map fun (before, after) => (c :: before, after)
  | _ => none

theorem eq_of_breakAtPair {a b : Char} {text before after : List Char}
    (h : breakAtPair a b text = some (before, after)) :
    text = before ++ a :: b :: after := by
  induction text generalizing before with
  | nil => simp [breakAtPair] at h
  | cons c text ih =>
    cases text with
    | nil => simp [breakAtPair] at h
    | cons d rest =>
      rw [breakAtPair] at h
      split at h
      next hcd =>
        obtain ⟨rfl, rfl⟩ := hcd
        simp only [Option.some.injEq, Prod.mk.injEq] at h
        simp [← h.1, h.2]
      next =>
        obtain ⟨⟨b', a'⟩, hbreak, heq⟩ := Option.map_eq_some_iff.mp h
        simp only [Prod.mk.injEq] at heq
        obtain ⟨rfl, rfl⟩ := heq
        rw [ih hbreak]
        rfl

/-- The pieces of a text between the occurrences of `a` followed by `b`, found
from left to right. -/
def splitAtPair (a b : Char) : List Char → List (List Char)
  | c :: d :: rest =>
    if c = a ∧ d = b then [] :: splitAtPair a b rest
    else match splitAtPair a b (d :: rest) with
      | [] => [[c]]
      | piece :: pieces => (c :: piece) :: pieces
  | text => [text]

end KernelIntervals.Text
