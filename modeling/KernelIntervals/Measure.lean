/-
Sums of a measure over a list.

* `total` — the sum of a measure over the elements of a list,
* `total_modify` — the sum after a change of one element,
* `total_add_le` — the sum falls if one summand falls and no other grows.

Such sums are why loops end: they bound the work that is left.
-/

namespace KernelIntervals

variable {α : Type}

/-- The sum of a measure over the elements of a list. -/
def total (μ : α → Nat) : List α → Nat
  | [] => 0
  | x :: xs => μ x + total μ xs

@[simp] theorem total_nil (μ : α → Nat) : total μ [] = 0 := rfl

@[simp] theorem total_cons (μ : α → Nat) (x : α) (xs : List α) :
    total μ (x :: xs) = μ x + total μ xs := rfl

@[simp] theorem total_append (μ : α → Nat) (xs ys : List α) :
    total μ (xs ++ ys) = total μ xs + total μ ys := by
  induction xs with
  | nil => simp
  | cons x xs ih => simp [ih, Nat.add_assoc]

theorem total_le {μ ν : α → Nat} (h : ∀ x, ν x ≤ μ x) (xs : List α) : total ν xs ≤ total μ xs := by
  induction xs with
  | nil => simp
  | cons x xs ih => simpa using Nat.add_le_add (h x) ih

/-- The sum falls by at least `k` if one summand does and no other grows. -/
theorem total_add_le {μ ν : α → Nat} {x : α} {k : Nat} {xs : List α} (hx : x ∈ xs)
    (hle : ∀ y, ν y ≤ μ y) (hk : ν x + k ≤ μ x) : total ν xs + k ≤ total μ xs := by
  induction xs with
  | nil => simp at hx
  | cons y ys ih =>
    simp only [total_cons]
    rcases List.mem_cons.mp hx with rfl | hx
    · have := total_le hle ys
      omega
    · have := ih hx
      have := hle y
      omega

/-- A change of one element changes its summand only. -/
theorem total_modify {xs : List α} {i : Nat} {x : α} (f : α → α) (μ : α → Nat)
    (h : xs[i]? = some x) : total μ (xs.modify i f) + μ x = total μ xs + μ (f x) := by
  induction xs generalizing i with
  | nil => simp at h
  | cons y ys ih =>
    cases i with
    | zero =>
      simp only [List.getElem?_cons_zero, Option.some.injEq] at h
      subst h
      simp only [List.modify_zero_cons, total_cons]
      omega
    | succ i =>
      simp only [List.getElem?_cons_succ] at h
      simp only [List.modify_succ_cons, total_cons]
      have := ih h
      omega

end KernelIntervals
