/-
Finite sets of registers.

* `RegSet` — a set, kept as its members in ascending order,
* `RegSet.insert`, `RegSet.union`, `RegSet.ofList`, `RegSet.size`,
* `RegSet.mem_insert`, `RegSet.mem_union`, `RegSet.mem_ofList` — membership,
* `RegSet.ext_mem` — sets with the same members are equal,
* `RegSet.render` — the text of a set in a snapshot.

Design notes: the ascending list is a normal form, so equality of sets is
equality of values, and snapshots list registers by number.
-/
import KernelIntervals.Reg.Basic

namespace KernelIntervals

/-- A finite set of registers. -/
@[ext] structure RegSet where
  toList : List Reg
  ascending : toList.Pairwise (· < ·)
deriving DecidableEq

namespace RegSet

instance : EmptyCollection RegSet := ⟨⟨[], .nil⟩⟩

instance : Inhabited RegSet := ⟨∅⟩

instance : Membership Reg RegSet := ⟨fun s r => r ∈ s.toList⟩

instance (r : Reg) (s : RegSet) : Decidable (r ∈ s) :=
  inferInstanceAs (Decidable (r ∈ s.toList))

theorem mem_def {r : Reg} {s : RegSet} : r ∈ s ↔ r ∈ s.toList := Iff.rfl

@[simp] theorem toList_empty : (∅ : RegSet).toList = [] := rfl

@[simp] theorem not_mem_empty (r : Reg) : r ∉ (∅ : RegSet) := List.not_mem_nil

/-- The number of registers in the set. -/
def size (s : RegSet) : Nat := s.toList.length

@[simp] theorem size_empty : (∅ : RegSet).size = 0 := rfl

/-! ### Insertion -/

/-- A register put at its place in an ascending list. -/
def place (r : Reg) : List Reg → List Reg
  | [] => [r]
  | x :: xs => if r < x then r :: x :: xs else if r = x then x :: xs else x :: place r xs

theorem mem_place {r a : Reg} {xs : List Reg} : a ∈ place r xs ↔ a = r ∨ a ∈ xs := by
  induction xs with
  | nil => simp [place]
  | cons x xs ih =>
    rw [place]
    split
    · simp
    · split
      next h => subst h; simp
      next => simp only [List.mem_cons, ih]; grind

theorem place_ascending {r : Reg} {xs : List Reg} (h : xs.Pairwise (· < ·)) :
    (place r xs).Pairwise (· < ·) := by
  induction xs with
  | nil => simp [place]
  | cons x xs ih =>
    obtain ⟨hx, hxs⟩ := List.pairwise_cons.mp h
    rw [place]
    split
    next hlt =>
      refine List.pairwise_cons.mpr ⟨fun a ha => ?_, h⟩
      rcases List.mem_cons.mp ha with rfl | ha
      · exact hlt
      · exact Reg.lt_trans hlt (hx a ha)
    next hlt =>
      split
      next => exact h
      next hne =>
        refine List.pairwise_cons.mpr ⟨fun a ha => ?_, ih hxs⟩
        rcases mem_place.mp ha with rfl | ha
        · exact Reg.lt_of_not_lt_of_ne hlt hne
        · exact hx a ha

/-- The set with one more register. -/
def insert (s : RegSet) (r : Reg) : RegSet :=
  ⟨place r s.toList, place_ascending s.ascending⟩

@[simp] theorem mem_insert {a r : Reg} {s : RegSet} : a ∈ s.insert r ↔ a = r ∨ a ∈ s :=
  mem_place

/-! ### Unions -/

/-- The set with the registers of a list added. -/
def insertAll (s : RegSet) (rs : List Reg) : RegSet :=
  rs.foldl insert s

@[simp] theorem insertAll_nil (s : RegSet) : s.insertAll [] = s := rfl

@[simp] theorem insertAll_cons (s : RegSet) (r : Reg) (rs : List Reg) :
    s.insertAll (r :: rs) = (s.insert r).insertAll rs := rfl

@[simp] theorem mem_insertAll {a : Reg} {s : RegSet} {rs : List Reg} :
    a ∈ s.insertAll rs ↔ a ∈ s ∨ a ∈ rs := by
  induction rs generalizing s with
  | nil => simp
  | cons r rs ih => simp only [insertAll_cons, ih, mem_insert, List.mem_cons]; grind

/-- The set of the registers of a list. -/
def ofList (rs : List Reg) : RegSet :=
  (∅ : RegSet).insertAll rs

@[simp] theorem mem_ofList {a : Reg} {rs : List Reg} : a ∈ ofList rs ↔ a ∈ rs := by
  simp [ofList]

/-- The registers that are in one of two sets. -/
def union (s t : RegSet) : RegSet :=
  s.insertAll t.toList

instance : Union RegSet := ⟨union⟩

@[simp] theorem mem_union {a : Reg} {s t : RegSet} : a ∈ s ∪ t ↔ a ∈ s ∨ a ∈ t :=
  mem_insertAll

/-! ### Equality -/

theorem nodup_toList (s : RegSet) : s.toList.Nodup :=
  List.Pairwise.imp (fun {a b} (hlt : a < b) (he : a = b) => Reg.lt_irrefl b (he ▸ hlt))
    s.ascending

/-- Sets with the same members are equal. -/
theorem ext_mem {s t : RegSet} (h : ∀ r, r ∈ s ↔ r ∈ t) : s = t := by
  refine RegSet.ext (List.Perm.eq_of_pairwise ?_ s.ascending t.ascending ?_)
  · intro a b _ _ hab hba
    exact absurd (Reg.lt_trans hab hba) (Reg.lt_irrefl a)
  · exact (List.perm_ext_iff_of_nodup s.nodup_toList t.nodup_toList).mpr h

/-! ### Text -/

/-- The text of a set: each name followed by a blank, between braces. -/
def render (s : RegSet) : String :=
  "\x7b" ++ String.join (s.toList.map fun r => r.name ++ " ") ++ "\x7d"

end RegSet

end KernelIntervals
