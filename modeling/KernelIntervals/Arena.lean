/-
Arenas: growing tables whose entries are known by their place.

* `Arena.get?` — the entry of an id, if the arena has one,
* `Arena.alloc`, `Arena.allocWith` — one more entry, whose id is the number of
  entries before,
* `Arena.modify` — another value for the entry of an id,
* `Arena.get?_alloc`, `Arena.get?_modify` — each entry after each operation.

Design notes: entries are never removed, so an id keeps its entry. An id past
the end has no entry; it gets one when the arena has grown that far.
-/

namespace KernelIntervals

/-- A table of entries, numbered from 0 in the order they were made. -/
@[ext] structure Arena (α : Type) where
  entries : Array α := #[]

namespace Arena

variable {α : Type}

instance : EmptyCollection (Arena α) := ⟨{}⟩

instance : Inhabited (Arena α) := ⟨∅⟩

/-- The number of entries. -/
def size (a : Arena α) : Nat := a.entries.size

/-- All ids that have an entry. -/
def ids (a : Arena α) : List Nat := List.range a.size

/-- The entry of an id. -/
def get? (a : Arena α) (id : Nat) : Option α := a.entries[id]?

/-- The arena with one more entry; its id is the size before. -/
def alloc (a : Arena α) (value : α) : Arena α := ⟨a.entries.push value⟩

/-- The arena with an entry made from its own id. -/
def allocWith (a : Arena α) (f : Nat → α) : Arena α := a.alloc (f a.size)

/-- The arena with another value for the entry of an id, if it has one. -/
def modify (a : Arena α) (id : Nat) (f : α → α) : Arena α := ⟨a.entries.modify id f⟩

/-- The entries with their ids. -/
def items (a : Arena α) : List (Nat × α) := a.ids.zip a.entries.toList

@[simp] theorem size_empty : (∅ : Arena α).size = 0 := rfl

@[simp] theorem get?_empty (id : Nat) : (∅ : Arena α).get? id = none := rfl

@[simp] theorem size_alloc (a : Arena α) (value : α) : (a.alloc value).size = a.size + 1 := by
  simp [size, alloc]

@[simp] theorem size_modify (a : Arena α) (id : Nat) (f : α → α) :
    (a.modify id f).size = a.size := by
  simp [size, modify]

theorem get?_alloc (a : Arena α) (value : α) (id : Nat) :
    (a.alloc value).get? id = if id = a.size then some value else a.get? id := by
  simp only [get?, alloc, size]
  exact Array.getElem?_push

theorem get?_modify (a : Arena α) (id other : Nat) (f : α → α) :
    (a.modify id f).get? other = if id = other then (a.get? other).map f else a.get? other := by
  simp [get?, modify, Array.getElem?_modify]

theorem get?_eq_none_iff {a : Arena α} {id : Nat} : a.get? id = none ↔ a.size ≤ id := by
  simp [get?, size]

theorem exists_get? {a : Arena α} {id : Nat} (h : id < a.size) : ∃ value, a.get? id = some value :=
  Option.ne_none_iff_exists'.mp fun hnone => Nat.not_le.mpr h (get?_eq_none_iff.mp hnone)

theorem lt_size_of_get? {a : Arena α} {id : Nat} {value : α} (h : a.get? id = some value) :
    id < a.size := by
  simp only [get?] at h
  exact (Array.getElem?_eq_some_iff.mp h).1

end Arena

end KernelIntervals
