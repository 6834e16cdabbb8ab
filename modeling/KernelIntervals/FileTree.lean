/-
A tree of directories and files.

* `FileTree` — numbered directories and files, and a working directory,
* `FileError` — why an operation on files failed,
* `FileTree.walk` — where a path leads to,
* `FileTree.step_add` — a new entry is found under its name,
* `FileTree.read`, `FileTree.write` — the text of a file,
* `FileTree.makeDirs` — a directory, with all that are missing on the way to it,
* `FileTree.files` — the files below the working directory.

Design notes: a directory knows the numbers of what it holds and of the directory
around it, so a path is walked part by part from where it starts. Every part but
the last has to lead to a directory. The root is its own parent. Whether a path
can be a path at all is decided before the walk, whether a name is too long only
where it is met.
-/
import KernelIntervals.Arena
import KernelIntervals.Measure
import KernelIntervals.Snapshot.Place

namespace KernelIntervals

/-- Why an operation on files failed. -/
inductive FileError
  | notFound
  | alreadyExists
  | notDirectory
  | isDirectory
  | nameTooLong
  | nulInName
deriving DecidableEq

namespace FileError

/-- The number of an error, if it comes from the system. -/
def code? : FileError → Option Nat
  | notFound => some 2
  | alreadyExists => some 17
  | notDirectory => some 20
  | isDirectory => some 21
  | nameTooLong => some 36
  | nulInName => none

/-- The kind of an error in one word. -/
def kind : FileError → String
  | notFound => "NotFound"
  | alreadyExists => "AlreadyExists"
  | notDirectory => "NotADirectory"
  | isDirectory => "IsADirectory"
  | nameTooLong => "InvalidFilename"
  | nulInName => "InvalidInput"

/-- An error in words. -/
def text : FileError → String
  | notFound => "No such file or directory"
  | alreadyExists => "File exists"
  | notDirectory => "Not a directory"
  | isDirectory => "Is a directory"
  | nameTooLong => "File name too long"
  | nulInName => "file name contained an unexpected NUL byte"

/-- An error in words, with its number. -/
def message (e : FileError) : String :=
  match e.code? with
  | some code => e.text ++ " (os error " ++ code.repr ++ ")"
  | none => e.text

end FileError

/-- A directory or a file. A directory has the number of the directory around it. -/
inductive Entry
  | dir (parent : Nat) (names : List (String × Nat))
  | file (text : String)
deriving DecidableEq

/-- An entry with one more name, if it is a directory. -/
def Entry.withName (e : Entry) (name : String) (id : Nat) : Entry :=
  match e with
  | dir parent names => dir parent (names ++ [(name, id)])
  | file text => file text

/-- Where a path leads to: an entry, or a name that is free in a directory. -/
inductive Spot
  | taken (id : Nat)
  | free (dir : Nat) (name : String)
deriving DecidableEq

/-- Directories and files by number. The root is number 0. -/
structure FileTree where
  entries : Arena Entry
  /-- The working directory. -/
  here : Nat

namespace FileTree

/-- An empty root, and a working directory in it whose name is not known: a path
that leaves the working directory does not come back to it. -/
def fresh : FileTree := ⟨⟨#[.dir 0 [], .dir 0 []]⟩, 1⟩

instance : Inhabited FileTree := ⟨fresh⟩

/-- The entry that a path leads to. -/
def lookup? (t : FileTree) : Spot → Option Entry
  | .taken id => t.entries.get? id
  | .free .. => none

/-- The tree with another entry, under a name in a directory. -/
def add (t : FileTree) (dir : Nat) (name : String) (e : Entry) : FileTree :=
  { t with entries := (t.entries.modify dir (·.withName name t.entries.size)).alloc e }

@[simp] theorem lookup?_add (t : FileTree) (dir : Nat) (name : String) (e : Entry) :
    (t.add dir name e).lookup? (.taken t.entries.size) = some e := by
  simp [lookup?, add, Arena.get?_alloc]

/-! ### Paths -/

/-- The number of bytes that a name may have. -/
def nameLimit : Nat := 255

/-- The number of bytes that a path may have. -/
def pathLimit : Nat := 4095

/-- The number of bytes of a path with the given parts. -/
def pathSize (parts : List String) : Nat :=
  total String.utf8ByteSize parts + (parts.length - 1)

/-- A path is refused if it has a character that ends names, or too many bytes. -/
def checkPath (parts : List String) : Except FileError Unit :=
  if parts.any (·.toList.contains '\x00') then .error .nulInName
  else if pathLimit < pathSize parts then .error .nameTooLong
  else .ok ()

/-- Where one part of a path leads to from an entry. -/
def step (t : FileTree) (id : Nat) (part : String) : Except FileError Spot :=
  match t.entries.get? id with
  | none => .error .notFound
  | some (.file _) => .error .notDirectory
  | some (.dir parent names) =>
    if part = "" ∨ part = "." then .ok (.taken id)
    else if part = ".." then .ok (.taken parent)
    else if nameLimit < part.utf8ByteSize then .error .nameTooLong
    else
      match names.lookup part with
      | some next => .ok (.taken next)
      | none => .ok (.free id part)

/-- A new entry is found under its name. -/
theorem step_add {t : FileTree} {dir : Nat} {name : String} (e : Entry)
    (h : t.step dir name = .ok (.free dir name)) :
    (t.add dir name e).step dir name = .ok (.taken t.entries.size) := by
  cases hd : t.entries.get? dir with
  | none => simp [step, hd] at h
  | some d =>
    cases d with
    | file text => simp [step, hd] at h
    | dir parent names =>
      have hne : dir ≠ t.entries.size := Nat.ne_of_lt (Arena.lt_size_of_get? hd)
      have hadd : (t.add dir name e).entries.get? dir
          = some (.dir parent (names ++ [(name, t.entries.size)])) := by
        simp [add, Arena.get?_alloc, Arena.get?_modify, hne, hd, Entry.withName]
      simp only [step, hd] at h
      simp only [step, hadd]
      grind

/-- The entry that one part of a path leads to, on the way to another. -/
def enter (t : FileTree) (id : Nat) (part : String) : Except FileError Nat := do
  match ← t.step id part with
  | .taken next => return next
  | .free .. => throw .notFound

/-- Where the parts of a path lead to. A path that starts with an empty part
starts at the root. -/
def walk (t : FileTree) (parts : List String) : Except FileError Spot := do
  -- The empty path leads nowhere.
  if parts.isEmpty || parts == [""] then throw .notFound
  let start := if parts.head? == some "" then 0 else t.here
  t.step (← parts.dropLast.foldlM t.enter start) (parts.getLast?.getD "")

/-- Where a path leads to, if it can be a path. -/
def locate (t : FileTree) (parts : List String) : Except FileError Spot := do
  checkPath parts
  t.walk parts

/-! ### Files -/

/-- The text of a file. -/
def read (t : FileTree) (path : String) : Except FileError String := do
  match t.lookup? (← t.locate (pathParts path)) with
  | some (.file text) => return text
  | some (.dir ..) => throw .isDirectory
  | none => throw .notFound

/-- The tree with a file of the given text in place of the one before. -/
def write (t : FileTree) (path text : String) : Except FileError FileTree := do
  match ← t.locate (pathParts path) with
  | .free dir name => return t.add dir name (.file text)
  | .taken id =>
    match t.entries.get? id with
    | some (.dir ..) => throw .isDirectory
    | _ => return { t with entries := t.entries.modify id fun _ => .file text }

/-! ### Directories -/

/-- Whether a path leads to a directory. -/
def isDirParts (t : FileTree) (parts : List String) : Bool :=
  match t.locate parts with
  | .error _ => false
  | .ok spot =>
    match t.lookup? spot with
    | some (.dir ..) => true
    | _ => false

/-- Whether a path leads to a directory. The empty path leads nowhere. -/
def isDir (t : FileTree) (path : String) : Bool := t.isDirParts (pathParts path)

/-- Parts without the empty ones at their end, the first part apart. -/
def dropSlashes (parts : List String) : List String :=
  match parts with
  | [] => []
  | first :: rest => first :: (rest.reverse.dropWhile (· == "")).reverse

/-- The tree with a new directory, in one that exists. -/
def makeDirParts (t : FileTree) (parts : List String) : Except FileError FileTree := do
  checkPath parts
  match ← t.walk (dropSlashes parts) with
  | .taken _ => throw .alreadyExists
  | .free dir name => return t.add dir name (.dir dir [])

/-- Parts without the ones at their end that lead nowhere. -/
def dropIdle (parts : List String) : List String :=
  (parts.reverse.dropWhile fun part => part == "" || part == ".").reverse

/-- The parts of the path to the directory around. -/
def parentParts (parts : List String) : List String :=
  dropIdle (dropIdle parts).dropLast

theorem length_dropIdle_le (parts : List String) : (dropIdle parts).length ≤ parts.length := by
  have := (List.dropWhile_suffix (fun part => part == "" || part == ".") (l := parts.reverse)).length_le
  simpa [dropIdle] using this

theorem length_parentParts_lt {parts : List String} (h : parts ≠ []) :
    (parentParts parts).length < parts.length := by
  have h₁ := length_dropIdle_le parts
  have h₂ := length_dropIdle_le (dropIdle parts).dropLast
  have h₃ := List.length_pos_iff.mpr h
  simp only [List.length_dropLast] at h₂
  simp only [parentParts]
  omega

/-- A directory is made, or the tree left as it is if the directory is there. -/
def ensureDir (t : FileTree) (parts : List String) : Except FileError FileTree :=
  match t.makeDirParts parts with
  | .ok made => .ok made
  | .error e => if t.isDirParts parts then .ok t else .error e

/-- All directories on the way to one are made, and then that one. Those made
before an error stay. -/
def makeDirsParts (t : FileTree) (parts : List String) : Option FileError × FileTree :=
  if h : parts = [] then (none, t)
  else
    match t.ensureDir parts with
    | .ok made => (none, made)
    | .error .notFound =>
      -- The directory around it may be missing, so that one comes first.
      have := length_parentParts_lt h
      match makeDirsParts t (parentParts parts) with
      | (some e, made) => (some e, made)
      | (none, made) =>
        match made.ensureDir parts with
        | .ok made => (none, made)
        | .error e => (some e, made)
    | .error e => (some e, t)
termination_by parts.length

/-- All directories on the way to one are made, and then that one. The empty
path is there already. -/
def makeDirs (t : FileTree) (path : String) : Option FileError × FileTree :=
  if path.isEmpty then (none, t) else t.makeDirsParts (pathParts path)

/-- The files at and below an entry, with the parts of their paths from there. -/
def filesAt (t : FileTree) : Nat → Nat → List (List String × String)
  | 0, _ => []
  | fuel + 1, id =>
    match t.entries.get? id with
    | none => []
    | some (.file text) => [([], text)]
    | some (.dir _ names) => names.flatMap fun (name, next) =>
        (t.filesAt fuel next).map fun (parts, text) => (name :: parts, text)

/-- The files below the working directory, with their paths from there. -/
def files (t : FileTree) : List (String × String) :=
  (t.filesAt t.entries.size t.here).map fun (parts, text) => ("/".intercalate parts, text)

end FileTree

end KernelIntervals
