/-
Where snapshots are kept.

* `SnapshotKind` — snapshots of blocks and of intervals,
* `fileName?` — the last part of a path, if it names a file,
* `snapshotPath` — the path of the snapshot for an input file.

The snapshot of an input is named for the kind and for the name of the input up
to its first dot.
-/

namespace KernelIntervals

inductive SnapshotKind
  | blocks
  | intervals
deriving DecidableEq

def SnapshotKind.name : SnapshotKind → String
  | blocks => "BasicBlocks"
  | intervals => "registerIntervals"

/-- The parts of a path between its slashes. -/
def pathParts (path : String) : List String :=
  (path.toList.splitOn '/').map String.ofList

/-- The last part of a path. Slashes and dots at its end do not count, and the
parent directory is no name. -/
def fileName? (path : String) : Option String :=
  match ((pathParts path).filter fun part => part != "" && part != ".").getLast? with
  | some ".." => none
  | name => name

/-- A name up to its first dot. -/
def fileStem (name : String) : String :=
  String.ofList (name.toList.takeWhile (· != '.'))

/-- The path of a file in a directory. -/
def joinPath (dir name : String) : String :=
  if dir.isEmpty || dir.toList.getLast? == some '/' then dir ++ name else dir ++ "/" ++ name

/-- The path of the snapshot for an input file in a directory. -/
def snapshotPath (dir input : String) (kind : SnapshotKind) : String :=
  joinPath dir (kind.name ++ "_" ++ fileStem ((fileName? input).getD "") ++ ".txt")

end KernelIntervals
