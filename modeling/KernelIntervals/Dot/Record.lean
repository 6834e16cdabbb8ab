/-
Record labels.

* `readRecord` — the ports of a label,
* `splitFields` — the fields between the bars outside inner braces,
* `readField` — a port from its field: a name between angle brackets, if there
  is one, and a text,
* `unescape` — the text that a field stands for.

A backslash takes the meaning from the character behind it. The three escapes
for the end of a line are all kept as that of a left-justified line.
-/
import KernelIntervals.Text.Blank
import KernelIntervals.Dot.Basic

namespace KernelIntervals.Dot

open Text

/-- Whether a character stands for itself behind a backslash. -/
def isRecordSpecial (c : Char) : Bool :=
  c == '\x7b' || c == '\x7d' || c == '|' || c == '<' || c == '>' || c == ' ' || c == '\\'

/-- The text that a field stands for; unknown escapes are kept. -/
def unescape : List Char → List Char
  | '\\' :: c :: rest =>
    if isRecordSpecial c then c :: unescape rest
    else if c = 'l' ∨ c = 'n' ∨ c = 'r' then '\\' :: 'l' :: unescape rest
    else '\\' :: c :: unescape rest
  | c :: rest => c :: unescape rest
  | [] => []

/-- The depth of braces behind a character. -/
def braceDepth (depth : Nat) (c : Char) : Nat :=
  if c = '\x7b' then depth + 1 else if c = '\x7d' then depth - 1 else depth

/-- The pieces with some characters put in front of the first one. -/
def consFirst (chars : List Char) : List (List Char) → List (List Char)
  | [] => [chars]
  | piece :: pieces => (chars ++ piece) :: pieces

/-- The fields of a record body, which starts inside `depth` braces. -/
def splitFields (depth : Nat) : List Char → List (List Char)
  | '\\' :: c :: rest => consFirst ['\\', c] (splitFields depth rest)
  | c :: rest =>
    if c = '|' ∧ depth = 0 then [] :: splitFields depth rest
    else consFirst [c] (splitFields (braceDepth depth c) rest)
  | [] => [[]]

/-- The text before the first closing angle bracket that is not escaped, and the
text behind it. -/
def breakAtClose : List Char → Option (List Char × List Char)
  | '\\' :: c :: rest =>
    (breakAtClose rest).map fun (before, after) => ('\\' :: c :: before, after)
  | c :: rest =>
    if c = '>' then some ([], rest)
    else (breakAtClose rest).map fun (before, after) => (c :: before, after)
  | [] => none

/-- The name of a field and the rest of it, if the field starts with a name. -/
def fieldName? : List Char → Option (List Char × List Char)
  | '<' :: rest => breakAtClose rest
  | _ => none

/-- The port that a field describes. -/
def readField (field : List Char) : Port :=
  let field := trimStart field
  match fieldName? field with
  | some (name, text) =>
    ⟨some (String.ofList (trim (unescape name))), String.ofList (unescape text)⟩
  | none => ⟨none, String.ofList (unescape field)⟩

/-- The label without the pair of braces around it. -/
def recordBody : List Char → List Char
  | '\x7b' :: rest =>
    if rest.getLast? = some '\x7d' then rest.dropLast else '\x7b' :: rest
  | label => label

/-- The ports of a label. -/
def readRecord (label : String) : List Port :=
  (splitFields 0 (recordBody (trim label.toList))).map readField

end KernelIntervals.Dot
