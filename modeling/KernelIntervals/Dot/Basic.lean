/-
Graphs in the DOT language, as far as control flow graphs need them.

* `Graph` — a name, nodes whose labels are records, and edges,
* `Graph.nodeIndex?`, `Node.portIndex?` — look-up by name,
* `ReadError` — why a text is no such graph.

Design notes: nodes and edges keep the order of their declarations; an edge may
name nodes that are declared nowhere.
-/

namespace KernelIntervals.Dot

/-- A field of a record label. -/
structure Port where
  name : Option String
  text : String
deriving DecidableEq

structure Node where
  name : String
  ports : List Port
deriving DecidableEq

/-- An edge, with the port it leaves its source through. -/
structure Edge where
  source : String
  port : Option String
  target : String
deriving DecidableEq

structure Graph where
  name : Option String := none
  nodes : List Node := []
  edges : List Edge := []
deriving DecidableEq

/-- The place of the first port of a given name. -/
def Node.portIndex? (n : Node) (name : String) : Option Nat :=
  n.ports.findIdx? (·.name == some name)

/-- The place of the first node of a given name. -/
def Graph.nodeIndex? (g : Graph) (name : String) : Option Nat :=
  g.nodes.findIdx? (·.name == name)

/-- The first node of a given name. -/
def Graph.node? (g : Graph) (name : String) : Option Node :=
  g.nodes.find? (·.name == name)

/-! ### Errors -/

/-- What a reader of a graph can wait for. -/
inductive Expected
  | digraph
  | openBrace
  | closeBrace
  | equals
  | graphName
  | nodeName
  | portName
  | compassPoint
  | attributeName
  | attributeValue
deriving DecidableEq

def Expected.describe : Expected → String
  | digraph => "`digraph`"
  | openBrace => "`\x7b`"
  | closeBrace => "`\x7d`"
  | equals => "`=`"
  | graphName => "a graph name"
  | nodeName => "a node name"
  | portName => "a port name"
  | compassPoint => "a compass point"
  | attributeName => "an attribute name"
  | attributeValue => "an attribute value"

/-- Why a text is no graph. Lines are counted from 1. -/
inductive ReadError
  | unexpectedChar (line : Nat) (char : Char)
  | unterminatedString (line : Nat)
  | unexpectedToken (line : Nat) (expected : Expected) (found : String)
  | unexpectedEnd (expected : Expected)
  | duplicateNode (name : String)
deriving DecidableEq

def ReadError.message : ReadError → String
  | unexpectedChar line char =>
    "line " ++ line.repr ++ ": unexpected character `" ++ String.singleton char ++ "`"
  | unterminatedString line => "line " ++ line.repr ++ ": unterminated string"
  | unexpectedToken line expected found =>
    "line " ++ line.repr ++ ": expected " ++ expected.describe ++ ", found `" ++ found ++ "`"
  | unexpectedEnd expected => "unexpected end of input, expected " ++ expected.describe
  | duplicateNode name => "node `" ++ name ++ "` is declared twice"

end KernelIntervals.Dot
