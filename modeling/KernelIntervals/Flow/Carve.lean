/-
Basic blocks from the nodes of a control flow graph.

* `blockName` — the name of a basic block of a node,
* `Carve.segment` — the blocks of a node with the instructions of one more port,
* `Carve.node` — the blocks of a node, and which of them each port belongs to,
* `Carve.edge` — an edge between the blocks that an edge of the graph means,
* `carve` — the basic blocks of a graph.

A port of a node that has instructions is a basic block. The exception is a
single instruction under a predicate, other than the exit, behind a block: it
only decides whether that block branches, so it becomes a controlling block and
is not part of the flow. The blocks of a node follow each other in port order.
An edge leaves from the last block made at or before its port, and goes to the
first block of its target.
-/
import KernelIntervals.Dot.Basic
import KernelIntervals.Flow.Logged
import KernelIntervals.Inst.Read

namespace KernelIntervals

/-- Why a graph gives no blocks. -/
inductive CarveError
  | badInst (node : String) (source : InstError)
  | unknownNode (source target : String)
  | unknownPort (node port : String)
deriving DecidableEq

def CarveError.message : CarveError → String
  | badInst node source => "node `" ++ node ++ "`: " ++ source.message
  | unknownNode source target =>
    "edge `" ++ source ++ "` -> `" ++ target ++ "` refers to an unknown node"
  | unknownPort node port =>
    "edge from `" ++ node ++ "` leaves through unknown port `" ++ port ++ "`"

/-- The name of the block with the given number among those of a node: the name
of the node, then with the letters from A to Z, then with numbers. -/
def blockName (node : String) (nth : Nat) : String :=
  if nth = 0 then node
  else if nth ≤ 26 then node.push (Char.ofNat ('A'.toNat + (nth - 1)))
  else node ++ "_" ++ (nth - 1).repr

/-- The name of a controlling block. -/
def controllingName (k : Nat) : String := "Controlling_basicBlock" ++ k.repr

/-- Whether instructions only decide whether a branch is taken. -/
def isControllingSegment : List Inst → Bool
  | [i] => i.isPredicated && !i.isExit
  | _ => false

/-- The state of carving: the graph so far, and how many controlling blocks were
made. -/
structure CarveState extends LoggedGraph where
  controlling : Nat := 0

/-- A step of carving. -/
abbrev Carve := EStateM CarveError CarveState

/-- The blocks of a node. -/
structure CarvedNode where
  name : String
  blocks : List BlockId
  /-- The named ports with the last block made at or before each. -/
  ports : List (String × Option BlockId)

namespace CarvedNode

/-- The block that an edge leaves from through a port. Ports before the first
block belong to it, and of several ports of one name the last one counts. -/
def exit? (c : CarvedNode) : Option String → Option BlockId
  | none => c.blocks.getLast?
  | some port =>
    if port = "entry" then c.blocks.getLast?
    else match c.ports.reverse.find? (·.1 == port) with
      | some (_, some block) => some block
      | some (_, none) => c.blocks.head?
      | none => none

end CarvedNode

namespace Carve

/-- A new block, of the abstract block with the given number. -/
def newBlock (group : Nat) (b : Block) : Carve BlockId :=
  modifyGet fun s =>
    (s.graph.blocks.size, { s with graph := s.graph.addBlock { b with group := some group } })

def changeGraph (f : FlowGraph → FlowGraph) : Carve Unit :=
  modify fun s => { s with graph := f s.graph }

def report (event : Event) : Carve Unit :=
  modify fun s => { s with log := s.log.push event }

/-- A controlling block for the branch at the end of a block. -/
def control (group : Nat) (controlled : BlockId) (insts : List Inst) : Carve Unit := do
  let s ← get
  let name := controllingName s.controlling
  set { s with controlling := s.controlling + 1 }
  let id ← newBlock group { Block.ofInsts name insts with controlling := true }
  changeGraph (·.modifyBlock controlled ({ · with control := some id }))
  report (.guarded name (((s.graph.block? controlled).map (·.name)).getD ""))

/-- The blocks of a node with the instructions of one more port. -/
def segment (group : Nat) (node : String) (blocks : List BlockId) (insts : List Inst) :
    Carve (List BlockId) := do
  if insts.isEmpty then return blocks
  -- Only behind a block is there a branch to be guarded.
  match blocks.getLast?, isControllingSegment insts with
  | some last, true =>
    control group last insts
    return blocks
  | last, _ =>
    let id ← newBlock group
      { Block.ofInsts (blockName node blocks.length) insts with exit := insts.any Inst.isExit }
    if let some last := last then changeGraph (·.link last id)
    return blocks ++ [id]

/-- The blocks and ports of a node with one more port. -/
def port (group : Nat) (c : CarvedNode) (p : Dot.Port) : Carve CarvedNode := do
  match parseStatements p.text with
  | .error source => throw (.badInst c.name source)
  | .ok insts =>
    let blocks ← segment group c.name c.blocks insts
    let ports := match p.name with
      | some name => c.ports ++ [(name, blocks.getLast?)]
      | none => c.ports
    return { c with blocks, ports }

/-- The blocks of a node. A node without instructions gets an empty block. -/
def node (group : Nat) (n : Dot.Node) : Carve CarvedNode := do
  let carved ← n.ports.foldlM (port group) ⟨n.name, [], []⟩
  if carved.blocks.isEmpty then
    let id ← newBlock group (Block.ofInsts (blockName n.name 0) [])
    return { carved with blocks := [id] }
  else return carved

/-- The edge between blocks that an edge between nodes means. -/
def edge (nodes : List CarvedNode) (e : Dot.Edge) : Carve Unit := do
  -- Of several nodes of one name the last one counts.
  let last? (name : String) := nodes.reverse.find? (·.name == name)
  match last? e.source, last? e.target with
  | some source, some target =>
    match source.exit? e.port, target.blocks.head? with
    | some exit, some entry => changeGraph (·.link exit entry)
    | _, _ => throw (.unknownPort e.source (e.port.getD ""))
  | _, _ => throw (.unknownNode e.source e.target)

/-- The basic blocks of a graph, in the order they were made. -/
def graph (g : Dot.Graph) : Carve (List BlockId) := do
  let nodes ← g.nodes.zipIdx.mapM fun (n, group) => node group n
  g.edges.forM (edge nodes)
  let blocks := nodes.flatMap (·.blocks)
  report (.carved g.nodes.length blocks.length (← get).controlling)
  return blocks

end Carve

/-- The basic blocks of a graph, made in a flow graph. If the graph gives no
blocks, those made before the error stay. -/
def carve (g : Dot.Graph) (state : LoggedGraph) :
    Except CarveError (List BlockId) × LoggedGraph :=
  match Carve.graph g { state with } with
  | .ok blocks s => (.ok blocks, s.toLoggedGraph)
  | .error e s => (.error e, s.toLoggedGraph)

end KernelIntervals
