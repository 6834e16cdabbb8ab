/-
Flow graphs: blocks and intervals in their arenas.

* `FlowGraph` — the blocks and the intervals made so far,
* `FlowGraph.findBlock?` — the first block of a given name,
* `FlowGraph.link` — an edge between two blocks,
* `Edit` — a change of a graph that may meet an id without an entry,
* `Edit.addEdge`, `Edit.joinIntervals` — edges, made one end after the other.

Design notes: an edit that breaks off keeps the changes it has made, so a graph
comes back from it in either case. Functions that only look at a graph give
`none` for an id without an entry; `Edit.demand` turns that into a fault.
-/
import KernelIntervals.Arena
import KernelIntervals.Flow.Fault
import KernelIntervals.Flow.Interval

namespace KernelIntervals

/-- The blocks and intervals made so far. -/
@[ext] structure FlowGraph where
  blocks : Arena Block := ∅
  intervals : Arena Interval := ∅

namespace FlowGraph

instance : Inhabited FlowGraph := ⟨{}⟩

/-- The block of an id. -/
def block? (g : FlowGraph) (id : BlockId) : Option Block := g.blocks.get? id

/-- The interval of an id. -/
def interval? (g : FlowGraph) (id : IntervalId) : Option Interval := g.intervals.get? id

/-- The first block of a given name. -/
def findBlock? (g : FlowGraph) (name : String) : Option BlockId :=
  g.blocks.ids.find? fun id => (g.block? id).any (·.name == name)

/-- The blocks that are part of the program, which controlling blocks are not. -/
def basicBlocks (g : FlowGraph) : List BlockId :=
  g.blocks.ids.filter fun id => (g.block? id).any (!·.controlling)

def addBlock (g : FlowGraph) (b : Block) : FlowGraph := { g with blocks := g.blocks.alloc b }

def addInterval (g : FlowGraph) (i : Interval) : FlowGraph :=
  { g with intervals := g.intervals.alloc i }

def modifyBlock (g : FlowGraph) (id : BlockId) (f : Block → Block) : FlowGraph :=
  { g with blocks := g.blocks.modify id f }

def modifyInterval (g : FlowGraph) (id : IntervalId) (f : Interval → Interval) : FlowGraph :=
  { g with intervals := g.intervals.modify id f }

/-- The graph with an edge between two blocks, recorded on both ends. -/
def link (g : FlowGraph) (source target : BlockId) : FlowGraph :=
  (g.modifyBlock source (·.addSucc target)).modifyBlock target (·.addPred source)

@[simp] theorem block?_addBlock (g : FlowGraph) (b : Block) (id : BlockId) :
    (g.addBlock b).block? id = if id = g.blocks.size then some b else g.block? id :=
  Arena.get?_alloc ..

@[simp] theorem block?_modifyBlock (g : FlowGraph) (id other : BlockId) (f : Block → Block) :
    (g.modifyBlock id f).block? other =
      if id = other then (g.block? other).map f else g.block? other :=
  Arena.get?_modify ..

@[simp] theorem block?_addInterval (g : FlowGraph) (i : Interval) (id : BlockId) :
    (g.addInterval i).block? id = g.block? id := rfl

@[simp] theorem block?_modifyInterval (g : FlowGraph) (id : IntervalId)
    (f : Interval → Interval) (other : BlockId) :
    (g.modifyInterval id f).block? other = g.block? other := rfl

@[simp] theorem interval?_addInterval (g : FlowGraph) (i : Interval) (id : IntervalId) :
    (g.addInterval i).interval? id = if id = g.intervals.size then some i else g.interval? id :=
  Arena.get?_alloc ..

@[simp] theorem interval?_modifyInterval (g : FlowGraph) (id other : IntervalId)
    (f : Interval → Interval) :
    (g.modifyInterval id f).interval? other =
      if id = other then (g.interval? other).map f else g.interval? other :=
  Arena.get?_modify ..

@[simp] theorem interval?_addBlock (g : FlowGraph) (b : Block) (id : IntervalId) :
    (g.addBlock b).interval? id = g.interval? id := rfl

@[simp] theorem interval?_modifyBlock (g : FlowGraph) (id : BlockId) (f : Block → Block)
    (other : IntervalId) :
    (g.modifyBlock id f).interval? other = g.interval? other := rfl

end FlowGraph

/-! ### Edits -/

/-- A change of a flow graph, which may break off. -/
abbrev Edit := EStateM Fault FlowGraph

namespace Edit

/-- A value that is missing if an id has no entry. -/
def demand {α : Type} (value : Option α) : Edit α :=
  match value with
  | some a => pure a
  | none => throw .dangling

/-- Something that is seen in the graph. -/
def query {α : Type} (look : FlowGraph → Option α) : Edit α := do
  demand (look (← get))

/-- A block that exists, changed by a function. -/
def updateBlock (id : BlockId) (f : Block → Block) : Edit Unit := do
  let _ ← query (·.block? id)
  modify (·.modifyBlock id f)

/-- An interval that exists, changed by a function. -/
def updateInterval (id : IntervalId) (f : Interval → Interval) : Edit Unit := do
  let _ ← query (·.interval? id)
  modify (·.modifyInterval id f)

/-- A new block. -/
def newBlock (b : Block) : Edit BlockId :=
  modifyGet fun g => (g.blocks.size, g.addBlock b)

/-- A new interval. -/
def newInterval (i : Interval) : Edit IntervalId :=
  modifyGet fun g => (g.intervals.size, g.addInterval i)

/-- An edge between two blocks. -/
def addEdge (source target : BlockId) : Edit Unit := do
  updateBlock source (·.addSucc target)
  updateBlock target (·.addPred source)

/-- The successor end of an edge between two intervals. -/
def addIntervalSucc (source target : IntervalId) : Edit Unit :=
  updateInterval source (·.addSucc target)

/-- The predecessor end of an edge between two intervals. -/
def addIntervalPred (target source : IntervalId) : Edit Unit :=
  updateInterval target (·.addPred source)

/-- An edge between two intervals. -/
def joinIntervals (source target : IntervalId) : Edit Unit := do
  addIntervalSucc source target
  addIntervalPred target source

end Edit

end KernelIntervals
