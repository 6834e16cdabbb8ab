/-
Reading a graph from its tokens.

* `takeId`, `takeToken`, `skip?` — the next token, wanted or optional,
* `attributes` — any number of bracketed attribute lists,
* `nodeRef` — a node name with an optional port and compass point,
* `statement`, `statements` — the body of a graph,
* `Graph.parse` — the graph that a text describes.

Design notes: every reader returns the tokens it leaves. The readers that take
a token leave fewer than they got (`takeId_length` and its like), which is why
the loops end. Only the label of a node is kept of all attributes, and what
follows the closing brace is not looked at.
-/
import KernelIntervals.Dot.Token
import KernelIntervals.Dot.Record

namespace KernelIntervals.Dot

/-! ### Single tokens -/

/-- The error of tokens that do not start with what is expected. -/
def unexpected (expected : Expected) : List Located → ReadError
  | [] => .unexpectedEnd expected
  | t :: _ => .unexpectedToken t.line expected t.token.describe

/-- The name that the tokens start with, and the tokens behind it. -/
def takeId (expected : Expected) (tokens : List Located) :
    Except ReadError (String × List Located) :=
  match tokens with
  | t :: rest =>
    match t.token.id? with
    | some name => .ok (name, rest)
    | none => .error (unexpected expected tokens)
  | [] => .error (unexpected expected tokens)

/-- The tokens behind a given token, which they have to start with. -/
def takeToken (token : Token) (expected : Expected) (tokens : List Located) :
    Except ReadError (List Located) :=
  match tokens with
  | t :: rest => if t.token = token then .ok rest else .error (unexpected expected tokens)
  | [] => .error (unexpected expected tokens)

/-- The tokens behind a given token, if they start with it. -/
def skip? (token : Token) : List Located → Option (List Located)
  | t :: rest => if t.token = token then some rest else none
  | [] => none

theorem takeId_length {expected : Expected} {tokens rest : List Located} {name : String}
    (h : takeId expected tokens = .ok (name, rest)) : rest.length < tokens.length := by
  unfold takeId at h
  split at h
  · split at h <;> simp at h
    simp [h]
  · simp at h

theorem takeToken_length {token : Token} {expected : Expected} {tokens rest : List Located}
    (h : takeToken token expected tokens = .ok rest) : rest.length < tokens.length := by
  unfold takeToken at h
  split at h
  · split at h <;> simp at h
    simp [h]
  · simp at h

theorem skip?_length {token : Token} {tokens rest : List Located}
    (h : skip? token tokens = some rest) : rest.length < tokens.length := by
  unfold skip? at h
  split at h
  · split at h <;> simp at h
    simp [h]
  · simp at h

/-! ### Attributes -/

structure Attribute where
  key : String
  value : String

/-- The tokens behind the separator of two attributes, which may be missing. -/
def skipSeparator (tokens : List Located) : List Located :=
  match skip? .comma tokens with
  | some rest => rest
  | none => (skip? .semicolon tokens).getD tokens

theorem skipSeparator_length (tokens : List Located) :
    (skipSeparator tokens).length ≤ tokens.length := by
  unfold skipSeparator
  split
  next h => exact Nat.le_of_lt (skip?_length h)
  next =>
    cases h : skip? .semicolon tokens with
    | none => simp
    | some rest => simpa using Nat.le_of_lt (skip?_length h)

/-- An attribute and the separator behind it. -/
def takeAttribute (tokens : List Located) : Except ReadError (Attribute × List Located) := do
  let (key, rest) ← takeId .attributeName tokens
  let rest ← takeToken .equals .equals rest
  let (value, rest) ← takeId .attributeValue rest
  return (⟨key, value⟩, skipSeparator rest)

theorem takeAttribute_length {tokens rest : List Located} {a : Attribute}
    (h : takeAttribute tokens = .ok (a, rest)) : rest.length < tokens.length := by
  simp only [takeAttribute, bind, Except.bind, pure, Except.pure] at h
  split at h <;> try simp at h
  next hkey =>
  split at h <;> try simp at h
  next heq =>
  split at h <;> try simp at h
  next hvalue =>
  have h1 := takeId_length hkey
  have h2 := takeToken_length heq
  have h3 := takeId_length hvalue
  have h4 := skipSeparator_length (by assumption : String × List Located).2
  obtain ⟨_, rfl⟩ := h
  omega

/-- The attributes up to a closing bracket, and the tokens behind it. -/
def attributeList (tokens : List Located) :
    Except ReadError (List Attribute × List Located) :=
  match skip? .closeBracket tokens with
  | some rest => .ok ([], rest)
  | none =>
    match h : takeAttribute tokens with
    | .error e => .error e
    | .ok (a, rest) =>
      have := takeAttribute_length h
      (attributeList rest).map fun (as, rest) => (a :: as, rest)
termination_by tokens.length

theorem attributeList_length {tokens rest : List Located} {as : List Attribute}
    (h : attributeList tokens = .ok (as, rest)) : rest.length < tokens.length := by
  fun_induction attributeList tokens generalizing as with
  | case1 tokens r hskip =>
    simp only [Except.ok.injEq, Prod.mk.injEq] at h
    exact h.2 ▸ skip?_length hskip
  | case2 => simp at h
  | case3 tokens _ a r hattr _ ih =>
    cases hlist : attributeList r with
    | error e => simp [hlist, Except.map] at h
    | ok p =>
      simp only [hlist, Except.map, Except.ok.injEq, Prod.mk.injEq] at h
      have h1 := ih (show attributeList r = .ok (p.1, rest) by rw [hlist, ← h.2])
      omega

/-- Any number of bracketed attribute lists. -/
def attributes (tokens : List Located) : Except ReadError (List Attribute × List Located) :=
  match hopen : skip? .openBracket tokens with
  | none => .ok ([], tokens)
  | some inner =>
    match hlist : attributeList inner with
    | .error e => .error e
    | .ok (as, rest) =>
      have := Nat.lt_trans (attributeList_length hlist) (skip?_length hopen)
      (attributes rest).map fun (bs, rest) => (as ++ bs, rest)
termination_by tokens.length

theorem attributes_length {tokens rest : List Located} {as : List Attribute}
    (h : attributes tokens = .ok (as, rest)) : rest.length ≤ tokens.length := by
  fun_induction attributes tokens generalizing as with
  | case1 =>
    simp only [Except.ok.injEq, Prod.mk.injEq] at h
    simp [h.2]
  | case2 => simp at h
  | case3 tokens inner hopen as' r hlist _ ih =>
    cases hrest : attributes r with
    | error e => simp [hrest, Except.map] at h
    | ok p =>
      simp only [hrest, Except.map, Except.ok.injEq, Prod.mk.injEq] at h
      have h1 := ih (show attributes r = .ok (p.1, rest) by rw [hrest, ← h.2])
      omega

/-! ### Statements -/

/-- A node as an edge names it. -/
structure NodeRef where
  name : String
  port : Option String

/-- A node name with an optional port and compass point. -/
def nodeRef (tokens : List Located) : Except ReadError (NodeRef × List Located) := do
  let (name, rest) ← takeId .nodeName tokens
  match skip? .colon rest with
  | none => return (⟨name, none⟩, rest)
  | some rest =>
    let (port, rest) ← takeId .portName rest
    match skip? .colon rest with
    | none => return (⟨name, some port⟩, rest)
    | some rest =>
      let (_, rest) ← takeId .compassPoint rest
      return (⟨name, some port⟩, rest)

theorem nodeRef_length {tokens rest : List Located} {ref : NodeRef}
    (h : nodeRef tokens = .ok (ref, rest)) : rest.length < tokens.length := by
  simp only [nodeRef, bind, Except.bind, pure, Except.pure] at h
  split at h <;> try simp at h
  next hname =>
  have h1 := takeId_length hname
  split at h
  next =>
    simp only [Except.ok.injEq, Prod.mk.injEq] at h
    exact h.2 ▸ h1
  next hcolon =>
    have h2 := skip?_length hcolon
    split at h <;> try simp at h
    next hport =>
    have h3 := takeId_length hport
    split at h
    next =>
      simp only [Except.ok.injEq, Prod.mk.injEq] at h
      rw [← h.2]
      omega
    next hcompass =>
      have h4 := skip?_length hcompass
      split at h <;> try simp at h
      next hpoint =>
      have h5 := takeId_length hpoint
      rw [← h.2]
      omega

/-- The edges of a chain of arrows that starts at a given node. -/
def edgeChain (source : NodeRef) (tokens : List Located) :
    Except ReadError (List Edge × List Located) :=
  match harrow : skip? .arrow tokens with
  | none => .ok ([], tokens)
  | some rest =>
    match href : nodeRef rest with
    | .error e => .error e
    | .ok (target, rest) =>
      have := Nat.lt_trans (nodeRef_length href) (skip?_length harrow)
      (edgeChain target rest).map fun (edges, rest) =>
        (⟨source.name, source.port, target.name⟩ :: edges, rest)
termination_by tokens.length

theorem edgeChain_length {source : NodeRef} {tokens rest : List Located} {edges : List Edge}
    (h : edgeChain source tokens = .ok (edges, rest)) : rest.length ≤ tokens.length := by
  fun_induction edgeChain source tokens generalizing edges with
  | case1 =>
    simp only [Except.ok.injEq, Prod.mk.injEq] at h
    simp [h.2]
  | case2 => simp at h
  | case3 source tokens r harrow target r' href _ ih =>
    cases hrest : edgeChain target r' with
    | error e => simp [hrest, Except.map] at h
    | ok p =>
      simp only [hrest, Except.map, Except.ok.injEq, Prod.mk.injEq] at h
      have h1 := ih (show edgeChain target r' = .ok (p.1, rest) by rw [hrest, ← h.2])
      omega

/-- Whether the tokens start with a keyword, in capitals or not. -/
def startsWithKeyword (keyword : String) : List Located → Bool
  | ⟨.ident name, _⟩ :: _ => name.toList.map Char.toLower == keyword.toList
  | _ => false

/-- The tokens of the attributes for all nodes, edges or graphs, if the tokens
start with the keyword of such a statement. -/
def defaults? (tokens : List Located) : Option (List Located) :=
  match tokens with
  | _ :: ⟨.openBracket, line⟩ :: rest =>
    if ["node", "edge", "graph"].any (startsWithKeyword · tokens) then
      some (⟨.openBracket, line⟩ :: rest)
    else none
  | _ => none

theorem defaults?_length {tokens rest : List Located} (h : defaults? tokens = some rest) :
    rest.length < tokens.length := by
  unfold defaults? at h
  split at h
  · split at h <;> simp at h
    simp [← h]
  · simp at h

/-- A graph with one more node, unless it has one of that name. A second label
for a node is an error. -/
def Graph.declare (g : Graph) (name : String) (label : Option String) :
    Except ReadError Graph :=
  if (g.nodeIndex? name).isSome then
    if label.isSome then .error (.duplicateNode name) else .ok g
  else
    let ports := match label with
      | some label => readRecord label
      | none => []
    .ok { g with nodes := g.nodes ++ [⟨name, ports⟩] }

/-- The graph with the declarations of one statement, and the tokens behind it. -/
def statement (g : Graph) (tokens : List Located) : Except ReadError (Graph × List Located) :=
  match defaults? tokens with
  | some rest => (attributes rest).map fun (_, rest) => (g, rest)
  | none => do
    let (ref, rest) ← nodeRef tokens
    match skip? .equals rest with
    | some rest =>
      -- An attribute of the graph.
      let (_, rest) ← takeId .attributeValue rest
      return (g, rest)
    | none =>
      let (edges, rest) ← edgeChain ref rest
      let (attrs, rest) ← attributes rest
      if edges.isEmpty then
        let g ← g.declare ref.name ((attrs.find? (·.key == "label")).map (·.value))
        return (g, rest)
      else return ({ g with edges := g.edges ++ edges }, rest)

theorem statement_length {g g' : Graph} {tokens rest : List Located}
    (h : statement g tokens = .ok (g', rest)) : rest.length < tokens.length := by
  unfold statement at h
  split at h
  next r hdefaults =>
    have h1 := defaults?_length hdefaults
    cases hattrs : attributes r with
    | error e => simp [hattrs, Except.map] at h
    | ok p =>
      simp only [hattrs, Except.map, Except.ok.injEq, Prod.mk.injEq] at h
      have h2 := attributes_length (show attributes r = .ok (p.1, p.2) from hattrs)
      rw [← h.2]
      omega
  next =>
    simp only [bind, Except.bind, pure, Except.pure] at h
    split at h <;> try simp at h
    next href =>
    have h1 := nodeRef_length href
    split at h
    next hequals =>
      have h2 := skip?_length hequals
      split at h <;> try simp at h
      next hvalue =>
      have h3 := takeId_length hvalue
      rw [← h.2]
      omega
    next =>
      split at h <;> try simp at h
      next hedges =>
      have h2 := edgeChain_length hedges
      split at h <;> try simp at h
      next hattrs =>
      have h3 := attributes_length hattrs
      split at h
      · split at h <;> try simp at h
        rw [← h.2]
        omega
      · simp only [Except.ok.injEq, Prod.mk.injEq] at h
        rw [← h.2]
        omega

/-! ### Graphs -/

/-- The graph with the declarations up to the closing brace. -/
def statements (g : Graph) : List Located → Except ReadError Graph
  | [] => .error (.unexpectedEnd .closeBrace)
  | t :: rest =>
    if t.token = .closeBrace then .ok g
    else if t.token = .semicolon then statements g rest
    else
      match h : statement g (t :: rest) with
      | .error e => .error e
      | .ok (g', rest') =>
        have : rest'.length < rest.length + 1 := statement_length h
        statements g' rest'
termination_by tokens => tokens.length

/-- The tokens behind the keyword of a graph. -/
def graphKeyword (tokens : List Located) : Except ReadError (List Located) :=
  let tokens := if startsWithKeyword "strict" tokens then tokens.tail else tokens
  if startsWithKeyword "digraph" tokens || startsWithKeyword "graph" tokens then
    .ok tokens.tail
  else .error (unexpected .digraph tokens)

/-- The name of a graph, if it has one, and the tokens behind it. -/
def graphName (tokens : List Located) : Except ReadError (Option String × List Located) :=
  match skip? .openBrace tokens with
  | some _ => .ok (none, tokens)
  | none => (takeId .graphName tokens).map fun (name, rest) => (some name, rest)

/-- The graph that some tokens describe. -/
def Graph.ofTokens (tokens : List Located) : Except ReadError Graph := do
  let rest ← graphKeyword tokens
  let (name, rest) ← graphName rest
  let rest ← takeToken .openBrace .openBrace rest
  statements { name } rest

/-- The graph that a text describes. -/
def Graph.parse (text : String) : Except ReadError Graph := do
  Graph.ofTokens (← tokenize text)

end KernelIntervals.Dot
