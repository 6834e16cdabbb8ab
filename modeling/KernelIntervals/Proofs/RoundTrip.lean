/-
Reading a graph that was written.

* `Graph.add`, `Statement.Fresh` — a graph with one more node or edge, whose name is new,
* `statement_spelled` — a statement that was written is read as what it declares,
* `statements_spelled` — so are all of them, one after the other,
* `parse_write` — a graph is read from the text that it was written as.
-/
import KernelIntervals.Proofs.DotText

namespace KernelIntervals.Dot

variable {g : Graph} {s : Statement} {ss : List Statement} {tokens rest : List Located}
  {t : Token} {ts : List Token} {line l₁ l₂ l₃ l₄ l₅ : Nat} {name : String}

/-! ### Single tokens -/

theorem exists_token (h : tokens.map Located.token = t :: ts) :
    ∃ line rest, tokens = ⟨t, line⟩ :: rest ∧ rest.map Located.token = ts := by
  obtain ⟨⟨_, line⟩, rest, rfl, rfl, hrest⟩ := List.map_eq_cons_iff.mp h
  exact ⟨line, rest, rfl, hrest⟩

/-- A statement ends before these tokens. -/
def Ended (tokens : List Located) : Prop :=
  ∃ line rest, tokens = ⟨.semicolon, line⟩ :: rest ∨ tokens = ⟨.closeBrace, line⟩ :: rest

theorem Ended.skip?_eq_none (h : Ended tokens) (hsemicolon : t ≠ .semicolon := by decide)
    (hclose : t ≠ .closeBrace := by decide) : skip? t tokens = none := by
  obtain ⟨line, rest, rfl | rfl⟩ := h
  · rw [skip?, if_neg hsemicolon.symm]
  · rw [skip?, if_neg hclose.symm]

/-! ### One round of each reader -/

theorem attributeList_cons {a : Attribute} (hskip : skip? .closeBracket tokens = none)
    (htake : takeAttribute tokens = .ok (a, rest)) :
    attributeList tokens = (attributeList rest).map fun (as, rest) => (a :: as, rest) := by
  rw [attributeList.eq_def, hskip]
  dsimp only
  split
  next herror =>
    rw [htake] at herror
    injection herror
  next hok =>
    rw [htake] at hok
    injection hok with hok
    injection hok with ha hrest
    subst ha hrest
    rfl

theorem attributes_eq_nil (h : skip? .openBracket tokens = none) :
    attributes tokens = .ok ([], tokens) := by
  rw [attributes.eq_def]
  split
  · rfl
  next hopen =>
    rw [h] at hopen
    injection hopen

theorem attributes_cons {inner : List Located} {as : List Attribute}
    (hopen : skip? .openBracket tokens = some inner)
    (hlist : attributeList inner = .ok (as, rest)) :
    attributes tokens = (attributes rest).map fun (bs, rest) => (as ++ bs, rest) := by
  rw [attributes.eq_def]
  split
  next hnone =>
    rw [hopen] at hnone
    injection hnone
  next hsome =>
    rw [hopen] at hsome
    obtain rfl := Option.some.inj hsome
    split
    next herror =>
      rw [hlist] at herror
      injection herror
    next hok =>
      rw [hlist] at hok
      injection hok with hok
      injection hok with has hrest
      subst has hrest
      rfl

theorem edgeChain_eq_nil {source : NodeRef} (h : skip? .arrow tokens = none) :
    edgeChain source tokens = .ok ([], tokens) := by
  rw [edgeChain.eq_def]
  split
  · rfl
  next harrow =>
    rw [h] at harrow
    injection harrow

theorem edgeChain_cons {source target : NodeRef} {inner : List Located}
    (harrow : skip? .arrow tokens = some inner) (href : nodeRef inner = .ok (target, rest)) :
    edgeChain source tokens = (edgeChain target rest).map fun (edges, rest) =>
      (⟨source.name, source.port, target.name⟩ :: edges, rest) := by
  rw [edgeChain.eq_def]
  split
  next hnone =>
    rw [harrow] at hnone
    injection hnone
  next hsome =>
    rw [harrow] at hsome
    obtain rfl := Option.some.inj hsome
    split
    next herror =>
      rw [href] at herror
      injection herror
    next hok =>
      rw [href] at hok
      injection hok with hok
      injection hok with htarget hrest
      subst htarget hrest
      rfl

/-- A statement is read before those behind it. -/
theorem statements_cons {g' : Graph} (hclose : t ≠ .closeBrace) (hsemicolon : t ≠ .semicolon)
    (h : statement g (⟨t, line⟩ :: tokens) = .ok (g', rest)) :
    statements g (⟨t, line⟩ :: tokens) = statements g' rest := by
  rw [statements.eq_def]
  dsimp only
  rw [if_neg hclose, if_neg hsemicolon]
  split
  next herror =>
    rw [h] at herror
    injection herror
  next hok =>
    rw [h] at hok
    injection hok with hok
    injection hok with hg hrest
    subst hg hrest
    rfl

/-! ### Parts of statements -/

/-- The attributes of a node with a label. -/
theorem attributes_label {value : String} (hrest : skip? .openBracket rest = none) :
    attributes (⟨.openBracket, l₁⟩ :: ⟨.ident "label", l₂⟩ :: ⟨.equals, l₃⟩ ::
      ⟨.quoted value, l₄⟩ :: ⟨.closeBracket, l₅⟩ :: rest) = .ok ([⟨"label", value⟩], rest) := by
  have hclose : attributeList (⟨.closeBracket, l₅⟩ :: rest) = .ok ([], rest) := by
    rw [attributeList.eq_def]
    rfl
  have hlist : attributeList (⟨.ident "label", l₂⟩ :: ⟨.equals, l₃⟩ :: ⟨.quoted value, l₄⟩ ::
      ⟨.closeBracket, l₅⟩ :: rest) = .ok ([⟨"label", value⟩], rest) := by
    have htake : takeAttribute (⟨.ident "label", l₂⟩ :: ⟨.equals, l₃⟩ :: ⟨.quoted value, l₄⟩ ::
        ⟨.closeBracket, l₅⟩ :: rest) = .ok (⟨"label", value⟩, ⟨.closeBracket, l₅⟩ :: rest) := rfl
    rw [attributeList_cons rfl htake, hclose]
    rfl
  rw [attributes_cons rfl hlist, attributes_eq_nil hrest]
  rfl

theorem nodeRef_name (hrest : skip? .colon rest = none) :
    nodeRef (⟨.quoted name, line⟩ :: rest) = .ok (⟨name, none⟩, rest) := by
  simp only [nodeRef, takeId, Token.id?, bind, Except.bind, hrest]
  rfl

theorem nodeRef_port {port : String} (hrest : skip? .colon rest = none) :
    nodeRef (⟨.quoted name, l₁⟩ :: ⟨.colon, l₂⟩ :: ⟨.quoted port, l₃⟩ :: rest) =
      .ok (⟨name, some port⟩, rest) := by
  have hcolon : skip? .colon (⟨.colon, l₂⟩ :: ⟨.quoted port, l₃⟩ :: rest) =
      some (⟨.quoted port, l₃⟩ :: rest) := rfl
  simp only [nodeRef, takeId, Token.id?, bind, Except.bind, hcolon, hrest]
  rfl

theorem edgeChain_arrow {source : NodeRef} (h : Ended rest) :
    edgeChain source (⟨.arrow, l₁⟩ :: ⟨.quoted name, l₂⟩ :: rest) =
      .ok ([⟨source.name, source.port, name⟩], rest) := by
  rw [edgeChain_cons rfl (nodeRef_name h.skip?_eq_none), edgeChain_eq_nil h.skip?_eq_none]
  rfl

/-! ### Statements -/

/-- The graph with what a statement declares. -/
def Graph.add (g : Graph) : Statement → Graph
  | .node n => { g with nodes := g.nodes ++ [n] }
  | .edge e => { g with edges := g.edges ++ [e] }

/-- A statement declares no node of a name that is there. -/
def Statement.Fresh (g : Graph) : Statement → Prop
  | node n => n.name ∉ g.nodes.map Node.name
  | edge _ => True

theorem declare_of_not_mem {label : Option String} (h : name ∉ g.nodes.map Node.name) :
    g.declare name label = .ok (g.add (.node ⟨name, (label.map readRecord).getD []⟩)) := by
  have hnone : g.nodeIndex? name = none := by
    refine List.findIdx?_eq_none_iff.mpr fun n hn => ?_
    have hne : n.name ≠ name := fun heq => h (List.mem_map.mpr ⟨n, hn, heq⟩)
    exact beq_eq_false_iff_ne.mpr hne
  unfold Graph.declare
  rw [hnone]
  cases label <;> rfl

/-- A name between quotes is no keyword. -/
theorem defaults?_quoted : defaults? (⟨.quoted name, line⟩ :: tokens) = none := by
  unfold defaults?
  split
  · exact if_neg Bool.false_ne_true
  · rfl

/-- A node without an edge is declared, with its label if it has one. -/
theorem statement_node {ref : NodeRef} {attrs : List Attribute} {tail : List Located}
    (hdefaults : defaults? tokens = none) (href : nodeRef tokens = .ok (ref, tail))
    (hequals : skip? .equals tail = none) (harrow : skip? .arrow tail = none)
    (hattrs : attributes tail = .ok (attrs, rest)) (h : ref.name ∉ g.nodes.map Node.name) :
    statement g tokens = .ok (g.add (.node ⟨ref.name,
      (((attrs.find? (·.key == "label")).map (·.value)).map readRecord).getD []⟩), rest) := by
  simp only [statement, hdefaults, href, hequals, edgeChain_eq_nil harrow, hattrs,
    declare_of_not_mem h, bind, Except.bind]
  rfl

theorem statement_edge {ref : NodeRef} {e : Edge} {tail : List Located}
    (hdefaults : defaults? tokens = none) (href : nodeRef tokens = .ok (ref, tail))
    (hequals : skip? .equals tail = none) (hchain : edgeChain ref tail = .ok ([e], rest))
    (hattrs : attributes rest = .ok ([], rest)) :
    statement g tokens = .ok (g.add (.edge e), rest) := by
  simp only [statement, hdefaults, href, hequals, hchain, hattrs, bind, Except.bind]
  rfl

/-- A statement that was written is read as what it declares. -/
theorem statement_spelled (h : s.Readable) (hfresh : s.Fresh g)
    (htokens : tokens.map Located.token = s.tokens) (hrest : Ended rest) :
    statement g (tokens ++ rest) = .ok (g.add s, rest) := by
  have hnoattrs : attributes rest = .ok ([], rest) := attributes_eq_nil hrest.skip?_eq_none
  cases s with
  | node n =>
    obtain ⟨_, tokens, rfl, htail⟩ := exists_token htokens
    obtain ⟨name, ports⟩ := n
    cases ports with
    | nil =>
      obtain rfl := List.map_eq_nil_iff.mp htail
      exact statement_node defaults?_quoted (nodeRef_name hrest.skip?_eq_none)
        hrest.skip?_eq_none hrest.skip?_eq_none hnoattrs hfresh
    | cons p ports =>
      obtain ⟨_, _, rfl, h₁⟩ := exists_token htail
      obtain ⟨_, _, rfl, h₂⟩ := exists_token h₁
      obtain ⟨_, _, rfl, h₃⟩ := exists_token h₂
      obtain ⟨_, _, rfl, h₄⟩ := exists_token h₃
      obtain ⟨_, _, rfl, h₅⟩ := exists_token h₄
      obtain rfl := List.map_eq_nil_iff.mp h₅
      have hlabel := readRecord_label h.2 (List.cons_ne_nil p ports)
      refine (statement_node defaults?_quoted (nodeRef_name rfl) rfl rfl
        (attributes_label hrest.skip?_eq_none) hfresh).trans ?_
      show Except.ok (g.add (.node ⟨name, readRecord (String.ofList (label (p :: ports)))⟩), rest) = _
      rw [hlabel]
  | edge e =>
    obtain ⟨_, tokens, rfl, htail⟩ := exists_token htokens
    obtain ⟨source, port, target⟩ := e
    cases port with
    | none =>
      obtain ⟨_, _, rfl, h₁⟩ := exists_token htail
      obtain ⟨_, _, rfl, h₂⟩ := exists_token h₁
      obtain rfl := List.map_eq_nil_iff.mp h₂
      exact statement_edge defaults?_quoted (nodeRef_name rfl) rfl (edgeChain_arrow hrest) hnoattrs
    | some port =>
      obtain ⟨_, _, rfl, h₁⟩ := exists_token htail
      obtain ⟨_, _, rfl, h₂⟩ := exists_token h₁
      obtain ⟨_, _, rfl, h₃⟩ := exists_token h₂
      obtain ⟨_, _, rfl, h₄⟩ := exists_token h₃
      obtain rfl := List.map_eq_nil_iff.mp h₄
      exact statement_edge defaults?_quoted (nodeRef_port rfl) rfl (edgeChain_arrow hrest) hnoattrs

/-- No statement declares a node of a name that is there by then. -/
def AllFresh (g : Graph) : List Statement → Prop
  | [] => True
  | s :: ss => s.Fresh g ∧ AllFresh (g.add s) ss

theorem statements_closeBrace : statements g (⟨.closeBrace, line⟩ :: rest) = .ok g := by
  rw [statements.eq_def]
  rfl

theorem statements_semicolon :
    statements g (⟨.semicolon, line⟩ :: rest) = statements g rest := by
  rw [statements.eq_def]
  rfl

/-- A statement starts with a name. -/
theorem Statement.exists_tokens_eq (s : Statement) : ∃ name ts, s.tokens = .quoted name :: ts := by
  cases s with
  | node n => exact ⟨_, _, rfl⟩
  | edge e => exact ⟨_, _, rfl⟩

/-- A statement that was written is read before what is behind it. -/
theorem statements_of_spelled (h : s.Readable) (hfresh : s.Fresh g)
    (htokens : tokens.map Located.token = s.tokens) (hrest : Ended rest) :
    statements g (tokens ++ rest) = statements (g.add s) rest := by
  have hread := statement_spelled h hfresh htokens hrest
  obtain ⟨name, ts, hs⟩ := s.exists_tokens_eq
  obtain ⟨line, tokens, rfl, _⟩ := exists_token (htokens.trans hs)
  exact statements_cons Token.noConfusion Token.noConfusion hread

/-- Statements that were written are read as what they declare, one after the other. -/
theorem statements_spelled (h : ∀ s ∈ ss, s.Readable) (hfresh : AllFresh g ss)
    (htokens : tokens.map Located.token =
      [Token.semicolon].intercalate (ss.map Statement.tokens) ++ [.closeBrace]) :
    statements g tokens = .ok (ss.foldl Graph.add g) := by
  induction ss generalizing g tokens with
  | nil =>
    obtain ⟨line, rest, rfl, _⟩ := exists_token htokens
    exact statements_closeBrace
  | cons s ss ih =>
    obtain ⟨hs, hss⟩ := List.forall_mem_cons.mp h
    obtain ⟨hnew, hfresh⟩ := hfresh
    cases ss with
    | nil =>
      rw [List.map_singleton, List.intercalate_singleton] at htokens
      obtain ⟨first, rest, rfl, hfirst, hrest⟩ := List.map_eq_append_iff.mp htokens
      obtain ⟨line, rest, rfl, _⟩ := exists_token hrest
      rw [statements_of_spelled hs hnew hfirst ⟨line, rest, .inr rfl⟩]
      exact statements_closeBrace
    | cons s' ss =>
      rw [List.map_cons, List.map_cons, List.intercalate_cons_cons, List.append_assoc,
        List.append_assoc] at htokens
      obtain ⟨first, rest, rfl, hfirst, hrest⟩ := List.map_eq_append_iff.mp htokens
      obtain ⟨line, rest, rfl, htail⟩ := exists_token hrest
      rw [statements_of_spelled hs hnew hfirst ⟨line, rest, .inl rfl⟩, statements_semicolon]
      exact ih hss hfresh htail

/-! ### Graphs -/

theorem Graph.foldl_add_edges (edges : List Edge) :
    (edges.map Statement.edge).foldl Graph.add g = { g with edges := g.edges ++ edges } := by
  induction edges generalizing g with
  | nil => simp
  | cons e edges ih =>
    rw [List.map_cons, List.foldl_cons, ih]
    simp [Graph.add]

theorem Graph.foldl_add_nodes (nodes : List Node) :
    (nodes.map Statement.node).foldl Graph.add g = { g with nodes := g.nodes ++ nodes } := by
  induction nodes generalizing g with
  | nil => simp
  | cons n nodes ih =>
    rw [List.map_cons, List.foldl_cons, ih]
    simp [Graph.add]

/-- A graph is what its declarations declare. -/
theorem Graph.foldl_add_declarations (g : Graph) :
    g.declarations.foldl Graph.add { name := g.name } = g := by
  rw [declarations, List.foldl_append, foldl_add_nodes, foldl_add_edges]
  rfl

theorem allFresh_edges (edges : List Edge) : AllFresh g (edges.map Statement.edge) := by
  induction edges generalizing g with
  | nil => trivial
  | cons e edges ih => exact ⟨trivial, ih⟩

/-- Nodes that differ in name, and then edges, declare no name twice. -/
theorem allFresh_declarations {nodes : List Node} {edges : List Edge}
    (h : (g.nodes ++ nodes |>.map Node.name).Nodup) :
    AllFresh g (nodes.map .node ++ edges.map .edge) := by
  induction nodes generalizing g with
  | nil => exact allFresh_edges edges
  | cons n nodes ih =>
    rw [List.append_cons] at h
    refine ⟨?_, ih h⟩
    rw [List.map_append, List.map_append, List.append_assoc] at h
    have hdisjoint := (List.nodup_append.mp h).2.2
    exact fun hn => hdisjoint n.name hn n.name List.mem_cons_self rfl

/-- The tokens of a graph are read as the graph. -/
theorem ofTokens_spelled (h : g.Readable) (htokens : tokens.map Located.token = g.tokens) :
    Graph.ofTokens tokens = .ok g := by
  have hfresh : AllFresh { name := g.name } g.declarations := allFresh_declarations h.distinct
  have hbody : ∀ {body : List Located}, body.map Located.token =
      [Token.semicolon].intercalate (g.declarations.map Statement.tokens) ++ [.closeBrace] →
      statements { name := g.name } body = .ok g := by
    intro body hbody
    rw [statements_spelled h.declarations hfresh hbody, Graph.foldl_add_declarations]
  rw [Graph.tokens] at htokens
  obtain ⟨_, rest, rfl, hrest⟩ := exists_token htokens
  cases hname : g.name with
  | none =>
    rw [hname] at hbody hrest
    obtain ⟨_, body, rfl, htail⟩ := exists_token hrest
    exact hbody htail
  | some name =>
    rw [hname] at hbody hrest
    obtain ⟨_, named, rfl, hnamed⟩ := exists_token hrest
    obtain ⟨_, body, rfl, htail⟩ := exists_token hnamed
    exact hbody htail

/-- A graph is read from the text that it was written as. -/
theorem parse_write (h : g.Readable) : Graph.parse g.write = .ok g := by
  obtain ⟨tokens, htokenize, htokens⟩ := Graph.scans_write h 1
  rw [Graph.parse, tokenize, htokenize]
  exact ofTokens_spelled h htokens

/-- Two nodes, one with ports whose names and texts have marks of both kinds. -/
def marked : Graph where
  name := some "a \"b\""
  nodes := [⟨"A", [⟨some "in|", "r0 < \"r1\\\""⟩, ⟨none, "\x7bx\x7d\\"⟩]⟩, ⟨"\"", []⟩]
  edges := [⟨"A", some "in|", "\""⟩, ⟨"\"", none, "A"⟩]

theorem readable_marked : marked.Readable where
  name := by decide
  distinct := by decide
  nodes := by
    refine List.forall_mem_cons.mpr ⟨⟨by decide, ?_⟩, ?_⟩
    · refine List.forall_mem_cons.mpr ⟨⟨by decide, by decide⟩, ?_⟩
      exact List.forall_mem_singleton.mpr ⟨by decide, by decide⟩
    · exact List.forall_mem_singleton.mpr ⟨by decide, fun _ h => absurd h List.not_mem_nil⟩
  edges := by decide

example : marked.write = "digraph \"a \\\"b\\\"\" \x7b" ++
    "\"A\" [label=\"\x7b<in\\|>r0 \\< \\\"r1\\\\\\\"|\\\x7bx\\\x7d\\\\\x7d\"];" ++
    "\"\\\"\";\"A\":\"in|\" -> \"\\\"\";\"\\\"\" -> \"A\"\x7d" := by decide

theorem parse_marked : marked.Readable ∧ Graph.parse marked.write = .ok marked :=
  ⟨readable_marked, parse_write readable_marked⟩

end KernelIntervals.Dot
