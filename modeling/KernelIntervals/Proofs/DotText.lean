/-
Graphs as texts.

* `Graph.write` — a graph as a text of the DOT language,
* `Port.Readable`, `readRecord_label` — the ports that a label is read as are those that it
  was written for,
* `Scans` — the tokens of a text, whatever their lines,
* `Graph.scans_write` — the tokens of a graph that was written.
-/
import KernelIntervals.Dot.Read
import KernelIntervals.Proofs.Escapes

namespace KernelIntervals.Dot

open Text

/-! ### Writing -/

/-- A text between quotes. -/
def quote (text : List Char) : List Char :=
  '"' :: escape quoteMarks text ++ ['"']

/-- A port as a field of a record. -/
def Port.field (p : Port) : List Char :=
  (match p.name with
    | some name => '<' :: escape recordMarks name.toList ++ ['>']
    | none => []) ++ escape recordMarks p.text.toList

/-- Ports as a label. -/
def label (ports : List Port) : List Char :=
  '\x7b' :: ['|'].intercalate (ports.map Port.field) ++ ['\x7d']

/-- What one statement of a graph declares. -/
inductive Statement
  | node (n : Node)
  | edge (e : Edge)

namespace Statement

def text : Statement → List Char
  | node n =>
    quote n.name.toList ++ if n.ports.isEmpty then [] else
      " [label=".toList ++ quote (label n.ports) ++ [']']
  | edge e =>
    quote e.source.toList ++ (match e.port with
      | some port => ':' :: quote port.toList
      | none => []) ++ " -> ".toList ++ quote e.target.toList

/-- The tokens of a statement. -/
def tokens : Statement → List Token
  | node n =>
    .quoted n.name :: if n.ports.isEmpty then [] else
      [.openBracket, .ident "label", .equals, .quoted (String.ofList (label n.ports)),
        .closeBracket]
  | edge e =>
    .quoted e.source :: (match e.port with
      | some port => [.colon, .quoted port]
      | none => []) ++ [.arrow, .quoted e.target]

end Statement

/-- The declarations of a graph, its nodes first. -/
def Graph.declarations (g : Graph) : List Statement :=
  g.nodes.map .node ++ g.edges.map .edge

/-- What a graph that was written starts with. -/
def keyword : List Char := "digraph".toList

/-- The characters of a graph as a text. -/
def Graph.chars (g : Graph) : List Char :=
  keyword ++ ' ' :: (match g.name with
    | some name => quote name.toList ++ [' ']
    | none => []) ++ '\x7b' :: [';'].intercalate (g.declarations.map Statement.text) ++ ['\x7d']

/-- A graph as a text. -/
def Graph.write (g : Graph) : String := String.ofList g.chars

/-! ### Labels -/

/-- A port that its field tells: blanks around its name, and before its text if it has no
name, are not read. -/
structure Port.Readable (p : Port) : Prop where
  name : ∀ name ∈ p.name, trim name.toList = name.toList
  text : p.name = none → trimStart p.text.toList = p.text.toList

variable {c : Char} {text rest : List Char} {p : Port}

theorem not_isBlank_of_trimStart (h : trimStart (c :: text) = c :: text) : isBlank c = false := by
  rw [trimStart, List.dropWhile_cons] at h
  split at h
  · have hlength := congrArg List.length h
    have hle := (List.dropWhile_suffix isBlank (l := text)).length_le
    rw [List.length_cons] at hlength
    omega
  next hc => exact Bool.eq_false_iff.mpr hc

theorem escape_mark_head (hc : ∀ d ∈ text.head?, isBlank d = false) :
    ∀ d ∈ (escape recordMarks text).head?, isBlank d = false ∧ d ≠ '<' := by
  cases text with
  | nil => exact fun d hd => absurd hd (Option.not_mem_none d)
  | cons c text =>
    by_cases hmark : c ∈ recordMarks
    · rw [escape_cons_of_mem hmark]
      rintro _ ⟨⟩
      exact ⟨by decide, by decide⟩
    · rw [escape_cons_of_not_mem hmark]
      rintro _ ⟨⟩
      refine ⟨hc c rfl, ?_⟩
      rintro rfl
      exact hmark (by decide)

/-- A field without a name starts like its text, or with a backslash. -/
theorem readField_nameless (h : trimStart text = text) :
    readField (escape recordMarks text) = ⟨none, String.ofList text⟩ := by
  have hhead : ∀ d ∈ (escape recordMarks text).head?, isBlank d = false ∧ d ≠ '<' := by
    refine escape_mark_head fun d hd => ?_
    cases text with
    | nil => exact absurd hd (Option.not_mem_none d)
    | cons c text =>
      obtain rfl := Option.some.inj hd
      exact not_isBlank_of_trimStart h
  have hread := unescape_escape text
  generalize escape recordMarks text = field at hhead hread
  have htrim : trimStart field = field := by
    cases field with
    | nil => rfl
    | cons d field => exact trimStart_cons_of_not_blank (hhead d rfl).1
  have hname : fieldName? field = none := by
    unfold fieldName?
    split
    · exact absurd rfl (hhead '<' rfl).2
    · rfl
  rw [readField, htrim, hname, hread]

/-- A port is read from its field. -/
theorem readField_field (h : p.Readable) : readField p.field = p := by
  obtain ⟨name?, text⟩ := p
  cases name? with
  | none =>
    have hread := readField_nameless (h.text rfl)
    rwa [String.ofList_toList] at hread
  | some name =>
    have hfield : Port.field ⟨some name, text⟩ = '<' :: (escape recordMarks name.toList ++
        '>' :: escape recordMarks text.toList) := by
      show '<' :: escape recordMarks name.toList ++ ['>'] ++ escape recordMarks text.toList = _
      rw [List.cons_append, List.cons_append, List.append_assoc, List.singleton_append]
    have hescaped : Escaped (· ∈ recordMarks) (fun c => c ≠ '\\' ∧ c ≠ '>')
        (escape recordMarks name.toList) := by
      refine (escaped_escape ..).mono (fun _ hc => hc) fun c hc => ⟨?_, ?_⟩
      · rintro rfl
        exact hc (by decide)
      · rintro rfl
        exact hc (by decide)
    rw [hfield, readField, trimStart_cons_of_not_blank (by decide), fieldName?,
      breakAtClose_escaped hescaped]
    dsimp only
    rw [unescape_escape, unescape_escape, h.name name rfl, String.ofList_toList,
      String.ofList_toList]

theorem escaped_field (p : Port) :
    Escaped (· ∈ recordMarks) (· ∉ ['\\', '|', '\x7b', '\x7d']) p.field := by
  have hpart : ∀ text, Escaped (· ∈ recordMarks) (· ∉ ['\\', '|', '\x7b', '\x7d'])
      (escape recordMarks text) := by
    refine fun text => (escaped_escape recordMarks text).mono (fun _ hc => hc) fun c hc hmem => ?_
    simp only [List.mem_cons, List.not_mem_nil, or_false] at hmem
    rcases hmem with rfl | rfl | rfl | rfl <;> exact hc (by decide)
  rw [Port.field]
  refine .append ?_ (hpart _)
  split
  · exact .plain (by decide) ((hpart _).append (.plain (by decide) .nil))
  · exact .nil

/-- The ports of a label are those that it was written for. -/
theorem readRecord_label {ports : List Port} (h : ∀ p ∈ ports, p.Readable) (hne : ports ≠ []) :
    readRecord (String.ofList (label ports)) = ports := by
  have htrim : trim (label ports) = label ports := by
    rw [trim, label, List.cons_append, trimStart_cons_of_not_blank (by decide), trimEnd,
      ← List.cons_append, List.reverse_append, List.reverse_singleton, List.singleton_append,
      List.dropWhile_cons_of_neg (by decide), List.reverse_cons, List.reverse_reverse]
  have hbody : recordBody (label ports) = ['|'].intercalate (ports.map Port.field) := by
    rw [label, List.cons_append, recordBody, List.getLast?_concat, if_pos rfl,
      List.dropLast_concat]
  have hunbroken : ∀ f ∈ ports.map Port.field, Unbroken f := by
    intro f hf
    obtain ⟨p, _, rfl⟩ := List.mem_map.mp hf
    exact (escaped_field p).mono (fun _ _ => trivial) fun _ hc => hc
  have hfields : ports.map Port.field ≠ [] := fun hnil => hne (List.map_eq_nil_iff.mp hnil)
  rw [readRecord, String.toList_ofList, htrim, hbody, splitFields_intercalate hunbroken hfields,
    List.map_map]
  have hread : ports.map (readField ∘ Port.field) = ports.map id :=
    List.map_congr_left fun p hp => readField_field (h p hp)
  rw [hread, List.map_id]

theorem quotable_label (ports : List Port) : Quotable (label ports) := by
  have hfield : ∀ p : Port, Quotable p.field := by
    refine fun p => (escaped_field p).mono (fun c hc => ⟨?_, ?_⟩) fun c hc => ?_
    · rintro rfl
      exact absurd hc (by decide)
    · rintro rfl
      exact absurd hc (by decide)
    · rintro rfl
      exact hc (by decide)
  have hfields : Quotable (['|'].intercalate (ports.map Port.field)) := by
    refine Escaped.intercalate (.plain (by decide) .nil) fun f hf => ?_
    obtain ⟨p, _, rfl⟩ := List.mem_map.mp hf
    exact hfield p
  exact Escaped.append (.plain (by decide) hfields) (.plain (by decide) .nil)

/-! ### Tokens -/

/-- The tokens of a text, whatever their lines. -/
def Scans (text : List Char) (ts : List Token) : Prop :=
  ∀ line, ∃ located, tokenizeFrom line text = .ok located ∧ located.map Located.token = ts

variable {ts : List Token}

theorem scans_nil : Scans [] [] := fun line => ⟨[], by rw [tokenizeFrom.eq_def], rfl⟩

/-- A text that starts with a lexeme. -/
theorem scans_lexeme (text : List Char) (token? : Option Token)
    (h : lexeme? (text ++ rest) = some ⟨token?, text⟩) (hrest : Scans rest ts) :
    Scans (text ++ rest) (token?.toList ++ ts) := by
  intro line
  obtain ⟨located, htokens, hmap⟩ := hrest (line + text.count '\n')
  obtain ⟨c, tail, rfl⟩ := List.exists_cons_of_ne_nil (text_ne_nil_of_lexeme? h)
  refine ⟨token?.toList.map (⟨·, line⟩) ++ located, ?_, ?_⟩
  · rw [List.cons_append] at h ⊢
    rw [tokenizeFrom.eq_def]
    dsimp only
    split
    next hnone =>
      rw [h] at hnone
      injection hnone
    next lexeme hlexeme =>
      rw [h] at hlexeme
      obtain rfl := Option.some.inj hlexeme
      rw [← List.cons_append, List.drop_left, htokens]
      rfl
  · rw [List.map_append, List.map_map, hmap]
    cases token? <;> rfl

/-- A text between quotes is one token. -/
theorem scans_quote (h : Quotable text) (hrest : Scans rest ts) :
    Scans (quote text ++ rest) (.quoted (String.ofList text) :: ts) := by
  have hquoted : quotedLexeme? (quote text ++ rest) =
      some ⟨some (.quoted (String.ofList text)), quote text⟩ := by
    rw [quote, List.append_assoc, List.singleton_append, List.cons_append, quotedLexeme?,
      quotedBody?_escape h, Option.map_some, unquote_escape h]
  have hblank : blankLexeme? (quote text ++ rest) = none := rfl
  have hcomment : commentLexeme? (quote text ++ rest) = none := rfl
  refine scans_lexeme (quote text) (some (.quoted (String.ofList text))) ?_ hrest
  rw [lexeme?, lexemeKinds, List.findSome?_cons, hblank]
  dsimp only
  rw [List.findSome?_cons, hcomment]
  dsimp only
  rw [List.findSome?_cons, hquoted]

theorem scans_punctuation {t : Token} (h : Token.ofPunctuation? c = some t)
    (hrest : Scans rest ts) : Scans (c :: rest) (t :: ts) := by
  refine scans_lexeme [c] (some t) ?_ hrest
  unfold Token.ofPunctuation? at h
  split at h <;> cases h <;> rfl

theorem scans_blank (hc : isBlank c = false) (hrest : Scans (c :: rest) ts) :
    Scans (' ' :: c :: rest) ts := by
  have hlexeme : blankLexeme? (' ' :: c :: rest) = some ⟨none, [' ']⟩ := by
    rw [blankLexeme?, List.takeWhile_cons_of_pos (by decide),
      List.takeWhile_cons_of_neg (by rw [hc]; decide)]
    rfl
  refine scans_lexeme [' '] none ?_ hrest
  rw [List.singleton_append, lexeme?, lexemeKinds, List.findSome?_cons, hlexeme]

theorem quotable_of_not_mem (h : '\\' ∉ text) : Quotable text :=
  escaped_of_forall fun _ hc heq => h (heq ▸ hc)

/-- A name without backslashes between quotes is one token. -/
theorem scans_name {name : String} (h : '\\' ∉ name.toList) (hrest : Scans rest ts) :
    Scans (quote name.toList ++ rest) (.quoted name :: ts) := by
  have hname := scans_quote (quotable_of_not_mem h) hrest
  rwa [String.ofList_toList] at hname

/-- The names of a statement have no backslashes, and the ports of a node can be read. -/
def Statement.Readable : Statement → Prop
  | node n => '\\' ∉ n.name.toList ∧ ∀ p ∈ n.ports, p.Readable
  | edge e => '\\' ∉ e.source.toList ∧ '\\' ∉ e.target.toList ∧
      ∀ port ∈ e.port, '\\' ∉ port.toList

theorem Statement.scans {s : Statement} (h : s.Readable) (hrest : Scans rest ts) :
    Scans (s.text ++ rest) (s.tokens ++ ts) := by
  cases s with
  | node n =>
    rw [text, tokens]
    split
    · rw [List.append_nil]
      exact scans_name h.1 hrest
    · have hclose : Scans (']' :: rest) (.closeBracket :: ts) := scans_punctuation rfl hrest
      have hvalue := scans_quote (quotable_label n.ports) hclose
      have hequals : Scans ('=' :: (quote (label n.ports) ++ ']' :: rest)) _ :=
        scans_punctuation rfl hvalue
      have hkey := scans_lexeme "label".toList (some (.ident "label")) rfl hequals
      have hopen : Scans ('[' :: ("label".toList ++ '=' :: (quote (label n.ports) ++ ']' :: rest)))
        _ := scans_punctuation rfl hkey
      have hname := scans_name h.1 (scans_blank (by decide) hopen)
      rw [List.append_assoc, List.append_assoc, List.append_assoc]
      exact hname
  | edge e =>
    obtain ⟨hsource, htarget, hport⟩ := h
    have harrow : Scans (" -> ".toList ++ (quote e.target.toList ++ rest))
        (.arrow :: .quoted e.target :: ts) := by
      have htail := scans_blank (by decide) (scans_name htarget hrest)
      have hmark := scans_lexeme "->".toList (some .arrow) rfl htail
      exact scans_blank (by decide) hmark
    rw [text, tokens, List.append_assoc, List.append_assoc]
    cases hname : e.port with
    | none =>
      dsimp only
      rw [List.append_nil]
      exact scans_name hsource harrow
    | some port =>
      have hcolon : Scans (':' :: quote port.toList ++ (" -> ".toList ++ _)) _ :=
        scans_punctuation rfl (scans_name (hport port hname) harrow)
      dsimp only
      rw [List.append_assoc]
      exact scans_name hsource hcolon

theorem scans_statements {ss : List Statement} (h : ∀ s ∈ ss, s.Readable) (hrest : Scans rest ts) :
    Scans ([';'].intercalate (ss.map Statement.text) ++ rest)
      ([Token.semicolon].intercalate (ss.map Statement.tokens) ++ ts) := by
  induction ss with
  | nil => exact hrest
  | cons s ss ih =>
    have hs : s.Readable := h s List.mem_cons_self
    have hss : ∀ s ∈ ss, s.Readable := fun s' hs' => h s' (List.mem_cons_of_mem s hs')
    cases ss with
    | nil =>
      rw [List.map_singleton, List.map_singleton, List.intercalate_singleton,
        List.intercalate_singleton]
      exact Statement.scans hs hrest
    | cons s' ss =>
      have hsemicolon : Scans (';' :: _) (.semicolon :: _) := scans_punctuation rfl (ih hss)
      rw [List.map_cons, List.map_cons, List.map_cons, List.map_cons, List.intercalate_cons_cons,
        List.intercalate_cons_cons, List.append_assoc, List.append_assoc, List.append_assoc,
        List.append_assoc]
      exact Statement.scans hs hsemicolon

/-! ### Graphs -/

/-- A graph that its text tells: its names have no backslashes, and its nodes differ in name. -/
structure Graph.Readable (g : Graph) : Prop where
  name : ∀ name ∈ g.name, '\\' ∉ name.toList
  distinct : (g.nodes.map Node.name).Nodup
  nodes : ∀ n ∈ g.nodes, '\\' ∉ n.name.toList ∧ ∀ p ∈ n.ports, p.Readable
  edges : ∀ e ∈ g.edges, '\\' ∉ e.source.toList ∧ '\\' ∉ e.target.toList ∧
    ∀ port ∈ e.port, '\\' ∉ port.toList

/-- The tokens behind the name of a graph. -/
def Graph.body (g : Graph) : List Token :=
  .openBrace :: [Token.semicolon].intercalate (g.declarations.map Statement.tokens) ++ [.closeBrace]

def Graph.tokens (g : Graph) : List Token :=
  .ident "digraph" :: (match g.name with
    | some name => [.quoted name]
    | none => []) ++ g.body

theorem Graph.Readable.declarations {g : Graph} (h : g.Readable) :
    ∀ s ∈ g.declarations, s.Readable := by
  intro s hs
  rcases List.mem_append.mp hs with hs | hs
  · obtain ⟨n, hn, rfl⟩ := List.mem_map.mp hs
    exact h.nodes n hn
  · obtain ⟨e, he, rfl⟩ := List.mem_map.mp hs
    exact h.edges e he

theorem scans_keyword (hrest : Scans (' ' :: rest) ts) :
    Scans (keyword ++ ' ' :: rest) (.ident "digraph" :: ts) :=
  scans_lexeme keyword (some (.ident "digraph")) rfl hrest

/-- The tokens of a graph that was written. -/
theorem Graph.scans_write {g : Graph} (h : g.Readable) : Scans g.write.toList g.tokens := by
  have hclose : Scans ['\x7d'] [.closeBrace] := scans_punctuation rfl scans_nil
  have hbody : Scans ('\x7b' :: ([';'].intercalate (g.declarations.map Statement.text) ++ ['\x7d']))
      g.body := scans_punctuation rfl (scans_statements h.declarations hclose)
  rw [write, String.toList_ofList, chars, tokens, List.append_assoc]
  cases hname : g.name with
  | none =>
    dsimp only
    rw [List.append_assoc]
    exact scans_keyword (scans_blank (by decide) hbody)
  | some name =>
    have hnamed := scans_name (h.name name hname) (scans_blank (by decide) hbody)
    dsimp only
    rw [List.append_assoc, List.cons_append, List.append_assoc]
    exact scans_keyword (scans_blank (by decide) hnamed)

end KernelIntervals.Dot
