/-
The tokens of the DOT language.

* `Token` — identifiers, quoted texts, arrows and punctuation,
* `Lexeme` — a piece of text with the token it stands for, if any,
* `lexeme?` — the lexeme that a text starts with,
* `tokenize` — the tokens of a text, each with the number of its line.

Design notes: of the kinds of lexeme the first that matches wins; each kind
takes as many characters as it can. Blanks and comments stand for no token.
-/
import KernelIntervals.Text.Blank
import KernelIntervals.Text.Pair
import KernelIntervals.Dot.Basic

namespace KernelIntervals.Dot

open Text

inductive Token
  | ident (name : String)
  | quoted (text : String)
  | arrow
  | openBracket
  | closeBracket
  | openBrace
  | closeBrace
  | equals
  | colon
  | semicolon
  | comma
deriving DecidableEq

namespace Token

/-- The text of a token in an error message. -/
def describe : Token → String
  | ident name => name
  | quoted text => "\"" ++ text ++ "\""
  | arrow => "->"
  | openBracket => "["
  | closeBracket => "]"
  | openBrace => "\x7b"
  | closeBrace => "\x7d"
  | equals => "="
  | colon => ":"
  | semicolon => ";"
  | comma => ","

/-- The name that an identifier or a quoted text gives. -/
def id? : Token → Option String
  | ident name => some name
  | quoted text => some text
  | _ => none

/-- The punctuation token of a character. -/
def ofPunctuation? : Char → Option Token
  | '[' => some openBracket
  | ']' => some closeBracket
  | '\x7b' => some openBrace
  | '\x7d' => some closeBrace
  | '=' => some equals
  | ':' => some colon
  | ';' => some semicolon
  | ',' => some comma
  | _ => none

end Token

/-! ### Lexemes -/

/-- A piece of text, with the token it stands for. -/
structure Lexeme where
  token : Option Token
  text : List Char

/-- The text that a quoted text stands for: an escaped quote is a quote, an
escaped line feed is nothing, and other escapes are kept. -/
def unquote : List Char → List Char
  | '\\' :: c :: rest =>
    if c = '"' then '"' :: unquote rest
    else if c = '\n' then unquote rest
    else '\\' :: c :: unquote rest
  | c :: rest => c :: unquote rest
  | [] => []

/-- The text up to the first quote that is not escaped. -/
def quotedBody? : List Char → Option (List Char)
  | '\\' :: c :: rest => (quotedBody? rest).map fun body => '\\' :: c :: body
  | c :: rest =>
    if c = '"' then some []
    else if c = '\\' then none
    else (quotedBody? rest).map fun body => c :: body
  | [] => none

/-- Whether a character can be part of an identifier. -/
def isIdentChar (c : Char) : Bool :=
  c.isAlphanum || c == '_' || c == '.' || c == '$'

/-- Whether a character can be part of a negative number, behind its sign. -/
def isNumberChar (c : Char) : Bool :=
  c.isDigit || c == '.'

def blankLexeme? (text : List Char) : Option Lexeme :=
  let blanks := text.takeWhile isBlank
  if blanks.isEmpty then none else some ⟨none, blanks⟩

def commentLexeme? : List Char → Option Lexeme
  | '/' :: '/' :: rest => some ⟨none, '/' :: '/' :: rest.takeWhile (· != '\n')⟩
  | '#' :: rest => some ⟨none, '#' :: rest.takeWhile (· != '\n')⟩
  | '/' :: '*' :: rest =>
    (breakAtPair '*' '/' rest).map fun (body, _) => ⟨none, '/' :: '*' :: body ++ ['*', '/']⟩
  | _ => none

def quotedLexeme? : List Char → Option Lexeme
  | '"' :: rest =>
    (quotedBody? rest).map fun body =>
      ⟨some (.quoted (String.ofList (unquote body))), '"' :: body ++ ['"']⟩
  | _ => none

def arrowLexeme? : List Char → Option Lexeme
  | '-' :: '>' :: _ => some ⟨some .arrow, ['-', '>']⟩
  | '-' :: '-' :: _ => some ⟨some .arrow, ['-', '-']⟩
  | _ => none

/-- The identifier or negative number that a text starts with, if not empty. -/
def identText : List Char → List Char
  | '-' :: rest =>
    let digits := rest.takeWhile isNumberChar
    if digits.isEmpty then [] else '-' :: digits
  | text => text.takeWhile isIdentChar

def identLexeme? (text : List Char) : Option Lexeme :=
  let name := identText text
  if name.isEmpty then none else some ⟨some (.ident (String.ofList name)), name⟩

def punctuationLexeme? : List Char → Option Lexeme
  | c :: _ => (Token.ofPunctuation? c).map fun token => ⟨some token, [c]⟩
  | [] => none

/-- The kinds of lexeme, those that win first. -/
def lexemeKinds : List (List Char → Option Lexeme) :=
  [blankLexeme?, commentLexeme?, quotedLexeme?, arrowLexeme?, identLexeme?, punctuationLexeme?]

/-- The lexeme that a text starts with. -/
def lexeme? (text : List Char) : Option Lexeme :=
  lexemeKinds.findSome? (· text)

/-- Every lexeme has at least one character. -/
theorem text_ne_nil_of_lexeme? {text : List Char} {l : Lexeme} (h : lexeme? text = some l) :
    l.text ≠ [] := by
  obtain ⟨kind, hkind, h⟩ := List.exists_of_findSome?_eq_some h
  simp only [lexemeKinds, List.mem_cons, List.not_mem_nil, or_false] at hkind
  rcases hkind with rfl | rfl | rfl | rfl | rfl | rfl
  · simp only [blankLexeme?] at h
    split at h
    next => simp at h
    next hne => simp at h; subst h; simpa using hne
  · unfold commentLexeme? at h
    split at h <;> simp at h
    · subst h; simp
    · subst h; simp
    · obtain ⟨a, _, rfl⟩ := h; simp
  · unfold quotedLexeme? at h
    split at h <;> simp at h
    obtain ⟨a, _, rfl⟩ := h
    simp
  · unfold arrowLexeme? at h
    split at h <;> simp at h <;> (subst h; simp)
  · simp only [identLexeme?] at h
    split at h
    next => simp at h
    next hne => simp at h; subst h; simpa using hne
  · unfold punctuationLexeme? at h
    split at h <;> simp at h
    obtain ⟨a, _, rfl⟩ := h
    simp

/-! ### Tokens with their lines -/

/-- A token and the line it starts on. -/
structure Located where
  token : Token
  line : Nat
deriving DecidableEq

/-- The tokens of a text whose first line has the given number. -/
def tokenizeFrom (line : Nat) : List Char → Except ReadError (List Located)
  | [] => .ok []
  | c :: rest =>
    match h : lexeme? (c :: rest) with
    | none => .error (if c = '"' then .unterminatedString line else .unexpectedChar line c)
    | some lexeme => do
      let tokens ← tokenizeFrom (line + lexeme.text.count '\n')
        ((c :: rest).drop lexeme.text.length)
      return lexeme.token.toList.map (⟨·, line⟩) ++ tokens
termination_by text => text.length
decreasing_by
  have := List.length_pos_iff.mpr (text_ne_nil_of_lexeme? h)
  simp only [List.length_drop, List.length_cons]
  omega

/-- The tokens of a text. -/
def tokenize (text : String) : Except ReadError (List Located) :=
  tokenizeFrom 1 text.toList

end KernelIntervals.Dot
