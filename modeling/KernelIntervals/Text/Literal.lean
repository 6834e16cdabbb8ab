/-
Quoted literals, as error reports show texts and characters.

* `quoted` — a text between double quotes,
* `quotedChar` — a character between single quotes.

Design notes: inside a literal only the quote that surrounds it is escaped;
characters without a glyph of their own are written by their code point.
-/
import KernelIntervals.Text.Printable

namespace KernelIntervals.Text

/-- The code point of a character in hexadecimal, as an escape. -/
def codeEscape (c : Char) : List Char :=
  '\\' :: 'u' :: '\x7b' :: Nat.toDigits 16 c.toNat ++ ['\x7d']

/-- A character as it stands in a literal that is surrounded by `quote`. -/
def literalChar (quote c : Char) : List Char :=
  if c = '\x00' then ['\\', '0']
  else if c = '\t' then ['\\', 't']
  else if c = '\r' then ['\\', 'r']
  else if c = '\n' then ['\\', 'n']
  else if c = '\\' ∨ c = quote then ['\\', c]
  else if isExtender c || !isPrintable c then codeEscape c
  else [c]

/-- A text as a literal between double quotes. -/
def quoted (text : String) : String :=
  String.ofList ('"' :: text.toList.flatMap (literalChar '"') ++ ['"'])

/-- A character as a literal between single quotes. -/
def quotedChar (c : Char) : String :=
  String.ofList ('\'' :: literalChar '\'' c ++ ['\''])

end KernelIntervals.Text
