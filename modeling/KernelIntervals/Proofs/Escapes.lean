/-
Escapes, and what reading makes of them.

* `escape` — a text with a backslash before some characters,
* `Escaped` — a text in which each backslash stands before a character of some kind,
* `quotedBody?_escape`, `unquote_escape` — quotes that were escaped are found and read,
* `splitFields_append`, `breakAtClose_escaped` — bars and brackets that were escaped
  separate nothing,
* `unescape_escape` — what was escaped in a record is read back.

Design notes: a label is escaped twice, as a record and between quotes. The quotes of a
record do not stand behind a backslash, so that the second layer is taken off alone.
-/
import KernelIntervals.Dot.Record
import KernelIntervals.Dot.Token

namespace KernelIntervals.Dot

/-- The text with a backslash before each of the marks in it. -/
def escape (marks text : List Char) : List Char :=
  text.flatMap fun c => if c ∈ marks then ['\\', c] else [c]

/-- The marks of a text between quotes. -/
def quoteMarks : List Char := ['"']

/-- The marks of a record. -/
def recordMarks : List Char := ['\x7b', '\x7d', '|', '<', '>', '\\']

/-- A text in which each backslash stands before a character of one kind, and all other
characters are of another kind. -/
inductive Escaped (paired plain : Char → Prop) : List Char → Prop
  | nil : Escaped paired plain []
  | pair {c : Char} {rest : List Char} (hc : paired c) (h : Escaped paired plain rest) :
      Escaped paired plain ('\\' :: c :: rest)
  | plain {c : Char} {rest : List Char} (hc : plain c) (h : Escaped paired plain rest) :
      Escaped paired plain (c :: rest)

variable {paired plain paired' plain' : Char → Prop} {c : Char}
  {text text' rest marks : List Char}

theorem escape_cons_of_mem (hc : c ∈ marks) :
    escape marks (c :: text) = '\\' :: c :: escape marks text := by
  rw [escape, List.flatMap_cons, if_pos hc]
  rfl

theorem escape_cons_of_not_mem (hc : c ∉ marks) :
    escape marks (c :: text) = c :: escape marks text := by
  rw [escape, List.flatMap_cons, if_neg hc]
  rfl

theorem escaped_escape (marks text : List Char) :
    Escaped (· ∈ marks) (· ∉ marks) (escape marks text) := by
  induction text with
  | nil => exact .nil
  | cons c text ih =>
    by_cases hc : c ∈ marks
    · rw [escape_cons_of_mem hc]
      exact .pair hc ih
    · rw [escape_cons_of_not_mem hc]
      exact .plain hc ih

/-- A text without backslashes. -/
theorem escaped_of_forall (h : ∀ c ∈ text, plain c) : Escaped paired plain text := by
  induction text with
  | nil => exact .nil
  | cons c text ih =>
    obtain ⟨hc, htext⟩ := List.forall_mem_cons.mp h
    exact .plain hc (ih htext)

namespace Escaped

theorem mono (h : Escaped paired plain text) (hpaired : ∀ c, paired c → paired' c)
    (hplain : ∀ c, plain c → plain' c) : Escaped paired' plain' text := by
  induction h with
  | nil => exact .nil
  | pair hc _ ih => exact .pair (hpaired _ hc) ih
  | plain hc _ ih => exact .plain (hplain _ hc) ih

theorem append (h : Escaped paired plain text) (h' : Escaped paired plain text') :
    Escaped paired plain (text ++ text') := by
  induction h with
  | nil => exact h'
  | pair hc _ ih => exact .pair hc ih
  | plain hc _ ih => exact .plain hc ih

theorem intercalate {texts : List (List Char)} (h : Escaped paired plain text)
    (htexts : ∀ t ∈ texts, Escaped paired plain t) :
    Escaped paired plain (text.intercalate texts) := by
  induction texts with
  | nil => exact .nil
  | cons t texts ih =>
    obtain ⟨ht, hrest⟩ := List.forall_mem_cons.mp htexts
    cases texts with
    | nil => exact List.intercalate_singleton ▸ ht
    | cons t' texts =>
      rw [List.intercalate_cons_cons]
      exact (ht.append h).append (ih hrest)

end Escaped

/-! ### Quoted texts -/

theorem quotedBody?_pair : quotedBody? ('\\' :: c :: rest) =
    (quotedBody? rest).map fun body => '\\' :: c :: body := by
  rw [quotedBody?]

theorem quotedBody?_plain (hquote : c ≠ '"') (hslash : c ≠ '\\') :
    quotedBody? (c :: rest) = (quotedBody? rest).map fun body => c :: body := by
  rw [quotedBody?, if_neg hquote, if_neg hslash]
  intro _ _ h
  exact absurd h hslash

theorem unquote_pair (hquote : c ≠ '"') (hfeed : c ≠ '\n') :
    unquote ('\\' :: c :: rest) = '\\' :: c :: unquote rest := by
  rw [unquote, if_neg hquote, if_neg hfeed]

theorem unquote_quote : unquote ('\\' :: '"' :: rest) = '"' :: unquote rest := by
  rw [unquote, if_pos rfl]

theorem unquote_plain (hslash : c ≠ '\\') : unquote (c :: rest) = c :: unquote rest := by
  rw [unquote]
  intro _ _ h
  exact absurd h hslash

/-- A text that can be put between quotes: no backslash in it stands before a quote or the
end of a line. -/
def Quotable (text : List Char) : Prop :=
  Escaped (fun c => c ≠ '"' ∧ c ≠ '\n') (· ≠ '\\') text

theorem escape_quote : escape quoteMarks ('"' :: text) = '\\' :: '"' :: escape quoteMarks text :=
  escape_cons_of_mem (List.mem_singleton_self _)

theorem escape_of_ne_quote (hc : c ≠ '"') :
    escape quoteMarks (c :: text) = c :: escape quoteMarks text :=
  escape_cons_of_not_mem fun hmem => hc (List.mem_singleton.mp hmem)

/-- The quote behind an escaped text is the first one that is not escaped. -/
theorem quotedBody?_escape (h : Quotable text) :
    quotedBody? (escape quoteMarks text ++ '"' :: rest) = some (escape quoteMarks text) := by
  induction h with
  | nil =>
    show quotedBody? ('"' :: rest) = some []
    rw [quotedBody?, if_pos rfl]
    intro _ _ h
    exact absurd h (by decide)
  | pair hc _ ih =>
    rw [escape_of_ne_quote (by decide), escape_of_ne_quote hc.1, List.cons_append,
      List.cons_append, quotedBody?_pair, ih]
    rfl
  | @plain c rest' hslash _ ih =>
    by_cases hquote : c = '"'
    · rw [hquote, escape_quote, List.cons_append, List.cons_append, quotedBody?_pair, ih]
      rfl
    · rw [escape_of_ne_quote hquote, List.cons_append, quotedBody?_plain hquote hslash, ih]
      rfl

theorem unquote_escape (h : Quotable text) : unquote (escape quoteMarks text) = text := by
  induction h with
  | nil => rfl
  | pair hc _ ih =>
    rw [escape_of_ne_quote (by decide), escape_of_ne_quote hc.1, unquote_pair hc.1 hc.2, ih]
  | @plain c rest hslash _ ih =>
    by_cases hquote : c = '"'
    · rw [hquote, escape_quote, unquote_quote, ih]
    · rw [escape_of_ne_quote hquote, unquote_plain hslash, ih]

/-! ### Fields of records -/

/-- A text that no field ends in: braces and bars in it are escaped. -/
def Unbroken (text : List Char) : Prop :=
  Escaped (fun _ => True) (· ∉ ['\\', '|', '\x7b', '\x7d']) text

theorem splitFields_pair (depth : Nat) : splitFields depth ('\\' :: c :: rest) =
    consFirst ['\\', c] (splitFields depth rest) := by
  rw [splitFields]

theorem splitFields_plain (depth : Nat) (hc : c ∉ ['\\', '|', '\x7b', '\x7d']) :
    splitFields depth (c :: rest) = consFirst [c] (splitFields depth rest) := by
  simp only [List.mem_cons, List.not_mem_nil, or_false, not_or] at hc
  obtain ⟨hslash, hbar, hopen, hclose⟩ := hc
  rw [splitFields, if_neg fun h => hbar h.1, braceDepth, if_neg hopen, if_neg hclose]
  intro _ _ h
  exact absurd h hslash

theorem splitFields_bar : splitFields 0 ('|' :: rest) = [] :: splitFields 0 rest := by
  rw [splitFields, if_pos ⟨rfl, rfl⟩]
  intro _ _ h
  exact absurd h (by decide)

theorem splitFields_append (h : Unbroken text) {first : List Char} {pieces : List (List Char)}
    (hrest : splitFields 0 rest = first :: pieces) :
    splitFields 0 (text ++ rest) = (text ++ first) :: pieces := by
  induction h with
  | nil => exact hrest
  | pair _ _ ih =>
    rw [List.cons_append, List.cons_append, splitFields_pair, ih]
    rfl
  | plain hc _ ih =>
    rw [List.cons_append, splitFields_plain 0 hc, ih]
    rfl

/-- Bars split the fields that they were put between. -/
theorem splitFields_intercalate {fields : List (List Char)} (h : ∀ f ∈ fields, Unbroken f)
    (hne : fields ≠ []) : splitFields 0 (['|'].intercalate fields) = fields := by
  induction fields with
  | nil => exact absurd rfl hne
  | cons f fields ih =>
    obtain ⟨hf, hfields⟩ := List.forall_mem_cons.mp h
    cases fields with
    | nil =>
      have hlast := splitFields_append hf (show splitFields 0 [] = [[]] from rfl)
      rw [List.append_nil] at hlast
      rw [List.intercalate_singleton, hlast]
    | cons f' fields =>
      have hrest : splitFields 0 ('|' :: ['|'].intercalate (f' :: fields)) =
          [] :: (f' :: fields) := by
        rw [splitFields_bar, ih hfields (List.cons_ne_nil _ _)]
      rw [List.intercalate_cons_cons, List.append_assoc, List.singleton_append,
        splitFields_append hf hrest, List.append_nil]

/-! ### Names and texts of fields -/

theorem breakAtClose_escaped (h : Escaped paired (fun c => c ≠ '\\' ∧ c ≠ '>') text) :
    breakAtClose (text ++ '>' :: rest) = some (text, rest) := by
  induction h with
  | nil =>
    show breakAtClose ('>' :: rest) = some ([], rest)
    rw [breakAtClose, if_pos rfl]
    intro _ _ h
    exact absurd h (by decide)
  | pair _ _ ih =>
    rw [List.cons_append, List.cons_append, breakAtClose, ih]
    rfl
  | plain hc _ ih =>
    rw [List.cons_append, breakAtClose, if_neg hc.2, ih]
    · rfl
    · intro _ _ h
      exact absurd h hc.1

theorem isRecordSpecial_of_mem (hc : c ∈ recordMarks) : isRecordSpecial c = true := by
  simp only [recordMarks, List.mem_cons, List.not_mem_nil, or_false] at hc
  rcases hc with rfl | rfl | rfl | rfl | rfl | rfl <;> rfl

/-- What was escaped in a record is read back. -/
theorem unescape_escape (text : List Char) : unescape (escape recordMarks text) = text := by
  induction text with
  | nil => rfl
  | cons c text ih =>
    by_cases hc : c ∈ recordMarks
    · rw [escape_cons_of_mem hc, unescape, if_pos (isRecordSpecial_of_mem hc), ih]
    · rw [escape_cons_of_not_mem hc, unescape, ih]
      rintro _ _ rfl
      exact absurd (by decide : '\\' ∈ recordMarks) hc

end KernelIntervals.Dot
