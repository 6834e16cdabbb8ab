/-
How lexemes are spelled.

* `Spells` — the lexemes, each with the characters that would make it longer,
* `Leads` — a lexeme that a text starts with: it is spelled, and nothing behind it is a part of it,
* `quotedBody?_eq_some_iff` — what is between quotes is pairs with a backslash and plain characters,
* `leads_of_lexeme?`, `lexeme?_of_leads` — the lexeme that is found is the one that the text starts
  with.

Design notes: what stands behind a lexeme matters only by its first character, and only to the kinds
that take as much as they can. `Spells` says so once for each kind, so that no later proof opens the
reader of a kind.
-/
import KernelIntervals.Proofs.Escapes
import KernelIntervals.Proofs.TextCuts

namespace KernelIntervals.Dot

open Text

variable {text rest body w : List Char} {c : Char} {l : Lexeme}

/-- What can stand between the quotes of a quoted text. -/
def IsQuotedBody (body : List Char) : Prop :=
  Escaped (fun _ => True) (fun c => c ≠ '"' ∧ c ≠ '\\') body

/-- How lexemes are spelled: the token, the text, and the characters that would be a part of the
text if they stood behind it. -/
inductive Spells : Option Token → List Char → (Char → Bool) → Prop
  | blanks {w : List Char} (hne : w ≠ []) (h : ∀ c ∈ w, isBlank c = true) : Spells none w isBlank
  | slashes {body : List Char} (h : '\n' ∉ body) : Spells none ('/' :: '/' :: body) (· != '\n')
  | hash {body : List Char} (h : '\n' ∉ body) : Spells none ('#' :: body) (· != '\n')
  | block {body : List Char} (h : ¬ ['*', '/'] <:+: body) :
      Spells none ('/' :: '*' :: body ++ ['*', '/']) fun _ => false
  | quoted {body : List Char} (h : IsQuotedBody body) :
      Spells (some (.quoted (String.ofList (unquote body)))) ('"' :: body ++ ['"']) fun _ => false
  | arrow {c : Char} (h : c = '>' ∨ c = '-') : Spells (some .arrow) ['-', c] fun _ => false
  | ident {name : List Char} (hne : name ≠ []) (h : ∀ c ∈ name, isIdentChar c = true) :
      Spells (some (.ident (String.ofList name))) name isIdentChar
  | number {digits : List Char} (hne : digits ≠ []) (h : ∀ c ∈ digits, isNumberChar c = true) :
      Spells (some (.ident (String.ofList ('-' :: digits)))) ('-' :: digits) isNumberChar
  | punctuation {c : Char} {t : Token} (h : Token.ofPunctuation? c = some t) :
      Spells (some t) [c] fun _ => false

/-! ### Each kind of lexeme -/

theorem quotedBody?_eq_some_iff : quotedBody? text = some body ↔
    IsQuotedBody body ∧ ∃ rest, text = body ++ '"' :: rest := by
  constructor
  · intro h
    fun_induction quotedBody? text generalizing body with
    | case1 c rest ih =>
      obtain ⟨body, hbody, rfl⟩ := Option.map_eq_some_iff.mp h
      obtain ⟨hescaped, behind, rfl⟩ := ih hbody
      exact ⟨.pair trivial hescaped, behind, rfl⟩
    | case2 rest =>
      obtain rfl := Option.some.inj h
      exact ⟨.nil, rest, rfl⟩
    | case3 => cases h
    | case4 c rest _ hquote hslash ih =>
      obtain ⟨body, hbody, rfl⟩ := Option.map_eq_some_iff.mp h
      obtain ⟨hescaped, behind, rfl⟩ := ih hbody
      exact ⟨.plain ⟨hquote, hslash⟩ hescaped, behind, rfl⟩
    | case5 => cases h
  · rintro ⟨h, rest, rfl⟩
    induction h with
    | nil =>
      rw [List.nil_append, quotedBody?, if_pos rfl]
      intro _ _ heq
      exact absurd heq (by decide)
    | pair _ _ ih =>
      rw [List.cons_append, List.cons_append, quotedBody?_pair, ih]
      rfl
    | plain hc _ ih =>
      rw [List.cons_append, quotedBody?_plain hc.1 hc.2, ih]
      rfl

/-- A run of characters that ends before another one. -/
theorem takeWhile_run {p : Char → Bool} (hw : ∀ c ∈ w, p c = true)
    (hrest : ∀ c ∈ rest.head?, p c = false) : (w ++ rest).takeWhile p = w := by
  have hstop : rest.takeWhile p = [] := by
    cases rest with
    | nil => rfl
    | cons c rest => exact List.takeWhile_cons_of_neg (Bool.eq_false_iff.mp (hrest c rfl))
  rw [List.takeWhile_append_of_pos hw, hstop, List.append_nil]

/-- A text is a run of characters and what it ends before. -/
theorem exists_run (p : Char → Bool) (text : List Char) :
    ∃ rest, text = text.takeWhile p ++ rest ∧ ∀ c ∈ rest.head?, p c = false :=
  ⟨text.dropWhile p, List.takeWhile_append_dropWhile.symm, head_dropWhile⟩

/-- A lexeme that a text starts with: it is spelled, and what stands behind it is no part of it. -/
def Leads (l : Lexeme) (text : List Char) : Prop :=
  ∃ rest grows, text = l.text ++ rest ∧ Spells l.token l.text grows ∧
    ∀ c ∈ rest.head?, grows c = false

theorem leads_of_blankLexeme? (h : blankLexeme? text = some l) : Leads l text := by
  rw [blankLexeme?] at h
  split at h
  next => cases h
  next hne =>
    obtain rfl := Option.some.inj h
    obtain ⟨rest, htext, hrest⟩ := exists_run isBlank text
    exact ⟨rest, isBlank, htext,
      .blanks (fun hnil => hne (List.isEmpty_iff.mpr hnil)) fun c hc => List.mem_takeWhile_imp hc,
      hrest⟩

theorem leads_of_commentLexeme? (h : commentLexeme? text = some l) : Leads l text := by
  have hline : ∀ rest : List Char, '\n' ∉ rest.takeWhile (· != '\n') := by
    intro rest hmem
    exact absurd (List.mem_takeWhile_imp hmem) (by decide)
  unfold commentLexeme? at h
  split at h
  next rest =>
    obtain rfl := Option.some.inj h
    obtain ⟨behind, htext, hbehind⟩ := exists_run (· != '\n') rest
    exact ⟨behind, _, congrArg ('/' :: '/' :: ·) htext, .slashes (hline rest), hbehind⟩
  next rest =>
    obtain rfl := Option.some.inj h
    obtain ⟨behind, htext, hbehind⟩ := exists_run (· != '\n') rest
    exact ⟨behind, _, congrArg ('#' :: ·) htext, .hash (hline rest), hbehind⟩
  next rest =>
    obtain ⟨⟨body, after⟩, hbreak, rfl⟩ := Option.map_eq_some_iff.mp h
    refine ⟨after, _, ?_, .block (not_infix_of_breakAtPair hbreak), fun _ _ => rfl⟩
    rw [eq_of_breakAtPair hbreak]
    simp
  next => cases h

theorem leads_of_quotedLexeme? (h : quotedLexeme? text = some l) : Leads l text := by
  unfold quotedLexeme? at h
  split at h
  next rest =>
    obtain ⟨body, hbody, rfl⟩ := Option.map_eq_some_iff.mp h
    obtain ⟨hescaped, behind, rfl⟩ := quotedBody?_eq_some_iff.mp hbody
    refine ⟨behind, _, ?_, .quoted hescaped, fun _ _ => rfl⟩
    simp
  next => cases h

theorem leads_of_arrowLexeme? (h : arrowLexeme? text = some l) : Leads l text := by
  unfold arrowLexeme? at h
  split at h
  next rest =>
    obtain rfl := Option.some.inj h
    exact ⟨rest, _, rfl, .arrow (.inl rfl), fun _ _ => rfl⟩
  next rest =>
    obtain rfl := Option.some.inj h
    exact ⟨rest, _, rfl, .arrow (.inr rfl), fun _ _ => rfl⟩
  next => cases h

theorem leads_of_identLexeme? (h : identLexeme? text = some l) : Leads l text := by
  rw [identLexeme?] at h
  split at h
  next => cases h
  next hempty =>
    obtain rfl := Option.some.inj h
    have hne : identText text ≠ [] := fun hnil => hempty (List.isEmpty_iff.mpr hnil)
    clear hempty
    unfold identText at hne ⊢
    split at hne
    next rest =>
      obtain ⟨behind, htext, hbehind⟩ := exists_run isNumberChar rest
      dsimp only at hne ⊢
      split at hne
      next => exact absurd rfl hne
      next hdigits =>
        rw [if_neg hdigits]
        refine ⟨behind, _, congrArg ('-' :: ·) htext, .number (fun hnil => hdigits ?_)
          (fun c hc => List.mem_takeWhile_imp hc), hbehind⟩
        exact List.isEmpty_iff.mpr hnil
    next =>
      obtain ⟨behind, htext, hbehind⟩ := exists_run isIdentChar text
      exact ⟨behind, _, htext, .ident hne fun c hc => List.mem_takeWhile_imp hc, hbehind⟩

theorem leads_of_punctuationLexeme? (h : punctuationLexeme? text = some l) : Leads l text := by
  unfold punctuationLexeme? at h
  split at h
  next c rest =>
    obtain ⟨t, ht, rfl⟩ := Option.map_eq_some_iff.mp h
    exact ⟨rest, _, rfl, .punctuation ht, fun _ _ => rfl⟩
  next => cases h

theorem leads_of_lexeme? (h : lexeme? text = some l) : Leads l text := by
  obtain ⟨kind, hkind, h⟩ := List.exists_of_findSome?_eq_some h
  simp only [lexemeKinds, List.mem_cons, List.not_mem_nil, or_false] at hkind
  rcases hkind with rfl | rfl | rfl | rfl | rfl | rfl
  · exact leads_of_blankLexeme? h
  · exact leads_of_commentLexeme? h
  · exact leads_of_quotedLexeme? h
  · exact leads_of_arrowLexeme? h
  · exact leads_of_identLexeme? h
  · exact leads_of_punctuationLexeme? h

/-! ### Maximal munch -/

theorem lexeme?_eq (text : List Char) : lexeme? text = (blankLexeme? text).or
    ((commentLexeme? text).or ((quotedLexeme? text).or ((arrowLexeme? text).or
      ((identLexeme? text).or (punctuationLexeme? text))))) := by
  rw [lexeme?, lexemeKinds]
  simp only [List.findSome?_cons, List.findSome?_nil]
  cases blankLexeme? text <;> cases commentLexeme? text <;> cases quotedLexeme? text <;>
    cases arrowLexeme? text <;> cases identLexeme? text <;> cases punctuationLexeme? text <;> rfl

theorem blankLexeme?_eq_none (hc : isBlank c = false) : blankLexeme? (c :: rest) = none := by
  rw [blankLexeme?, List.takeWhile_cons_of_neg (Bool.eq_false_iff.mp hc)]
  rfl

theorem commentLexeme?_eq_none (hslash : c ≠ '/') (hhash : c ≠ '#') :
    commentLexeme? (c :: rest) = none := by
  unfold commentLexeme?
  split
  next heq => exact absurd (List.cons.inj heq).1 hslash
  next heq => exact absurd (List.cons.inj heq).1 hhash
  next heq => exact absurd (List.cons.inj heq).1 hslash
  next => rfl

theorem commentLexeme?_slash_eq_none (hslash : c ≠ '/') (hstar : c ≠ '*') :
    commentLexeme? ('/' :: c :: rest) = none := by
  unfold commentLexeme?
  split
  next heq => exact absurd (List.cons.inj (List.cons.inj heq).2).1 hslash
  next heq => exact absurd (List.cons.inj heq).1 (by decide)
  next heq => exact absurd (List.cons.inj (List.cons.inj heq).2).1 hstar
  next => rfl

theorem quotedLexeme?_eq_none (hquote : c ≠ '"') : quotedLexeme? (c :: rest) = none := by
  unfold quotedLexeme?
  split
  next heq => exact absurd (List.cons.inj heq).1 hquote
  next => rfl

theorem arrowLexeme?_eq_none (h : c ≠ '-' ∨ ∀ d ∈ rest.head?, d ≠ '>' ∧ d ≠ '-') :
    arrowLexeme? (c :: rest) = none := by
  unfold arrowLexeme?
  split
  next heq =>
    obtain ⟨rfl, rfl⟩ := List.cons.inj heq
    exact absurd rfl ((h.resolve_left fun hne => hne rfl) '>' rfl).1
  next heq =>
    obtain ⟨rfl, rfl⟩ := List.cons.inj heq
    exact absurd rfl ((h.resolve_left fun hne => hne rfl) '-' rfl).2
  next => rfl

/-- What no other lexeme starts with. -/
theorem isIdentChar_cases (h : isIdentChar c = true) :
    isBlank c = false ∧ c ≠ '/' ∧ c ≠ '#' ∧ c ≠ '"' ∧ c ≠ '-' := by
  rw [isIdentChar] at h
  simp only [Bool.or_eq_true, beq_iff_eq] at h
  rcases h with ((h | rfl) | rfl) | rfl
  · refine ⟨not_isBlank_of_isAlphanum h, ?_, ?_, ?_, ?_⟩ <;> rintro rfl <;>
      exact absurd h (by decide)
  · decide
  · decide
  · decide

theorem isNumberChar_cases (h : isNumberChar c = true) : c ≠ '>' ∧ c ≠ '-' := by
  constructor <;> rintro rfl <;> exact absurd h (by decide)

theorem identLexeme?_ident {name : List Char} (hne : name ≠ [])
    (h : ∀ c ∈ name, isIdentChar c = true) (hrest : ∀ c ∈ rest.head?, isIdentChar c = false) :
    identLexeme? (name ++ rest) = some ⟨some (.ident (String.ofList name)), name⟩ := by
  have htext : identText (name ++ rest) = name := by
    rw [identText.eq_2, takeWhile_run h hrest]
    intro behind heq
    cases name with
    | nil => exact hne rfl
    | cons c name =>
      obtain rfl := (List.cons.inj heq).1
      exact absurd (h '-' List.mem_cons_self) (by decide)
  rw [identLexeme?, htext]
  exact if_neg fun hnil => hne (List.isEmpty_iff.mp hnil)

theorem identLexeme?_number {digits : List Char} (hne : digits ≠ [])
    (h : ∀ c ∈ digits, isNumberChar c = true) (hrest : ∀ c ∈ rest.head?, isNumberChar c = false) :
    identLexeme? ('-' :: (digits ++ rest)) =
      some ⟨some (.ident (String.ofList ('-' :: digits))), '-' :: digits⟩ := by
  have htext : identText ('-' :: (digits ++ rest)) = '-' :: digits := by
    rw [identText, takeWhile_run h hrest]
    exact if_neg fun hnil => hne (List.isEmpty_iff.mp hnil)
  rw [identLexeme?, htext]
  rfl

theorem line_of_not_mem (h : '\n' ∉ body) : ∀ c ∈ body, (c != '\n') = true := by
  intro c hc
  rw [bne_iff_ne]
  rintro rfl
  exact h hc

theorem commentLexeme?_slashes (h : '\n' ∉ body) (hrest : ∀ c ∈ rest.head?, (c != '\n') = false) :
    commentLexeme? ('/' :: '/' :: (body ++ rest)) = some ⟨none, '/' :: '/' :: body⟩ := by
  rw [commentLexeme?, takeWhile_run (line_of_not_mem h) hrest]

theorem commentLexeme?_hash (h : '\n' ∉ body) (hrest : ∀ c ∈ rest.head?, (c != '\n') = false) :
    commentLexeme? ('#' :: (body ++ rest)) = some ⟨none, '#' :: body⟩ := by
  rw [commentLexeme?, takeWhile_run (line_of_not_mem h) hrest]

theorem commentLexeme?_block (h : ¬ ['*', '/'] <:+: body) :
    commentLexeme? ('/' :: '*' :: (body ++ '*' :: '/' :: rest)) =
      some ⟨none, '/' :: '*' :: body ++ ['*', '/']⟩ := by
  rw [commentLexeme?, breakAtPair_append h (by decide)]
  rfl

theorem quotedLexeme?_quoted (h : IsQuotedBody body) :
    quotedLexeme? ('"' :: (body ++ '"' :: rest)) = some
      ⟨some (.quoted (String.ofList (unquote body))), '"' :: body ++ ['"']⟩ := by
  rw [quotedLexeme?, quotedBody?_eq_some_iff.mpr ⟨h, rest, rfl⟩]
  rfl

/-- The lexemes that a text can start with are those that it does start with: of two kinds of lexeme
none can start with the other, and each takes all that it can. -/
theorem lexeme?_of_leads (h : Leads l text) : lexeme? text = some l := by
  obtain ⟨t?, w⟩ := l
  obtain ⟨rest, grows, rfl, hspells, hrest⟩ := h
  dsimp only at hspells hrest ⊢
  rw [lexeme?_eq]
  cases hspells with
  | blanks hne hw =>
    rw [blankLexeme?, takeWhile_run hw hrest, if_neg fun hnil => hne (List.isEmpty_iff.mp hnil)]
    rfl
  | slashes hbody =>
    rw [List.cons_append, List.cons_append, blankLexeme?_eq_none (by decide),
      commentLexeme?_slashes hbody hrest]
    rfl
  | hash hbody =>
    rw [List.cons_append, blankLexeme?_eq_none (by decide), commentLexeme?_hash hbody hrest]
    rfl
  | @block body hbody =>
    have htext : '/' :: '*' :: body ++ ['*', '/'] ++ rest =
        '/' :: '*' :: (body ++ '*' :: '/' :: rest) := by simp
    rw [htext, blankLexeme?_eq_none (by decide), commentLexeme?_block hbody]
    rfl
  | @quoted body hbody =>
    have htext : '"' :: body ++ ['"'] ++ rest = '"' :: (body ++ '"' :: rest) := by simp
    rw [htext, blankLexeme?_eq_none (by decide), commentLexeme?_eq_none (by decide) (by decide),
      quotedLexeme?_quoted hbody]
    rfl
  | @arrow c hc =>
    rcases hc with rfl | rfl
    · rfl
    · rfl
  | ident hne hname =>
    obtain ⟨c, name, rfl⟩ := List.exists_cons_of_ne_nil hne
    obtain ⟨hblank, hslash, hhash, hquote, hminus⟩ := isIdentChar_cases (hname c List.mem_cons_self)
    rw [identLexeme?_ident hne hname hrest, List.cons_append, blankLexeme?_eq_none hblank,
      commentLexeme?_eq_none hslash hhash, quotedLexeme?_eq_none hquote,
      arrowLexeme?_eq_none (.inl hminus)]
    rfl
  | @number digits hne hdigits =>
    -- A sign is the start of an arrow too, but not before a digit or a dot.
    have hhead : ∀ d ∈ (digits ++ rest).head?, d ≠ '>' ∧ d ≠ '-' := by
      obtain ⟨d, ds, rfl⟩ := List.exists_cons_of_ne_nil hne
      intro c hc
      exact Option.some.inj hc ▸ isNumberChar_cases (hdigits d List.mem_cons_self)
    rw [List.cons_append, identLexeme?_number hne hdigits hrest, blankLexeme?_eq_none (by decide),
      commentLexeme?_eq_none (by decide) (by decide), quotedLexeme?_eq_none (by decide),
      arrowLexeme?_eq_none (.inr hhead)]
    rfl
  | @punctuation c t ht =>
    unfold Token.ofPunctuation? at ht
    split at ht <;> cases ht <;> rfl

theorem lexeme?_eq_some_iff : lexeme? text = some l ↔ Leads l text :=
  ⟨leads_of_lexeme?, lexeme?_of_leads⟩

end KernelIntervals.Dot
