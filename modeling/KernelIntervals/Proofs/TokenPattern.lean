/-
Lexemes, as a search for one pattern finds them.

* `tokenPattern` — the kinds of lexeme as one pattern, of which the first that matches is taken,
* `Matches` — a search for a pattern comes to the end of the lexeme of a kind, if there is one,
* `first?_close` — a repetition that is as short as possible ends at the first close of a comment,
* `head?_quotedSteps` — a repetition that is as long as possible ends at the first quote that is not
  escaped,
* `matches_token` — the search for the pattern and `lexeme?` agree on all texts.

Design notes: the pattern backtracks and the readers of lexemes do not. Between quotes both take the
same steps, and there is no quote before the last one, so that nothing is found on the way back.
-/
import KernelIntervals.Proofs.Lexemes
import KernelIntervals.Proofs.Pattern

namespace KernelIntervals.Dot

open Text

/-! ### The pattern -/

/-- Everything up to the end of the line. -/
def linePattern : Pattern := .most (.one (· != '\n'))

def blankPattern : Pattern := .oneOrMore (.one isBlank)

def commentPattern : Pattern :=
  .either (.seq (.char '/') (.seq (.char '/') linePattern))
    (.either (.seq (.char '#') linePattern)
      (.seq (.char '/') (.seq (.char '*')
        (.seq (.least (.one fun _ => true)) (.seq (.char '*') (.char '/'))))))

/-- One character of a quoted text, or two if the first is a backslash. -/
def quotedStep : Pattern :=
  .either (.one fun c => c != '"' && c != '\\') (.seq (.char '\\') (.one fun _ => true))

def quotedPattern : Pattern := .seq (.char '"') (.seq (.most quotedStep) (.char '"'))

def arrowPattern : Pattern :=
  .either (.seq (.char '-') (.char '>')) (.seq (.char '-') (.char '-'))

def identPattern : Pattern :=
  .either (.oneOrMore (.one isIdentChar)) (.seq (.char '-') (.oneOrMore (.one isNumberChar)))

def punctuationPattern : Pattern :=
  .one fun c => ['[', ']', '\x7b', '\x7d', '=', ':', ';', ','].contains c

/-- What a lexeme looks like: of several kinds the first that matches. -/
def tokenPattern : Pattern :=
  .either blankPattern (.either commentPattern (.either quotedPattern (.either arrowPattern
    (.either identPattern punctuationPattern))))

/-- The place behind a lexeme that stands at a place. -/
def Lexeme.stop (before text : List Char) (l : Lexeme) : Cursor :=
  ⟨l.text.reverse ++ before, text.drop l.text.length⟩

/-- A search for the pattern comes to the end of the lexeme of a kind, if there is one. -/
def Matches (p : Pattern) (kind : List Char → Option Lexeme) : Prop :=
  ∀ before text, p.first? ⟨before, text⟩ = (kind text).map (Lexeme.stop before text)

variable {p q : Pattern} {kind kind' : List Char → Option Lexeme} {before text rest : List Char}
  {c : Char}

theorem Matches.either (h : Matches p kind) (h' : Matches q kind') :
    Matches (.either p q) fun text => (kind text).or (kind' text) := by
  intro before text
  rw [Pattern.first?_either, h, h', ← Option.map_or]

theorem drop_takeWhile (p : Char → Bool) (text : List Char) :
    text.drop (text.takeWhile p).length = text.dropWhile p := by
  have hdrop : (text.takeWhile p ++ text.dropWhile p).drop (text.takeWhile p).length =
    text.dropWhile p := List.drop_left
  rwa [List.takeWhile_append_dropWhile] at hdrop

/-! ### Each kind of lexeme -/

theorem matches_blank : Matches blankPattern blankLexeme? := by
  intro before text
  rw [blankPattern, Pattern.first?_oneOrMore, blankLexeme?]
  split
  · rfl
  · rw [Option.map_some, Lexeme.stop, drop_takeWhile]

/-- The first star with a slash behind it. -/
theorem first?_close :
    (Pattern.seq (.least (.one fun _ => true)) (.seq (.char '*') (.char '/'))).first?
        ⟨before, text⟩ =
      (breakAtPair '*' '/' text).map fun r => ⟨'/' :: '*' :: (r.1.reverse ++ before), r.2⟩ := by
  induction text generalizing before with
  | nil => rfl
  | cons c rest ih =>
    rw [Pattern.first?_least_cons, if_pos rfl, ih, Pattern.first?_char_cons]
    cases rest with
    | nil =>
      split <;> rfl
    | cons d rest =>
      rw [breakAtPair, Pattern.char, Pattern.first?_one_cons]
      by_cases hpair : c = '*' ∧ d = '/'
      · obtain ⟨rfl, rfl⟩ := hpair
        rfl
      · -- What is here is no match, so one character more is taken.
        have hnone : (if c = '*' then
            if (d == '/') = true then some (⟨d :: c :: before, rest⟩ : Cursor) else none
          else none) = none := by
          by_cases hc : c = '*'
          · rw [if_pos hc, if_neg fun hd => hpair ⟨hc, beq_iff_eq.mp hd⟩]
          · exact if_neg hc
        rw [hnone, Option.none_or, if_neg hpair, Option.map_map]
        refine congrArg (Option.map · _) (funext fun r => ?_)
        rw [Function.comp_apply]
        dsimp only
        rw [List.reverse_cons, List.append_assoc]
        rfl

/-- What is left of a line, behind its first characters. -/
theorem first?_line (lead : List Char) :
    linePattern.first? ⟨lead.reverse ++ before, text⟩ = some (Lexeme.stop before (lead ++ text)
      ⟨none, lead ++ text.takeWhile (· != '\n')⟩) := by
  rw [linePattern, Pattern.first?, Pattern.head?_stops_most, Lexeme.stop, List.length_append,
    ← List.drop_drop, List.drop_left, drop_takeWhile, List.reverse_append, List.append_assoc]

theorem matches_comment : Matches commentPattern commentLexeme? := by
  intro before text
  rw [commentPattern, Pattern.first?_either, Pattern.first?_either]
  cases text with
  | nil => rfl
  | cons c text =>
    rw [Pattern.first?_char_cons, Pattern.first?_char_cons, Pattern.first?_char_cons]
    by_cases hslash : c = '/'
    · subst hslash
      rw [if_pos rfl, if_pos rfl, if_neg (by decide), Option.none_or]
      cases text with
      | nil => rfl
      | cons d text =>
        rw [Pattern.first?_char_cons, Pattern.first?_char_cons]
        by_cases hnext : d = '/'
        · subst hnext
          rw [if_pos rfl, if_neg (by decide), Option.or_none]
          exact @first?_line before text ['/', '/']
        · rw [if_neg hnext, Option.none_or]
          by_cases hstar : d = '*'
          · subst hstar
            rw [if_pos rfl, first?_close, commentLexeme?, Option.map_map]
            cases hbreak : breakAtPair '*' '/' text with
            | none => rfl
            | some r =>
              obtain ⟨body, after⟩ := r
              rw [Option.map_some, Option.map_some, Function.comp_apply, Lexeme.stop,
                eq_of_breakAtPair hbreak]
              simp
          · rw [if_neg hstar, commentLexeme?_slash_eq_none hnext hstar]
            rfl
    · by_cases hhash : c = '#'
      · subst hhash
        rw [if_neg hslash, if_pos rfl, Option.none_or]
        have hline := @first?_line before text ['#']
        refine (congrArg (Option.or · _) hline).trans ?_
        rfl
      · rw [if_neg hslash, if_neg hhash, if_neg hslash, commentLexeme?_eq_none hslash hhash]
        rfl

theorem stops_quotedStep_plain (hquote : c ≠ '"') (hslash : c ≠ '\\') :
    quotedStep.stops ⟨before, c :: rest⟩ = [⟨c :: before, rest⟩] := by
  have hplain : (c != '"' && c != '\\') = true := by
    rw [Bool.and_eq_true, bne_iff_ne, bne_iff_ne]
    exact ⟨hquote, hslash⟩
  have hpair : (Pattern.seq (.char '\\') (.one fun _ => true)).stops ⟨before, c :: rest⟩ = [] := by
    show ((Pattern.char '\\').stops ⟨before, c :: rest⟩).flatMap _ = []
    rw [Pattern.char, Pattern.stops_one_cons, if_neg fun heq => hslash (beq_iff_eq.mp heq)]
    rfl
  show (Pattern.one _).stops ⟨before, c :: rest⟩ ++ _ = _
  rw [hpair, Pattern.stops_one_cons, if_pos hplain, List.append_nil]

/-- Steps through a quoted text come to the first quote that is not escaped; behind fewer steps
there is no quote. The number of steps that are left may be larger than the text, as a pair is one
step. -/
theorem head?_quotedSteps (n : Nat) (hn : text.length ≤ n) :
    ((roundsMost quotedStep.stops n ⟨before, text⟩).flatMap (Pattern.char '"').stops).head? =
      (quotedBody? text).map fun body =>
        ⟨'"' :: (body.reverse ++ before), text.drop (body.length + 1)⟩ := by
  fun_induction quotedBody? text generalizing before n with
  | case1 c rest ih =>
    obtain ⟨m, rfl⟩ := Nat.exists_eq_add_one.mpr (Nat.lt_of_lt_of_le (Nat.succ_pos _) hn)
    have hm : rest.length ≤ m := by
      rw [List.length_cons, List.length_cons] at hn
      omega
    have hstep : quotedStep.stops ⟨before, '\\' :: c :: rest⟩ = [⟨c :: '\\' :: before, rest⟩] := rfl
    rw [head?_roundsMost_step hstep rfl, ih m hm, Option.map_map]
    refine congrArg (Option.map · _) (funext fun body => ?_)
    simp
  | case2 rest =>
    rw [roundsMost_of_nil rfl]
    rfl
  | case3 rest hpair _ =>
    cases rest with
    | nil =>
      rw [roundsMost_of_nil rfl]
      rfl
    | cons c rest => exact absurd rfl (hpair c rest rfl)
  | case4 c rest _ hquote hslash ih =>
    obtain ⟨m, rfl⟩ := Nat.exists_eq_add_one.mpr (Nat.lt_of_lt_of_le (Nat.succ_pos _) hn)
    have hend : (Pattern.char '"').stops ⟨before, c :: rest⟩ = [] := by
      rw [Pattern.char, Pattern.stops_one_cons, if_neg fun heq => hquote (beq_iff_eq.mp heq)]
    rw [head?_roundsMost_step (stops_quotedStep_plain hquote hslash) hend,
      ih m (Nat.le_of_succ_le_succ hn), Option.map_map]
    refine congrArg (Option.map · _) (funext fun body => ?_)
    simp
  | case5 =>
    rw [roundsMost_of_nil rfl]
    rfl

theorem matches_quoted : Matches quotedPattern quotedLexeme? := by
  intro before text
  cases text with
  | nil => rfl
  | cons c text =>
    rw [quotedPattern, Pattern.first?_char_cons]
    by_cases hquote : c = '"'
    · subst hquote
      have hsteps := @head?_quotedSteps ('"' :: before) text text.length (Nat.le_refl _)
      rw [if_pos rfl, quotedLexeme?, Option.map_map]
      refine Eq.trans hsteps ?_
      refine congrArg (Option.map · _) (funext fun body => ?_)
      rw [Function.comp_apply, Lexeme.stop]
      simp
    · rw [if_neg hquote, quotedLexeme?_eq_none hquote]
      rfl

theorem matches_arrow : Matches arrowPattern arrowLexeme? := by
  intro before text
  rw [arrowPattern, Pattern.first?_either]
  cases text with
  | nil => rfl
  | cons c text =>
    rw [Pattern.first?_char_cons, Pattern.first?_char_cons]
    by_cases hc : c = '-'
    · subst hc
      rw [if_pos rfl, if_pos rfl]
      cases text with
      | nil => rfl
      | cons d text =>
        rw [Pattern.char, Pattern.char, Pattern.first?_one_cons, Pattern.first?_one_cons]
        by_cases hmark : d = '>' ∨ d = '-'
        · rcases hmark with rfl | rfl <;> rfl
        · obtain ⟨hclose, hminus⟩ := not_or.mp hmark
          have hnext : ∀ e ∈ (d :: text).head?, e ≠ '>' ∧ e ≠ '-' := by
            rintro e he
            obtain rfl := Option.some.inj he
            exact ⟨hclose, hminus⟩
          rw [if_neg fun heq => hclose (beq_iff_eq.mp heq),
            if_neg fun heq => hminus (beq_iff_eq.mp heq),
            arrowLexeme?_eq_none (.inr hnext)]
          rfl
    · rw [if_neg hc, if_neg hc, arrowLexeme?_eq_none (.inl hc)]
      rfl

theorem matches_ident : Matches identPattern identLexeme? := by
  intro before text
  rw [identPattern, Pattern.first?_either, Pattern.first?_oneOrMore, identLexeme?]
  by_cases hminus : ∃ rest, text = '-' :: rest
  · obtain ⟨rest, rfl⟩ := hminus
    rw [Pattern.first?_char_cons, if_pos rfl, Pattern.first?_oneOrMore, identText]
    have hnone : ('-' :: rest).takeWhile isIdentChar = [] := List.takeWhile_cons_of_neg (by decide)
    rw [hnone]
    cases hdigits : (rest.takeWhile isNumberChar).isEmpty with
    | true => rfl
    | false =>
      have hdrop := drop_takeWhile isNumberChar rest
      simp [Lexeme.stop, hdrop]
  · -- Without a sign only the first choice can match.
    have hnone : (Pattern.seq (.char '-') (.oneOrMore (.one isNumberChar))).first? ⟨before, text⟩ =
        none := by
      cases text with
      | nil => rfl
      | cons c rest =>
        have hc : c ≠ '-' := by
          rintro rfl
          exact hminus ⟨rest, rfl⟩
        rw [Pattern.first?_char_cons, if_neg hc]
    have htext : identText text = text.takeWhile isIdentChar :=
      identText.eq_2 text fun rest heq => hminus ⟨rest, heq⟩
    rw [hnone, Option.or_none, htext]
    split
    · rfl
    · rw [Option.map_some, Lexeme.stop, drop_takeWhile]

theorem isSome_ofPunctuation? : (Token.ofPunctuation? c).isSome =
    ['[', ']', '\x7b', '\x7d', '=', ':', ';', ','].contains c := by
  unfold Token.ofPunctuation?
  split
  case h_9 => simp_all
  all_goals rfl

theorem matches_punctuation : Matches punctuationPattern punctuationLexeme? := by
  intro before text
  cases text with
  | nil => rfl
  | cons c text =>
    rw [punctuationPattern, Pattern.first?_one_cons, ← isSome_ofPunctuation?, punctuationLexeme?]
    cases Token.ofPunctuation? c <;> rfl

/-- The lexeme that a text starts with is where the search for the pattern comes to. -/
theorem matches_token : Matches tokenPattern lexeme? := by
  intro before text
  rw [lexeme?_eq]
  exact matches_blank.either (matches_comment.either (matches_quoted.either
    (matches_arrow.either (matches_ident.either matches_punctuation)))) before text

end KernelIntervals.Dot
