/-
Lines, blanks and comments between tokens.

* `Lexes` — a text as lexemes, one behind the other, and what is left behind them,
* `placed`, `lineAt` — their tokens, each with the text before it, and the line behind that text,
* `Lexes.tokenizeFrom_eq` — lexemes are read one by one, and lines are counted on the way,
* `Filler`, `Padded` — blanks or a comment, put before or behind a token,
* `yields_filler`, `yields_padded_before`, `yields_padded_behind` — the tokens stay the same,
* `tokenize_layout` — which tokens a text has and on which lines, where it fails, and that layout
  does not matter.

Design notes: a filler can change the lexemes of a text, since blanks go on in it, but not the
tokens. So the lexemes before it are put back one by one, each before a text that is known by its
tokens. Only the lexeme next to the filler has something else behind it; the others see the same
character.
-/
import KernelIntervals.Proofs.LineBlind
import KernelIntervals.Proofs.TokenPattern

namespace KernelIntervals.Dot

open Text

variable {text rest behind behind' f w : List Char} {c : Char} {l p : Lexeme}
  {ls front back : List Lexeme} {ts : List Token} {before : List Char} {line : Nat}

/-! ### Texts as lexemes -/

/-- A text is some lexemes, one behind the other, and what is left behind them. -/
inductive Lexes : List Char → List Lexeme → List Char → Prop
  | done {rest : List Char} : Lexes rest [] rest
  | more {l : Lexeme} {ls : List Lexeme} {behind rest : List Char}
      (h : lexeme? (l.text ++ behind) = some l) (hbehind : Lexes behind ls rest) :
      Lexes (l.text ++ behind) (l :: ls) rest

/-- The text of some lexemes. -/
def chars (ls : List Lexeme) : List Char := ls.flatMap Lexeme.text

/-- The tokens of some lexemes behind a text, each with all of the text that is before it. -/
def placed (before : List Char) : List Lexeme → List (List Char × Token)
  | [] => []
  | l :: ls => l.token.toList.map (before, ·) ++ placed (before ++ l.text) ls

/-- The number of the line behind a text. -/
def lineAt (before : List Char) : Nat := 1 + before.count '\n'

/-- A token on the line behind the text before it. -/
def locate (p : List Char × Token) : Located := ⟨p.2, lineAt p.1⟩

/-- The error where no lexeme starts. -/
def stuck (line : Nat) (c : Char) : ReadError :=
  if c = '"' then .unterminatedString line else .unexpectedChar line c

@[simp] theorem chars_nil : chars [] = [] := rfl

@[simp] theorem chars_cons : chars (l :: ls) = l.text ++ chars ls := List.flatMap_cons

theorem Lexes.text_eq (h : Lexes text ls rest) : text = chars ls ++ rest := by
  induction h with
  | done => rfl
  | more _ _ ih => rw [chars_cons, List.append_assoc, ← ih]

theorem exists_lexes (text : List Char) :
    ∃ ls rest, Lexes text ls rest ∧ lexeme? rest = none := by
  induction hn : text.length using Nat.strong_induction_on generalizing text with
  | _ n ih =>
    subst hn
    cases hlexeme : lexeme? text with
    | none => exact ⟨[], text, .done, hlexeme⟩
    | some l =>
      obtain ⟨behind, grows, rfl, hspells, hbehind⟩ := leads_of_lexeme? hlexeme
      have hlt : behind.length < (l.text ++ behind).length := by
        have hpos := List.length_pos_iff.mpr (text_ne_nil_of_lexeme? hlexeme)
        rw [List.length_append]
        omega
      obtain ⟨ls, rest, hls, hrest⟩ := ih behind.length hlt behind rfl
      exact ⟨l :: ls, rest, .more hlexeme hls, hrest⟩

/-! ### The tokens of a text -/

theorem tokenizeFrom_nil : tokenizeFrom line [] = .ok [] := by rw [tokenizeFrom.eq_def]

theorem tokenizeFrom_lexeme (h : lexeme? (l.text ++ behind) = some l) :
    tokenizeFrom line (l.text ++ behind) =
      (tokenizeFrom (line + l.text.count '\n') behind).map
        (l.token.toList.map (⟨·, line⟩) ++ ·) := by
  obtain ⟨c, rest, hl⟩ := List.exists_cons_of_ne_nil (text_ne_nil_of_lexeme? h)
  rw [hl, List.cons_append] at h ⊢
  rw [tokenizeFrom.eq_def]
  dsimp only
  split
  next hnone =>
    rw [h] at hnone
    injection hnone
  next lexeme hlexeme =>
    rw [h] at hlexeme
    obtain rfl := Option.some.inj hlexeme
    rw [hl, ← List.cons_append, List.drop_left]
    rfl

theorem tokenizeFrom_stuck (h : lexeme? (c :: rest) = none) :
    tokenizeFrom line (c :: rest) = .error (stuck line c) := by
  rw [tokenizeFrom.eq_def]
  dsimp only
  split
  next => rfl
  next hlexeme =>
    rw [h] at hlexeme
    injection hlexeme

theorem lineAt_append (before text : List Char) :
    lineAt (before ++ text) = lineAt before + text.count '\n' := by
  rw [lineAt, lineAt, List.count_append, Nat.add_assoc]

/-- The tokens of some lexemes are those before the tokens of what is left. -/
theorem Lexes.tokenizeFrom_eq (h : Lexes text ls rest) (before : List Char) :
    tokenizeFrom (lineAt before) text =
      (tokenizeFrom (lineAt (before ++ chars ls)) rest).map
        ((placed before ls).map locate ++ ·) := by
  induction h generalizing before with
  | @done rest =>
    rw [chars_nil, List.append_nil]
    exact (congrFun Except.map_id _).symm
  | @more l ls behind rest h _ ih =>
    rw [tokenizeFrom_lexeme h, ← lineAt_append, ih, chars_cons, ← List.append_assoc, placed,
      List.map_append, List.map_map]
    cases tokenizeFrom (lineAt (before ++ l.text ++ chars ls)) rest with
    | error e => rfl
    | ok tokens => exact congrArg Except.ok (List.append_assoc _ _ _).symm

theorem tokenize_of_lexes {text : String} (h : Lexes text.toList ls []) :
    tokenize text = .ok ((placed [] ls).map locate) := by
  have htokens := h.tokenizeFrom_eq []
  rw [tokenizeFrom_nil] at htokens
  exact htokens.trans (congrArg Except.ok (List.append_nil _))

theorem tokenize_of_stuck {text : String} (h : Lexes text.toList ls (c :: rest))
    (hstuck : lexeme? (c :: rest) = none) :
    tokenize text = .error (stuck (lineAt (chars ls)) c) := by
  have htokens := h.tokenizeFrom_eq []
  rw [tokenizeFrom_stuck hstuck] at htokens
  exact htokens

/-- The tokens of a text are those of the lexemes that it is, each on the line that it starts on. -/
theorem tokenize_eq_ok_iff {text : String} {tokens : List Located} : tokenize text = .ok tokens ↔
    ∃ ls, Lexes text.toList ls [] ∧ tokens = (placed [] ls).map locate := by
  constructor
  · intro h
    obtain ⟨ls, rest, hls, hrest⟩ := exists_lexes text.toList
    cases rest with
    | nil => exact ⟨ls, hls, Except.ok.inj (h.symm.trans (tokenize_of_lexes hls))⟩
    | cons c rest => exact absurd (h.symm.trans (tokenize_of_stuck hls hrest)) nofun
  · rintro ⟨ls, hls, rfl⟩
    exact tokenize_of_lexes hls

/-- A text has no tokens exactly if it is some lexemes and then comes to a place where none
starts. -/
theorem tokenize_eq_error_iff {text : String} {e : ReadError} : tokenize text = .error e ↔
    ∃ ls c rest, Lexes text.toList ls (c :: rest) ∧ lexeme? (c :: rest) = none ∧
      e = stuck (lineAt (chars ls)) c := by
  constructor
  · intro h
    obtain ⟨ls, rest, hls, hrest⟩ := exists_lexes text.toList
    cases rest with
    | nil => exact absurd (h.symm.trans (tokenize_of_lexes hls)) nofun
    | cons c rest =>
      exact ⟨ls, c, rest, hls, hrest,
        Except.error.inj (h.symm.trans (tokenize_of_stuck hls hrest))⟩
  · rintro ⟨ls, c, rest, hls, hrest, rfl⟩
    exact tokenize_of_stuck hls hrest

/-! ### Fillers -/

/-- Blanks, or one whole comment; a comment up to the end of a line comes with that end. -/
inductive Filler : List Char → Prop
  | blanks {w : List Char} (h : ∀ c ∈ w, isBlank c = true) : Filler w
  | block {body : List Char} (h : ¬ ['*', '/'] <:+: body) :
      Filler ('/' :: '*' :: body ++ ['*', '/'])
  | slashes {body : List Char} (h : '\n' ∉ body) : Filler ('/' :: '/' :: body ++ ['\n'])
  | hash {body : List Char} (h : '\n' ∉ body) : Filler ('#' :: body ++ ['\n'])

/-- A text that is nothing but lexemes with these tokens. -/
def Yields (text : List Char) (ts : List Token) : Prop :=
  ∃ ls, Lexes text ls [] ∧ ls.filterMap Lexeme.token = ts

theorem filterMap_token_cons :
    (l :: ls).filterMap Lexeme.token = l.token.toList ++ ls.filterMap Lexeme.token := by
  rw [List.filterMap_cons]
  cases l.token <;> rfl

theorem yields_lexeme (h : lexeme? (l.text ++ behind) = some l) (hbehind : Yields behind ts) :
    Yields (l.text ++ behind) (l.token.toList ++ ts) := by
  obtain ⟨ls, hls, rfl⟩ := hbehind
  exact ⟨l :: ls, .more h hls, filterMap_token_cons⟩

/-- A lexeme is the same before another text that begins with the same character. -/
theorem lexeme?_congr (h : lexeme? (l.text ++ behind) = some l)
    (hhead : behind'.head? = behind.head?) : lexeme? (l.text ++ behind') = some l := by
  obtain ⟨rest, grows, htext, hspells, hrest⟩ := leads_of_lexeme? h
  obtain rfl := List.append_cancel_left htext
  exact lexeme?_of_leads ⟨behind', grows, rfl, hspells, hhead ▸ hrest⟩

theorem Filler.head (h : Filler f) : ∀ c ∈ f.head?, isBlank c = true ∨ c = '/' ∨ c = '#' := by
  intro c hc
  cases h with
  | blanks h => exact .inl (h c (List.mem_of_mem_head? hc))
  | block h => exact .inr (.inl (Option.some.inj hc).symm)
  | slashes h => exact .inr (.inl (Option.some.inj hc).symm)
  | hash h => exact .inr (.inr (Option.some.inj hc).symm)

/-- No filler begins like a longer token. -/
theorem Spells.not_grows {t : Token} {grows : Char → Bool} (h : Spells (some t) w grows)
    (hc : isBlank c = true ∨ c = '/' ∨ c = '#') : grows c = false := by
  have hident : isIdentChar c = false := by
    refine Bool.eq_false_iff.mpr fun hident => ?_
    obtain ⟨hblank, hslash, hhash, -, -⟩ := isIdentChar_cases hident
    rcases hc with hc | hc | hc
    · exact Bool.false_ne_true (hblank.symm.trans hc)
    · exact hslash hc
    · exact hhash hc
  cases h with
  | quoted => rfl
  | arrow => rfl
  | ident => exact hident
  | number =>
    refine Bool.eq_false_iff.mpr fun hnumber => Bool.eq_false_iff.mp hident ?_
    rw [isNumberChar] at hnumber
    rw [isIdentChar, Char.isAlphanum]
    simp only [Bool.or_eq_true] at hnumber ⊢
    rcases hnumber with hdigit | hdot
    · exact .inl (.inl (.inl (.inr hdigit)))
    · exact .inl (.inr hdot)
  | punctuation => rfl

theorem lexeme?_blanks (hne : w ≠ []) (hw : ∀ c ∈ w, isBlank c = true)
    (hbehind : ∀ c ∈ behind.head?, isBlank c = false) :
    lexeme? (w ++ behind) = some ⟨none, w⟩ :=
  lexeme?_of_leads ⟨behind, isBlank, rfl, .blanks hne hw, hbehind⟩

/-- Blanks before a text are a lexeme, or a part of one. -/
theorem yields_blanks (hw : ∀ c ∈ w, isBlank c = true) (h : Yields text ts) :
    Yields (w ++ text) ts := by
  by_cases hne : w = []
  · rwa [hne]
  by_cases hhead : ∀ c ∈ text.head?, isBlank c = false
  · exact @yields_lexeme text ⟨none, w⟩ ts (lexeme?_blanks hne hw hhead) h
  · -- The text begins with a blank, so its first lexeme are blanks.
    obtain ⟨rest, htext, hrest⟩ := exists_run isBlank text
    have hblank : ∀ c ∈ text.takeWhile isBlank, isBlank c = true := fun c hc =>
      List.mem_takeWhile_imp hc
    generalize text.takeWhile isBlank = run at htext hblank
    have hrun : run ≠ [] := by
      rintro rfl
      exact hhead (htext ▸ hrest)
    have hall : ∀ c ∈ w ++ run, isBlank c = true := List.forall_mem_append.mpr ⟨hw, hblank⟩
    have hwhole := lexeme?_blanks (List.append_ne_nil_of_left_ne_nil hne run) hall hrest
    have hfirst := lexeme?_blanks hrun hblank hrest
    obtain ⟨ls, hls, rfl⟩ := h
    cases hls with
    | done => exact absurd (fun c hc => absurd hc (Option.not_mem_none c)) hhead
    | @more l ls behind _ hl hbehind =>
      rw [← htext, hl] at hfirst
      obtain rfl := Option.some.inj hfirst
      obtain rfl : behind = rest := List.append_cancel_left htext
      rw [← List.append_assoc]
      exact @yields_lexeme behind ⟨none, w ++ run⟩ _ hwhole ⟨ls, hbehind, rfl⟩

theorem yields_filler (hf : Filler f) (h : Yields text ts) : Yields (f ++ text) ts := by
  have hfeed : Yields (['\n'] ++ text) ts := yields_blanks (List.forall_mem_singleton.mpr rfl) h
  cases hf with
  | blanks hw => exact yields_blanks hw h
  | block hbody =>
    have hlexeme := lexeme?_of_leads (l := ⟨none, _⟩)
      ⟨text, _, rfl, .block hbody, fun _ _ => rfl⟩
    exact yields_lexeme hlexeme h
  | @slashes body hbody =>
    have hlexeme := lexeme?_of_leads (l := ⟨none, '/' :: '/' :: body⟩)
      ⟨['\n'] ++ text, _, rfl, .slashes hbody, fun c hc => Option.some.inj hc ▸ rfl⟩
    have hcomment := yields_lexeme hlexeme hfeed
    rwa [← List.append_assoc] at hcomment
  | @hash body hbody =>
    have hlexeme := lexeme?_of_leads (l := ⟨none, '#' :: body⟩)
      ⟨['\n'] ++ text, _, rfl, .hash hbody, fun c hc => Option.some.inj hc ▸ rfl⟩
    have hcomment := yields_lexeme hlexeme hfeed
    rwa [← List.append_assoc] at hcomment

/-- A token is the same before a filler. -/
theorem lexeme?_filler {t : Token} (h : lexeme? (l.text ++ behind) = some l)
    (ht : l.token = some t) (hf : Filler f) : lexeme? (l.text ++ (f ++ behind)) = some l := by
  cases f with
  | nil => exact h
  | cons c f =>
    obtain ⟨rest, grows, -, hspells, -⟩ := leads_of_lexeme? h
    refine lexeme?_of_leads ⟨c :: f ++ behind, grows, rfl, hspells, fun d hd => ?_⟩
    rw [ht] at hspells
    exact hspells.not_grows (hf.head d hd)

/-! ### Padded texts -/

/-- What a text is with a filler immediately before or behind one of its tokens. -/
inductive Padded (text f : List Char) : List Char → Prop
  | before {front back : List Lexeme} {l : Lexeme} (h : Lexes text (front ++ l :: back) [])
      (hl : l.token.isSome = true) : Padded text f (chars front ++ (f ++ chars (l :: back)))
  | behind {front back : List Lexeme} {l : Lexeme} (h : Lexes text (front ++ l :: back) [])
      (hl : l.token.isSome = true) : Padded text f (chars (front ++ [l]) ++ (f ++ chars back))

/-- A token does not begin with the end of a line. -/
theorem Spells.head_ne_feed {t : Token} {grows : Char → Bool} (h : Spells (some t) w grows) :
    ∀ c ∈ w.head?, c ≠ '\n' := by
  rintro c hc rfl
  cases h with
  | quoted => exact absurd (Option.some.inj hc) (by decide)
  | arrow => exact absurd (Option.some.inj hc) (by decide)
  | ident _ hname => exact absurd (hname '\n' (List.mem_of_mem_head? hc)) (by decide)
  | number => exact absurd (Option.some.inj hc) (by decide)
  | punctuation hmark =>
    rw [Option.some.inj hc] at hmark
    cases hmark

/-- A filler before a token does not change the lexeme before it, but for blanks that go on. -/
theorem yields_before {t : Token} (h : lexeme? (p.text ++ (l.text ++ behind)) = some p)
    (hl : lexeme? (l.text ++ behind) = some l) (ht : l.token = some t) (hf : Filler f)
    (hbehind : Yields (f ++ (l.text ++ behind)) ts) :
    Yields (p.text ++ (f ++ (l.text ++ behind))) (p.token.toList ++ ts) := by
  obtain ⟨t?, w⟩ := p
  cases t? with
  | some q => exact yields_lexeme (lexeme?_filler h rfl hf) hbehind
  | none =>
    have hfeed : ∀ c ∈ (l.text ++ behind).head?, c ≠ '\n' := by
      obtain ⟨rest, grows, -, hspells, -⟩ := leads_of_lexeme? hl
      rw [ht] at hspells
      exact head_append hspells.head_ne_feed (text_ne_nil_of_lexeme? hl)
    obtain ⟨c, tail, hhead⟩ : ∃ c tail, l.text ++ behind = c :: tail :=
      List.exists_cons_of_ne_nil
        (List.append_ne_nil_of_left_ne_nil (text_ne_nil_of_lexeme? hl) behind)
    obtain ⟨rest, grows, htext, hspells, hstop⟩ := leads_of_lexeme? h
    obtain rfl := List.append_cancel_left htext
    -- A comment up to the end of a line has that end behind it, and no token begins with it.
    have hline : ¬ ∀ d ∈ (l.text ++ behind).head?, (d != '\n') = false := by
      rw [hhead] at hfeed ⊢
      exact fun hend => hfeed c rfl (bne_eq_false_iff_eq.mp (hend c rfl))
    dsimp only at hspells
    cases hspells with
    | blanks _ hw => exact yields_blanks hw hbehind
    | slashes => exact absurd hstop hline
    | hash => exact absurd hstop hline
    | block hbody =>
      exact yields_lexeme (lexeme?_of_leads ⟨_, _, rfl, .block hbody, fun _ _ => rfl⟩) hbehind

/-- Only the first lexeme tells the first character of a text. -/
theorem head_chars (h : Lexes text (l :: ls) rest) (back : List Lexeme) (behind : List Char) :
    (chars (l :: back) ++ behind).head? = text.head? := by
  cases h with
  | more h _ =>
    obtain ⟨c, rest, hl⟩ := List.exists_cons_of_ne_nil (text_ne_nil_of_lexeme? h)
    rw [chars_cons, hl]
    rfl

theorem yields_padded_before (hf : Filler f) (h : Lexes text (front ++ l :: back) [])
    (hl : l.token.isSome = true) :
    Yields (chars front ++ (f ++ chars (l :: back)))
      ((front ++ l :: back).filterMap Lexeme.token) := by
  induction front generalizing text with
  | nil =>
    have htext := h.text_eq
    rw [List.append_nil, List.nil_append] at htext
    rw [htext] at h
    rw [chars_nil, List.nil_append]
    exact yields_filler hf ⟨l :: back, h, rfl⟩
  | cons p front ih =>
    cases h with
    | @more _ _ behind _ hp hbehind =>
      have hrest := ih hbehind
      rw [chars_cons, List.append_assoc, List.cons_append, filterMap_token_cons]
      cases front with
      | cons q front =>
        exact yields_lexeme (lexeme?_congr hp (head_chars hbehind front _)) hrest
      | nil =>
        -- The filler stands where the token was, right behind this lexeme.
        obtain ⟨t, ht⟩ := Option.isSome_iff_exists.mp hl
        have hbehind : Lexes behind (l :: back) [] := hbehind
        have htext := hbehind.text_eq
        rw [List.append_nil, chars_cons] at htext
        cases hbehind with
        | more hfirst _ =>
          rw [htext] at hp hfirst
          exact yields_before hp hfirst ht hf hrest

theorem yields_padded_behind (hf : Filler f) (h : Lexes text (front ++ l :: back) [])
    (hl : l.token.isSome = true) :
    Yields (chars (front ++ [l]) ++ (f ++ chars back))
      ((front ++ l :: back).filterMap Lexeme.token) := by
  induction front generalizing text with
  | nil =>
    obtain ⟨t, ht⟩ := Option.isSome_iff_exists.mp hl
    cases h with
    | @more _ _ behind _ hfirst hbehind =>
      have htext := hbehind.text_eq
      rw [List.append_nil] at htext
      rw [htext] at hfirst hbehind
      rw [List.nil_append, List.nil_append, chars_cons, chars_nil, List.append_nil,
        filterMap_token_cons]
      exact yields_lexeme (lexeme?_filler hfirst ht hf) (yields_filler hf ⟨back, hbehind, rfl⟩)
  | cons p front ih =>
    cases h with
    | @more _ _ behind _ hp hbehind =>
      rw [List.cons_append, chars_cons, List.append_assoc, List.cons_append, filterMap_token_cons]
      refine yields_lexeme (lexeme?_congr hp ?_) (ih hbehind)
      cases front with
      | nil => exact head_chars hbehind [] _
      | cons q front => exact head_chars hbehind (front ++ [l]) _

/-- A filler before or behind a token leaves the tokens as they are. -/
theorem Padded.yields {text' : List Char} (h : Padded text f text') (hf : Filler f) :
    ∃ ts, Yields text ts ∧ Yields text' ts := by
  cases h with
  | before h hl => exact ⟨_, ⟨_, h, rfl⟩, yields_padded_before hf h hl⟩
  | behind h hl => exact ⟨_, ⟨_, h, rfl⟩, yields_padded_behind hf h hl⟩

/-! ### Lines and layout -/

theorem token_placed (before : List Char) (ls : List Lexeme) :
    ((placed before ls).map locate).map Located.token = ls.filterMap Lexeme.token := by
  induction ls generalizing before with
  | nil => rfl
  | cons l ls ih =>
    rw [placed, List.map_append, List.map_append, ih, filterMap_token_cons, List.map_map,
      List.map_map]
    cases l.token <;> rfl

theorem tokenize_of_yields {text : String} (h : Yields text.toList ts) :
    ∃ tokens, tokenize text = .ok tokens ∧ tokens.map Located.token = ts := by
  obtain ⟨ls, hls, rfl⟩ := h
  exact ⟨_, tokenize_of_lexes hls, token_placed [] ls⟩

theorem parse_congr {text text' : String} {tokens tokens' : List Located}
    (h : tokenize text = .ok tokens) (h' : tokenize text' = .ok tokens')
    (hsame : tokens'.map Located.token = tokens.map Located.token) :
    (Graph.parse text').mapError ReadError.eraseLine =
      (Graph.parse text).mapError ReadError.eraseLine := by
  have htokens : SameTokens tokens' tokens := by
    rwa [← List.forall₂_eq_eq_eq, List.forall₂_map_left_iff, List.forall₂_map_right_iff] at hsame
  rw [Graph.parse, Graph.parse, h, h']
  exact (ofTokens_alike htokens).mapError_eq

/-- A text has the tokens of the lexemes that it is, and each is on the line behind the text before
it. If a text is not only lexemes, the error tells the character and the line of the place where no
match of the pattern starts. Blanks, or a comment, immediately before or behind a token change
neither the tokens nor the graph that is read, and an error only in its line. -/
theorem tokenize_layout (text : String) :
    (∀ tokens, tokenize text = .ok tokens ↔
      ∃ ls, Lexes text.toList ls [] ∧ tokens = (placed [] ls).map locate) ∧
    (∀ e, tokenize text = .error e ↔
      ∃ ls c rest, Lexes text.toList ls (c :: rest) ∧
        tokenPattern.first? ⟨[], c :: rest⟩ = none ∧ e = stuck (lineAt (chars ls)) c) ∧
    (∀ tokens f text', tokenize text = .ok tokens → Filler f →
      Padded text.toList f text'.toList →
      (∃ tokens', tokenize text' = .ok tokens' ∧
        tokens'.map Located.token = tokens.map Located.token) ∧
      (Graph.parse text').mapError ReadError.eraseLine =
        (Graph.parse text).mapError ReadError.eraseLine) := by
  refine ⟨fun tokens => tokenize_eq_ok_iff, fun e => ?_, fun tokens f text' h hf hpadded => ?_⟩
  · have hstuck : ∀ rest, tokenPattern.first? ⟨[], rest⟩ = none ↔ lexeme? rest = none := by
      intro rest
      rw [matches_token, Option.map_eq_none_iff]
    simp only [tokenize_eq_error_iff, hstuck]
  · obtain ⟨ts, hts, hts'⟩ := hpadded.yields hf
    obtain ⟨tokens₁, h₁, hmap⟩ := tokenize_of_yields hts
    obtain ⟨tokens', h', hmap'⟩ := tokenize_of_yields hts'
    obtain rfl := Except.ok.inj (h.symm.trans h₁)
    have hsame := hmap'.trans hmap.symm
    exact ⟨⟨tokens', h', hsame⟩, parse_congr h h' hsame⟩

/-- What is before the arrow of a short text on two lines. -/
def arrowFront : List Lexeme := [⟨some (.ident "a"), ['a']⟩, ⟨none, ['\n']⟩]

/-- The arrow, and what is behind it. -/
def arrowRest : List Lexeme := [⟨some .arrow, ['-', '>']⟩, ⟨some (.ident "b"), ['b']⟩]

theorem tokenize_layout_arrow :
    let tokens : List Located := [⟨.ident "a", 1⟩, ⟨.arrow, 2⟩, ⟨.ident "b", 2⟩]
    let padded := "a\n/* -\n> */->b"
    tokenize "a\n->b" = .ok tokens ∧
    (∃ tokens', tokenize padded = .ok tokens' ∧
      tokens'.map Located.token = tokens.map Located.token) ∧
    (Graph.parse padded).mapError ReadError.eraseLine =
      (Graph.parse "a\n->b").mapError ReadError.eraseLine ∧
    tokenize "a\n\"b" = .error (.unterminatedString 2) := by
  intro tokens padded
  obtain ⟨htokens, -, hpadding⟩ := tokenize_layout "a\n->b"
  obtain ⟨-, herror, -⟩ := tokenize_layout "a\n\"b"
  have hlexes : Lexes "a\n->b".toList (arrowFront ++ arrowRest) [] :=
    .more (l := ⟨some (.ident "a"), ['a']⟩) rfl <| .more (l := ⟨none, ['\n']⟩) rfl <|
      .more (l := ⟨some .arrow, ['-', '>']⟩) rfl <|
      .more (l := ⟨some (.ident "b"), ['b']⟩) rfl .done
  have hok : tokenize "a\n->b" = .ok tokens := (htokens tokens).mpr ⟨_, hlexes, rfl⟩
  let f := '/' :: '*' :: " -\n> ".toList ++ ['*', '/']
  have htext : chars arrowFront ++ (f ++ chars arrowRest) = padded.toList := by decide
  have hpadded : Padded "a\n->b".toList f padded.toList := htext ▸ .before hlexes rfl
  obtain ⟨hsame, hparse⟩ := hpadding tokens f padded hok (.block (by decide)) hpadded
  refine ⟨hok, hsame, hparse, (herror _).mpr ⟨arrowFront, '"', ['b'], ?_, rfl, rfl⟩⟩
  exact .more (l := ⟨some (.ident "a"), ['a']⟩) rfl (.more (l := ⟨none, ['\n']⟩) rfl .done)

end KernelIntervals.Dot
