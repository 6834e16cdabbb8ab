/-
Search patterns.

* `Cursor` — a place in a text, with what stands before it and behind it,
* `Pattern` — characters, edges of words, sequences, choices and repetitions,
* `Pattern.stops` — the cursors where a match can stop, what is preferred first,
* `Pattern.first?` — where the preferred match stops,
* `Pattern.findAll` — the matches in a text, found from left to right,
* `Pattern.head?_stops_most` — a repetition of characters reads the whole run of them,
* `Pattern.stops_oneOrMore_edge` — characters up to the edge of a word are the whole word.

Design notes: a match is the first one that a search with backtracking comes to, so the stops of a
pattern are a list, and a sequence tries every stop of its first part. A repetition makes at most
as many rounds as there are characters left, since each round of those that are written here reads
one at least.
-/
import KernelIntervals.Text.Word

namespace KernelIntervals.Text

/-! ### Matches -/

/-- A place in a text: the characters before it, the nearest one first, and those behind it. -/
structure Cursor where
  before : List Char
  after : List Char

/-- Whether a word begins or ends at a cursor. -/
def Cursor.isEdge (s : Cursor) : Bool :=
  s.before.head?.any isWordChar != s.after.head?.any isWordChar

inductive Pattern
  /-- The edge of a word, which reads nothing. -/
  | edge
  /-- One character of a kind. -/
  | one (p : Char → Bool)
  | seq (first second : Pattern)
  /-- The first pattern or, if that leads to no match, the second. -/
  | either (first second : Pattern)
  /-- Any number of matches one behind the other, as many as possible. -/
  | most (body : Pattern)
  /-- Any number of matches one behind the other, as few as possible. -/
  | least (body : Pattern)

/-- Where up to a number of steps lead to, those behind more steps first. -/
def roundsMost (step : Cursor → List Cursor) : Nat → Cursor → List Cursor
  | 0, s => [s]
  | n + 1, s => (step s).flatMap (roundsMost step n) ++ [s]

/-- Where up to a number of steps lead to, those behind fewer steps first. -/
def roundsLeast (step : Cursor → List Cursor) : Nat → Cursor → List Cursor
  | 0, s => [s]
  | n + 1, s => s :: (step s).flatMap (roundsLeast step n)

theorem roundsMost_of_nil {step : Cursor → List Cursor} {s : Cursor} {n : Nat} (h : step s = []) :
    roundsMost step n s = [s] := by
  cases n with
  | zero => rfl
  | succ n => rw [roundsMost, h, List.flatMap_nil, List.nil_append]

/-- Where there is one step, and no end yet, the end is behind the step. -/
theorem head?_roundsMost_step {step stops : Cursor → List Cursor} {s s' : Cursor} {n : Nat}
    (hstep : step s = [s']) (hend : stops s = []) :
    ((roundsMost step (n + 1) s).flatMap stops).head? =
      ((roundsMost step n s').flatMap stops).head? := by
  rw [roundsMost, hstep, List.flatMap_singleton, List.flatMap_append, List.flatMap_singleton, hend,
    List.append_nil]

namespace Pattern

/-- Where a match that starts at a cursor can stop, what is preferred first. -/
def stops : Pattern → Cursor → List Cursor
  | edge => fun s => if s.isEdge then [s] else []
  | one p => fun s => match s.after with
    | c :: rest => if p c then [⟨c :: s.before, rest⟩] else []
    | [] => []
  | seq first second => fun s => (first.stops s).flatMap second.stops
  | either first second => fun s => first.stops s ++ second.stops s
  | most body => fun s => roundsMost body.stops s.after.length s
  | least body => fun s => roundsLeast body.stops s.after.length s

/-- One match or more, as many as possible. -/
def oneOrMore (body : Pattern) : Pattern := seq body (most body)

/-- One given character. -/
def char (c : Char) : Pattern := one (· == c)

/-- Where the preferred match at a cursor stops. -/
def first? (p : Pattern) (s : Cursor) : Option Cursor := (p.stops s).head?

/-- The first and the last end of each match behind some characters, found from left to right.
Behind a match, or behind a character where there is none, the search goes on. -/
def findFrom (p : Pattern) (before : List Char) : List Char → List (Nat × Nat)
  | [] => []
  | c :: rest =>
    match p.first? ⟨before, c :: rest⟩ with
    | some stop =>
      if stop.after.length < rest.length + 1 then
        (before.length, stop.before.length) :: p.findFrom stop.before stop.after
      else p.findFrom (c :: before) rest
    | none => p.findFrom (c :: before) rest
termination_by after => after.length

/-- The matches in a text. -/
def findAll (p : Pattern) (text : List Char) : List (Nat × Nat) := p.findFrom [] text

/-! ### Runs of characters -/

variable {p : Char → Bool} {before rest text : List Char} {c d : Char} {first second : Pattern}

theorem stops_one_cons :
    (one p).stops ⟨before, c :: rest⟩ = if p c then [⟨c :: before, rest⟩] else [] := rfl

theorem first?_one_cons : (one p).first? ⟨before, c :: rest⟩ =
    if p c then some ⟨c :: before, rest⟩ else none := by
  rw [first?, stops_one_cons]
  split <;> rfl

/-- A given character, and what has to stand behind it. -/
theorem first?_char_cons : (seq (char d) second).first? ⟨before, c :: rest⟩ =
    if c = d then second.first? ⟨c :: before, rest⟩ else none := by
  show (((char d).stops ⟨before, c :: rest⟩).flatMap second.stops).head? = _
  rw [char, stops_one_cons]
  by_cases hc : c = d
  · rw [if_pos (beq_iff_eq.mpr hc), if_pos hc, List.flatMap_singleton, first?]
  · rw [if_neg fun heq => hc (beq_iff_eq.mp heq), if_neg hc]
    rfl

/-- Few characters of a kind are tried before more of them. -/
theorem first?_least_cons : (seq (least (one p)) second).first? ⟨before, c :: rest⟩ =
    (second.first? ⟨before, c :: rest⟩).or
      (if p c then (seq (least (one p)) second).first? ⟨c :: before, rest⟩ else none) := by
  show ((⟨before, c :: rest⟩ :: ((one p).stops ⟨before, c :: rest⟩).flatMap
    (roundsLeast (one p).stops rest.length)).flatMap second.stops).head? = _
  rw [List.flatMap_cons, List.head?_append, stops_one_cons]
  split
  · rw [List.flatMap_singleton]
    rfl
  · rfl

theorem first?_either {s : Cursor} :
    (either first second).first? s = (first.first? s).or (second.first? s) :=
  List.head?_append

theorem stops_most_nil : (most (one p)).stops ⟨before, []⟩ = [⟨before, []⟩] := rfl

theorem stops_most_cons_of_pos (hc : p c = true) : (most (one p)).stops ⟨before, c :: rest⟩ =
    (most (one p)).stops ⟨c :: before, rest⟩ ++ [⟨before, c :: rest⟩] := by
  have hstep : (one p).stops ⟨before, c :: rest⟩ = [⟨c :: before, rest⟩] := if_pos hc
  show ((one p).stops ⟨before, c :: rest⟩).flatMap _ ++ _ = _
  rw [hstep, List.flatMap_singleton]
  rfl

theorem stops_most_cons_of_neg (hc : p c = false) :
    (most (one p)).stops ⟨before, c :: rest⟩ = [⟨before, c :: rest⟩] := by
  have hstep : (one p).stops ⟨before, c :: rest⟩ = [] := if_neg (Bool.eq_false_iff.mp hc)
  show ((one p).stops ⟨before, c :: rest⟩).flatMap _ ++ _ = _
  rw [hstep]
  rfl

/-- As many characters of a kind as possible are a run of them. -/
theorem head?_stops_most : ((most (one p)).stops ⟨before, text⟩).head? =
    some ⟨(text.takeWhile p).reverse ++ before, text.dropWhile p⟩ := by
  induction text generalizing before with
  | nil => rfl
  | cons c text ih =>
    cases hc : p c with
    | false =>
      rw [stops_most_cons_of_neg hc, List.takeWhile_cons_of_neg (Bool.eq_false_iff.mp hc),
        List.dropWhile_cons_of_neg (Bool.eq_false_iff.mp hc)]
      rfl
    | true =>
      rw [stops_most_cons_of_pos hc, List.head?_append, ih, List.takeWhile_cons_of_pos hc,
        List.dropWhile_cons_of_pos hc, List.reverse_cons, List.append_assoc]
      rfl

/-- One character of a kind or more are a run of them. -/
theorem first?_oneOrMore : (oneOrMore (one p)).first? ⟨before, text⟩ =
    if (text.takeWhile p).isEmpty then none
    else some ⟨(text.takeWhile p).reverse ++ before, text.dropWhile p⟩ := by
  cases text with
  | nil => rfl
  | cons c text =>
    show (((one p).stops ⟨before, c :: text⟩).flatMap (most (one p)).stops).head? = _
    rw [stops_one_cons]
    cases hc : p c with
    | false =>
      rw [List.takeWhile_cons_of_neg (Bool.eq_false_iff.mp hc)]
      rfl
    | true =>
      rw [if_pos rfl, List.flatMap_singleton, head?_stops_most, List.takeWhile_cons_of_pos hc,
        List.dropWhile_cons_of_pos hc, List.reverse_cons, List.append_assoc]
      rfl

/-! ### Words -/

theorem stops_edge_of_word (h : before.head?.any isWordChar = true) :
    edge.stops ⟨before, text⟩ = if text.head?.any isWordChar then [] else [⟨before, text⟩] := by
  show (if (before.head?.any isWordChar != text.head?.any isWordChar) = true then _ else _) = _
  rw [h]
  cases text.head?.any isWordChar <;> rfl

/-- Characters of a kind that are followed by the edge of a word, which they are part of, are what
is left of the word. -/
theorem stops_most_edge (hp : ∀ c, p c = true → isWordChar c = true)
    (hbefore : before.head?.any isWordChar = true) :
    (seq (most (one p)) edge).stops ⟨before, text⟩ =
      if (text.takeWhile isWordChar).all p then
        [⟨(text.takeWhile isWordChar).reverse ++ before, text.dropWhile isWordChar⟩]
      else [] := by
  show ((most (one p)).stops ⟨before, text⟩).flatMap edge.stops = _
  induction text generalizing before with
  | nil =>
    rw [stops_most_nil, List.flatMap_singleton, stops_edge_of_word hbefore]
    rfl
  | cons c text ih =>
    cases hc : p c with
    | true =>
      have hword : isWordChar c = true := hp c hc
      -- Within the word there is no edge, so that fewer characters are no match.
      have hinside : edge.stops ⟨before, c :: text⟩ = [] := by
        rw [stops_edge_of_word hbefore]
        exact if_pos hword
      rw [stops_most_cons_of_pos hc, List.flatMap_append, List.flatMap_singleton, hinside,
        List.append_nil, @ih (c :: before) hword, List.takeWhile_cons_of_pos hword,
        List.dropWhile_cons_of_pos hword, List.all_cons, hc, Bool.true_and, List.reverse_cons,
        List.append_assoc, List.singleton_append]
    | false =>
      rw [stops_most_cons_of_neg hc, List.flatMap_singleton, stops_edge_of_word hbefore]
      cases hword : isWordChar c with
      | true =>
        rw [List.takeWhile_cons_of_pos hword, List.all_cons, hc, Bool.false_and]
        exact if_pos hword
      | false =>
        rw [List.takeWhile_cons_of_neg (Bool.eq_false_iff.mp hword),
          List.dropWhile_cons_of_neg (Bool.eq_false_iff.mp hword)]
        exact if_neg (Bool.eq_false_iff.mp hword)

theorem stops_oneOrMore_edge (hp : ∀ c, p c = true → isWordChar c = true) :
    (seq (oneOrMore (one p)) edge).stops ⟨before, text⟩ =
      if !(text.takeWhile isWordChar).isEmpty && (text.takeWhile isWordChar).all p then
        [⟨(text.takeWhile isWordChar).reverse ++ before, text.dropWhile isWordChar⟩]
      else [] := by
  cases text with
  | nil => rfl
  | cons c text =>
    show (((one p).stops ⟨before, c :: text⟩).flatMap (most (one p)).stops).flatMap edge.stops = _
    rw [stops_one_cons]
    cases hc : p c with
    | true =>
      have hword : isWordChar c = true := hp c hc
      have hmost : (seq (most (one p)) edge).stops ⟨c :: before, text⟩ = _ :=
        stops_most_edge hp hword
      rw [if_pos rfl, List.flatMap_singleton]
      refine hmost.trans ?_
      rw [List.takeWhile_cons_of_pos hword, List.dropWhile_cons_of_pos hword, List.all_cons, hc,
        Bool.true_and, List.isEmpty_cons, Bool.not_false, Bool.true_and, List.reverse_cons,
        List.append_assoc, List.singleton_append]
    | false =>
      cases hword : isWordChar c with
      | true =>
        rw [List.takeWhile_cons_of_pos hword, List.all_cons, hc, Bool.false_and, Bool.and_false]
        rfl
      | false =>
        rw [List.takeWhile_cons_of_neg (Bool.eq_false_iff.mp hword)]
        rfl

end Pattern

end KernelIntervals.Text
