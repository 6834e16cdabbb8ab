/-
Registers in running text, as a search finds them.

* `registerPattern` — `R` and digits between two edges of words,
* `IsRun`, `IsMention` — a maximal run of word characters, and one that is spelled like a register,
* `Reads` — what a word that is spelled like a register is read as,
* `findFrom_run` — a search comes to the end of a run, and finds nothing else in it,
* `scan_mentions` — the search, the maximal runs and `Reg.scan` agree.

Design notes: a search looks at every cursor, the scan only at whole words. They meet at the cursors
that are not inside a word, so both are followed from one such cursor to the next, by the recursion
of `words`. Inside a word the search finds no first edge.
-/
import Mathlib.Data.List.Forall2
import Mathlib.Data.List.TakeWhile
import Mathlib.Data.Nat.Digits.Defs
import KernelIntervals.Proofs.Pattern
import KernelIntervals.Reg.Scan

namespace KernelIntervals

open Text

/-- `R` and one or more digits, between two edges of words. -/
def registerPattern : Pattern :=
  .seq .edge (.seq (.char 'R') (.seq (.oneOrMore (.one Char.isDigit)) .edge))

/-- A maximal run of word characters of a text, from one place up to another. -/
structure IsRun (text : List Char) (start stop : Nat) : Prop where
  nonempty : start < stop
  word : ∀ k, start ≤ k → k < stop → text[k]?.any isWordChar = true
  left : ∀ k, k + 1 = start → text[k]?.any isWordChar = false
  right : text[stop]?.any isWordChar = false

/-- A maximal run of word characters that is `R` with one or more digits behind it. -/
structure IsMention (text : List Char) (start stop : Nat) : Prop where
  run : IsRun text start stop
  spelling : ∃ digits, text.extract start stop = 'R' :: digits ∧ digits ≠ [] ∧
    ∀ d ∈ digits, d.isDigit = true

/-- The number that some digits write, in base ten. -/
def decimal (digits : List Char) : Nat :=
  Nat.ofDigits 10 (digits.reverse.map fun d => d.toNat - '0'.toNat)

/-- What a word that is spelled like a register is read as: the register of its number, if that has
32 bits, and otherwise an error that shows the word. -/
inductive Reads (word : List Char) : Except RegError Reg → Prop
  | register {digits : List Char} {r : Reg} (hword : word = 'R' :: digits)
      (hnum : r.num = decimal digits) : Reads word (.ok r)
  | tooLarge {digits : List Char} (hword : word = 'R' :: digits)
      (hnum : 2 ^ 32 ≤ decimal digits) : Reads word (.error ⟨String.ofList word⟩)

variable {text before after rest word : List Char} {c : Char} {start stop i j : Nat}

/-! ### Spelling -/

theorem isSpelling_iff : Reg.isSpelling word = true ↔
    ∃ digits, word = 'R' :: digits ∧ digits ≠ [] ∧ ∀ d ∈ digits, d.isDigit = true := by
  unfold Reg.isSpelling
  split
  next digits =>
    rw [Bool.and_eq_true, List.all_eq_true]
    constructor
    · rintro ⟨hne, hdigits⟩
      exact ⟨digits, rfl, by simpa using hne, hdigits⟩
    · rintro ⟨_, heq, hne, hdigits⟩
      obtain rfl := (List.cons.inj heq).2
      exact ⟨by simpa using hne, hdigits⟩
  next hR => exact ⟨fun h => absurd h Bool.false_ne_true, fun ⟨_, heq, _⟩ => absurd heq (hR _)⟩

theorem isWordChar_of_isDigit (h : c.isDigit = true) : isWordChar c = true := by
  refine isWordChar_of_isAlphanum ?_
  rw [Char.isAlphanum, h, Bool.or_true]

/-- Digits are read from the left as their number in base ten. -/
theorem ofDigitChars_eq (digits : List Char) (n : Nat) :
    Nat.ofDigitChars 10 digits n = n * 10 ^ digits.length + decimal digits := by
  induction digits generalizing n with
  | nil => simp [decimal]
  | cons d digits ih =>
    have hdecimal : decimal (d :: digits) =
        decimal digits + 10 ^ digits.length * (d.toNat - '0'.toNat) := by
      rw [decimal, List.reverse_cons, List.map_append, Nat.ofDigits_append, List.length_map,
        List.length_reverse, List.map_singleton, Nat.ofDigits_singleton, decimal]
    rw [Nat.ofDigitChars_cons, ih, hdecimal, List.length_cons, pow_succ]
    ring

/-- A word that is spelled like a register is read as its number says. -/
theorem reads_parse (h : Reg.isSpelling word = true) :
    Reads word (Reg.parse (String.ofList word)) := by
  obtain ⟨digits, rfl, -, -⟩ := isSpelling_iff.mp h
  have hnum : Nat.ofDigitChars 10 digits 0 = decimal digits := by
    rw [ofDigitChars_eq, Nat.zero_mul, Nat.zero_add]
  rw [Reg.parse, String.toList_ofList, Reg.ofChars?, if_pos h]
  dsimp only [List.tail_cons]
  split
  next r hr =>
    split at hr
    · obtain rfl := Option.some.inj hr
      exact .register rfl hnum
    · cases hr
  next hnone =>
    split at hnone
    · cases hnone
    next hlarge => exact .tooLarge rfl (hnum ▸ Nat.le_of_not_lt hlarge)

/-! ### Matches -/

theorem isSpelling_cons (hc : c ≠ 'R') : Reg.isSpelling (c :: word) = false := by
  unfold Reg.isSpelling
  split
  next heq => exact absurd (List.cons.inj heq).1 hc
  next => rfl

/-- Behind the edge of a word only `R` is read, and then digits up to an edge. -/
theorem stops_registerPattern (c : Char) (before rest : List Char) :
    registerPattern.stops ⟨before, c :: rest⟩ =
      if (before.head?.any isWordChar != isWordChar c) && c == 'R' then
        (Pattern.seq (.oneOrMore (.one Char.isDigit)) .edge).stops ⟨c :: before, rest⟩
      else [] := by
  have hedge : Pattern.edge.stops ⟨before, c :: rest⟩ =
      if before.head?.any isWordChar != isWordChar c then [⟨before, c :: rest⟩] else [] := rfl
  have hR : (Pattern.char 'R').stops ⟨before, c :: rest⟩ =
      if c == 'R' then [⟨c :: before, rest⟩] else [] := rfl
  show (Pattern.edge.stops ⟨before, c :: rest⟩).flatMap
    (fun s => ((Pattern.char 'R').stops s).flatMap _) = _
  rw [hedge]
  cases before.head?.any isWordChar != isWordChar c with
  | false => rfl
  | true =>
    rw [if_pos rfl, List.flatMap_singleton, hR]
    cases c == 'R' with
    | false => rfl
    | true => exact List.flatMap_singleton _ _

/-- No register is found at a cursor inside a word. -/
theorem first?_inside (h : before.head?.any isWordChar = true) :
    registerPattern.first? ⟨before, c :: rest⟩ = none := by
  have hnot : ((before.head?.any isWordChar != isWordChar c) && c == 'R') = false := by
    rw [h]
    by_cases hc : c = 'R'
    · rw [hc]
      rfl
    · rw [beq_eq_false_iff_ne.mpr hc, Bool.and_false]
  rw [Pattern.first?, stops_registerPattern, hnot]
  rfl

/-- A register is found at the start of a word exactly if the word is spelled like one, and then the
match is the word. -/
theorem first?_outside (h : before.head?.any isWordChar = false) :
    registerPattern.first? ⟨before, c :: rest⟩ =
      if Reg.isSpelling ((c :: rest).takeWhile isWordChar) then
        some ⟨((c :: rest).takeWhile isWordChar).reverse ++ before,
          (c :: rest).dropWhile isWordChar⟩
      else none := by
  rw [Pattern.first?, stops_registerPattern, h]
  by_cases hc : c = 'R'
  · subst hc
    have hspelling : Reg.isSpelling ('R' :: rest.takeWhile isWordChar) =
        (!(rest.takeWhile isWordChar).isEmpty &&
          (rest.takeWhile isWordChar).all Char.isDigit) := rfl
    rw [List.takeWhile_cons_of_pos (by decide), List.dropWhile_cons_of_pos (by decide),
      if_pos (by decide), Pattern.stops_oneOrMore_edge (fun _ => isWordChar_of_isDigit), hspelling,
      List.reverse_cons, List.append_assoc]
    split <;> rfl
  · rw [beq_eq_false_iff_ne.mpr hc, Bool.and_false, if_neg Bool.false_ne_true]
    cases hword : isWordChar c with
    | false =>
      rw [List.takeWhile_cons_of_neg (Bool.eq_false_iff.mp hword)]
      rfl
    | true =>
      rw [List.takeWhile_cons_of_pos hword, isSpelling_cons hc]
      rfl

/-! ### From word to word -/

theorem findFrom_of_none (h : registerPattern.first? ⟨before, c :: rest⟩ = none) :
    registerPattern.findFrom before (c :: rest) = registerPattern.findFrom (c :: before) rest := by
  rw [Pattern.findFrom, h]

/-- Nothing is found before a word ends that the search is inside of. -/
theorem findFrom_inside (hbefore : before.head?.any isWordChar = true)
    (hword : ∀ c ∈ word, isWordChar c = true) : registerPattern.findFrom before (word ++ rest) =
      registerPattern.findFrom (word.reverse ++ before) rest := by
  induction word generalizing before with
  | nil => rfl
  | cons c word ih =>
    obtain ⟨hc, hword⟩ := List.forall_mem_cons.mp hword
    rw [List.cons_append, findFrom_of_none (first?_inside hbefore), @ih (c :: before) hc hword,
      List.reverse_cons, List.append_assoc]
    rfl

theorem findFrom_blank (hc : isWordChar c = false) : registerPattern.findFrom before (c :: rest) =
    registerPattern.findFrom (c :: before) rest := by
  refine findFrom_of_none ?_
  cases hbefore : before.head?.any isWordChar with
  | true => exact first?_inside hbefore
  | false =>
    rw [first?_outside hbefore, List.takeWhile_cons_of_neg (Bool.eq_false_iff.mp hc)]
    rfl

/-- A search comes to the end of a word, and has found the word if it is spelled like a register. -/
theorem findFrom_run (hbefore : before.head?.any isWordChar = false) (hc : isWordChar c = true)
    (hword : (c :: rest).takeWhile isWordChar = word) :
    registerPattern.findFrom before (c :: rest) =
      (if Reg.isSpelling word then [(before.length, before.length + word.length)] else []) ++
        registerPattern.findFrom (word.reverse ++ before) (rest.dropWhile isWordChar) := by
  have hfirst : registerPattern.first? ⟨before, c :: rest⟩ = _ := first?_outside hbefore
  rw [hword, List.dropWhile_cons_of_pos hc] at hfirst
  cases hspelling : Reg.isSpelling word with
  | true =>
    have hshorter : (rest.dropWhile isWordChar).length < rest.length + 1 :=
      Nat.lt_succ_of_le (List.dropWhile_suffix isWordChar).length_le
    rw [hspelling, if_pos rfl] at hfirst
    rw [Pattern.findFrom, hfirst]
    dsimp only
    rw [if_pos hshorter, if_pos rfl, List.length_append, List.length_reverse, Nat.add_comm,
      List.singleton_append]
  | false =>
    rw [hspelling, if_neg Bool.false_ne_true] at hfirst
    rw [List.takeWhile_cons_of_pos hc] at hword
    have hinside : registerPattern.findFrom (c :: before)
        (rest.takeWhile isWordChar ++ rest.dropWhile isWordChar) = _ :=
      findFrom_inside hc fun _ => List.mem_takeWhile_imp
    rw [List.takeWhile_append_dropWhile] at hinside
    rw [findFrom_of_none hfirst, if_neg Bool.false_ne_true, List.nil_append, ← hword,
      List.reverse_cons, List.append_assoc]
    exact hinside

/-! ### Maximal runs -/

/-- Of two maximal runs that begin behind a place, where the first begins, the other is the same or
begins behind it. -/
theorem IsRun.eq_or_le (h : IsRun text start stop) (h' : IsRun text i j) (hle : start ≤ i) :
    i = start ∧ j = stop ∨ stop ≤ i := by
  rcases Nat.lt_or_ge i stop with hi | hi
  · left
    have hstart : i = start := by
      -- The character before the second run would be part of the first.
      by_contra hne
      have hword := h.word (i - 1) (by omega) (by omega)
      rw [h'.left (i - 1) (by omega)] at hword
      exact Bool.false_ne_true hword
    refine ⟨hstart, ?_⟩
    subst hstart
    rcases Nat.lt_trichotomy j stop with hj | hj | hj
    · have hword := h.word j (Nat.le_of_lt h'.nonempty) hj
      rw [h'.right] at hword
      exact absurd hword Bool.false_ne_true
    · exact hj
    · have hword := h'.word stop (Nat.le_of_lt h.nonempty) hj
      rw [h.right] at hword
      exact absurd hword Bool.false_ne_true
  · exact .inr hi

/-- A run of word characters is maximal if there is none before it and none behind it. -/
theorem isRun_append (hne : word ≠ []) (hword : ∀ c ∈ word, isWordChar c = true)
    (hbefore : before.head?.any isWordChar = false) (hrest : rest.head?.any isWordChar = false) :
    IsRun (before.reverse ++ (word ++ rest)) before.length (before.length + word.length) := by
  have hbehind : ∀ k, (before.reverse ++ (word ++ rest))[before.length + k]? =
      (word ++ rest)[k]? := by
    intro k
    rw [List.getElem?_append_right (by simp)]
    simp
  refine ⟨?_, fun k hk hk' => ?_, fun k hk => ?_, ?_⟩
  · have := List.length_pos_iff.mpr hne
    omega
  · obtain ⟨k, rfl⟩ := Nat.exists_eq_add_of_le hk
    have hlt : k < word.length := by omega
    rw [hbehind, List.getElem?_append_left hlt, List.getElem?_eq_getElem hlt]
    exact hword _ (List.getElem_mem hlt)
  · cases before with
    | nil => cases hk
    | cons c before =>
      rw [List.length_cons, Nat.add_right_cancel_iff] at hk
      rw [List.reverse_cons, List.append_assoc, hk, List.getElem?_append_right (by simp)]
      simpa using hbefore
  · rw [hbehind, List.getElem?_append_right (Nat.le_refl _), Nat.sub_self, ← List.head?_eq_getElem?]
    exact hrest

theorem any_head?_dropWhile (p : Char → Bool) (text : List Char) :
    (text.dropWhile p).head?.any p = false := by
  have hhead := List.head?_dropWhile_not p text
  cases hdrop : (text.dropWhile p).head? with
  | none => rfl
  | some d =>
    rw [hdrop] at hhead
    exact hhead

/-- The word at the front of a text, where no word goes on, is a maximal run. -/
theorem isRun_takeWhile (hbefore : before.head?.any isWordChar = false) (hc : isWordChar c = true)
    (hword : (c :: rest).takeWhile isWordChar = word) :
    IsRun (before.reverse ++ (word ++ rest.dropWhile isWordChar)) before.length
      (before.length + word.length) := by
  refine isRun_append ?_ (fun d hd => List.mem_takeWhile_imp (hword ▸ hd)) hbefore
    (any_head?_dropWhile isWordChar rest)
  rw [← hword, List.takeWhile_cons_of_pos hc]
  exact List.cons_ne_nil c _

theorem extract_append : (before.reverse ++ (word ++ rest)).extract before.length
    (before.length + word.length) = word := by
  simp

/-- What is found behind a place: registers in order, all of them, and they are what is spelled like
one among some words. -/
structure Finds (text : List Char) (place : Nat) (words : List (List Char))
    (found : List (Nat × Nat)) : Prop where
  ordered : found.Pairwise (·.1 < ·.1)
  exact : ∀ start stop, (start, stop) ∈ found ↔ place ≤ start ∧ IsMention text start stop
  spelled : found.map (fun r => text.extract r.1 r.2) = words.filter Reg.isSpelling

section Finds

variable {place : Nat} {ws : List (List Char)} {found : List (Nat × Nat)}

/-- Nothing begins behind the end of a text. -/
theorem finds_nil (h : text.length ≤ place) : Finds text place [] [] where
  ordered := .nil
  exact start stop := by
    refine ⟨fun hmem => absurd hmem List.not_mem_nil, fun ⟨hle, hmention⟩ => ?_⟩
    have hword := hmention.run.word start (Nat.le_refl _) hmention.run.nonempty
    rw [List.getElem?_eq_none (Nat.le_trans h hle)] at hword
    exact absurd hword Bool.false_ne_true
  spelled := rfl

/-- No run begins at a place that is no part of a word. -/
theorem Finds.skip (h : Finds text (place + 1) ws found)
    (hplace : text[place]?.any isWordChar = false) : Finds text place ws found where
  ordered := h.ordered
  exact start stop := by
    refine (h.exact start stop).trans ⟨fun ⟨hle, hmention⟩ => ⟨by omega, hmention⟩,
      fun ⟨hle, hmention⟩ => ⟨?_, hmention⟩⟩
    refine Nat.lt_of_le_of_ne hle ?_
    rintro rfl
    have hword := hmention.run.word place (Nat.le_refl _) hmention.run.nonempty
    rw [hplace] at hword
    exact Bool.false_ne_true hword
  spelled := h.spelled

theorem IsRun.isMention_iff (h : IsRun text start stop) :
    IsMention text start stop ↔ Reg.isSpelling (text.extract start stop) = true :=
  ⟨fun hmention => isSpelling_iff.mpr hmention.spelling,
    fun hspelling => ⟨h, isSpelling_iff.mp hspelling⟩⟩

/-- Behind a maximal run, what is found is the run, if it is spelled like a register, and what is
found behind it. -/
theorem Finds.run (h : Finds text stop ws found) (hrun : IsRun text place stop) :
    Finds text place (text.extract place stop :: ws)
      ((if Reg.isSpelling (text.extract place stop) then [(place, stop)] else []) ++ found) := by
  have hlt : place < stop := hrun.nonempty
  have hbehind : ∀ i j, place ≤ i ∧ IsMention text i j ↔
      (i = place ∧ j = stop ∧ IsMention text place stop) ∨ (stop ≤ i ∧ IsMention text i j) := by
    refine fun i j => ⟨fun ⟨hle, hmention⟩ => ?_, ?_⟩
    · rcases hrun.eq_or_le hmention.run hle with ⟨rfl, rfl⟩ | hle
      · exact .inl ⟨rfl, rfl, hmention⟩
      · exact .inr ⟨hle, hmention⟩
    · rintro (⟨rfl, rfl, hmention⟩ | ⟨hle, hmention⟩)
      · exact ⟨Nat.le_refl _, hmention⟩
      · exact ⟨by omega, hmention⟩
  cases hspelling : Reg.isSpelling (text.extract place stop) with
  | true =>
    rw [if_pos rfl, List.singleton_append]
    refine ⟨List.pairwise_cons.mpr ⟨fun r hr => ?_, h.ordered⟩, fun i j => ?_, ?_⟩
    · exact Nat.lt_of_lt_of_le hlt ((h.exact r.1 r.2).mp hr).1
    · rw [hbehind, List.mem_cons, h.exact, Prod.mk.injEq, hrun.isMention_iff, hspelling]
      simp only [and_true]
    · rw [List.map_cons, h.spelled, List.filter_cons_of_pos hspelling]
  | false =>
    rw [if_neg Bool.false_ne_true, List.nil_append]
    refine ⟨h.ordered, fun i j => ?_, ?_⟩
    · rw [hbehind, h.exact, hrun.isMention_iff, hspelling]
      simp only [Bool.false_eq_true, and_false, false_or]
    · rw [h.spelled, List.filter_cons_of_neg (Bool.eq_false_iff.mp hspelling)]

end Finds

/-- From a cursor that is not inside a word, a search finds the registers among the words behind
it. -/
theorem finds_findFrom
    (h : before.head?.any isWordChar = false ∨ after.head?.any isWordChar = false) :
    Finds (before.reverse ++ after) before.length (words after)
      (registerPattern.findFrom before after) := by
  fun_induction words after generalizing before with
  | case1 =>
    rw [Pattern.findFrom]
    exact finds_nil (by simp)
  | case2 c rest hc ih =>
    have hbefore : before.head?.any isWordChar = false := by
      refine h.resolve_right fun hafter => ?_
      exact Bool.false_ne_true (hafter.symm.trans hc)
    generalize hword : (c :: rest).takeWhile isWordChar = word
    have htext : c :: rest = word ++ rest.dropWhile isWordChar := by
      rw [← hword, ← List.dropWhile_cons_of_pos hc, List.takeWhile_append_dropWhile]
    have hfinds := @ih (word.reverse ++ before) (.inr (any_head?_dropWhile isWordChar rest))
    rw [List.reverse_append, List.reverse_reverse, List.append_assoc, List.length_append,
      List.length_reverse, Nat.add_comm] at hfinds
    have hwhole := hfinds.run (isRun_takeWhile hbefore hc hword)
    rw [extract_append] at hwhole
    rw [findFrom_run hbefore hc hword, ← List.takeWhile_cons_of_pos hc, hword, htext]
    exact hwhole
  | case3 c rest hc ih =>
    have hblank : isWordChar c = false := Bool.eq_false_iff.mpr hc
    have hfinds := @ih (c :: before) (.inl hblank)
    rw [List.reverse_cons, List.append_assoc, List.singleton_append, List.length_cons] at hfinds
    rw [findFrom_blank hblank]
    refine hfinds.skip ?_
    rw [List.getElem?_append_right (by simp), List.length_reverse, Nat.sub_self]
    exact hblank

/-- The matches of the pattern in a text are, in order, the maximal runs of word characters that are
`R` with one or more digits behind it, and the scan gives for each what it is read as. -/
theorem scan_mentions (text : List Char) :
    (registerPattern.findAll text).Pairwise (·.1 < ·.1) ∧
    (∀ start stop, (start, stop) ∈ registerPattern.findAll text ↔ IsMention text start stop) ∧
    List.Forall₂ (fun r item => Reads (text.extract r.1 r.2) item)
      (registerPattern.findAll text) (Reg.scan text) := by
  have hfinds : Finds ([].reverse ++ text) 0 (words text) _ := finds_findFrom (.inl rfl)
  rw [List.reverse_nil, List.nil_append] at hfinds
  refine ⟨hfinds.ordered, fun start stop => ?_, ?_⟩
  · exact (hfinds.exact start stop).trans (and_iff_right (Nat.zero_le start))
  · rw [Reg.scan, ← hfinds.spelled, List.map_map, List.forall₂_map_right_iff]
    refine List.forall₂_same.mpr fun r hr => ?_
    exact reads_parse (isSpelling_iff.mpr ((hfinds.exact r.1 r.2).mp hr).2.spelling)

/-- Neither a letter before the register nor one behind it is passed over, and leading zeros are. -/
example : Reg.scan "R1.reuse R007 xR3 R4é RZ R4294967296".toList =
    [.ok ⟨1, by decide⟩, .ok ⟨7, by decide⟩, .error ⟨"R4294967296"⟩] := by
  decide +kernel

end KernelIntervals
