/-
Where texts are cut.

* `Tight` — a text with no blank at its ends: there is nothing to trim,
* `IsWord` — a text that is not empty and has no blank: it is cut off as one word,
* `splitWord_word`, `splitWord_append` — a word is cut off at its end, or at the blank behind it,
* `not_infix_of_breakAtPair`, `breakAtPair_append` — the text before the first occurrence of a pair,
* `pieces_intercalate` — pieces joined by a mark and a blank are what is between the marks.

Design notes: each cut has two sides. What is cut off has a form, and a text of that form is cut off
again, whatever stands behind the cut.
-/
import Mathlib.Data.List.TakeWhile
import KernelIntervals.Text.Blank
import KernelIntervals.Text.Pair

namespace KernelIntervals.Text

variable {text rest word before after : List Char} {a b c : Char}

/-! ### Trimmed texts -/

/-- There is no blank at the ends of a text. -/
structure Tight (text : List Char) : Prop where
  head : ∀ c ∈ text.head?, isBlank c = false
  last : ∀ c ∈ text.getLast?, isBlank c = false

theorem dropWhile_eq_self {p : Char → Bool} (h : ∀ c ∈ text.head?, p c = false) :
    text.dropWhile p = text := by
  cases text with
  | nil => rfl
  | cons c rest => rw [List.dropWhile_cons_of_neg (Bool.eq_false_iff.mp (h c rfl))]

theorem head_dropWhile {p : Char → Bool} : ∀ c ∈ (text.dropWhile p).head?, p c = false := by
  intro c hc
  have hhead := List.head?_dropWhile_not p text
  rw [hc] at hhead
  exact hhead

theorem head_append {p : Char → Prop} (h : ∀ c ∈ before.head?, p c) (hne : before ≠ []) :
    ∀ c ∈ (before ++ text).head?, p c := by
  cases before with
  | nil => exact absurd rfl hne
  | cons c rest => exact h

theorem last_append {p : Char → Prop} (h : ∀ c ∈ after.getLast?, p c) (hne : after ≠ []) :
    ∀ c ∈ (text ++ after).getLast?, p c := by
  rw [List.getLast?_append, List.getLast?_eq_some_getLast hne, Option.some_or,
    ← List.getLast?_eq_some_getLast hne]
  exact h

theorem trimStart_of_head (h : ∀ c ∈ text.head?, isBlank c = false) : trimStart text = text :=
  dropWhile_eq_self h

theorem head_trimStart : ∀ c ∈ (trimStart text).head?, isBlank c = false := head_dropWhile

theorem trimStart_append (h : ∀ c ∈ before, isBlank c = true) :
    trimStart (before ++ text) = trimStart text := by
  rw [trimStart, List.dropWhile_append_of_pos h, trimStart]

theorem trimEnd_of_last (h : ∀ c ∈ text.getLast?, isBlank c = false) : trimEnd text = text := by
  rw [trimEnd, dropWhile_eq_self (by rwa [List.head?_reverse]), List.reverse_reverse]

theorem Tight.trim_eq (h : Tight text) : trim text = text := by
  rw [trim, trimStart_of_head h.head, trimEnd_of_last h.last]

theorem isPrefix_trimEnd (text : List Char) : trimEnd text <+: text := by
  have h := List.dropWhile_suffix isBlank (l := text.reverse)
  rwa [← List.reverse_prefix, List.reverse_reverse] at h

theorem isInfix_trim (text : List Char) : trim text <:+: text :=
  (isPrefix_trimEnd _).isInfix.trans (List.dropWhile_suffix isBlank).isInfix

theorem tight_trim (text : List Char) : Tight (trim text) where
  head := by
    obtain ⟨rest, hrest⟩ := isPrefix_trimEnd (trimStart text)
    have hhead := @head_trimStart text
    rw [← hrest] at hhead
    rw [trim]
    cases htrim : trimEnd (trimStart text) with
    | nil => exact fun c hc => absurd hc (Option.not_mem_none c)
    | cons c cs =>
      rw [htrim] at hhead
      exact hhead
  last := by
    intro c hc
    rw [trim, trimEnd, List.getLast?_reverse] at hc
    exact head_dropWhile c hc

/-- A text that begins and ends with tight texts is tight. -/
theorem Tight.around (h : Tight before) (hne : before ≠ []) (h' : Tight after) (hne' : after ≠ []) :
    Tight (before ++ text ++ after) where
  head := by
    rw [List.append_assoc]
    exact head_append h.head hne
  last := last_append h'.last hne'

theorem tight_singleton (hc : isBlank c = false) : Tight [c] :=
  ⟨fun _ hd => Option.some.inj hd ▸ hc, fun _ hd => Option.some.inj hd ▸ hc⟩

/-- A tight text with some characters before it, the first of them no blank. -/
theorem tight_cons (hc : isBlank c = false) (h : Tight text) (hne : text ≠ [])
    (between : List Char) : Tight (c :: (between ++ text)) := by
  exact (tight_singleton hc).around (List.cons_ne_nil c []) h hne

theorem not_isBlank_of_isAlphanum (h : c.isAlphanum = true) : isBlank c = false := by
  change (decide (c.val ≥ 'A'.val ∧ c.val ≤ 'Z'.val)
    || (decide (c.val ≥ 'a'.val) && decide (c.val ≤ 'z'.val))
    || (decide (c.val ≥ '0'.val) && decide (c.val ≤ '9'.val))) = true at h
  simp only [Bool.or_eq_true, Bool.and_eq_true, decide_eq_true_eq, ge_iff_le,
    UInt32.le_iff_toNat_le] at h
  have hbounds : 48 ≤ c.toNat ∧ c.toNat ≤ 122 := by
    simp only [Char.toNat]
    grind
  refine Bool.eq_false_iff.mpr fun hblank => ?_
  simp only [isBlank, Bool.or_eq_true, Bool.and_eq_true, decide_eq_true_eq, beq_iff_eq] at hblank
  omega

/-! ### Words -/

/-- A text that is not empty and has no blank. -/
structure IsWord (text : List Char) : Prop where
  nonempty : text ≠ []
  solid : ∀ c ∈ text, isBlank c = false

theorem IsWord.tight (h : IsWord word) : Tight word where
  head c hc := h.solid c (List.mem_of_mem_head? hc)
  last c hc := h.solid c (List.mem_of_getLast? hc)

theorem IsWord.not_isBlank (h : IsWord word) : ∀ c ∈ word, (!isBlank c) = true := by
  intro c hc
  rw [h.solid c hc, Bool.not_false]

theorem splitWord_append (h : IsWord word) (hc : isBlank c = true) :
    splitWord (word ++ c :: rest) = (word, trimStart rest) := by
  have hstart : trimStart (word ++ c :: rest) = word ++ c :: rest :=
    trimStart_of_head (head_append h.tight.head h.nonempty)
  have hstop : ¬ (!isBlank c) = true := by rw [hc]; exact Bool.false_ne_true
  have htake : (c :: rest).takeWhile (!isBlank ·) = [] := List.takeWhile_cons_of_neg hstop
  have hdrop : (c :: rest).dropWhile (!isBlank ·) = c :: rest := List.dropWhile_cons_of_neg hstop
  rw [splitWord, hstart, List.takeWhile_append_of_pos h.not_isBlank,
    List.dropWhile_append_of_pos h.not_isBlank, htake, hdrop, List.append_nil, trimStart,
    List.dropWhile_cons_of_pos hc, ← trimStart]

theorem splitWord_word (h : IsWord word) : splitWord word = (word, []) := by
  rw [splitWord, trimStart_of_head h.tight.head, List.takeWhile_eq_self_iff.mpr h.not_isBlank,
    List.dropWhile_eq_nil_iff.mpr h.not_isBlank, trimStart_nil]

/-- The first word of a text is a word, if there is one. -/
theorem isWord_of_splitWord (h : splitWord text = (word, rest)) (hne : word ≠ []) :
    IsWord word where
  nonempty := hne
  solid := by
    intro c hc
    obtain ⟨rfl, -⟩ := Prod.mk.inj h
    have hsolid := List.mem_takeWhile_imp hc
    rwa [Bool.not_eq_true'] at hsolid

theorem nil_of_splitWord (h : splitWord text = ([], rest)) : rest = [] := by
  obtain ⟨hword, rfl⟩ := Prod.mk.inj h
  cases hstart : trimStart text with
  | nil => rfl
  | cons c start =>
    have hsolid : (!isBlank c) = true := by
      rw [@head_trimStart text c (hstart ▸ rfl), Bool.not_false]
    have htake : (c :: start).takeWhile (!isBlank ·) = c :: start.takeWhile (!isBlank ·) :=
      List.takeWhile_cons_of_pos hsolid
    rw [hstart, htake] at hword
    cases hword

theorem prefix_of_splitWord (h : splitWord text = (word, rest))
    (hhead : ∀ c ∈ text.head?, isBlank c = false) : word <+: text := by
  obtain ⟨rfl, -⟩ := Prod.mk.inj h
  rw [trimStart_of_head hhead]
  exact List.takeWhile_prefix _

theorem head_rest_of_splitWord (h : splitWord text = (word, rest)) :
    ∀ c ∈ rest.head?, isBlank c = false := by
  obtain ⟨-, rfl⟩ := Prod.mk.inj h
  exact head_trimStart

/-! ### Pairs and marks -/

/-- The text before the first occurrence of a pair has no such pair. -/
theorem not_infix_of_breakAtPair (h : breakAtPair a b text = some (before, after)) :
    ¬ [a, b] <:+: before := by
  fun_induction breakAtPair a b text generalizing before with
  | case1 c d rest hcd =>
    obtain ⟨rfl, -⟩ := Prod.mk.inj (Option.some.inj h)
    exact fun hinside => absurd (List.infix_nil.mp hinside) (List.cons_ne_nil a [b])
  | case2 c d rest hcd ih =>
    obtain ⟨⟨front, back⟩, hbreak, heq⟩ := Option.map_eq_some_iff.mp h
    obtain ⟨rfl, rfl⟩ := Prod.mk.inj heq
    rw [List.infix_cons_iff]
    rintro (hbegins | hinside)
    · obtain ⟨rfl, hnext⟩ := List.cons_prefix_cons.mp hbegins
      have hfront : front <+: d :: rest :=
        eq_of_breakAtPair hbreak ▸ List.prefix_append front _
      exact hcd ⟨rfl, (List.cons_prefix_cons.mp (hnext.trans hfront)).1.symm⟩
    · exact ih hbreak hinside
  | case3 text hshort => cases h

/-- A text without a pair is what stands before a pair that is written behind it. -/
theorem breakAtPair_append (h : ¬ [a, b] <:+: before) (hne : a ≠ b) :
    breakAtPair a b (before ++ a :: b :: after) = some (before, after) := by
  induction before with
  | nil => rw [List.nil_append, breakAtPair, if_pos ⟨rfl, rfl⟩]
  | cons c before ih =>
    have hrest := ih fun hinside => h (List.infix_cons_iff.mpr (.inr hinside))
    cases before with
    | nil =>
      rw [List.singleton_append, breakAtPair, if_neg fun hcd => hne hcd.2]
      rw [List.nil_append] at hrest
      rw [hrest]
      rfl
    | cons d before =>
      have hcd : ¬ (c = a ∧ d = b) := by
        rintro ⟨rfl, rfl⟩
        exact h ⟨[], before, rfl⟩
      rw [List.cons_append, List.cons_append, breakAtPair, if_neg hcd, ← List.cons_append, hrest]
      rfl

/-- The pieces between the marks of a text have no mark. -/
theorem not_mem_of_mem_splitOn {piece : List Char} (h : piece ∈ text.splitOn c) : c ∉ piece := by
  induction text generalizing piece with
  | nil =>
    rw [List.splitOn_nil, List.mem_singleton] at h
    exact h ▸ List.not_mem_nil
  | cons d text ih =>
    rw [List.splitOn_cons_eq_if_modifyHead] at h
    split at h
    next heq =>
      rcases List.mem_cons.mp h with rfl | h
      · exact List.not_mem_nil
      · exact ih h
    next hne =>
      cases hsplit : text.splitOn c with
      | nil => exact absurd hsplit (List.splitOn_ne_nil c text)
      | cons first pieces =>
        rw [hsplit, List.modifyHead_cons] at h
        rcases List.mem_cons.mp h with rfl | h
        · rw [List.mem_cons, not_or]
          exact ⟨fun heq => hne (beq_iff_eq.mpr heq.symm), ih (hsplit ▸ List.mem_cons_self)⟩
        · exact ih (hsplit ▸ List.mem_cons_of_mem first h)

theorem intercalate_blank (piece : List Char) (pieces : List (List Char)) :
    [c, ' '].intercalate (piece :: pieces) =
      [c].intercalate (piece :: pieces.map (' ' :: ·)) := by
  induction pieces generalizing piece with
  | nil => rfl
  | cons next pieces ih =>
    rw [List.map_cons, List.intercalate_cons_cons, List.intercalate_cons_cons, ih]
    cases pieces <;> simp [List.intercalate]

theorem Tight.trim_blank (h : Tight text) : trim (' ' :: text) = text := by
  rw [trim, ← List.singleton_append, trimStart_append (List.forall_mem_singleton.mpr rfl), ← trim,
    h.trim_eq]

/-- Pieces joined by a mark and a blank are what is between the marks, but for the blanks. -/
theorem pieces_intercalate {pieces : List (List Char)} (hne : pieces ≠ [])
    (hc : ∀ piece ∈ pieces, c ∉ piece) (hblank : c ≠ ' ')
    (htight : ∀ piece ∈ pieces, Tight piece) :
    (([c, ' '].intercalate pieces).splitOn c).map trim = pieces := by
  cases pieces with
  | nil => exact absurd rfl hne
  | cons piece pieces =>
    have hmarks : ∀ p ∈ piece :: pieces.map (' ' :: ·), c ∉ p := by
      intro p hp
      rcases List.mem_cons.mp hp with rfl | hp
      · exact hc p List.mem_cons_self
      · obtain ⟨q, hq, rfl⟩ := List.mem_map.mp hp
        rw [List.mem_cons, not_or]
        exact ⟨hblank, hc q (List.mem_cons_of_mem piece hq)⟩
    have htrim : ∀ p ∈ pieces, trim (' ' :: p) = p := fun p hp =>
      (htight p (List.mem_cons_of_mem piece hp)).trim_blank
    rw [intercalate_blank, List.splitOn_intercalate c hmarks (List.cons_ne_nil _ _), List.map_cons,
      List.map_map, (htight piece List.mem_cons_self).trim_eq]
    exact congrArg (piece :: ·) ((List.map_congr_left htrim).trans (List.map_id pieces))

end KernelIntervals.Text
