/-
Operands that are written and read back.

* `mem_words_append`, `scan_numbered` — a number behind a text adds no register to it,
* `read_cases` — what an operand was read as, and from what,
* `Operand.Stated` — an operand that stands between commas and is read from its own text,
* `stated_of_readAll`, `readAll_operandText` — what was read is stated, and what is stated is read
  again,
* `Operand.Stated.renameLabel` — a label with a number behind it is quoted or bare as it was.

Design notes: the two directions of a round trip meet in `Operand.Stated`. Reading gives it, reading
again needs it, and a change of a label has to keep it. A bare label is the one operand that is told
by what it does not mention, so a number behind it must not make a register of its last word.
-/
import KernelIntervals.Flow.Split
import KernelIntervals.Inst.Read
import KernelIntervals.Proofs.Naming
import KernelIntervals.Proofs.RegisterWords
import KernelIntervals.Proofs.TextCuts

namespace KernelIntervals

open Text

variable {text word behind digits : List Char} {c : Char} {isBranch : Bool} {o : Operand}
  {name : String} {i : Inst}

/-! ### Registers in a label with a number -/

/-- Behind a text, word characters are a word of their own, or they are the end of the last word. -/
theorem mem_words_append (hne : behind ≠ []) (hbehind : ∀ c ∈ behind, isWordChar c = true)
    (h : word ∈ words (text ++ behind)) : word ∈ words text ∨ behind <:+ word := by
  fun_induction words text with
  | case1 =>
    rw [List.nil_append] at h
    cases behind with
    | nil => exact absurd rfl hne
    | cons c rest =>
      have hrest : ∀ d ∈ rest, isWordChar d = true := fun d hd =>
        hbehind d (List.mem_cons_of_mem c hd)
      rw [words, if_pos (hbehind c List.mem_cons_self), List.takeWhile_eq_self_iff.mpr hrest,
        List.dropWhile_eq_nil_iff.mpr hrest, words, List.mem_singleton] at h
      exact .inr (h ▸ List.suffix_rfl)
  | case2 c rest hc ih =>
    rw [List.cons_append, words, if_pos hc] at h
    by_cases hall : ∀ d ∈ rest, isWordChar d = true
    · -- The first word goes on up to the end, and then in what is behind it.
      have happend : ∀ d ∈ rest ++ behind, isWordChar d = true :=
        List.forall_mem_append.mpr ⟨hall, hbehind⟩
      rw [List.takeWhile_eq_self_iff.mpr happend, List.dropWhile_eq_nil_iff.mpr happend, words,
        List.mem_singleton] at h
      exact .inr (h ▸ List.suffix_append (c :: rest) behind)
    · -- The first word ends before the end, so it is the same with something behind the text.
      have hdrop : ¬ (rest.dropWhile isWordChar).isEmpty = true := fun hnil =>
        hall (List.dropWhile_eq_nil_iff.mp (List.isEmpty_iff.mp hnil))
      have htake : ¬ (rest.takeWhile isWordChar).length = rest.length := fun hlength =>
        hall (List.takeWhile_eq_self_iff.mp ((List.takeWhile_prefix _).eq_of_length hlength))
      rw [List.takeWhile_append, if_neg htake, List.dropWhile_append, if_neg hdrop] at h
      rcases List.mem_cons.mp h with rfl | h
      · exact .inl List.mem_cons_self
      · exact (ih h).imp_left (List.mem_cons_of_mem _)
  | case3 c rest hc ih =>
    rw [List.cons_append, words, if_neg hc] at h
    exact ih h

theorem isSpelling_no_underscore (h : Reg.isSpelling word = true) : '_' ∉ word := by
  obtain ⟨digits, rfl, -, hdigits⟩ := isSpelling_iff.mp h
  rw [List.mem_cons, not_or]
  exact ⟨by decide, fun hmem => absurd (hdigits '_' hmem) (by decide)⟩

/-- A number behind a text, with an underscore between them, adds no register to it. -/
theorem scan_numbered (h : Reg.scan text = []) (hdigits : ∀ d ∈ digits, d.isDigit = true) :
    Reg.scan (text ++ '_' :: digits) = [] := by
  rw [Reg.scan, List.map_eq_nil_iff, List.filter_eq_nil_iff] at h ⊢
  intro word hword hspelling
  have hwordChars : ∀ c ∈ '_' :: digits, isWordChar c = true := by
    intro c hc
    rcases List.mem_cons.mp hc with rfl | hc
    · decide
    · exact isWordChar_of_isDigit (hdigits c hc)
  rcases mem_words_append (List.cons_ne_nil _ _) hwordChars hword with hmem | hsuffix
  · exact h word hmem hspelling
  · exact isSpelling_no_underscore hspelling (hsuffix.subset List.mem_cons_self)

theorem scan?_eq_nil_iff : Reg.scan? text = .ok [] ↔ Reg.scan text = [] := by
  rw [Reg.scan?]
  cases Reg.scan text with
  | nil => exact iff_of_true rfl rfl
  | cons item items =>
    refine iff_of_false (fun h => ?_) (List.cons_ne_nil item items)
    rw [List.mapM_cons] at h
    cases item with
    | error e => cases h
    | ok r =>
      cases hitems : items.mapM id with
      | error e =>
        rw [hitems] at h
        cases h
      | ok rs =>
        rw [hitems] at h
        cases h

/-! ### Operands -/

theorem quotedLabel?_eq_some_iff {label : List Char} :
    quotedLabel? text = some label ↔ text = '\x60' :: '(' :: (label ++ [')']) := by
  unfold quotedLabel?
  split
  next rest =>
    rw [List.cons.injEq, List.cons.injEq]
    simp only [true_and]
    constructor
    · intro h
      split at h
      next hlast =>
        obtain rfl := Option.some.inj h
        exact (List.dropLast_append_getLast? ')' hlast).symm
      next => cases h
    · rintro rfl
      rw [List.getLast?_concat, if_pos rfl, List.dropLast_concat]
  next hshape =>
    refine iff_of_false nofun ?_
    rintro rfl
    exact hshape _ rfl

theorem quotedLabel?_of_bare (h : isBareLabel text = true) : quotedLabel? text = none := by
  unfold quotedLabel?
  split
  · cases h
  · rfl

theorem read_quoted (label : List Char) :
    Operand.read isBranch ('\x60' :: '(' :: (label ++ [')'])) =
      .ok (.label (String.ofList label) false) := by
  rw [Operand.read, quotedLabel?_eq_some_iff.mpr rfl]

theorem read_bare (hbare : isBareLabel text = true) (hscan : Reg.scan text = []) :
    Operand.read true text = .ok (.label (String.ofList text) true) := by
  rw [Operand.read, quotedLabel?_of_bare hbare, scan?_eq_nil_iff.mpr hscan]
  exact if_pos hbare

/-- What an operand was read as, and from what. -/
theorem read_cases (h : Operand.read isBranch text = .ok o) :
    (∃ label, text = '\x60' :: '(' :: (label ++ [')']) ∧ o = .label (String.ofList label) false) ∨
    (∃ rs, o = .regs (String.ofList text) rs) ∨
    (isBranch = true ∧ isBareLabel text = true ∧ Reg.scan text = [] ∧
      o = .label (String.ofList text) true) ∨
    o = .other (String.ofList text) := by
  unfold Operand.read at h
  split at h
  next label hlabel =>
    exact .inl ⟨label, quotedLabel?_eq_some_iff.mp hlabel, (Except.ok.inj h).symm⟩
  next =>
    cases hscan : Reg.scan? text with
    | error e =>
      rw [hscan] at h
      cases h
    | ok rs =>
      rw [hscan] at h
      cases rs with
      | cons r rs => exact .inr (.inl ⟨r :: rs, (Except.ok.inj h).symm⟩)
      | nil =>
        by_cases hbare : (isBranch && isBareLabel text) = true
        · have hlabel := (if_pos hbare).symm.trans h
          obtain ⟨hbranch, hbare⟩ := Bool.and_eq_true_iff.mp hbare
          exact .inr (.inr (.inl ⟨hbranch, hbare, scan?_eq_nil_iff.mp hscan,
            (Except.ok.inj hlabel).symm⟩))
        · have hother := (if_neg hbare).symm.trans h
          exact .inr (.inr (.inr (Except.ok.inj hother).symm))

theorem toList_render_quoted (name : String) :
    (Operand.label name false).render.toList = '\x60' :: '(' :: (name.toList ++ [')']) := by
  rw [Operand.render, String.toList_append, String.toList_append, List.append_assoc]
  rfl

theorem render_of_read (h : Operand.read isBranch text = .ok o) : o.render.toList = text := by
  rcases read_cases h with ⟨label, rfl, rfl⟩ | ⟨rs, rfl⟩ | ⟨-, -, -, rfl⟩ | rfl
  · rw [toList_render_quoted, String.toList_ofList]
  · exact String.toList_ofList
  · exact String.toList_ofList
  · exact String.toList_ofList

/-- An operand that stands between two commas: it is read back from its text. -/
structure Operand.Stated (isBranch : Bool) (o : Operand) : Prop where
  nonempty : o.render.toList ≠ []
  tight : Tight o.render.toList
  no_comma : ',' ∉ o.render.toList
  read : Operand.read isBranch o.render.toList = .ok o

section Lists

variable {α β ε : Type} {f : α → Except ε β} {g : β → α}

theorem exists_of_mem_mapM {xs : List α} {ys : List β} (h : xs.mapM f = .ok ys) :
    ∀ y ∈ ys, ∃ x ∈ xs, f x = .ok y := by
  induction xs generalizing ys with
  | nil =>
    cases h
    exact fun y hy => absurd hy List.not_mem_nil
  | cons x xs ih =>
    rw [List.mapM_cons] at h
    cases hx : f x with
    | error e =>
      rw [hx] at h
      cases h
    | ok z =>
      cases hxs : xs.mapM f with
      | error e =>
        rw [hx, hxs] at h
        cases h
      | ok zs =>
        rw [hx, hxs] at h
        cases h
        intro y hy
        rcases List.mem_cons.mp hy with rfl | hy
        · exact ⟨x, List.mem_cons_self, hx⟩
        · obtain ⟨w, hw, hread⟩ := ih hxs y hy
          exact ⟨w, List.mem_cons_of_mem x hw, hread⟩

theorem mapM_map_ok {ys : List β} (h : ∀ y ∈ ys, f (g y) = .ok y) : (ys.map g).mapM f = .ok ys := by
  induction ys with
  | nil => rfl
  | cons y ys ih =>
    rw [List.map_cons, List.mapM_cons, h y List.mem_cons_self,
      ih fun z hz => h z (List.mem_cons_of_mem y hz)]
    rfl

end Lists

theorem stated_of_readAll {os : List Operand} (h : Operand.readAll isBranch text = .ok os) :
    ∀ o ∈ os, o.Stated isBranch := by
  intro o ho
  obtain ⟨piece, hpiece, hread⟩ := exists_of_mem_mapM h o ho
  obtain ⟨hpiece, hne⟩ := List.mem_filter.mp hpiece
  obtain ⟨field, hfield, rfl⟩ := List.mem_map.mp hpiece
  have hrender := render_of_read hread
  rw [← hrender] at hread hne
  refine ⟨?_, hrender ▸ tight_trim field, fun hcomma => ?_, hread⟩
  · rwa [Bool.not_eq_true', List.isEmpty_eq_false_iff] at hne
  · rw [hrender] at hcomma
    exact not_mem_of_mem_splitOn hfield ((isInfix_trim field).subset hcomma)

/-- The operands of an instruction as one text. -/
def operandText (os : List Operand) : List Char :=
  [',', ' '].intercalate (os.map (·.render.toList))

theorem readAll_operandText {os : List Operand} (h : ∀ o ∈ os, o.Stated isBranch) :
    Operand.readAll isBranch (operandText os) = .ok os := by
  cases os with
  | nil => rfl
  | cons o os =>
    have hpieces : (((operandText (o :: os)).splitOn ',').map trim) =
        (o :: os).map (·.render.toList) := by
      refine pieces_intercalate (List.cons_ne_nil _ _) ?_ (by decide) ?_
      · exact List.forall_mem_map.mpr fun p hp => (h p hp).no_comma
      · exact List.forall_mem_map.mpr fun p hp => (h p hp).tight
    have hfilter : ((o :: os).map (·.render.toList)).filter (!·.isEmpty) =
        (o :: os).map (·.render.toList) := by
      refine List.filter_eq_self.mpr (List.forall_mem_map.mpr fun p hp => ?_)
      rw [Bool.not_eq_true', List.isEmpty_eq_false_iff]
      exact (h p hp).nonempty
    rw [Operand.readAll, hpieces, hfilter]
    exact mapM_map_ok fun p hp => (h p hp).read

/-! ### Labels with a number -/

theorem toList_numberedName (name : String) (n : Nat) :
    (FlowGraph.numberedName name n).toList = name.toList ++ '_' :: n.repr.toList := by
  rw [FlowGraph.numberedName, String.toList_append, String.toList_append, List.append_assoc]
  rfl

/-- The characters that a bare label may have. -/
theorem mem_bareLabel (h : isBareLabel text = true) (hc : c ∈ text) :
    c.isAlphanum = true ∨ c = '_' ∨ c = '.' ∨ c = '$' := by
  cases text with
  | nil => cases h
  | cons d rest =>
    rw [isBareLabel, Bool.and_eq_true, List.all_eq_true] at h
    rcases List.mem_cons.mp hc with rfl | hc
    · have hhead := h.1
      simp only [Bool.or_eq_true, beq_iff_eq] at hhead
      rw [Char.isAlphanum, Bool.or_eq_true]
      tauto
    · have hrest := h.2 c hc
      simp only [Bool.or_eq_true, beq_iff_eq] at hrest
      tauto

theorem isWord_of_bare (h : isBareLabel text = true) : IsWord text where
  nonempty := by
    rintro rfl
    cases h
  solid := by
    intro c hc
    rcases mem_bareLabel h hc with hc | rfl | rfl | rfl
    · exact not_isBlank_of_isAlphanum hc
    · decide
    · decide
    · decide

theorem bareLabel_append (h : isBareLabel text = true) (hdigits : ∀ d ∈ digits, d.isDigit = true) :
    isBareLabel (text ++ '_' :: digits) = true := by
  cases text with
  | nil => cases h
  | cons c rest =>
    rw [isBareLabel, Bool.and_eq_true] at h
    rw [List.cons_append, isBareLabel, Bool.and_eq_true]
    refine ⟨h.1, ?_⟩
    rw [List.all_append, h.2, Bool.true_and, List.all_cons, List.all_eq_true.mpr]
    · rfl
    · intro d hd
      rw [Char.isAlphanum, hdigits d hd, Bool.or_true]
      rfl

theorem comma_not_mem_numbered (h : ',' ∉ text) (n : Nat) : ',' ∉ text ++ '_' :: n.repr.toList := by
  rw [List.mem_append, List.mem_cons, not_or, not_or]
  exact ⟨h, by decide, fun hmem => absurd (isDigit_of_mem_repr hmem) (by decide)⟩

theorem stated_quoted_numbered (h : (Operand.label name false).Stated isBranch) (n : Nat) :
    (Operand.label (FlowGraph.numberedName name n) false).Stated isBranch := by
  have htext := toList_render_quoted (FlowGraph.numberedName name n)
  have hcomma := h.no_comma
  rw [toList_render_quoted, List.mem_cons, List.mem_cons, List.mem_append, not_or, not_or,
    not_or] at hcomma
  obtain ⟨hquote, hopen, hname, hclose⟩ := hcomma
  refine ⟨?_, ?_, ?_, ?_⟩
  · rw [htext]
    exact List.cons_ne_nil _ _
  · rw [htext]
    exact tight_cons rfl (tight_singleton rfl) (List.cons_ne_nil _ _)
      ('(' :: (FlowGraph.numberedName name n).toList)
  · rw [htext, toList_numberedName, List.mem_cons, List.mem_cons, List.mem_append, not_or, not_or,
      not_or]
    exact ⟨hquote, hopen, comma_not_mem_numbered hname n, hclose⟩
  · rw [htext, read_quoted, String.ofList_toList]

theorem stated_bare_numbered (h : (Operand.label name true).Stated isBranch) (n : Nat) :
    (Operand.label (FlowGraph.numberedName name n) true).Stated isBranch := by
  rcases read_cases h.read with ⟨_, -, heq⟩ | ⟨_, heq⟩ | ⟨rfl, hbare, hscan, -⟩ | heq
  · cases heq
  · cases heq
  · have hname : (Operand.label name true).render = name := rfl
    rw [hname] at hbare hscan
    have hbare' := bareLabel_append hbare fun d hd => isDigit_of_mem_repr (k := n) hd
    have hscan' := scan_numbered hscan fun d hd => isDigit_of_mem_repr (k := n) hd
    have htext : (Operand.label (FlowGraph.numberedName name n) true).render.toList =
        name.toList ++ '_' :: n.repr.toList := toList_numberedName name n
    have hword := isWord_of_bare hbare'
    refine ⟨?_, ?_, ?_, ?_⟩
    · exact htext ▸ hword.nonempty
    · exact htext ▸ hword.tight
    · exact htext ▸ comma_not_mem_numbered h.no_comma n
    · rw [htext, read_bare hbare' hscan', ← toList_numberedName, String.ofList_toList]
  · cases heq

/-- A label with a number behind it is quoted or bare as it was. -/
theorem Operand.Stated.renameLabel (h : o.Stated isBranch) (name : String) (n : Nat) :
    (o.renameLabel name (FlowGraph.numberedName name n)).Stated isBranch := by
  cases o with
  | regs text rs => exact h
  | other text => exact h
  | label label bare =>
    rw [Operand.renameLabel]
    by_cases hname : label = name
    · subst hname
      rw [if_pos rfl]
      cases bare with
      | false => exact stated_quoted_numbered h n
      | true => exact stated_bare_numbered h n
    · rw [if_neg hname]
      exact h

end KernelIntervals
