/-
Instructions that are written and read back.

* `Inst.Stated` — an instruction as a statement states it: its parts are found again in its text,
* `Inst.toList_render` — the parts of that text,
* `Inst.Stated.readAddr_render`, `Inst.Stated.readGuard_text`, `Inst.Stated.splitWord_body` — each
  step of reading takes one part off,
* `Inst.parse_eq_ok_iff` — the steps in which a statement is read,
* `Inst.stated_of_parse`, `Inst.Stated.parse_eq` — what was read is stated, and what is stated is
  read again,
* `Inst.parse_render` — the round trip, before and after labels are renamed.

Design notes: a part that is missing is told by the part behind it. So `Inst.Stated` says which
opcodes may stand first in a statement: without a guard none with an at sign at its start, and
without an address either none with the marks of a comment.
-/
import KernelIntervals.Proofs.OperandText

namespace KernelIntervals

open Text

variable {text : List Char} {isBranch : Bool}

/-! ### Statements -/

namespace Inst

/-- The address comment of an instruction, and the blank behind it. -/
def addrText (i : Inst) : List Char :=
  match i.addr with
  | some addr => '/' :: '*' :: (addr.toList ++ ['*', '/', ' '])
  | none => []

/-- The guard of an instruction, and the blank behind it. -/
def guardText (i : Inst) : List Char :=
  match i.guard with
  | some guard => '@' :: (guard.toList ++ [' '])
  | none => []

/-- The opcode and the operands of an instruction. -/
def bodyText (i : Inst) : List Char :=
  match i.operands with
  | [] => i.opcode.toList
  | operands => i.opcode.toList ++ ' ' :: operandText operands

theorem toList_render (i : Inst) :
    i.render.toList = i.addrText ++ (i.guardText ++ i.bodyText) := by
  have hoperands : ∀ os : List Operand,
      (", ".intercalate (os.map Operand.render)).toList = operandText os := by
    intro os
    rw [String.toList_intercalate, operandText, List.map_map]
    rfl
  obtain ⟨addr, guard, opcode, operands⟩ := i
  unfold render addrText guardText bodyText
  rw [String.toList_append, String.toList_append, String.toList_append, List.append_assoc,
    List.append_assoc]
  refine congrArg₂ (· ++ ·) ?_ (congrArg₂ (· ++ ·) ?_ ?_)
  · cases addr with
    | none => rfl
    | some addr =>
      rw [String.toList_append, String.toList_append, List.append_assoc]
      rfl
  · cases guard with
    | none => rfl
    | some guard =>
      rw [String.toList_append, String.toList_append, List.append_assoc]
      rfl
  · cases operands with
    | nil => exact List.append_nil _
    | cons o os =>
      rw [String.toList_append, hoperands]
      rfl

/-- An instruction as a statement states it: its parts are found again in its text. -/
structure Stated (i : Inst) : Prop where
  addr : ∀ a ∈ i.addr, Tight a.toList ∧ ¬ ['*', '/'] <:+: a.toList
  guard : ∀ g ∈ i.guard, IsWord g.toList
  opcode : IsWord i.opcode.toList
  unaddressed : i.addr = none → i.guard = none → ¬ ['/', '*'] <+: i.opcode.toList
  unguarded : i.guard = none → i.opcode.toList.head? ≠ some '@'
  operands : ∀ o ∈ i.operands, o.Stated (isBranchOpcode i.opcode.toList)

variable {i : Inst}

/-! ### Reading what was written -/

theorem tight_operandText {os : List Operand} (h : ∀ o ∈ os, o.Stated isBranch) (hne : os ≠ []) :
    Tight (operandText os) ∧ operandText os ≠ [] := by
  induction os with
  | nil => exact absurd rfl hne
  | cons o os ih =>
    have ho := h o List.mem_cons_self
    cases os with
    | nil =>
      rw [show operandText [o] = o.render.toList from List.append_nil _]
      exact ⟨ho.tight, ho.nonempty⟩
    | cons p os =>
      obtain ⟨htight, hne⟩ :=
        ih (fun q hq => h q (List.mem_cons_of_mem o hq)) (List.cons_ne_nil p os)
      have htext : operandText (o :: p :: os) =
          o.render.toList ++ [',', ' '] ++ operandText (p :: os) := List.intercalate_cons_cons
      rw [htext]
      exact ⟨ho.tight.around ho.nonempty htight hne, List.append_ne_nil_of_right_ne_nil _ hne⟩

theorem bodyText_eq (i : Inst) : ∃ tail, i.bodyText = i.opcode.toList ++ tail ∧
    ∀ c ∈ tail.head?, c = ' ' := by
  rw [bodyText]
  split
  · exact ⟨[], (List.append_nil _).symm, nofun⟩
  · exact ⟨_, rfl, fun c hc => (Option.some.inj hc).symm⟩

theorem Stated.tight_body (h : i.Stated) : Tight i.bodyText := by
  rw [bodyText]
  split
  next => exact h.opcode.tight
  next hne =>
    obtain ⟨htight, hne⟩ := tight_operandText h.operands hne
    rw [← List.singleton_append, ← List.append_assoc]
    exact h.opcode.tight.around h.opcode.nonempty htight hne

theorem Stated.body_ne_nil (h : i.Stated) : i.bodyText ≠ [] := by
  obtain ⟨tail, htail, -⟩ := bodyText_eq i
  rw [htail]
  exact List.append_ne_nil_of_left_ne_nil h.opcode.nonempty _

theorem Stated.splitWord_body (h : i.Stated) :
    splitWord i.bodyText = (i.opcode.toList, operandText i.operands) := by
  rw [bodyText]
  split
  next hnil =>
    rw [hnil, splitWord_word h.opcode]
    rfl
  next hne =>
    rw [splitWord_append h.opcode (by decide),
      trimStart_of_head (tight_operandText h.operands hne).1.head]

theorem readGuard_of_head (h : text.head? ≠ some '@') : readGuard text = (none, text) := by
  unfold readGuard
  split
  next => exact absurd rfl h
  next => rfl

theorem Stated.readGuard_text (h : i.Stated) :
    readGuard (i.guardText ++ i.bodyText) = (i.guard.map String.toList, i.bodyText) := by
  rw [guardText]
  split
  next g hg =>
    rw [hg, List.cons_append, List.append_assoc, List.singleton_append, readGuard,
      splitWord_append (h.guard g hg) (by decide), trimStart_of_head h.tight_body.head]
    rfl
  next hg =>
    obtain ⟨tail, htail, -⟩ := bodyText_eq i
    rw [hg, List.nil_append, readGuard_of_head]
    · rfl
    · rw [htail, List.head?_append_of_ne_nil _ h.opcode.nonempty]
      exact h.unguarded hg

theorem readAddr_of_prefix (h : ¬ ['/', '*'] <+: text) : readAddr text = some (none, text) := by
  unfold readAddr
  split
  next rest => exact absurd ⟨rest, rfl⟩ h
  next => rfl

/-- Without a guard, only the opcode can begin with the marks of a comment. -/
theorem Stated.not_comment (h : i.Stated) (haddr : i.addr = none) :
    ¬ ['/', '*'] <+: i.guardText ++ i.bodyText := by
  rw [guardText]
  split
  next g hg => exact fun hfront => absurd (List.cons_prefix_cons.mp hfront).1 (by decide)
  next hg =>
    obtain ⟨tail, htail, hhead⟩ := bodyText_eq i
    have hopcode := h.unaddressed haddr hg
    rw [List.nil_append, htail]
    intro hfront
    cases hword : i.opcode.toList with
    | nil => exact h.opcode.nonempty hword
    | cons c word =>
      rw [hword] at hfront hopcode
      obtain ⟨rfl, hnext⟩ := List.cons_prefix_cons.mp hfront
      cases word with
      | nil =>
        -- Behind an opcode that is one slash stands a blank or nothing, but no star.
        obtain ⟨rest, hrest⟩ := hnext
        obtain rfl : tail = '*' :: rest := hrest.symm
        exact absurd (hhead '*' rfl) (by decide)
      | cons d word =>
        obtain ⟨rfl, -⟩ := List.cons_prefix_cons.mp hnext
        exact hopcode ⟨word, rfl⟩

theorem Stated.tight_guard (h : i.Stated) : Tight (i.guardText ++ i.bodyText) := by
  rw [guardText]
  split
  next g hg => exact tight_cons (by decide) h.tight_body h.body_ne_nil _
  next hg => exact h.tight_body

theorem Stated.tight_render (h : i.Stated) : Tight i.render.toList := by
  rw [toList_render, addrText]
  split
  next a ha =>
    exact tight_cons (by decide) h.tight_guard
      (List.append_ne_nil_of_right_ne_nil _ h.body_ne_nil) _
  next ha => exact h.tight_guard

theorem Stated.readAddr_render (h : i.Stated) : readAddr i.render.toList =
    some (i.addr.map String.toList, i.guardText ++ i.bodyText) := by
  rw [toList_render, addrText]
  split
  next a ha =>
    obtain ⟨htight, hpair⟩ := h.addr a ha
    have hbreak : breakAtPair '*' '/' (a.toList ++ ['*', '/', ' '] ++ (i.guardText ++ i.bodyText)) =
        some (a.toList, ' ' :: (i.guardText ++ i.bodyText)) := by
      rw [List.append_assoc]
      exact breakAtPair_append hpair (by decide)
    have hblank : trimStart (' ' :: (i.guardText ++ i.bodyText)) = i.guardText ++ i.bodyText := by
      rw [← List.singleton_append, trimStart_append (List.forall_mem_singleton.mpr rfl),
        trimStart_of_head h.tight_guard.head]
    rw [ha, List.cons_append, List.cons_append, readAddr, hbreak, Option.map_some]
    simp only [htight.trim_eq, hblank, Option.map_some]
  next ha =>
    rw [ha, List.nil_append, readAddr_of_prefix (h.not_comment ha)]
    rfl

/-- The steps in which a statement is read. -/
theorem parse_eq_ok_iff {s : String} : Inst.parse s = .ok i ↔
    ∃ addr rest guard body opcode tail operands,
      readAddr (trim s.toList) = some (addr, rest) ∧ readGuard rest = (guard, body) ∧
      splitWord body = (opcode, tail) ∧ opcode ≠ [] ∧
      Operand.readAll (isBranchOpcode opcode) tail = .ok operands ∧
      i = ⟨addr.map String.ofList, guard.map String.ofList, String.ofList opcode, operands⟩ := by
  constructor
  · intro h
    unfold Inst.parse at h
    split at h
    next => cases h
    next addr rest hread =>
      generalize hguard : readGuard rest = g at h
      obtain ⟨guard, body⟩ := g
      generalize hword : splitWord body = w at h
      obtain ⟨opcode, tail⟩ := w
      simp only [hword] at h
      split at h
      next => cases h
      next hne =>
        split at h
        next => cases h
        next operands hoperands =>
          refine ⟨addr, rest, guard, body, opcode, tail, operands, hread, hguard, hword, ?_,
            hoperands, (Except.ok.inj h).symm⟩
          exact fun hnil => hne (List.isEmpty_iff.mpr hnil)
  · rintro ⟨addr, rest, guard, body, opcode, tail, operands, hread, hguard, hword, hne, hoperands,
      rfl⟩
    have hopcode : ¬ opcode.isEmpty = true := fun hnil => hne (List.isEmpty_iff.mp hnil)
    rw [Inst.parse, hread]
    simp only [hguard, hword, hoperands, if_neg hopcode]

/-- An instruction that a statement states is read from its own text. -/
theorem Stated.parse_eq (h : i.Stated) : Inst.parse i.render = .ok i := by
  have hfields : i = ⟨(i.addr.map String.toList).map String.ofList,
      (i.guard.map String.toList).map String.ofList, String.ofList i.opcode.toList,
      i.operands⟩ := by
    obtain ⟨addr, guard, opcode, operands⟩ := i
    simp only [Option.map_map, Function.comp_def, String.ofList_toList, Option.map_id']
  refine parse_eq_ok_iff.mpr ⟨i.addr.map String.toList, i.guardText ++ i.bodyText,
    i.guard.map String.toList, i.bodyText, i.opcode.toList, operandText i.operands, i.operands,
    ?_, h.readGuard_text, h.splitWord_body, h.opcode.nonempty, readAll_operandText h.operands,
    hfields⟩
  rw [h.tight_render.trim_eq, h.readAddr_render]

/-! ### What is read -/

theorem readAddr_cases {addr : Option (List Char)} {rest : List Char}
    (h : readAddr text = some (addr, rest)) (hhead : ∀ c ∈ text.head?, isBlank c = false) :
    (∀ c ∈ rest.head?, isBlank c = false) ∧
    (∀ a ∈ addr, Tight a ∧ ¬ ['*', '/'] <:+: a) ∧ (addr = none → ¬ ['/', '*'] <+: rest) := by
  unfold readAddr at h
  split at h
  next comment =>
    obtain ⟨⟨before, after⟩, hbreak, heq⟩ := Option.map_eq_some_iff.mp h
    obtain ⟨rfl, rfl⟩ := Prod.mk.inj heq
    refine ⟨head_trimStart, fun a ha => ?_, nofun⟩
    obtain rfl := Option.some.inj ha
    exact ⟨tight_trim before, fun hpair =>
      not_infix_of_breakAtPair hbreak (hpair.trans (isInfix_trim before))⟩
  next hcomment =>
    obtain ⟨rfl, rfl⟩ := Prod.mk.inj (Option.some.inj h)
    refine ⟨hhead, nofun, ?_⟩
    rintro - ⟨rest, rfl⟩
    exact hcomment rest rfl

theorem readGuard_cases {guard : Option (List Char)} {body : List Char}
    (h : readGuard text = (guard, body)) (hhead : ∀ c ∈ text.head?, isBlank c = false)
    (hne : body ≠ []) :
    (∀ c ∈ body.head?, isBlank c = false) ∧ (∀ g ∈ guard, IsWord g) ∧
    (guard = none → body = text ∧ text.head? ≠ some '@') := by
  unfold readGuard at h
  split at h
  next rest =>
    generalize hword : splitWord rest = w at h
    obtain ⟨g, after⟩ := w
    obtain ⟨rfl, rfl⟩ := Prod.mk.inj h
    refine ⟨head_rest_of_splitWord hword, fun w hw => ?_, nofun⟩
    obtain rfl := Option.some.inj hw
    exact isWord_of_splitWord hword fun hnil => hne (nil_of_splitWord (hnil ▸ hword))
  next hguard =>
    obtain ⟨rfl, rfl⟩ := Prod.mk.inj h
    refine ⟨hhead, nofun, fun _ => ⟨rfl, fun hat => ?_⟩⟩
    cases text with
    | nil => cases hat
    | cons c rest =>
      obtain rfl := Option.some.inj hat
      exact hguard rest rfl

theorem stated_of_parse {s : String} (h : Inst.parse s = .ok i) : i.Stated := by
  obtain ⟨addr, rest, guard, body, opcode, tail, operands, haddr, hguard, hword, hne, hoperands,
    rfl⟩ := parse_eq_ok_iff.mp h
  have hbody : body ≠ [] := by
    rintro rfl
    obtain ⟨rfl, -⟩ := Prod.mk.inj hword
    exact hne rfl
  obtain ⟨hrest, haddr, hplain⟩ := readAddr_cases haddr (tight_trim s.toList).head
  obtain ⟨hhead, hguard, hunguarded⟩ := readGuard_cases hguard hrest hbody
  have hfront := prefix_of_splitWord hword hhead
  refine ⟨fun a ha => ?_, fun g hg => ?_, ?_, fun hnoaddr hnoguard => ?_, fun hnoguard => ?_, ?_⟩
  · obtain ⟨chars, hchars, rfl⟩ := Option.map_eq_some_iff.mp ha
    rw [String.toList_ofList]
    exact haddr chars hchars
  · obtain ⟨chars, hchars, rfl⟩ := Option.map_eq_some_iff.mp hg
    rw [String.toList_ofList]
    exact hguard chars hchars
  · rw [String.toList_ofList]
    exact isWord_of_splitWord hword hne
  · obtain ⟨rfl, -⟩ := hunguarded (Option.map_eq_none_iff.mp hnoguard)
    rw [String.toList_ofList]
    exact fun hcomment => hplain (Option.map_eq_none_iff.mp hnoaddr) (hcomment.trans hfront)
  · obtain ⟨rfl, hat⟩ := hunguarded (Option.map_eq_none_iff.mp hnoguard)
    obtain ⟨behind, rfl⟩ := hfront
    rw [List.head?_append_of_ne_nil _ hne] at hat
    rwa [String.toList_ofList]
  · rw [String.toList_ofList]
    exact stated_of_readAll hoperands

theorem Stated.renameLabel (h : i.Stated) (name : String) (n : Nat) :
    (i.renameLabel name (FlowGraph.numberedName name n)).Stated where
  addr := h.addr
  guard := h.guard
  opcode := h.opcode
  unaddressed := h.unaddressed
  unguarded := h.unguarded
  operands := List.forall_mem_map.mpr fun o ho => (h.operands o ho).renameLabel name n

/-- An instruction that was read is read again from its text. So is the instruction with its
branches to some name turned into branches to the name with a number behind it: it mentions the same
registers, and each of its labels is quoted or bare as it was. -/
theorem parse_render {s : String} (h : Inst.parse s = .ok i) :
    Inst.parse i.render = .ok i ∧
    ∀ (name : String) (n : Nat),
      let renamed := i.renameLabel name (FlowGraph.numberedName name n)
      Inst.parse renamed.render = .ok renamed ∧ renamed.regs = i.regs ∧
      ∀ (k : Nat) (label : String) (bare : Bool),
        i.operands[k]? = some (.label label bare) →
        renamed.operands[k]? = some
          (.label (if label = name then FlowGraph.numberedName name n else label) bare) := by
  have hstated := stated_of_parse h
  refine ⟨hstated.parse_eq, fun name n => ?_⟩
  intro renamed
  refine ⟨(hstated.renameLabel name n).parse_eq, regs_renameLabel name _ i, ?_⟩
  intro k label bare hk
  change (i.operands.map _)[k]? = _
  rw [List.getElem?_map, hk]
  rfl

/-- A guarded branch with a quoted and a bare label. -/
def guardedBranch : Inst where
  addr := some "0048"
  guard := some "!P0"
  opcode := "BRA"
  operands := [.label "B" false, .label "B" true, .regs "[R4+0x10]" [⟨4, by decide⟩]]

theorem parse_render_guardedBranch :
    Inst.parse " /* 0048 */@ !P0\tBRA \x60(B) ,B,, [R4+0x10]" = .ok guardedBranch ∧
    Inst.parse guardedBranch.render = .ok guardedBranch ∧
    (let renamed := guardedBranch.renameLabel "B" "B_7"
     Inst.parse renamed.render = .ok renamed ∧ renamed.regs = guardedBranch.regs ∧
     renamed.operands[0]? = some (.label "B_7" false) ∧
     renamed.operands[1]? = some (.label "B_7" true)) := by
  have hparse : Inst.parse " /* 0048 */@ !P0\tBRA \x60(B) ,B,, [R4+0x10]" = .ok guardedBranch := by
    decide +kernel
  obtain ⟨hsame, hrenamed⟩ := parse_render hparse
  obtain ⟨hread, hregs, hlabels⟩ := hrenamed "B" 7
  exact ⟨hparse, hsame, hread, hregs, hlabels 0 "B" false rfl, hlabels 1 "B" true rfl⟩

end Inst

end KernelIntervals
