/-
Readers that do not look at lines.

* `SameTokens` — tokens that may be on other lines,
* `ReadError.eraseLine` — an error without its line,
* `Alike` — results that are the same, but for the lines in errors and in what is left,
* `Alike.bind` — readers one behind the other,
* `takeId_alike`, … , `statements_alike` — each reader gives the same for the same tokens,
* `ofTokens_alike` — so the graph that some tokens describe does not depend on their lines.

Design notes: a reader that calls itself has an equation without the facts that it ends by, and is
followed on both lists of tokens by induction on the length of one of them.
-/
import Mathlib.Data.List.Forall2
import KernelIntervals.Proofs.RoundTrip

namespace KernelIntervals.Dot

/-- The same tokens, on any lines. -/
abbrev SameTokens : List Located → List Located → Prop :=
  List.Forall₂ fun t t' => t.token = t'.token

/-- An error without its line. -/
def ReadError.eraseLine : ReadError → ReadError
  | unexpectedChar _ char => unexpectedChar 0 char
  | unterminatedString _ => unterminatedString 0
  | unexpectedToken _ expected found => unexpectedToken 0 expected found
  | unexpectedEnd expected => unexpectedEnd expected
  | duplicateNode name => duplicateNode name

/-- Two results that are related, or two errors that differ in their lines at most. -/
inductive Alike {α : Type} (R : α → α → Prop) : Except ReadError α → Except ReadError α → Prop
  | ok {a a' : α} (h : R a a') : Alike R (.ok a) (.ok a')
  | error {e e' : ReadError} (h : e.eraseLine = e'.eraseLine) : Alike R (.error e) (.error e')

/-- The same result, and the same tokens that are left. -/
inductive Leaves {α : Type} : α × List Located → α × List Located → Prop
  | mk (a : α) {rest rest' : List Located} (h : SameTokens rest rest') : Leaves (a, rest) (a, rest')

section Alike

variable {α β : Type} {R : α → α → Prop} {S : β → β → Prop} {x x' : Except ReadError α}
  {k k' : α → Except ReadError β} {f f' : α → β}

theorem bind_of_ok {a : α} (h : x = .ok a) : x >>= k = k a := by
  rw [h]
  rfl

theorem bind_of_error {e : ReadError} (h : x = .error e) : x >>= k = .error e := by
  rw [h]
  rfl

theorem Alike.bind (h : Alike R x x') (hk : ∀ a a', x = .ok a → R a a' → Alike S (k a) (k' a')) :
    Alike S (x >>= k) (x' >>= k') := by
  cases h with
  | ok h => exact hk _ _ rfl h
  | error h => exact .error h

theorem Alike.map (h : Alike R x x') (hf : ∀ a a', R a a' → S (f a) (f' a')) :
    Alike S (x.map f) (x'.map f') := by
  cases h with
  | ok h => exact .ok (hf _ _ h)
  | error h => exact .error h

theorem Alike.refl {S : β → β → Prop} (hS : ∀ b, S b b) (y : Except ReadError β) : Alike S y y := by
  cases y with
  | ok b => exact .ok (hS b)
  | error e => exact .error rfl

theorem Alike.mapError_eq {y y' : Except ReadError β} (h : Alike Eq y y') :
    y.mapError ReadError.eraseLine = y'.mapError ReadError.eraseLine := by
  cases h with
  | ok h => exact congrArg Except.ok h
  | error h => exact congrArg Except.error h

end Alike

variable {tokens tokens' : List Located} {token : Token} {expected : Expected}

/-! ### Single tokens -/

theorem unexpected_alike (h : SameTokens tokens tokens') :
    (unexpected expected tokens).eraseLine = (unexpected expected tokens').eraseLine := by
  cases h with
  | nil => rfl
  | cons ht _ => simp only [unexpected, ReadError.eraseLine, ht]

theorem takeId_alike (h : SameTokens tokens tokens') :
    Alike Leaves (takeId expected tokens) (takeId expected tokens') := by
  have herror := @unexpected_alike _ _ expected h
  unfold takeId
  cases h with
  | nil => exact .error herror
  | @cons t t' rest rest' ht hrest =>
    dsimp only
    rw [ht]
    cases t'.token.id? with
    | none => exact .error herror
    | some name => exact .ok (.mk name hrest)

theorem takeToken_alike (h : SameTokens tokens tokens') :
    Alike SameTokens (takeToken token expected tokens) (takeToken token expected tokens') := by
  have herror := @unexpected_alike _ _ expected h
  unfold takeToken
  cases h with
  | nil => exact .error herror
  | @cons t t' rest rest' ht hrest =>
    dsimp only
    rw [ht]
    split
    · exact .ok hrest
    · exact .error herror

theorem skip?_alike (token : Token) (h : SameTokens tokens tokens') :
    (skip? token tokens = none ∧ skip? token tokens' = none) ∨
    ∃ rest rest', skip? token tokens = some rest ∧ skip? token tokens' = some rest' ∧
      SameTokens rest rest' := by
  cases h with
  | nil => exact .inl ⟨rfl, rfl⟩
  | @cons t t' rest rest' ht hrest =>
    rw [skip?, skip?, ht]
    by_cases htoken : t'.token = token
    · exact .inr ⟨rest, rest', if_pos htoken, if_pos htoken, hrest⟩
    · exact .inl ⟨if_neg htoken, if_neg htoken⟩

/-! ### Attributes -/

theorem skipSeparator_alike (h : SameTokens tokens tokens') :
    SameTokens (skipSeparator tokens) (skipSeparator tokens') := by
  unfold skipSeparator
  rcases skip?_alike .comma h with ⟨hnone, hnone'⟩ | ⟨rest, rest', hsome, hsome', hrest⟩
  · rw [hnone, hnone']
    rcases skip?_alike .semicolon h with ⟨hnone, hnone'⟩ | ⟨rest, rest', hsome, hsome', hrest⟩
    · rw [hnone, hnone']
      exact h
    · rw [hsome, hsome']
      exact hrest
  · rw [hsome, hsome']
    exact hrest

theorem takeAttribute_alike (h : SameTokens tokens tokens') :
    Alike Leaves (takeAttribute tokens) (takeAttribute tokens') := by
  unfold takeAttribute
  refine (takeId_alike h).bind ?_
  rintro _ _ - ⟨key, hkey⟩
  refine (takeToken_alike hkey).bind fun rest rest' _ hrest => ?_
  refine (takeId_alike hrest).bind ?_
  rintro _ _ - ⟨value, hvalue⟩
  exact .ok (.mk _ (skipSeparator_alike hvalue))

/-- One attribute, and those behind it. -/
theorem attributeList_of_none (h : skip? .closeBracket tokens = none) : attributeList tokens =
    takeAttribute tokens >>= fun r => (attributeList r.2).map fun q => (r.1 :: q.1, q.2) := by
  rw [attributeList.eq_def, h]
  dsimp only
  split
  next hattribute => rw [bind_of_error hattribute]
  next hattribute => rw [bind_of_ok hattribute]

theorem attributeList_of_some {rest : List Located} (h : skip? .closeBracket tokens = some rest) :
    attributeList tokens = .ok ([], rest) := by
  rw [attributeList.eq_def, h]

theorem attributeList_alike (h : SameTokens tokens tokens') :
    Alike Leaves (attributeList tokens) (attributeList tokens') := by
  induction hn : tokens.length using Nat.strongRecOn generalizing tokens tokens' with
  | ind n ih =>
    subst hn
    rcases skip?_alike .closeBracket h with ⟨hnone, hnone'⟩ | ⟨rest, rest', hsome, hsome', hrest⟩
    · rw [attributeList_of_none hnone, attributeList_of_none hnone']
      refine (takeAttribute_alike h).bind ?_
      rintro _ _ hattribute ⟨a, hrest⟩
      refine (ih _ (takeAttribute_length hattribute) hrest rfl).map ?_
      rintro _ _ ⟨as, hrest⟩
      exact .mk (a :: as) hrest
    · rw [attributeList_of_some hsome, attributeList_of_some hsome']
      exact .ok (.mk [] hrest)

/-- One attribute list, and those behind it. -/
theorem attributes_of_some {inner : List Located} (h : skip? .openBracket tokens = some inner) :
    attributes tokens =
      attributeList inner >>= fun r => (attributes r.2).map fun q => (r.1 ++ q.1, q.2) := by
  fun_cases attributes tokens with
  | case1 hnone => exact absurd (h.symm.trans hnone) nofun
  | case2 inner' hsome e hlist =>
    obtain rfl := Option.some.inj (h.symm.trans hsome)
    rw [bind_of_error hlist]
  | case3 inner' hsome as rest hlist =>
    obtain rfl := Option.some.inj (h.symm.trans hsome)
    rw [bind_of_ok hlist]

theorem attributes_alike (h : SameTokens tokens tokens') :
    Alike Leaves (attributes tokens) (attributes tokens') := by
  induction hn : tokens.length using Nat.strongRecOn generalizing tokens tokens' with
  | ind n ih =>
    subst hn
    rcases skip?_alike .openBracket h with ⟨hnone, hnone'⟩ | ⟨inner, inner', hsome, hsome', hinner⟩
    · rw [attributes_eq_nil hnone, attributes_eq_nil hnone']
      exact .ok (.mk [] h)
    · rw [attributes_of_some hsome, attributes_of_some hsome']
      refine (attributeList_alike hinner).bind ?_
      rintro _ _ hlist ⟨as, hrest⟩
      have hlt := Nat.lt_trans (attributeList_length hlist) (skip?_length hsome)
      refine (ih _ hlt hrest rfl).map ?_
      rintro _ _ ⟨bs, hrest⟩
      exact .mk (as ++ bs) hrest

/-! ### Statements -/

theorem nodeRef_alike (h : SameTokens tokens tokens') :
    Alike Leaves (nodeRef tokens) (nodeRef tokens') := by
  unfold nodeRef
  refine (takeId_alike h).bind ?_
  rintro _ _ - ⟨name, hname⟩
  dsimp only
  rcases skip?_alike .colon hname with ⟨hnone, hnone'⟩ | ⟨rest, rest', hsome, hsome', hrest⟩
  · rw [hnone, hnone']
    exact .ok (.mk _ hname)
  rw [hsome, hsome']
  refine (takeId_alike hrest).bind ?_
  rintro _ _ - ⟨port, hport⟩
  dsimp only
  rcases skip?_alike .colon hport with ⟨hnone, hnone'⟩ | ⟨rest, rest', hsome, hsome', hrest⟩
  · rw [hnone, hnone']
    exact .ok (.mk _ hport)
  rw [hsome, hsome']
  refine (takeId_alike hrest).bind ?_
  rintro _ _ - ⟨compass, hcompass⟩
  exact .ok (.mk _ hcompass)

/-- One edge, and those behind it. -/
theorem edgeChain_of_some {source : NodeRef} {inner : List Located}
    (h : skip? .arrow tokens = some inner) : edgeChain source tokens =
      nodeRef inner >>= fun r => (edgeChain r.1 r.2).map fun q =>
        (⟨source.name, source.port, r.1.name⟩ :: q.1, q.2) := by
  fun_cases edgeChain source tokens with
  | case1 hnone => exact absurd (h.symm.trans hnone) nofun
  | case2 inner' hsome e href =>
    obtain rfl := Option.some.inj (h.symm.trans hsome)
    rw [bind_of_error href]
  | case3 inner' hsome target rest href =>
    obtain rfl := Option.some.inj (h.symm.trans hsome)
    rw [bind_of_ok href]

theorem edgeChain_alike (source : NodeRef) (h : SameTokens tokens tokens') :
    Alike Leaves (edgeChain source tokens) (edgeChain source tokens') := by
  induction hn : tokens.length using Nat.strongRecOn
    generalizing source tokens tokens' with
  | ind n ih =>
    subst hn
    rcases skip?_alike .arrow h with ⟨hnone, hnone'⟩ | ⟨rest, rest', hsome, hsome', hrest⟩
    · rw [edgeChain_eq_nil hnone, edgeChain_eq_nil hnone']
      exact .ok (.mk [] h)
    · rw [edgeChain_of_some hsome, edgeChain_of_some hsome']
      refine (nodeRef_alike hrest).bind ?_
      rintro _ _ href ⟨target, hrest⟩
      have hlt := Nat.lt_trans (nodeRef_length href) (skip?_length hsome)
      refine (ih _ hlt target hrest rfl).map ?_
      rintro _ _ ⟨edges, hrest⟩
      exact .mk _ hrest

theorem startsWithKeyword_alike (keyword : String) (h : SameTokens tokens tokens') :
    startsWithKeyword keyword tokens = startsWithKeyword keyword tokens' := by
  cases h with
  | nil => rfl
  | @cons t t' rest rest' ht _ =>
    obtain ⟨token, line⟩ := t
    obtain ⟨token', line'⟩ := t'
    obtain rfl : token = token' := ht
    cases token <;> rfl

theorem defaults?_alike (h : SameTokens tokens tokens') :
    (defaults? tokens = none ∧ defaults? tokens' = none) ∨
    ∃ rest rest', defaults? tokens = some rest ∧ defaults? tokens' = some rest' ∧
      SameTokens rest rest' := by
  have hkeyword : ["node", "edge", "graph"].any (startsWithKeyword · tokens) =
      ["node", "edge", "graph"].any (startsWithKeyword · tokens') :=
    congrArg _ (funext fun keyword => startsWithKeyword_alike keyword h)
  cases h with
  | nil => exact .inl ⟨rfl, rfl⟩
  | @cons t t' _ _ ht hnext =>
    cases hnext with
    | nil => exact .inl ⟨rfl, rfl⟩
    | @cons u u' rest rest' hu hrest =>
      obtain ⟨token, line⟩ := u
      obtain ⟨token', line'⟩ := u'
      obtain rfl : token = token' := hu
      by_cases hopen : token = .openBracket
      · -- The rest are defaults if there is a keyword before it, on any line.
        rw [hopen] at hkeyword ⊢
        rw [defaults?, defaults?, hkeyword]
        split
        · exact .inr ⟨_, _, rfl, rfl, .cons rfl hrest⟩
        · exact .inl ⟨rfl, rfl⟩
      · have hnone : ∀ t line rest, defaults? (t :: ⟨token, line⟩ :: rest) = none := by
          intro t line rest
          unfold defaults?
          split
          next heq =>
            exact absurd (Located.mk.inj (List.cons.inj (List.cons.inj heq).2).1).1 hopen
          next => rfl
        exact .inl ⟨hnone t line rest, hnone t' line' rest'⟩

theorem statement_alike (g : Graph) (h : SameTokens tokens tokens') :
    Alike Leaves (statement g tokens) (statement g tokens') := by
  unfold statement
  rcases defaults?_alike h with ⟨hnone, hnone'⟩ | ⟨rest, rest', hsome, hsome', hrest⟩
  · rw [hnone, hnone']
    dsimp only
    refine (nodeRef_alike h).bind ?_
    rintro _ _ - ⟨ref, href⟩
    dsimp only
    rcases skip?_alike .equals href with ⟨hnone, hnone'⟩ | ⟨rest, rest', hsome, hsome', hrest⟩
    · rw [hnone, hnone']
      dsimp only
      refine (edgeChain_alike ref href).bind ?_
      rintro _ _ - ⟨edges, hedges⟩
      refine (attributes_alike hedges).bind ?_
      rintro _ _ - ⟨attrs, hattrs⟩
      dsimp only
      split
      · refine (Alike.refl (fun _ => rfl) _ : Alike Eq _ _).bind ?_
        rintro g _ - rfl
        exact .ok (.mk g hattrs)
      · exact .ok (.mk _ hattrs)
    · rw [hsome, hsome']
      refine (takeId_alike hrest).bind ?_
      rintro _ _ - ⟨value, hvalue⟩
      exact .ok (.mk g hvalue)
  · rw [hsome, hsome']
    refine (attributes_alike hrest).map ?_
    rintro _ _ ⟨attrs, hattrs⟩
    exact .mk g hattrs

/-! ### Graphs -/

theorem statements_cons_eq (g : Graph) (t : Located) (rest : List Located) :
    statements g (t :: rest) =
      if t.token = .closeBrace then .ok g
      else if t.token = .semicolon then statements g rest
      else statement g (t :: rest) >>= fun r => statements r.1 r.2 := by
  rw [statements.eq_def]
  dsimp only
  split
  · rfl
  split
  · rfl
  split
  next h => rw [h]; rfl
  next h => rw [h]; rfl

theorem statements_alike (g : Graph) (h : SameTokens tokens tokens') :
    Alike Eq (statements g tokens) (statements g tokens') := by
  induction hn : tokens.length using Nat.strongRecOn generalizing g tokens tokens' with
  | ind n ih =>
    subst hn
    cases h with
    | nil => exact Alike.refl (fun _ => rfl) _
    | @cons t t' rest rest' ht hrest =>
      rw [statements_cons_eq, statements_cons_eq, ht]
      split
      · exact .ok rfl
      split
      · exact ih _ (Nat.lt_succ_self _) g hrest rfl
      refine (statement_alike g (.cons ht hrest)).bind ?_
      rintro _ _ hstatement ⟨g', hleft⟩
      exact ih _ (statement_length hstatement) g' hleft rfl

theorem SameTokens.tail (h : SameTokens tokens tokens') : SameTokens tokens.tail tokens'.tail := by
  cases h with
  | nil => exact .nil
  | cons _ hrest => exact hrest

theorem graphKeyword_alike (h : SameTokens tokens tokens') :
    Alike SameTokens (graphKeyword tokens) (graphKeyword tokens') := by
  have hstrict : SameTokens (if startsWithKeyword "strict" tokens then tokens.tail else tokens)
      (if startsWithKeyword "strict" tokens' then tokens'.tail else tokens') := by
    rw [startsWithKeyword_alike "strict" h]
    split
    · exact h.tail
    · exact h
  unfold graphKeyword
  dsimp only
  generalize (if startsWithKeyword "strict" tokens = true then tokens.tail else tokens) = ts
    at hstrict ⊢
  generalize (if startsWithKeyword "strict" tokens' = true then tokens'.tail else tokens') = ts'
    at hstrict ⊢
  rw [startsWithKeyword_alike "digraph" hstrict, startsWithKeyword_alike "graph" hstrict]
  split
  · exact .ok hstrict.tail
  · exact .error (unexpected_alike hstrict)

theorem graphName_alike (h : SameTokens tokens tokens') :
    Alike Leaves (graphName tokens) (graphName tokens') := by
  unfold graphName
  rcases skip?_alike .openBrace h with ⟨hnone, hnone'⟩ | ⟨rest, rest', hsome, hsome', hrest⟩
  · rw [hnone, hnone']
    refine (takeId_alike h).map ?_
    rintro _ _ ⟨name, hrest⟩
    exact .mk (some name) hrest
  · rw [hsome, hsome']
    exact .ok (.mk none h)

/-- The graph that some tokens describe, or the error but for its line, does not depend on the lines
that the tokens are on. -/
theorem ofTokens_alike (h : SameTokens tokens tokens') :
    Alike Eq (Graph.ofTokens tokens) (Graph.ofTokens tokens') := by
  unfold Graph.ofTokens
  refine (graphKeyword_alike h).bind fun rest rest' _ hrest => ?_
  refine (graphName_alike hrest).bind ?_
  rintro _ _ - ⟨name, hname⟩
  refine (takeToken_alike hname).bind fun rest rest' _ hrest => ?_
  exact statements_alike { name } hrest

end KernelIntervals.Dot
