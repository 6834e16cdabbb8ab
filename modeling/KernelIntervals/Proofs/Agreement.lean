/-
Two steps that come to the same.

* `Agree` — two steps both end well or both break off, and what then holds of the two
  results and states,
* `Agree.bind`, `agree_forM`, `agree_drain` — steps one after the other, and loops,
* `agree_markAll` — two queries mark the same ancestors, in graphs that have the same
  predecessors up to a renumbering of the nodes.

Design notes: `Agree` speaks of the outcomes of two steps, not of the steps, so that the steps
need not be of one pass. It says nothing of a single step; with `Agree` to itself, a step ends
well or breaks off as described.
-/
import KernelIntervals.Proofs.Ends

namespace KernelIntervals

open Function

variable {σ τ α β γ δ : Type}

/-- Two steps both end well, as `ends` has it, or both break off, as `breaks` has it. -/
inductive Agree (ends : α → σ → β → τ → Prop) (breaks : Fault → σ → Fault → τ → Prop) :
    EStateM.Result Fault σ α → EStateM.Result Fault τ β → Prop
  | ends {a : α} {s : σ} {b : β} {t : τ} (h : ends a s b t) : Agree ends breaks (.ok a s) (.ok b t)
  | breaks {e : Fault} {s : σ} {f : Fault} {t : τ} (h : breaks e s f t) :
      Agree ends breaks (.error e s) (.error f t)

variable {ends ends' : α → σ → β → τ → Prop} {breaks breaks' : Fault → σ → Fault → τ → Prop}
  {s : σ} {t : τ}

theorem Agree.mono {x : EStateM.Result Fault σ α} {y : EStateM.Result Fault τ β}
    (h : Agree ends breaks x y) (hends : ∀ a s b t, ends a s b t → ends' a s b t)
    (hbreaks : ∀ e s f t, breaks e s f t → breaks' e s f t) : Agree ends' breaks' x y := by
  cases h with
  | ends h => exact .ends (hends _ _ _ _ h)
  | breaks h => exact .breaks (hbreaks _ _ _ _ h)

theorem Agree.mono_ends {x : EStateM.Result Fault σ α} {y : EStateM.Result Fault τ β}
    (h : Agree ends breaks x y) (hends : ∀ a s b t, ends a s b t → ends' a s b t) :
    Agree ends' breaks x y :=
  h.mono hends fun _ _ _ _ => id

/-- Two steps that end well agree. -/
theorem Ends.agree {x : EStateM Fault σ α} {y : EStateM Fault τ β} {post : α → σ → Prop}
    {post' : β → τ → Prop} (hx : Ends x s post) (hy : Ends y t post')
    (h : ∀ a s' b t', post a s' → post' b t' → ends a s' b t') :
    Agree ends breaks (x s) (y t) := by
  obtain ⟨a, s', hx, hpost⟩ := hx
  obtain ⟨b, t', hy, hpost'⟩ := hy
  rw [hx, hy]
  exact .ends (h a s' b t' hpost hpost')

/-! ### Steps -/

theorem agree_pure {a : α} {b : β} (h : ends a s b t) :
    Agree ends breaks ((pure a : EStateM Fault σ α) s) ((pure b : EStateM Fault τ β) t) :=
  .ends h

theorem Agree.bind {x : EStateM Fault σ γ} {y : EStateM Fault τ δ} {f : γ → EStateM Fault σ α}
    {g : δ → EStateM Fault τ β}
    (h : Agree (fun c s' d t' => Agree ends breaks (f c s') (g d t')) breaks (x s) (y t)) :
    Agree ends breaks ((x >>= f) s) ((y >>= g) t) := by
  show Agree ends breaks (EStateM.bind x f s) (EStateM.bind y g t)
  rw [EStateM.bind, EStateM.bind]
  generalize x s = r at h
  generalize y t = q at h
  cases h with
  | ends h => exact h
  | breaks h => exact .breaks h

theorem agree_modify {f : σ → σ} {g : τ → τ} {ends : Unit → σ → Unit → τ → Prop}
    (h : ends () (f s) () (g t)) :
    Agree ends breaks ((modify f : EStateM Fault σ Unit) s) ((modify g : EStateM Fault τ Unit) t) :=
  .ends h

theorem agree_get {ends : σ → σ → τ → τ → Prop} (h : ends s s t t) :
    Agree ends breaks ((get : EStateM Fault σ σ) s) ((get : EStateM Fault τ τ) t) :=
  .ends h

theorem agree_throw {e f : Fault} (h : breaks e s f t) :
    Agree ends breaks ((throw e : EStateM Fault σ α) s) ((throw f : EStateM Fault τ β) t) :=
  .breaks h

theorem agree_ite {c c' : Prop} [Decidable c] [Decidable c'] {x₁ x₂ : EStateM Fault σ α}
    {y₁ y₂ : EStateM Fault τ β} (hc : c' ↔ c) (h₁ : c → Agree ends breaks (x₁ s) (y₁ t))
    (h₂ : ¬c → Agree ends breaks (x₂ s) (y₂ t)) :
    Agree ends breaks ((if c then x₁ else x₂) s) ((if c' then y₁ else y₂) t) := by
  by_cases h : c
  · rw [if_pos h, if_pos (hc.mpr h)]
    exact h₁ h
  · rw [if_neg h, if_neg (mt hc.mp h)]
    exact h₂ h

/-- Steps for the elements of two lists, one after the other: what holds before a step depends
on the elements that are left. -/
theorem agree_forM {f : γ → EStateM Fault σ Unit} {g : δ → EStateM Fault τ Unit} {ρ : γ → δ}
    {P : List γ → σ → τ → Prop} {xs : List γ}
    (hstep : ∀ x xs s t, P (x :: xs) s t →
      Agree (fun _ s' _ t' => P xs s' t') breaks (f x s) (g (ρ x) t)) (h : P xs s t) :
    Agree (fun _ s' _ t' => P [] s' t') breaks (xs.forM f s) ((xs.map ρ).forM g t) := by
  induction xs generalizing s t with
  | nil => exact agree_pure h
  | cons x xs ih =>
    exact ((hstep x xs s t h).mono_ends fun _ s' _ t' h' => ih h').bind

/-- What every step keeps is kept by all. -/
theorem agree_forM_inv {f : γ → EStateM Fault σ Unit} {g : δ → EStateM Fault τ Unit} {ρ : γ → δ}
    {P : σ → τ → Prop} {xs : List γ}
    (hstep : ∀ x ∈ xs, ∀ s t, P s t →
      Agree (fun _ s' _ t' => P s' t') breaks (f x s) (g (ρ x) t)) (h : P s t) :
    Agree (fun _ s' _ t' => P s' t') breaks (xs.forM f s) ((xs.map ρ).forM g t) := by
  have hall : Agree (fun _ s' _ t' => P s' t' ∧ ∀ x ∈ ([] : List γ), x ∈ xs) breaks (xs.forM f s)
      ((xs.map ρ).forM g t) := by
    refine agree_forM (P := fun ys s t => P s t ∧ ∀ y ∈ ys, y ∈ xs) ?_ ⟨h, fun _ hx => hx⟩
    intro x ys s t ⟨h, hys⟩
    refine (hstep x (hys x List.mem_cons_self) s t h).mono_ends fun _ s' _ t' h' => ⟨h', ?_⟩
    exact fun y hy => hys y (List.mem_cons_of_mem x hy)
  exact hall.mono_ends fun _ _ _ _ h => h.1

/-! ### Steps of a pass -/

namespace Pass

variable {w w' : Workspace} {ends : α → Workspace → β → Workspace → Prop}
  {breaks : Fault → Workspace → Fault → Workspace → Prop}

theorem agree_survey {look : Workspace → Option α} {look' : Workspace → Option β} {a : α} {b : β}
    (hlook : look w = some a) (hlook' : look' w' = some b) (h : ends a w b w') :
    Agree ends breaks (survey look w) (survey look' w') := by
  have hseen : Ends (survey look) w fun c u => c = a ∧ u = w := ends_survey hlook ⟨rfl, rfl⟩
  have hseen' : Ends (survey look') w' fun c u => c = b ∧ u = w' := ends_survey hlook' ⟨rfl, rfl⟩
  refine hseen.agree hseen' ?_
  rintro _ _ _ _ ⟨rfl, rfl⟩ ⟨rfl, rfl⟩
  exact h

theorem agree_query {look : FlowGraph → Option α} {look' : FlowGraph → Option β} {a : α} {b : β}
    (hlook : look w.graph = some a) (hlook' : look' w'.graph = some b) (h : ends a w b w') :
    Agree ends breaks (query look w) (query look' w') := by
  show Agree ends breaks (survey (fun w => look w.graph) w) (survey (fun w => look' w.graph) w')
  exact agree_survey hlook hlook' h

/-- Two changes of the graph agree if they do so on the graphs. -/
theorem agree_edit {change : Edit α} {change' : Edit β}
    (h : Agree (fun a g b g' => ends a { w with graph := g } b { w' with graph := g' })
      (fun e g f g' => breaks e { w with graph := g } f { w' with graph := g' })
      (change w.graph) (change' w'.graph)) :
    Agree ends breaks (edit change w) (edit change' w') := by
  rw [edit, edit]
  generalize change w.graph = r at h
  generalize change' w'.graph = q at h
  cases h with
  | ends h => exact .ends h
  | breaks h => exact .breaks h

end Pass

namespace Pass

/-- Two intervals that exist are changed. -/
theorem agree_updateInterval {i i' : IntervalId} {f f' : Interval → Interval} {v v' : Interval}
    {w w' : Workspace} {ends : Unit → Workspace → Unit → Workspace → Prop}
    {breaks : Fault → Workspace → Fault → Workspace → Prop} (hv : w.graph.interval? i = some v)
    (hv' : w'.graph.interval? i' = some v')
    (h : ends () { w with graph := w.graph.modifyInterval i f } ()
      { w' with graph := w'.graph.modifyInterval i' f' }) :
    Agree ends breaks (edit (Edit.updateInterval i f) w) (edit (Edit.updateInterval i' f') w') := by
  have hends : Ends (Edit.updateInterval i f) w.graph fun _ g => g = w.graph.modifyInterval i f :=
    Edit.ends_updateInterval hv rfl
  have hends' : Ends (Edit.updateInterval i' f') w'.graph fun _ g =>
      g = w'.graph.modifyInterval i' f' := Edit.ends_updateInterval hv' rfl
  refine agree_edit (hends.agree hends' ?_)
  rintro _ _ _ _ rfl rfl
  exact h

/-- Marking ancestors agrees if the queries do. -/
theorem agree_markAncestors {l l' : Level} {n n' : Nat} {w w' : Workspace}
    {ends : Unit → Marker → Unit → Marker → Prop} {breaks : Fault → Marker → Fault → Marker → Prop}
    (h : Agree ends breaks (Marker.mark (w.graph.predTable l) n w.marker)
      (Marker.mark (w'.graph.predTable l') n' w'.marker)) :
    Agree (fun _ u _ u' => ∃ m m', ends () m () m' ∧ u = { w with marker := m } ∧
        u' = { w' with marker := m' })
      (fun e u f u' => ∃ m m', breaks e m f m' ∧ u = { w with marker := m } ∧
        u' = { w' with marker := m' })
      (markAncestors l n w) (markAncestors l' n' w') := by
  rw [markAncestors, markAncestors]
  generalize Marker.mark (w.graph.predTable l) n w.marker = r at h
  generalize Marker.mark (w'.graph.predTable l') n' w'.marker = r' at h
  cases h with
  | @ends _ m _ m' h => exact .ends ⟨m, m', h, rfl, rfl⟩
  | @breaks e m f m' h => exact .breaks ⟨m, m', h, rfl, rfl⟩

end Pass

/-! ### The worklist -/

/-- The loop breaks off where a visit does. -/
theorem drain_of_error {v : Visit} {w w' : Workspace} {n : Nat} {rest : List Nat} {e : Fault}
    (hwork : w.worklist = n :: rest)
    (hvisit : v.visit n { w with worklist := rest } = .error e w') : drain v w = .error e w' := by
  rw [drain]
  split
  next hnil =>
    rw [hwork] at hnil
    injection hnil
  next n' rest' hwork' =>
    rw [hwork] at hwork'
    injection hwork' with hn hrest
    subst hn hrest
    split
    next e' w₁ herror =>
      rw [hvisit] at herror
      injection herror with he hw
      rw [he, hw]
    next w₁ hok =>
      rw [hvisit] at hok
      injection hok

/-- Two loops whose visits agree do so in the end, with nothing left that waits. -/
theorem agree_drain {v v' : Visit} (ρ : Nat → Nat) {P : Workspace → Workspace → Prop}
    {breaks : Fault → Workspace → Fault → Workspace → Prop} {w w' : Workspace}
    (hworklist : ∀ w w', P w w' → w'.worklist = w.worklist.map ρ)
    (hstep : ∀ n rest w w', w.worklist = n :: rest → P w w' →
      Agree (fun _ u _ u' => P u u') breaks (v.visit n { w with worklist := rest })
        (v'.visit (ρ n) { w' with worklist := rest.map ρ }))
    (h : P w w') : Agree (fun _ u _ u' => P u u' ∧ u.worklist = []) breaks (drain v w)
      (drain v' w') := by
  fun_induction drain v w generalizing w' with
  | case1 w hwork =>
    have hwork' : w'.worklist = [] := by rw [hworklist w w' h, hwork, List.map_nil]
    rw [drain_of_nil hwork']
    exact .ends ⟨h, hwork⟩
  | case2 w n rest hwork e w₁ hvisit =>
    have hwork' : w'.worklist = ρ n :: rest.map ρ := by rw [hworklist w w' h, hwork, List.map_cons]
    have hagree := hstep n rest w w' hwork h
    rw [hvisit] at hagree
    generalize hvisit' : v'.visit (ρ n) { w' with worklist := rest.map ρ } = r at hagree
    cases hagree with
    | breaks hb =>
      rw [drain_of_error hwork' hvisit']
      exact .breaks hb
  | case3 w n rest hwork w₁ hvisit _ ih =>
    have hwork' : w'.worklist = ρ n :: rest.map ρ := by rw [hworklist w w' h, hwork, List.map_cons]
    have hagree := hstep n rest w w' hwork h
    rw [hvisit] at hagree
    generalize hvisit' : v'.visit (ρ n) { w' with worklist := rest.map ρ } = r at hagree
    cases hagree with
    | ends hp =>
      rw [drain_of_cons hwork' hvisit']
      exact ih hp

/-! ### Marks -/

section Marks

variable {known : Nat → Prop} {ρ : Nat → Nat} {preds preds' : Array (List Nat)} {m m' : Marker}

/-- The marks of known nodes are the same in both markers. -/
def SameMarks (known : Nat → Prop) (ρ : Nat → Nat) (m m' : Marker) : Prop :=
  ∀ n, known n → m'.isMarked (ρ n) = m.isMarked n

theorem SameMarks.stamp (h : SameMarks known ρ m m') (hρ : Injective ρ) (hgen : m.generation ≠ 0)
    (hgen' : m'.generation ≠ 0) (n : Nat) : SameMarks known ρ (m.stamp n) (m'.stamp (ρ n)) := by
  intro k hk
  have hkn : (ρ k == ρ n) = (k == n) := by
    rw [Bool.eq_iff_iff, beq_iff_eq, beq_iff_eq]
    exact hρ.eq_iff
  rw [Marker.isMarked_stamp hgen, Marker.isMarked_stamp hgen', h k hk, hkn]

theorem SameMarks.unmarked (h : SameMarks known ρ m m') {ns : List Nat}
    (hns : ∀ n ∈ ns, known n) : m'.unmarked (ns.map ρ) = (m.unmarked ns).map ρ := by
  have hfilter : (ns.map ρ).filter (!m'.isMarked ·) = (ns.filter (!m.isMarked ·)).map ρ := by
    rw [List.filter_map]
    refine congrArg (List.map ρ) (List.filter_congr fun n hn => ?_)
    exact congrArg (!·) (h n (hns n hn))
  rw [Marker.unmarked, Marker.unmarked, hfilter, List.map_reverse]

/-- Two queries that start with the same marks end with the same marks, if the known nodes have
the same predecessors, all of them known. They break off only if a known node has no entry. -/
theorem agree_markAll (hρ : Injective ρ)
    (hrows : ∀ n, known n → preds'[ρ n]? = (preds[n]?).map (List.map ρ))
    (hknown : ∀ n ps, known n → preds[n]? = some ps → ∀ p ∈ ps, known p)
    (hgen : m.generation ≠ 0) (hgen' : m'.generation ≠ 0) (hmarks : SameMarks known ρ m m')
    {stack : List Nat} (hstack : ∀ n ∈ stack, known n) :
    Agree (fun _ u _ u' => SameMarks known ρ u u')
      (fun e _ f _ => f = e ∧ ∃ k, known k ∧ preds[k]? = none)
      (Marker.markAll preds m hgen stack) (Marker.markAll preds' m' hgen' (stack.map ρ)) := by
  fun_induction Marker.markAll preds m hgen stack generalizing m' with
  | case1 m =>
    rw [List.map_nil, Marker.markAll]
    exact .ends hmarks
  | case2 m hgen n stack hmark ih =>
    have hmark' : m'.isMarked (ρ n) = true := (hmarks n (hstack n List.mem_cons_self)).trans hmark
    rw [List.map_cons, Marker.markAll_of_marked hgen' hmark']
    exact ih hgen' hmarks fun x hx => hstack x (List.mem_cons_of_mem n hx)
  | case3 m hgen n stack hmark hn =>
    have hkn := hstack n List.mem_cons_self
    have hmark' : m'.isMarked (ρ n) = false := (hmarks n hkn).trans hmark
    have hn' : preds'[ρ n]? = none := by rw [hrows n hkn, hn, Option.map_none]
    rw [List.map_cons, Marker.markAll_of_missing hgen' hmark' hn']
    exact .breaks ⟨rfl, n, hkn, hn⟩
  | case4 m hgen n stack hmark ps hn _ _ ih =>
    have hkn := hstack n List.mem_cons_self
    have hmark' : m'.isMarked (ρ n) = false := (hmarks n hkn).trans hmark
    have hn' : preds'[ρ n]? = some (ps.map ρ) := by rw [hrows n hkn, hn, Option.map_some]
    have hps := hknown n ps hkn hn
    have hstamp := hmarks.stamp hρ hgen hgen' n
    rw [List.map_cons, Marker.markAll_of_unmarked hgen' hmark' hn', hstamp.unmarked hps,
      ← List.map_append]
    refine ih (show (m'.stamp (ρ n)).generation ≠ 0 from hgen') hstamp fun x hx => ?_
    -- The predecessors that go on the stack are known, as the node was.
    rcases List.mem_append.mp hx with hx | hx
    · exact hps x (Marker.mem_of_mem_unmarked hx)
    · exact hstack x (List.mem_cons_of_mem n hx)

/-- Two queries mark the same nodes, whatever was marked before. -/
theorem agree_mark (hρ : Injective ρ)
    (hrows : ∀ n, known n → preds'[ρ n]? = (preds[n]?).map (List.map ρ))
    (hknown : ∀ n ps, known n → preds[n]? = some ps → ∀ p ∈ ps, known p) {n : Nat}
    (hn : known n) (m m' : Marker) :
    Agree (fun _ u _ u' => SameMarks known ρ u u')
      (fun e _ f _ => f = e ∧ ∃ k, known k ∧ preds[k]? = none)
      (Marker.mark preds n m) (Marker.mark preds' (ρ n) m') := by
  have hmarks : SameMarks known ρ m.nextGeneration m'.nextGeneration := fun k _ => by
    rw [m.isMarked_nextGeneration, m'.isMarked_nextGeneration]
  exact agree_markAll hρ hrows hknown _ _ hmarks fun x hx => List.mem_singleton.mp hx ▸ hn

end Marks

end KernelIntervals
