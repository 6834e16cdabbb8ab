/-
Coarsening until it no longer helps ends, and then nothing is left to fold.

* `Settles` — numbers that descend until one is there twice,
* `coarsenToFixpoint_induction` — what every pass keeps holds of what all passes return,
* `Groupable`, `Groupable.coarsen`, `Groupable.next` — a list over which a pass returns
  intervals, and the list that it returns is another,
* `Groupable.copied` — a pass with nothing to fold makes a copy of the list,
* `Groupable.unfoldable` — a pass that does not lower the number of intervals leaves nothing
  to fold,
* `Converged`, `Groupable.converged` — what all passes over such a list come to,
* `converge_settles` — the passes over the intervals of a first pass end well, and
  lower their number until the last one keeps it,
* `converge_fixed` — in what they return nothing can be folded, and another pass would make
  a copy of it.

Design notes: the passes stop when a number is there twice, not when nothing could be
folded. That the first comes to the second takes three steps: a pass that kept the number
had nothing to fold, so it made a copy of its list, and a copy has nothing to fold either.
-/
import KernelIntervals.Proofs.Copies

namespace KernelIntervals

/-- Every number is lower than the one before, but for the last one, which is the same. -/
def Settles (counts : List Nat) : Prop :=
  ∃ front last, counts = front ++ [last, last] ∧ (front ++ [last]).IsChain (· > ·)

/-- A pass can group the intervals, and their registers fit. -/
structure Groupable (budget : Nat) (g : FlowGraph) (intervals : List IntervalId) : Prop where
  valid : Valid g intervals
  fits : ∀ i ∈ intervals, Fits budget (g.regs .interval i)

/-- What the passes over some intervals come to, after `done` passes before: the `rounds`,
and the intervals of the last of them, which have no room for each other in the graph
that it leaves. -/
structure Converged (budget : Nat) (scope : UnionScope) (done : Nat)
    (intervals : List IntervalId) (rounds : List Round) (fp : Fixpoint) (g : FlowGraph) :
    Prop where
  iterations : fp.iterations = done + rounds.length
  last : rounds.getLast?.map Round.intervals = some fp.intervals
  settles : Settles (intervals.length :: rounds.map (·.intervals.length))
  length_le : rounds.length ≤ max 1 intervals.length
  groupable : Groupable budget g fp.intervals
  unfoldable : Unfoldable budget scope g fp.intervals

variable {budget done : Nat} {scope : UnionScope} {watch : Round → Option IntervalError}
  {intervals coarser : List IntervalId} {rounds : List Round} {round : Round} {fp : Fixpoint}
  {g : FlowGraph} {w w' : Workspace}

theorem Settles.twice (c : Nat) : Settles [c, c] := ⟨[], c, rfl, .singleton c⟩

theorem Settles.cons {c d : Nat} {counts : List Nat} (h : Settles (d :: counts)) (hlt : d < c) :
    Settles (c :: d :: counts) := by
  obtain ⟨front, last, heq, hchain⟩ := h
  refine ⟨c :: front, last, congrArg (c :: ·) heq, ?_⟩
  cases front with
  | nil =>
    injection heq with heq _
    exact .cons_cons (heq ▸ hlt) hchain
  | cons x front =>
    injection heq with heq _
    exact .cons_cons (heq ▸ hlt) hchain

/-! ### One pass after another -/

/-- What every pass keeps holds of what the passes return. -/
theorem coarsenToFixpoint_induction {P : FlowGraph → List IntervalId → Prop}
    (hstep : ∀ intervals coarser w w', P w.graph intervals →
      Pass.coarsen budget scope intervals w = .ok coarser w' → P w'.graph coarser)
    (hok : (coarsenToFixpoint budget scope watch done intervals w).2 = .ok fp w')
    (hstart : P w.graph intervals) : P w'.graph fp.intervals := by
  fun_induction coarsenToFixpoint budget scope watch done intervals w with
  | case1 => injection hok
  | case2 => injection hok
  | case3 done intervals w coarser w₁ hpass round w₂ hsilent hless rounds result hrest ih =>
    have hnext : P w₁.graph coarser := hstep _ _ _ _ hstart hpass
    refine ih ?_ hnext
    rw [hrest]
    exact hok
  | case4 done intervals w coarser w₁ hpass round w₂ hsilent hless =>
    injection hok with hfp hw
    subst hfp hw
    have hlast : P w₁.graph coarser := hstep _ _ _ _ hstart hpass
    exact hlast

namespace Groupable

variable (h : Groupable budget w.graph intervals)

include h

theorem coarsen (scope : UnionScope) (hbudget : 1 ≤ budget) :
    ∃ coarser w', Pass.coarsen budget scope intervals w = .ok coarser w' :=
  (h.valid.coarsen_isOk_iff scope hbudget).mpr h.fits

variable (hok : Pass.coarsen budget scope intervals w = .ok coarser w')

include hok

theorem next : Groupable budget w'.graph coarser := by
  obtain ⟨_, opener, hend⟩ := h.valid.coarsen_eq_ok hok
  exact ⟨hend.valid, hend.fits⟩

/-- A pass over intervals returns intervals. -/
theorem length_pos (hpos : 0 < intervals.length) : 0 < coarser.length := by
  obtain ⟨i, hi⟩ := List.exists_mem_of_length_pos hpos
  obtain ⟨j, ⟨hj, _⟩, _⟩ := (h.valid.coarsened hok).owner i hi
  exact List.length_pos_of_mem hj

/-- If there is nothing to fold, a pass makes a copy of every interval. -/
theorem copied (hu : Unfoldable budget scope w.graph intervals) :
    ∃ copy, Copied w.graph intervals w'.graph coarser copy :=
  h.valid.copied hok (h.valid.apart_of_unfoldable h.fits hu hok)

/-- A pass that kept the number of intervals leaves nothing to fold. -/
theorem unfoldable (hlen : intervals.length ≤ coarser.length) :
    Unfoldable budget scope w'.graph coarser := by
  have hu : Unfoldable budget scope w.graph intervals := h.valid.unfoldable_of_length hok hlen
  obtain ⟨copy, hcopied⟩ := h.copied hok hu
  exact hcopied.unfoldable h.valid.closed hu

/-! ### All passes -/

/-- A pass that kept the number of intervals is the last one. -/
theorem converged_last (hlen : ¬ coarser.length < intervals.length)
    (hround : round.intervals = coarser) :
    Converged budget scope done intervals [round] ⟨coarser, done + 1⟩ w'.graph where
  iterations := rfl
  last := congrArg some hround
  settles := by
    have hle := (h.valid.coarsened hok).length_le
    have heq : coarser.length = intervals.length := by omega
    rw [List.map_singleton, hround, heq]
    exact .twice _
  length_le := Nat.le_max_left ..
  groupable := h.next hok
  unfoldable := h.unfoldable hok (Nat.le_of_not_lt hlen)

/-- A pass that lowered the number of intervals comes before those over what it made. -/
theorem converged_cons (hlen : coarser.length < intervals.length)
    (hround : round.intervals = coarser)
    (hrest : Converged budget scope (done + 1) coarser rounds fp g) :
    Converged budget scope done intervals (round :: rounds) fp g where
  iterations := by
    rw [hrest.iterations, List.length_cons]
    omega
  last := by
    obtain ⟨r, hr, hlast⟩ := Option.map_eq_some_iff.mp hrest.last
    rw [List.getLast?_cons, hr, ← hlast]
    rfl
  settles := by
    rw [List.map_cons, hround]
    exact hrest.settles.cons hlen
  length_le := by
    have hpos := h.length_pos hok (by omega)
    have hle := hrest.length_le
    rw [List.length_cons]
    omega
  groupable := hrest.groupable
  unfoldable := hrest.unfoldable

end Groupable

/-- The passes over intervals end well if nobody objects. -/
theorem Groupable.converged (h : Groupable budget w.graph intervals) (scope : UnionScope)
    (done : Nat) (hbudget : 1 ≤ budget) (hwatch : ∀ round, watch round = none) :
    ∃ fp w', (coarsenToFixpoint budget scope watch done intervals w).2 = .ok fp w' ∧
      Converged budget scope done intervals
        (coarsenToFixpoint budget scope watch done intervals w).1 fp w'.graph := by
  fun_induction coarsenToFixpoint budget scope watch done intervals w with
  | case1 done intervals w fault w₁ hpass =>
    obtain ⟨coarser, w', hok⟩ := h.coarsen scope hbudget
    rw [hpass] at hok
    injection hok
  | case2 done intervals w coarser w₁ hpass round w₂ objection hobjects =>
    rw [hwatch] at hobjects
    injection hobjects
  | case3 done intervals w coarser w₁ hpass round w₂ hsilent hless rounds result hrest ih =>
    have hnext : Groupable budget w₁.graph coarser := h.next hpass
    obtain ⟨fp, w', hresult, hconverged⟩ := ih hnext
    rw [hrest] at hresult hconverged
    exact ⟨fp, w', hresult, h.converged_cons hpass hless rfl hconverged⟩
  | case4 done intervals w coarser w₁ hpass round w₂ hsilent hless =>
    have hlast : Converged budget scope done intervals [round] ⟨coarser, done + 1⟩ w₁.graph :=
      h.converged_last hpass hless rfl
    exact ⟨_, _, rfl, hlast⟩

/-- The intervals of a first pass can be coarsened until it no longer helps. -/
theorem converge_ends {p : BlockGrouper} {blocks : List BlockId} {state : LoggedGraph}
    {ig : IntervalGraph} (scope : UnionScope) (hnodup : blocks.Nodup)
    (hrun : (p.run blocks state).result = .ok ig) :
    let passes := converge p.budget scope (fun _ => none) ig.intervals (p.run blocks state).state
    ∃ fp, passes.2.result = .ok fp ∧
      Converged p.budget scope 0 ig.intervals passes.1 fp passes.2.state.graph := by
  intro passes
  obtain ⟨hbudget, _⟩ := verify_of_run_eq_ok hrun
  obtain ⟨_, _, _, _, _, _, opener, hend⟩ := run_eq_ok hnodup hrun
  have hgroupable : Groupable p.budget ((p.run blocks state).state.workspace {}).graph
      ig.intervals := ⟨hend.valid, hend.fits⟩
  obtain ⟨fp, w, hok, hconverged⟩ :=
    hgroupable.converged scope 0 (Nat.pos_of_ne_zero hbudget) fun _ => rfl
  have hpasses : passes.2 = .ofResult (.ok fp w) := congrArg Outcome.ofResult hok
  rw [hpasses]
  exact ⟨fp, rfl, hconverged⟩

/-- Coarsening the intervals of a first pass within its budget ends well. Every pass lowers
the number of intervals but the last, which keeps it, and there is at least one pass and at
most one for every interval. -/
theorem converge_settles (p : BlockGrouper) (scope : UnionScope) (blocks : List BlockId)
    (state : LoggedGraph) (ig : IntervalGraph) (hnodup : blocks.Nodup)
    (hrun : (p.run blocks state).result = .ok ig) :
    let passes := converge p.budget scope (fun _ => none) ig.intervals (p.run blocks state).state
    ∃ fp, passes.2.result = .ok fp ∧ fp.iterations = passes.1.length ∧
      passes.1.getLast?.map Round.intervals = some fp.intervals ∧
      Settles (ig.intervals.length :: passes.1.map (·.intervals.length)) ∧
      1 ≤ fp.iterations ∧ fp.iterations ≤ max 1 ig.intervals.length := by
  intro passes
  obtain ⟨fp, hresult, hconverged⟩ := converge_ends scope hnodup hrun
  have hiterations : fp.iterations = passes.1.length :=
    hconverged.iterations.trans (Nat.zero_add _)
  refine ⟨fp, hresult, hiterations, hconverged.last, hconverged.settles, ?_, ?_⟩
  · rw [hiterations]
    obtain ⟨r, hr, _⟩ := Option.map_eq_some_iff.mp hconverged.last
    exact List.length_pos_of_mem (List.mem_of_getLast? hr)
  · rw [hiterations]
    exact hconverged.length_le

/-- Three intervals become two, which stay two. -/
theorem settles_carvedLoops :
    let state := (BlockGrouper.run ⟨4, {}⟩ [0, 1, 2] carvedLoops).state
    let passes := converge 4 .ancestors (fun _ => none) [0, 1, 2] state
    [0, 1, 2].Nodup ∧
    (BlockGrouper.run ⟨4, {}⟩ [0, 1, 2] carvedLoops).result = .ok ⟨[0, 1, 2, 3], [0, 1, 2]⟩ ∧
    passes.1.map (·.intervals) = [[3, 4], [5, 6]] ∧
    ∃ fp, passes.2.result = .ok fp ∧ fp.iterations = passes.1.length ∧
      passes.1.getLast?.map Round.intervals = some fp.intervals ∧
      Settles (3 :: passes.1.map (·.intervals.length)) ∧
      1 ≤ fp.iterations ∧ fp.iterations ≤ max 1 3 :=
  ⟨by decide, run_carvedLoops, by decide +kernel,
    converge_settles ⟨4, {}⟩ .ancestors [0, 1, 2] carvedLoops _ (by decide) run_carvedLoops⟩

/-- In what the passes over the intervals of a first pass return, no interval can be folded
into the only one before it. Another pass with the same budget and scope folds nothing: it
makes a copy of every interval, with the same registers, and edges between the copies. -/
theorem converge_fixed (p : BlockGrouper) (scope : UnionScope) (blocks : List BlockId)
    (state : LoggedGraph) (ig : IntervalGraph) (hnodup : blocks.Nodup)
    (hrun : (p.run blocks state).result = .ok ig) :
    let outcome :=
      (converge p.budget scope (fun _ => none) ig.intervals (p.run blocks state).state).2
    ∃ fp, outcome.result = .ok fp ∧
      Unfoldable p.budget scope outcome.state.graph fp.intervals ∧
      ∀ scratch : Scratch,
        let again := IntervalGrouper.run ⟨p.budget, scope, scratch⟩ fp.intervals outcome.state
        ∃ coarser copy, again.result = .ok coarser ∧ coarser.length = fp.intervals.length ∧
          Copied outcome.state.graph fp.intervals again.state.graph coarser copy := by
  intro outcome
  obtain ⟨hbudget, _⟩ := verify_of_run_eq_ok hrun
  obtain ⟨fp, hresult, hconverged⟩ := converge_ends scope hnodup hrun
  refine ⟨fp, hresult, hconverged.unfoldable, fun scratch => ?_⟩
  intro again
  have hgroupable : Groupable p.budget (outcome.state.workspace scratch).graph fp.intervals :=
    hconverged.groupable
  obtain ⟨coarser, w', hok⟩ := hgroupable.coarsen scope (Nat.pos_of_ne_zero hbudget)
  obtain ⟨copy, hcopied⟩ := hgroupable.copied hok hconverged.unfoldable
  have hagain : again = .ofResult (.ok coarser w') := congrArg Outcome.ofResult hok
  rw [hagain]
  exact ⟨coarser, copy, rfl, hcopied.length_eq, hcopied⟩

/-- The last of two intervals follows the other only, and there is no room for it. -/
theorem fixed_carvedLoops :
    let state := (BlockGrouper.run ⟨4, {}⟩ [0, 1, 2] carvedLoops).state
    let outcome := (converge 4 .ancestors (fun _ => none) [0, 1, 2] state).2
    [0, 1, 2].Nodup ∧
    (BlockGrouper.run ⟨4, {}⟩ [0, 1, 2] carvedLoops).result = .ok ⟨[0, 1, 2, 3], [0, 1, 2]⟩ ∧
    outcome.result = .ok ⟨[5, 6], 2⟩ ∧
    outcome.state.graph.preds .interval 6 = [5] ∧
    (IntervalGrouper.run ⟨4, .ancestors, {}⟩ [5, 6] outcome.state).result = .ok [7, 8] ∧
    ∃ fp, outcome.result = .ok fp ∧
      Unfoldable 4 .ancestors outcome.state.graph fp.intervals ∧
      ∀ scratch : Scratch,
        let again := IntervalGrouper.run ⟨4, .ancestors, scratch⟩ fp.intervals outcome.state
        ∃ coarser copy, again.result = .ok coarser ∧ coarser.length = fp.intervals.length ∧
          Copied outcome.state.graph fp.intervals again.state.graph coarser copy :=
  ⟨by decide, run_carvedLoops, by decide +kernel, by decide +kernel, by decide +kernel,
    converge_fixed ⟨4, {}⟩ .ancestors [0, 1, 2] carvedLoops _ (by decide) run_carvedLoops⟩

end KernelIntervals
