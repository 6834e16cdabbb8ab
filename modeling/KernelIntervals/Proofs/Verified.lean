/-
What the check of a list of blocks decides.

* `Decides` — a check that is passed exactly if something holds, and is otherwise refused
  for a defect of the list,
* `WellFormed` — the blocks of a list exist, form a closed net, and are guarded by
  controlling blocks only,
* `FlowGraph.verify_decides` — the check of a list decides whether it is well formed,
* `FlowGraph.verify_exact` — said without nets, with what a refusal tells, and in any order,
* `WellFormed.congr` — this depends on the frames of the blocks only.

Design notes: the checks of links look blocks up, and are sure to find them because all
listed blocks were looked up before. So what a check decides is stated for lists whose
blocks exist, and the whole check decides that too.
-/
import KernelIntervals.Grouping.Blocks
import KernelIntervals.Proofs.Observe

namespace KernelIntervals

/-- A reason for which the check of a list of blocks refuses it. -/
def Malformed.IsDefect : Malformed → Prop
  | .unownedBlock _ | .unownedInterval _ | .objection _ => False
  | _ => True

/-- A check is passed exactly if `P` holds, and is otherwise refused for a defect. -/
inductive Decides (P : Prop) : Except Fault Unit → Prop
  | pass (h : P) : Decides P (.ok ())
  | refuse {reason : Malformed} (hnot : ¬ P) (hdefect : reason.IsDefect) :
      Decides P (.error (.interval (.malformed reason)))

namespace Decides

variable {P Q : Prop} {c : Except Fault Unit}

theorem ok_iff (h : Decides P c) : c = .ok () ↔ P := by
  cases h with
  | pass h => exact iff_of_true rfl h
  | refuse hnot _ =>
    refine iff_of_false (fun heq => ?_) hnot
    injection heq

/-- A check that is not passed names a defect. -/
theorem exists_defect (h : Decides P c) (hnot : ¬ P) :
    ∃ reason : Malformed, reason.IsDefect ∧ c = .error (.interval (.malformed reason)) := by
  cases h with
  | pass h => exact absurd h hnot
  | refuse _ hdefect => exact ⟨_, hdefect, rfl⟩

theorem congr (h : Decides P c) (hiff : P ↔ Q) : Decides Q c := propext hiff ▸ h

/-- A check after another one, which it may rely on. -/
theorem seq {d : Except Fault Unit} (hc : Decides P c) (hd : P → Decides Q d) :
    Decides (P ∧ Q) (c >>= fun _ => d) := by
  cases hc with
  | pass h => exact (hd h).congr (and_iff_right h).symm
  | refuse hnot hdefect => exact .refuse (fun h => hnot h.1) hdefect

/-- Checks of all elements of a list. -/
theorem forM {α : Type} {f : α → Except Fault Unit} {p : α → Prop} {xs : List α}
    (h : ∀ x ∈ xs, Decides (p x) (f x)) : Decides (∀ x ∈ xs, p x) (xs.forM f) := by
  induction xs with
  | nil => exact .pass fun x hx => absurd hx List.not_mem_nil
  | cons x xs ih =>
    have hrest := ih fun y hy => h y (List.mem_cons_of_mem x hy)
    exact ((h x List.mem_cons_self).seq fun _ => hrest).congr List.forall_mem_cons.symm

end Decides

theorem decides_require {condition : Bool} {reason : Malformed}
    (h : reason.IsDefect := by trivial) :
    Decides (condition = true) (require condition reason) := by
  cases condition with
  | true => exact .pass rfl
  | false => exact .refuse Bool.false_ne_true h

/-! ### Frames of blocks -/

/-- What the check of a list looks at in a block. -/
structure Frame where
  preds : List BlockId
  succs : List BlockId
  control : Option BlockId
  controlling : Bool

def Block.frame (b : Block) : Frame := ⟨b.preds, b.succs, b.control, b.controlling⟩

namespace FlowGraph

variable {g g' : FlowGraph} {n : BlockId} {listed : List BlockId}

/-- The frame of the block of an id. -/
def frame? (g : FlowGraph) (n : BlockId) : Option Frame := (g.block? n).map Block.frame

/-- A block that only decides whether a branch is taken. -/
def IsControlling (g : FlowGraph) (n : BlockId) : Prop := ∃ b, g.block? n = some b ∧ b.controlling

theorem frame?_of_block? {b : Block} (hb : g.block? n = some b) : g.frame? n = some b.frame := by
  rw [frame?, hb]
  rfl

theorem frame?_eq_none_iff : g.frame? n = none ↔ g.extent .block ≤ n :=
  Option.map_eq_none_iff.trans Arena.get?_eq_none_iff

theorem preds_eq_frame? : g.preds .block n = ((g.frame? n).map Frame.preds).getD [] := by
  rw [preds, see_block, frame?, Option.map_map]
  rfl

theorem succs_eq_frame? : g.succs .block n = ((g.frame? n).map Frame.succs).getD [] := by
  rw [succs, see_block, frame?, Option.map_map]
  rfl

theorem control_eq_frame? : (g.links n).control = (g.frame? n).bind Frame.control := by
  rw [links, frame?]
  cases g.block? n <;> rfl

theorem isControlling_iff : g.IsControlling n ↔ ∃ f, g.frame? n = some f ∧ f.controlling := by
  constructor
  · rintro ⟨b, hb, hcontrolling⟩
    exact ⟨b.frame, frame?_of_block? hb, hcontrolling⟩
  · rintro ⟨f, hf, hcontrolling⟩
    obtain ⟨b, hb, rfl⟩ := Option.map_eq_some_iff.mp hf
    exact ⟨b, hb, hcontrolling⟩

theorem frame?_modifyBlock {f : Block → Block} (hf : ∀ b, (f b).frame = b.frame) :
    (g.modifyBlock n f).frame? = g.frame? := by
  funext m
  rw [frame?, frame?, block?_modifyBlock]
  split
  · cases g.block? m with
    | none => rfl
    | some b => exact congrArg some (hf b)
  · rfl

theorem frame?_congr (h : g'.blocks = g.blocks) : g'.frame? = g.frame? := by
  funext m
  rw [frame?, frame?, block?, block?, h]

end FlowGraph

/-! ### Well-formed lists -/

/-- The blocks of a list exist, their edges lead to listed blocks and are recorded at both
ends, and their controlling blocks are marked as such. -/
structure WellFormed (g : FlowGraph) (listed : List BlockId) : Prop where
  exist : ∀ n ∈ listed, n < g.extent .block
  closed : (g.net .block listed).Closed
  guarded : ∀ n ∈ listed, ∀ c, (g.links n).control = some c → g.IsControlling c

variable {g g' : FlowGraph} {listed : List BlockId}

/-- Blocks with the same frames are well formed alike. -/
theorem WellFormed.congr (h : WellFormed g listed) (hframe : g'.frame? = g.frame?) :
    WellFormed g' listed := by
  have hnet : g'.net .block listed = g.net .block listed := by
    have hpreds : g'.preds .block = g.preds .block := by
      funext n
      rw [FlowGraph.preds_eq_frame?, FlowGraph.preds_eq_frame?, hframe]
    have hsuccs : g'.succs .block = g.succs .block := by
      funext n
      rw [FlowGraph.succs_eq_frame?, FlowGraph.succs_eq_frame?, hframe]
    rw [FlowGraph.net, FlowGraph.net, hpreds, hsuccs]
  refine ⟨fun n hn => ?_, hnet ▸ h.closed, fun n hn c hc => ?_⟩
  · rw [← Nat.not_le, ← FlowGraph.frame?_eq_none_iff, hframe, FlowGraph.frame?_eq_none_iff,
      Nat.not_le]
    exact h.exist n hn
  · rw [FlowGraph.control_eq_frame?, hframe, ← FlowGraph.control_eq_frame?] at hc
    rw [FlowGraph.isControlling_iff, hframe, ← FlowGraph.isControlling_iff]
    exact h.guarded n hn c hc

namespace FlowGraph

variable {n : BlockId} {b : Block}

theorem readBlock_eq (hb : g.block? n = some b) : g.readBlock n = .ok b := by
  rw [readBlock, hb]

/-- The edge to a successor is checked. -/
theorem verifySucc_decides (hex : ∀ n ∈ listed, n < g.extent .block) (s : BlockId) :
    Decides (s ∈ listed ∧ n ∈ g.preds .block s) (g.verifySucc listed n b s) := by
  refine .seq (.congr decides_require List.contains_iff_mem) fun hs => ?_
  obtain ⟨target, htarget⟩ : ∃ target, g.block? s = some target := Arena.exists_get? (hex s hs)
  rw [preds, see_of_block? htarget, readBlock_eq htarget]
  exact .congr decides_require List.contains_iff_mem

/-- The edge from a predecessor is checked. -/
theorem verifyPred_decides (hex : ∀ n ∈ listed, n < g.extent .block) (p : BlockId) :
    Decides (p ∈ listed ∧ n ∈ g.succs .block p) (g.verifyPred listed n b p) := by
  refine .seq (.congr decides_require List.contains_iff_mem) fun hp => ?_
  obtain ⟨source, hsource⟩ : ∃ source, g.block? p = some source := Arena.exists_get? (hex p hp)
  rw [succs, see_of_block? hsource, readBlock_eq hsource]
  exact .congr decides_require List.contains_iff_mem

/-- The controlling block is checked, and need not be listed. -/
theorem verifyControl_decides (b : Block) :
    Decides (∀ c, b.control = some c → g.IsControlling c) (g.verifyControl b) := by
  rw [verifyControl]
  cases b.control with
  | none =>
    refine .pass fun c hc => ?_
    injection hc
  | some c =>
    dsimp only
    cases hcontrol : g.block? c with
    | none =>
      have hnot : ¬ ∀ d, some c = some d → g.IsControlling d := by
        intro h
        obtain ⟨control, hsome, _⟩ := h c rfl
        rw [hcontrol] at hsome
        injection hsome
      exact .refuse hnot trivial
    | some control =>
      refine .congr decides_require ⟨?_, fun h => ?_⟩
      · rintro hcontrolling _ ⟨⟩
        exact ⟨control, hcontrol, hcontrolling⟩
      · obtain ⟨control', hsome, hcontrolling⟩ := h c rfl
        rw [hcontrol] at hsome
        injection hsome with heq
        rw [heq]
        exact hcontrolling

/-- The links of a listed block are checked. -/
theorem verifyBlock_decides (hex : ∀ n ∈ listed, n < g.extent .block) (hn : n ∈ listed) :
    Decides ((∀ s ∈ g.succs .block n, s ∈ listed ∧ n ∈ g.preds .block s) ∧
      (∀ p ∈ g.preds .block n, p ∈ listed ∧ n ∈ g.succs .block p) ∧
      ∀ c, (g.links n).control = some c → g.IsControlling c) (g.verifyBlock listed n) := by
  obtain ⟨b, hb⟩ : ∃ b, g.block? n = some b := Arena.exists_get? (hex n hn)
  have hsuccs : g.succs .block n = b.succs := see_of_block? hb _ _
  have hpreds : g.preds .block n = b.preds := see_of_block? hb _ _
  rw [verifyBlock, readBlock_eq hb, hsuccs, hpreds, links_of_block? hb]
  refine .seq (.forM fun s _ => verifySucc_decides hex s) fun _ => ?_
  exact .seq (.forM fun p _ => verifyPred_decides hex p) fun _ => verifyControl_decides b

/-- The check of a list decides whether its blocks are well formed. -/
theorem verify_decides (g : FlowGraph) (listed : List BlockId) :
    Decides (WellFormed g listed) (g.verify listed) := by
  have hexist : Decides (∀ n ∈ listed, n < g.extent .block)
      (listed.forM fun id => require (g.block? id).isSome (.missingBlock id)) := by
    refine .forM fun n _ => .congr decides_require ⟨fun h => ?_, fun h => ?_⟩
    · obtain ⟨b, hb⟩ := Option.isSome_iff_exists.mp h
      exact Arena.lt_size_of_get? hb
    · obtain ⟨b, hb⟩ : ∃ b, g.block? n = some b := Arena.exists_get? h
      exact Option.isSome_iff_exists.mpr ⟨b, hb⟩
  refine (hexist.seq fun hex => .forM fun n hn => verifyBlock_decides hex hn).congr ⟨?_, ?_⟩
  · rintro ⟨hex, hlinks⟩
    exact ⟨hex, ⟨fun hn hs => ((hlinks _ hn).1 _ hs).1, fun hn hs => ((hlinks _ hn).1 _ hs).2,
      fun hn hp => ((hlinks _ hn).2.1 _ hp).1, fun hn hp => ((hlinks _ hn).2.1 _ hp).2⟩,
      fun n hn => (hlinks n hn).2.2⟩
  · rintro ⟨hex, hc, hguarded⟩
    refine ⟨hex, fun n hn => ⟨fun s hs => ?_, fun p hp => ?_, hguarded n hn⟩⟩
    · exact ⟨hc.succ_mem hn hs, hc.mem_preds hn hs⟩
    · exact ⟨hc.pred_mem hn hp, hc.mem_succs hn hp⟩

theorem verify_eq_ok_iff : g.verify listed = .ok () ↔ WellFormed g listed :=
  (verify_decides g listed).ok_iff

/-- The blocks of a list that passes the check exist and form a closed net. -/
theorem verify_eq_ok (h : g.verify listed = .ok ()) :
    (∀ n ∈ listed, n < g.extent .block) ∧ (g.net .block listed).Closed :=
  have hw := verify_eq_ok_iff.mp h
  ⟨hw.exist, hw.closed⟩

end FlowGraph

/-- A list passes the check exactly if its blocks exist, each successor and each predecessor of one
is listed, edges are recorded at both ends, and all links to controlling blocks lead to such blocks.
A list that does not pass is refused for a defect, and the check never reads a block that does not
exist. Neither the order of the list nor repetitions matter. -/
theorem FlowGraph.verify_exact (g : FlowGraph) (listed : List BlockId) :
    (g.verify listed = .ok () ↔
      (∀ n ∈ listed, n < g.blocks.size) ∧
      (∀ n ∈ listed, (∀ s ∈ g.succs .block n, s ∈ listed) ∧ ∀ p ∈ g.preds .block n, p ∈ listed) ∧
      (∀ n ∈ listed, ∀ s ∈ listed, s ∈ g.succs .block n ↔ n ∈ g.preds .block s) ∧
      ∀ n ∈ listed, ∀ c, (g.links n).control = some c → g.IsControlling c) ∧
    (∀ fault, g.verify listed = .error fault →
      fault ≠ .dangling ∧ ∃ reason : Malformed, reason.IsDefect ∧
        fault = .interval (.malformed reason)) ∧
    ∀ listed', (∀ n, n ∈ listed' ↔ n ∈ listed) →
      (g.verify listed' = .ok () ↔ g.verify listed = .ok ()) := by
  have hexact : ∀ listed, g.verify listed = .ok () ↔
      (∀ n ∈ listed, n < g.blocks.size) ∧
      (∀ n ∈ listed, (∀ s ∈ g.succs .block n, s ∈ listed) ∧ ∀ p ∈ g.preds .block n, p ∈ listed) ∧
      (∀ n ∈ listed, ∀ s ∈ listed, s ∈ g.succs .block n ↔ n ∈ g.preds .block s) ∧
      ∀ n ∈ listed, ∀ c, (g.links n).control = some c → g.IsControlling c := by
    intro listed
    rw [verify_eq_ok_iff]
    constructor
    · rintro ⟨hexist, hclosed, hguarded⟩
      refine ⟨hexist, fun n hn => ⟨fun s hs => ?_, fun p hp => ?_⟩, fun n hn s hs => ?_, hguarded⟩
      · exact hclosed.succ_mem hn hs
      · exact hclosed.pred_mem hn hp
      · exact ⟨fun h => hclosed.mem_preds hn h, fun h => hclosed.mem_succs hs h⟩
    · rintro ⟨hexist, hlisted, hends, hguarded⟩
      -- The other end of an edge is listed, so the edge is recorded there too.
      refine ⟨hexist, ⟨fun hn hs => (hlisted _ hn).1 _ hs, fun hn hs => ?_,
        fun hn hp => (hlisted _ hn).2 _ hp, fun hn hp => ?_⟩, hguarded⟩
      · exact (hends _ hn _ ((hlisted _ hn).1 _ hs)).mp hs
      · exact (hends _ ((hlisted _ hn).2 _ hp) _ hn).mpr hp
  refine ⟨hexact listed, fun fault hfault => ?_, fun listed' hmem => ?_⟩
  · have hnot : ¬ WellFormed g listed := by
      intro h
      rw [verify_eq_ok_iff.mpr h] at hfault
      cases hfault
    obtain ⟨reason, hdefect, heq⟩ := (g.verify_decides listed).exists_defect hnot
    obtain rfl : fault = .interval (.malformed reason) := Except.error.inj (hfault.symm.trans heq)
    exact ⟨nofun, reason, hdefect, rfl⟩
  · rw [hexact, hexact]
    simp only [hmem]

/-- Two blocks with edges both ways, and one that guards the first of them. -/
def guardedPair : FlowGraph :=
  let block (name : String) (controlling : Bool) (control : Option BlockId) : Block :=
    { Block.ofInsts name [] with controlling, control }
  let blocks := [block "a" false (some 2), block "b" false none, block "c" true none]
  ((blocks.foldl FlowGraph.addBlock {}).link 0 1).link 1 0

theorem verify_guardedPair :
    guardedPair.verify [0, 1] = .ok () ∧ guardedPair.verify [1, 0, 0] = .ok () ∧
      (∃ reason : Malformed, reason.IsDefect ∧
        guardedPair.verify [1, 0, 7] = .error (.interval (.malformed reason))) ∧
      guardedPair.verify [0] ≠ .error .dangling := by
  obtain ⟨hok, -, hsame⟩ := guardedPair.verify_exact [0, 1]
  have hpass : guardedPair.verify [0, 1] = .ok () := by
    refine hok.mpr ⟨by decide, by decide, by decide, fun n hn c hc => ?_⟩
    have hall : ∀ n ∈ [0, 1], ∀ c ∈ (guardedPair.links n).control, c = 2 := by decide
    have hcontrolling : guardedPair.IsControlling 2 := ⟨_, rfl, rfl⟩
    exact hall n hn c hc ▸ hcontrolling
  have hrefused : ∃ fault, guardedPair.verify [1, 0, 7] = .error fault := ⟨_, rfl⟩
  obtain ⟨fault, hfault⟩ := hrefused
  obtain ⟨-, reason, hdefect, rfl⟩ := (guardedPair.verify_exact [1, 0, 7]).2.1 fault hfault
  refine ⟨hpass, (hsame [1, 0, 0] fun n => ?_).mpr hpass, ⟨reason, hdefect, hfault⟩, fun h => ?_⟩
  · simp [or_comm]
  · exact ((guardedPair.verify_exact [0]).2.1 _ h).1 rfl

/-- The check of a pass changes nothing. -/
theorem Pass.verifyBlocks_eq (listed : List BlockId) (w : Workspace) :
    Pass.verifyBlocks listed w = match w.graph.verify listed with
      | .ok _ => .ok () w
      | .error fault => .error fault w := by
  show (match w.graph.verify listed with | .ok _ => _ | .error fault => _ : Pass Unit) w = _
  cases w.graph.verify listed with
  | ok _ => rfl
  | error fault => rfl

end KernelIntervals
