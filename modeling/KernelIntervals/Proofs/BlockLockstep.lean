/-
Two first passes side by side.

* `Likeness.Splits` — a likeness that survives splits: instructions that correspond mention
  registers that correspond, and do so whatever their branch targets are renamed to,
* `splitPoint_agree`, `Kin.severed` — blocks that correspond are split at the same place, and
  their parts correspond,
* `Abreast.settle`, `Abreast.admission`, `Abreast.visitBlock` — first passes that are abreast
  remain so,
* `groupBlocksAbreast` — two first passes over well-formed graphs that correspond end alike.
-/
import KernelIntervals.Proofs.BlockMoves
import KernelIntervals.Proofs.Lockstep

namespace KernelIntervals

open Function List

/-! ### Splits -/

/-- What a likeness has to have if blocks are split. -/
structure Likeness.Splits (L : Likeness) : Prop where
  regs_insertAll : ∀ {s s' : RegSet} {i i' : Inst}, L.regs s s' → L.inst i i' →
    L.regs (s.insertAll i.regs) (s'.insertAll i'.regs)
  inst_rename : ∀ {i i' : Inst}, L.inst i i' → ∀ old new old' new' : String,
    L.inst (i.renameLabel old new) (i'.renameLabel old' new')

section Splits

variable {L : Likeness} {insts insts' : List Inst}

/-- Instructions that correspond have the same split point, with registers that correspond. -/
theorem splitPointFrom_agree (hL : L.Splits) (budget : Nat) (h : Forall₂ L.inst insts insts')
    {index : Nat} {s s' : RegSet} (hs : L.regs s s') :
    (splitPointFrom budget index s' insts').1 = (splitPointFrom budget index s insts).1 ∧
      L.regs (splitPointFrom budget index s insts).2 (splitPointFrom budget index s' insts').2 := by
  induction h generalizing index s s' with
  | nil => exact ⟨rfl, hs⟩
  | @cons i i' insts insts' hi _ ih =>
    have hnext := hL.regs_insertAll hs hi
    rw [splitPointFrom, splitPointFrom, L.size_eq hnext]
    by_cases hstop : 0 < index ∧ budget ≤ (s.insertAll i.regs).size
    · rw [if_pos hstop, if_pos hstop]
      exact ⟨rfl, hs⟩
    · rw [if_neg hstop, if_neg hstop]
      exact ih hnext

theorem splitPoint_agree (hL : L.Splits) (budget : Nat) (h : Forall₂ L.inst insts insts') :
    (splitPoint budget insts').1 = (splitPoint budget insts).1 ∧
      L.regs (splitPoint budget insts).2 (splitPoint budget insts').2 :=
  splitPointFrom_agree hL budget h L.regs_empty

theorem instRegs_agree (hL : L.Splits) (h : Forall₂ L.inst insts insts') :
    L.regs (instRegs insts) (instRegs insts') := by
  have hfold : ∀ s s', L.regs s s' →
      L.regs (s.insertAll (insts.flatMap Inst.regs)) (s'.insertAll (insts'.flatMap Inst.regs)) := by
    induction h with
    | nil => exact fun _ _ hs => hs
    | cons hi _ ih =>
      intro s s' hs
      rw [List.flatMap_cons, List.flatMap_cons, RegSet.insertAll, RegSet.insertAll,
        List.foldl_append, List.foldl_append]
      exact ih _ _ (hL.regs_insertAll hs hi)
  exact hfold ∅ ∅ L.regs_empty

end Splits

theorem mem_replaceAll {old new x : Nat} {ids : List Nat} (h : x ∈ replaceAll old new ids) :
    x ∈ ids ∨ x = new := by
  rw [replaceAll] at h
  split at h
  · exact .inl (List.mem_filter.mp h).1
  · obtain ⟨y, hy, rfl⟩ := List.mem_map.mp h
    split
    · exact .inr rfl
    · exact .inl hy

namespace Severed

variable {g g' : FlowGraph} {head : BlockId} {b : Block} {place : Nat} {running : RegSet}
  {name : String} (h : Severed g head b place running name g')

include h

theorem inputs_tail : g'.inputs g.blocks.size = ∅ := by
  rw [FlowGraph.inputs, h.tail_eq]
  rfl

/-- A cut leaves inputs as they are. -/
theorem inputs_of_ne (hb : g.block? head = some b) {x : BlockId} (hx : x ≠ g.blocks.size) :
    g'.inputs x = g.inputs x := by
  by_cases hxh : x = head
  · rw [hxh, FlowGraph.inputs, FlowGraph.inputs, h.head_eq, hb]
    show (if head ∈ b.succs then b.replacePred head g.blocks.size else b).inputs = b.inputs
    split <;> rfl
  · rw [FlowGraph.inputs, FlowGraph.inputs, h.other_eq x hxh hx]
    cases g.block? x with
    | none => rfl
    | some c =>
      show (if x ∈ b.succs then c.replacePred head g.blocks.size else c).inputs = c.inputs
      split <;> rfl

end Severed

namespace Node.Akin

variable {C : Kinship} {blocks blocks₁ : List BlockId} {g h : FlowGraph} {b b' : Block}
  {head tail : BlockId} {place : Nat}

/-- The predecessors of two blocks that correspond may be redirected. -/
theorem replacePred (hb : b.toNode.Akin C blocks g .block b'.toNode) (htail : tail ∈ blocks)
    (old : BlockId) :
    (b.replacePred old tail).toNode.Akin C blocks g .block (b'.replacePred old tail).toNode := by
  have hpreds : b'.preds = b.preds := hb.preds.trans (List.map_id _)
  refine ⟨hb.insts, hb.regs, ?_, hb.succs, hb.owner, fun p hp => ?_, hb.succ_known, hb.owner_new⟩
  · show replaceAll old tail b'.preds = (replaceAll old tail b.preds).map id
    rw [hpreds, List.map_id]
  · rcases mem_replaceAll hp with hp | rfl
    · exact hb.pred_known p hp
    · exact htail

/-- The first parts of two blocks that correspond. -/
theorem headPart (hb : b.toNode.Akin C blocks g .block b'.toNode) (htail : tail ∈ blocks)
    {running running' : RegSet} (hrunning : C.regs running running') (place : Nat) :
    (b.headPart place running tail).toNode.Akin C blocks g .block
      (b'.headPart place running' tail).toNode where
  insts := forall₂_take place hb.insts
  regs := hrunning
  preds := hb.preds
  succs := rfl
  owner := hb.owner
  pred_known := hb.pred_known
  succ_known := fun _ hs => List.mem_singleton.mp hs ▸ htail
  owner_new := hb.owner_new

/-- The second parts of two blocks that correspond. -/
theorem tailPart (hL : C.toLikeness.Splits) (hb : b.toNode.Akin C blocks g .block b'.toNode)
    (hhead : head ∈ blocks) (name name' : String) (place : Nat) :
    (b.tailPart name place head).toNode.Akin C blocks g .block
      (b'.tailPart name' place head).toNode := by
  have hinsts : Forall₂ C.inst ((b.insts.drop place).map (Inst.renameLabel b.name name))
      ((b'.insts.drop place).map (Inst.renameLabel b'.name name')) := by
    rw [forall₂_map_left_iff, forall₂_map_right_iff]
    exact (forall₂_drop place hb.insts).imp fun _ _ hi => hL.inst_rename hi _ _ _ _
  exact ⟨hinsts, instRegs_agree hL hinsts, rfl, hb.succs, rfl,
    fun _ hp => List.mem_singleton.mp hp ▸ hhead, hb.succ_known, fun _ hi => by injection hi⟩

end Node.Akin

/-! ### The same cut in two graphs -/

section Cut

variable {C : Kinship} {blocks : List BlockId} {g g' h h' : FlowGraph} {head n : BlockId}
  {b b' : Block} {place : Nat} {running running' : RegSet} {name name' : String}

/-- What was known is known after a cut. -/
theorem Severed.knows {l : Level} (hg : Severed g head b place running name h)
    (hn : C.Knows blocks g l n) : C.Knows (blocks ++ [g.blocks.size]) h l n := by
  cases l with
  | block => exact List.mem_append_left _ hn
  | interval => exact ⟨hg.intervals ▸ hn.1, hn.2⟩

/-- All that corresponded before a cut still does. -/
theorem Severed.akin {l : Level} {a a' : Node} (hg : Severed g head b place running name h)
    (ha : a.Akin C blocks g l a') : a.Akin C (blocks ++ [g.blocks.size]) h l a' :=
  ha.mono (fun _ hm => hg.knows hm) fun _ hi => ⟨hi.1, hg.intervals ▸ hi.2⟩

namespace Kin

variable (hk : Kin C blocks g g') (hb : g.block? head = some b) (hb' : g'.block? head = some b')
  (hg : Severed g head b place running name h) (hg' : Severed g' head b' place running' name' h')

include hk hg hg'

theorem interval_severed (hn : C.Knows blocks g .interval n) : ∃ a a',
    h.node? .interval n = some a ∧ h'.node? .interval (C.num .interval n) = some a' ∧
      a.Akin C (blocks ++ [g.blocks.size]) h .interval a' := by
  obtain ⟨a, a', ha, ha', hakin⟩ := hk.node .interval n hn
  refine ⟨a, a', ?_, ?_, hg.akin hakin⟩
  · rw [FlowGraph.node?, FlowGraph.interval?, hg.intervals]
    exact ha
  · rw [FlowGraph.node?, FlowGraph.interval?, hg'.intervals]
    exact ha'

include hb hb'

/-- The parts of two blocks that correspond do so, and so do the blocks behind them. -/
theorem block_severed (hL : C.toLikeness.Splits) (hhead : head ∈ blocks)
    (hrunning : C.regs running running') (hn : n ∈ blocks ++ [g.blocks.size]) : ∃ c c',
    h.block? n = some c ∧ h'.block? n = some c' ∧
      c.toNode.Akin C (blocks ++ [g.blocks.size]) h .block c'.toNode := by
  obtain ⟨c, c', hc, hc', hakin⟩ := hk.block hhead
  obtain rfl : b = c := Option.some.inj (hb.symm.trans hc)
  obtain rfl : b' = c' := Option.some.inj (hb'.symm.trans hc')
  have hsuccs : b'.succs = b.succs := hakin.succs.trans (List.map_id _)
  have hsize := hk.blocks_size
  have hakin := hg.akin hakin
  have htail : g.blocks.size ∈ blocks ++ [g.blocks.size] :=
    List.mem_append_right _ (List.mem_singleton_self _)
  by_cases hnt : n = g.blocks.size
  · rw [hnt]
    exact ⟨_, _, hg.tail_eq, hsize ▸ hg'.tail_eq,
      hakin.tailPart hL (List.mem_append_left _ hhead) name name' place⟩
  by_cases hnh : n = head
  · rw [hnh, hg.head_eq, hg'.head_eq, hsuccs, hsize]
    refine ⟨_, _, rfl, rfl, ?_⟩
    by_cases hself : head ∈ b.succs
    · rw [if_pos hself, if_pos hself]
      exact (hakin.replacePred htail head).headPart htail hrunning place
    · rw [if_neg hself, if_neg hself]
      exact hakin.headPart htail hrunning place
  · obtain ⟨c, c', hc, hc', hother⟩ := hk.block (Net.mem_of_ne_last hn hnt)
    have hother := hg.akin hother
    rw [hg.other_eq n hnh hnt, hg'.other_eq n hnh (hsize ▸ hnt), hc, hc', hsuccs, hsize,
      Option.map_some, Option.map_some]
    refine ⟨_, _, rfl, rfl, ?_⟩
    by_cases hnext : n ∈ b.succs
    · rw [if_pos hnext, if_pos hnext]
      exact hother.replacePred htail head
    · rw [if_neg hnext, if_neg hnext]
      exact hother

theorem inputs_severed (hn : n ∈ blocks ++ [g.blocks.size]) :
    C.regs (h.inputs n) (h'.inputs n) := by
  by_cases hnt : n = g.blocks.size
  · have hnt' : n = g'.blocks.size := hnt.trans hk.blocks_size.symm
    rw [hnt, hg.inputs_tail, ← hnt, hnt', hg'.inputs_tail]
    exact C.regs_empty
  · rw [hg.inputs_of_ne hb hnt, hg'.inputs_of_ne hb' (hk.blocks_size ▸ hnt)]
    exact hk.inputs n (Net.mem_of_ne_last hn hnt)

/-- Two graphs that correspond do so after the same cut in both. -/
theorem severed (hL : C.toLikeness.Splits) (hhead : head ∈ blocks)
    (hrunning : C.regs running running') : Kin C (blocks ++ [g.blocks.size]) h h' where
  blocks_size := by rw [hg.size, hg'.size, hk.blocks_size]
  intervals_size := by rw [hg.intervals, hg'.intervals, hk.intervals_size]
  base_le := hg.intervals ▸ hk.base_le
  node l n hn := by
    cases l with
    | block =>
      obtain ⟨c, c', hc, hc', hakin⟩ := hk.block_severed hb hb' hg hg' hL hhead hrunning hn
      exact ⟨_, _, congrArg (Option.map _) hc, congrArg (Option.map _) hc', hakin⟩
    | interval => exact hk.interval_severed hg hg' ⟨hg.intervals ▸ hn.1, hn.2⟩
  inputs _ hn := hk.inputs_severed hb hb' hg hg' hn

end Kin

end Cut

variable {C : Kinship} {p : Program} {w w' : Workspace} {n : BlockId} {i : IntervalId}
  {breaks : Fault → Workspace → Fault → Workspace → Prop}

namespace Abreast

variable (h : Abreast C p .block w w')

include h

/-! ### Settling -/

/-- Corresponding blocks are cut, and their tails are listed. -/
theorem severed {b b' : Block} {place : Nat} {running running' : RegSet} {name name' : String}
    {g g' : FlowGraph} (hL : C.toLikeness.Splits) (hn : n ∈ w.members)
    (hb : w.graph.block? n = some b) (hb' : w'.graph.block? n = some b')
    (hrunning : C.regs running running') (hg : Severed w.graph n b place running name g)
    (hg' : Severed w'.graph n b' place running' name' g') (log log' : Log) :
    Onward C p .block w
      { w with graph := g, log, members := w.members ++ [w.graph.blocks.size] }
      { w' with graph := g', log := log', members := w'.members ++ [w'.graph.blocks.size] } := by
  have howner := hg.owner hb
  have hnew : ∀ i, C.New w.graph i → C.New g i := fun i hi => ⟨hi.1, hg.intervals ▸ hi.2⟩
  have hknows : ∀ m, m ∈ w.members → m ∈ w.members ++ [w.graph.blocks.size] :=
    fun m hm => List.mem_append_left _ hm
  refine ⟨⟨h.kin.severed hb hb' hg hg' hL hn hrunning, ?_, h.opened, h.worklist, fun m hm => hm,
    fun m hm => ⟨hknows m (h.waiting m hm).1, ?_⟩, fun i hi => hnew i (h.made i hi), ?_⟩,
    hknows, hnew⟩
  · rw [List.map_append, ← h.members, h.kin.blocks_size]
    rfl
  · rw [howner]
    exact (h.waiting m hm).2
  · exact Upheld.trans h.past (h.past.wellFormed.upheld_severed hb hn hg)

/-- Corresponding blocks are split in the same way, or not at all. -/
theorem settle (hL : C.toLikeness.Splits) (budget : Nat) (hn : n ∈ w.members) :
    Agree (fun _ u _ u' => Onward C p .block w u u') breaks (Pass.settle budget n w)
      (Pass.settle budget n w') := by
  obtain ⟨b, b', hb, hb', hakin⟩ := h.kin.block hn
  have hsuccs : ∀ s ∈ b.succs, s < w.graph.blocks.size := h.past.wellFormed.succs_lt hn hb
  have hsuccs' : ∀ s ∈ b'.succs, s < w'.graph.blocks.size := by
    have heq : b'.succs = b.succs := hakin.succs.trans (List.map_id _)
    rw [heq, h.kin.blocks_size]
    exact hsuccs
  obtain ⟨hplace, hregs⟩ := splitPoint_agree hL budget hakin.insts
  refine (settle_ends budget hb hsuccs).agree (settle_ends budget hb' hsuccs') ?_
  intro _ u _ u' hset hset'
  cases hset with
  | whole hwhole =>
    cases hset' with
    | parted hparted => exact absurd (hplace.trans hwhole) (hparted ▸ Option.some_ne_none _)
    | whole =>
      refine h.change (h.kin.setOutputs n hregs) rfl rfl rfl rfl rfl rfl rfl (fun m hm => ?_)
        ⟨FlowGraph.frame?_modifyBlock fun _ => rfl, Arena.size_modify ..⟩
      rw [(alike_whole w n _).owner]
      exact hm
  | @parted place name g log hparted hg =>
    cases hset' with
    | whole hwhole => exact absurd (hplace.symm.trans hwhole) (hparted ▸ Option.some_ne_none _)
    | @parted place' name' g' log' hparted' hg' =>
      obtain rfl : place = place' :=
        Option.some.inj (hparted.symm.trans (hplace.symm.trans hparted'))
      have hcut := h.severed hL hn hb hb' hregs hg hg' log log'
      have htail : w.graph.blocks.size ∈ w.members ++ [w.graph.blocks.size] :=
        List.mem_append_right _ (List.mem_singleton_self _)
      have hopen := hcut.trans (hcut.abreast.openGroup (n := w.graph.blocks.size) htail)
      rw [h.kin.blocks_size] at hopen ⊢
      exact hopen

/-- Corresponding intervals get the registers of their members. -/
theorem syncRegs (hi : C.New w.graph i) : Agree (fun _ u _ u' => Onward C p .block w u u') breaks
    (Pass.syncRegs i w) (Pass.syncRegs (C.num .interval i) w') := by
  obtain ⟨regs, regs', hregs, hregs', hrel⟩ := h.kin.memberRegs .block i
    (fun _ => true) (fun _ => true) h.knows fun _ _ => rfl
  rw [← h.members] at hregs'
  exact Agree.bind (Pass.agree_survey hregs hregs' (h.setRegs hi hrel))

/-! ### Growing -/

/-- Whether a block may join does not depend on the pass, and with corresponding registers live
on its entry. -/
theorem admission (budget : Nat) (hi : C.New w.graph i) (hn : n ∈ w.members) :
    Agree (fun live u live' u' => Onward C p .block w u u' ∧ Option.Rel C.regs live live') breaks
      (Pass.admission budget i n w) (Pass.admission budget (C.num .interval i) n w') := by
  obtain ⟨a, a', ha, ha', hakin⟩ := h.kin.node .block n hn
  refine Agree.bind (Pass.agree_query ha ha' (agree_ite ?_ (fun _ => ?_) fun _ => ?_))
  · rw [hakin.owner, Option.isSome_map]
  · exact agree_pure ⟨h.onward, .none⟩
  obtain ⟨inside, hinside, hinside'⟩ := allM_agree (C.num .block) a.preds
    fun p hp => h.kin.ownedBy i (hakin.pred_known p hp)
  rw [← hakin.preds] at hinside'
  refine Agree.bind
    (Pass.agree_query hinside hinside' (agree_ite Iff.rfl (fun _ => ?_) fun _ => ?_))
  · exact agree_pure ⟨h.onward, .none⟩
  refine Agree.bind ((h.markAncestors hn).mono_ends ?_)
  rintro _ _ _ _ ⟨m, m', hmarks, rfl, rfl⟩
  obtain ⟨above, above', habove, habove', hrel⟩ := h.kin.memberRegs .block i
    m.isMarked m'.isMarked h.knows fun x hx => hmarks x (h.knows x hx)
  rw [← h.members] at habove'
  have hlive := C.regs_union hakin.regs hrel
  refine Agree.bind (Pass.agree_survey habove habove' (agree_ite ?_ (fun _ => ?_) fun _ => ?_))
  · rw [C.size_eq hlive]
  · exact agree_pure ⟨h.remark m m', .none⟩
  obtain ⟨v, v', hv, hv', hvakin⟩ := h.kin.interval hi.knows
  refine Agree.bind (Pass.agree_query hv hv' (agree_ite ?_ (fun _ => ?_) fun _ => ?_))
  · have hsize : (v'.regs ∪ a'.regs).size = (v.regs ∪ a.regs).size :=
      C.size_eq (C.regs_union hvakin.regs hakin.regs)
    rw [hsize]
  · exact agree_pure ⟨h.remark m m', .none⟩
  · exact agree_pure ⟨h.remark m m', .some hlive⟩

/-- A block joins corresponding intervals. -/
theorem claim {live live' : RegSet} (hi : C.New w.graph i) (hn : n ∈ w.members)
    (hlive : C.regs live live') :
    Onward C p .block w (w.claim i n live) (w'.claim (C.num .interval i) n live') := by
  have hassign : Kin C w.members (w.graph.assign .block n (some i))
      (w'.graph.assign .block n (some (C.num .interval i))) :=
    h.kin.assign (l := .block) (n := n) hn fun _ hj => Option.some.inj hj ▸ hi
  have hkin : Kin C w.members (w.claim i n live).graph
      (w'.claim (C.num .interval i) n live').graph := hassign.setInputs hn hlive
  have hassigned : (w.graph.assign .block n (some i)).frame? = w.graph.frame? :=
    FlowGraph.frame?_modifyBlock fun _ => rfl
  have hclaimed : (w.claim i n live).graph.frame? = (w.graph.assign .block n (some i)).frame? :=
    FlowGraph.frame?_modifyBlock fun _ => rfl
  refine h.change hkin rfl rfl rfl rfl rfl rfl rfl (fun m hm => ?_)
    ⟨hclaimed.trans hassigned, (Arena.size_modify ..).trans (Arena.size_modify ..)⟩
  rw [owner_claim live (h.lt_extent (l := .block) hn)]
  exact owner_update_ne_none fun _ => hm

theorem joinIfAdmitted (hL : C.toLikeness.Splits) (budget : Nat) (hi : C.New w.graph i)
    (hn : n ∈ w.members) : Agree (fun _ u _ u' => Onward C p .block w u u') breaks
      (Pass.joinIfAdmitted budget i n w) (Pass.joinIfAdmitted budget (C.num .interval i) n w') := by
  refine Agree.bind ((h.admission budget hi hn).mono_ends ?_)
  rintro _ u _ u' ⟨hu, hlive⟩
  cases hlive with
  | none => exact agree_pure hu
  | @some live live' hlive =>
    have hv := hu.trans (hu.abreast.claim (hu.new i hi) (hu.knows n hn) hlive)
    refine Agree.bind (agree_modify (Agree.bind ?_))
    refine (hv.abreast.settle hL budget (hv.knows n hn)).mono_ends fun _ x _ x' hx => ?_
    exact (hv.trans hx).agree (hx.abreast.syncRegs (hx.new i (hv.new i hi)))

/-- Corresponding intervals are grown by the same blocks. -/
theorem grow (hL : C.toLikeness.Splits) (budget : Nat) (hi : C.New w.graph i) :
    Agree (fun _ u _ u' => Onward C p .block w u u') breaks (Pass.grow budget i w)
      (Pass.grow budget (C.num .interval i) w') := by
  refine Agree.bind (agree_get ?_)
  rw [h.members]
  exact Abreast.forM (fun x u u' hu hx => hu.abreast.joinIfAdmitted hL budget (hu.new i hi) hx) h
    h.knows

/-! ### Visits -/

/-- A waiting block is visited. -/
theorem visitBlock (hL : C.toLikeness.Splits) (budget : Nat) (hn : n ∈ w.members)
    (hown : w.graph.owner .block n ≠ none) : Agree (fun _ u _ u' => Onward C p .block w u u') breaks
      (Pass.visitBlock budget n w) (Pass.visitBlock budget n w') := by
  obtain ⟨b, b', hb, hb', hakin⟩ := h.kin.block hn
  obtain ⟨i, hi⟩ := Option.ne_none_iff_exists'.mp hown
  have hinterval : b.interval = some i := (FlowGraph.see_of_block? hb Node.owner none).symm.trans hi
  have hinterval' : b'.interval = some (C.num .interval i) :=
    hakin.owner.trans (congrArg (Option.map _) hinterval)
  have hnew : C.New w.graph i := hakin.owner_new i hinterval
  refine Agree.bind (Pass.agree_query hb hb' ?_)
  rw [hinterval, hinterval']
  refine Agree.bind ((h.settle hL budget hn).mono_ends fun _ u _ u' hu => Agree.bind ?_)
  refine (hu.abreast.syncRegs (hu.new i hnew)).mono_ends fun _ v _ v' hv => ?_
  obtain ⟨c, c', hc, hc', hcakin⟩ := hv.abreast.kin.block (hv.knows n (hu.knows n hn))
  refine Agree.bind (Pass.agree_query hc hc' ?_)
  have hv := hu.trans hv
  refine agree_ite ?_ (fun _ => Agree.bind ?_) fun _ => hv.agree (hv.abreast.openFrontier i)
  · have hsize : c'.outputs.size = c.outputs.size := C.size_eq hcakin.regs
    rw [hsize]
  · refine (hv.abreast.grow hL budget (hv.new i hnew)).mono_ends fun _ x _ x' hx => ?_
    exact (hv.trans hx).agree (hx.abreast.openFrontier i)

/-- All waiting blocks are visited. -/
theorem drainBlocks (hL : C.toLikeness.Splits) (budget : Nat) :
    Agree (fun _ u _ u' => Abreast C p .block u u' ∧ u.worklist = []) breaks
      (drain (blockVisit budget) w) (drain (blockVisit budget) w') := by
  refine agree_drain (C.num .block) (fun _ _ hu => hu.worklist) ?_ h
  intro n rest u u' hwork hu
  obtain ⟨hn, hown⟩ := hu.waiting n (hwork ▸ List.mem_cons_self)
  exact ((hu.pop hwork).visitBlock hL budget hn hown).mono_ends fun _ _ _ _ hv => hv.abreast

end Abreast

/-! ### The pass -/

/-- What two first passes come to that are abreast when they end well. -/
def GroupedAbreast (C : Kinship) (p : Program) (a : IntervalGraph) (u : Workspace)
    (a' : IntervalGraph) (u' : Workspace) : Prop :=
  Abreast C p .block { u with members := a.blocks, opened := a.intervals }
    { u' with members := a'.blocks, opened := a'.intervals }

/-- Two first passes over graphs that correspond, but for the owners of blocks, end alike. -/
theorem groupBlocksAbreast {blocks : List BlockId} (hL : C.toLikeness.Splits) {budget : Nat}
    (hbudget : budget ≠ 0) (hverify : w.graph.verify blocks = .ok ())
    (hverify' : w'.graph.verify blocks = .ok ())
    (h : Releasing C p .block blocks blocks
      { w with members := blocks, opened := [], worklist := [] }
      { w' with members := blocks.map (C.num .block), opened := [], worklist := [] }) :
    Agree (GroupedAbreast C p) (RefusedAbreast C p .block budget)
      (Pass.groupBlocks budget blocks w) (Pass.groupBlocks budget blocks w') := by
  rw [Pass.groupBlocks, if_neg hbudget]
  refine Agree.bind ?_
  rw [Pass.verifyBlocks_eq, Pass.verifyBlocks_eq, hverify, hverify']
  refine .ends ?_
  have hmap : blocks.map (C.num .block) = blocks := List.map_id _
  have hstart : Agree _ (RefusedAbreast C p .block budget) _ _ := startsAbreast h
  rw [hmap] at hstart
  refine Agree.bind (hstart.mono_ends fun _ u _ u' hu => Agree.bind ?_)
  refine (hu.1.drainBlocks hL budget).mono_ends fun _ v _ v' hv => Agree.bind ?_
  refine (hv.1.complete budget).mono_ends fun _ x _ x' hx => ?_
  have hend := hx.abreast
  exact .ends ⟨hend.kin, hend.members, hend.opened, hend.worklist, hend.knows, hend.waiting,
    hend.made, hend.past⟩

end KernelIntervals
