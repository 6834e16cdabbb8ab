/-
What carving hands over.

* `Carve.Ensures` — what holds after a step of carving that does not break off,
* `Cuts` — blocks were made of some instructions of a node,
* `Carve.node_carved`, `Carve.graph_adds` — the blocks of a node, and those of all nodes, hold
  the instructions of the ports, one port after the other,
* `HandedOver`, `carve_handsOver` — so the blocks of a graph are well formed, and hold the
  instructions of its nodes,
* `carve_nodup` — they are listed once each.
-/
import KernelIntervals.Proofs.Segments

namespace KernelIntervals

/-! ### Steps of carving -/

namespace Carve

variable {α β : Type} {s s' : CarveState}

/-- What holds after a step of carving that does not break off. -/
def Ensures (act : Carve α) (s : CarveState) (post : α → CarveState → Prop) : Prop :=
  ∀ a s', act s = .ok a s' → post a s'

theorem Ensures.mono {act : Carve α} {post post' : α → CarveState → Prop}
    (h : Ensures act s post) (himp : ∀ a s', post a s' → post' a s') : Ensures act s post' :=
  fun a s' hact => himp a s' (h a s' hact)

theorem ensures_pure {a : α} {post : α → CarveState → Prop} (h : post a s) :
    Ensures (pure a) s post := by
  intro b s' hact
  injection hact with hb hs
  exact hb ▸ hs ▸ h

theorem ensures_throw {e : CarveError} {post : α → CarveState → Prop} :
    Ensures (throw e) s post := by
  intro b s' hact
  injection hact

theorem Ensures.bind {x : Carve α} {f : α → Carve β} {post : β → CarveState → Prop}
    (h : Ensures x s fun a s' => Ensures (f a) s' post) : Ensures (x >>= f) s post := by
  intro b s' hact
  have hrun : EStateM.bind x f s = .ok b s' := hact
  unfold EStateM.bind at hrun
  cases hx : x s with
  | error e s₁ =>
    rw [hx] at hrun
    injection hrun
  | ok a s₁ =>
    rw [hx] at hrun
    exact h a s₁ hx b s' hrun

theorem ensures_modify {f : CarveState → CarveState} {post : Unit → CarveState → Prop}
    (h : post () (f s)) : Ensures (modify f) s post := by
  intro b s' hact
  injection hact with _ hs
  exact hs ▸ h

theorem ensures_get {post : CarveState → CarveState → Prop} (h : post s s) :
    Ensures get s post := by
  intro b s' hact
  injection hact with hb hs
  exact hb ▸ hs ▸ h

theorem ensures_set {t : CarveState} {post : PUnit → CarveState → Prop} (h : post ⟨⟩ t) :
    Ensures (set t) s post := by
  intro b s' hact
  injection hact with _ hs
  exact hs ▸ h

/-- What every step keeps is kept by all. -/
theorem ensures_forM {f : α → Carve Unit} {P : CarveState → Prop} {xs : List α}
    (hstep : ∀ x s, P s → Ensures (f x) s fun _ s' => P s') (h : P s) :
    Ensures (xs.forM f) s fun _ s' => P s' := by
  induction xs generalizing s with
  | nil => exact ensures_pure h
  | cons x xs ih => exact Ensures.bind ((hstep x s h).mono fun _ _ h => ih h)

end Carve

/-! ### Ports -/

variable {b : Block} {ids ids' : List BlockId} {s s₀ s₁ s' : CarveState} {xs ys : List Segment}
  {lo group : Nat} {insts : List Inst}

/-- Since the state `s`, blocks were made of some instructions of a node, and `ids` are the
basic ones among them. -/
def Cuts (group : Nat) (insts : List Inst) (s : CarveState) (ids : List BlockId)
    (s' : CarveState) : Prop :=
  ∃ xs, Adds s xs ids s' ∧ (∀ x ∈ xs, x.group = group) ∧ xs.flatMap Segment.insts = insts

theorem Cuts.refl (group : Nat) (s : CarveState) : Cuts group [] s [] s :=
  ⟨[], .refl s, fun _ hx => absurd hx List.not_mem_nil, rfl⟩

/-- One block more is made. -/
theorem Cuts.snoc (h : Cuts group insts s ids s₁) {more : List Inst} {controlling : Bool}
    (hadds : Adds s₁ [⟨group, more, controlling⟩] ids' s') :
    Cuts group (insts ++ more) s (ids ++ ids') s' := by
  obtain ⟨xs, hxs, hgroup, hinsts⟩ := h
  refine ⟨xs ++ [⟨group, more, controlling⟩], hxs.trans hadds, fun x hx => ?_, ?_⟩
  · rcases List.mem_append.mp hx with hx | hx
    · exact hgroup x hx
    · rw [List.mem_singleton.mp hx]
  · rw [List.flatMap_append, hinsts, List.flatMap_singleton]

namespace Carve

theorem newBlock_eq (group : Nat) (b : Block) : Ensures (newBlock group b) s fun id s' =>
    id = s.count ∧ s'.graph = s.graph.addBlock { b with group := some group } := by
  intro id s' hact
  injection hact with hid hs
  exact ⟨hid.symm, hs ▸ rfl⟩

theorem control_adds (group : Nat) (controlled : BlockId) (insts : List Inst) :
    Ensures (control group controlled insts) s fun _ s' =>
      Adds s [⟨group, insts, true⟩] [] s' := by
  refine Ensures.bind (ensures_get (Ensures.bind (ensures_set (Ensures.bind ?_))))
  refine (newBlock_eq group _).mono ?_
  rintro id s₁ ⟨rfl, hgraph⟩
  refine Ensures.bind (ensures_modify (ensures_modify ?_))
  exact .controlling rfl rfl controlled (congrArg (fun g : FlowGraph => g.modifyBlock _ _) hgraph)

/-- One more basic block behind those of a node. -/
theorem append_cuts {more : List Inst} {last : Option BlockId} (h : Cuts group insts s₀ ids s)
    (hb : b.piece = ⟨more, instRegs more, none, false⟩) (hpreds : b.preds = [])
    (hsuccs : b.succs = []) (hcontrol : b.control = none) (hlast : ∀ id ∈ last, id ∈ ids) :
    Ensures (do
      let id ← newBlock group b
      if let some last := last then changeGraph (·.link last id)
      return ids ++ [id]) s fun ids' s' =>
        Cuts group (insts ++ more) s₀ ids' s' ∧ ∀ id ∈ ids, id ∈ ids' := by
  refine Ensures.bind ((newBlock_eq group b).mono ?_)
  rintro id s₁ ⟨rfl, hgraph⟩
  have hpiece : Block.piece { b with group := some group } = Segment.piece ⟨group, more, false⟩ :=
    congrArg (fun p : Piece => { p with group := some group }) hb
  have hnew : Cuts group (insts ++ more) s₀ (ids ++ [s.count]) s₁ :=
    h.snoc (.basic rfl hpiece hpreds hsuccs hcontrol hgraph)
  have hold : ∀ id ∈ ids, id ∈ ids ++ [s.count] := fun id => List.mem_append_left _
  cases last with
  | none => exact ensures_pure ⟨hnew, hold⟩
  | some last =>
    refine Ensures.bind (ensures_modify (ensures_pure ⟨?_, hold⟩))
    obtain ⟨xs, hadds, hxs⟩ := hnew
    refine ⟨xs, hadds.link (hold last (hlast last rfl)) ?_ rfl, hxs⟩
    exact List.mem_append_right _ (List.mem_singleton_self _)

theorem segment_cuts (node : String) (more : List Inst) (h : Cuts group insts s₀ ids s) :
    Ensures (segment group node ids more) s fun ids' s' =>
      Cuts group (insts ++ more) s₀ ids' s' ∧ ∀ id ∈ ids, id ∈ ids' := by
  rw [segment]
  split
  next hempty =>
    rw [List.isEmpty_iff.mp hempty, List.append_nil]
    exact ensures_pure ⟨h, fun _ hid => hid⟩
  next =>
    split
    · refine Ensures.bind ((control_adds group _ more).mono fun _ s₁ hadds => ensures_pure ?_)
      exact ⟨ids.append_nil ▸ h.snoc hadds, fun _ hid => hid⟩
    · exact append_cuts h rfl rfl rfl rfl fun _ => List.mem_of_getLast?

end Carve

/-! ### Nodes -/

/-- The blocks of a node are cut from some instructions, and its ports lead to them. -/
structure Carved (group : Nat) (insts : List Inst) (s : CarveState) (c : CarvedNode)
    (s' : CarveState) : Prop where
  cuts : Cuts group insts s c.blocks s'
  ports : ∀ p ∈ c.ports, ∀ id ∈ p.2, id ∈ c.blocks

/-- Edges leave a node from its blocks, if its ports lead to these. -/
theorem CarvedNode.exit_mem {c : CarvedNode} {port : Option String} {id : BlockId}
    (hports : ∀ p ∈ c.ports, ∀ id ∈ p.2, id ∈ c.blocks) (hexit : c.exit? port = some id) :
    id ∈ c.blocks := by
  cases port with
  | none => exact List.mem_of_getLast? hexit
  | some port =>
    simp only [CarvedNode.exit?] at hexit
    split at hexit
    · exact List.mem_of_getLast? hexit
    · split at hexit
      next hfound =>
        obtain rfl := Option.some.inj hexit
        exact hports _ (List.mem_reverse.mp (List.mem_of_find?_eq_some hfound)) _ rfl
      next => exact List.mem_of_head? hexit
      next => injection hexit

namespace Carve

theorem port_carved {c : CarvedNode} (p : Dot.Port) (h : Carved group insts s₀ c s) :
    Ensures (port group c p) s fun c' s' => ∃ more, parseStatements p.text = .ok more ∧
      Carved group (insts ++ more) s₀ c' s' := by
  rw [port]
  split
  next => exact ensures_throw
  next more hmore =>
    refine Ensures.bind ((segment_cuts c.name more h.cuts).mono ?_)
    rintro ids s₁ ⟨hcuts, hold⟩
    refine ensures_pure ⟨more, hmore, hcuts, fun q hq id hid => ?_⟩
    -- A port was there before, or leads to the last block so far.
    have hports : q ∈ c.ports ∨ q.2 = ids.getLast? := by
      cases hname : p.name with
      | none =>
        rw [hname] at hq
        exact .inl hq
      | some name =>
        rw [hname] at hq
        refine (List.mem_append.mp hq).imp_right fun hlast => ?_
        rw [List.mem_singleton.mp hlast]
    rcases hports with hq | hq
    · exact hold id (h.ports q hq id hid)
    · exact List.mem_of_getLast? (hq ▸ hid)

theorem ports_carved (ports : List Dot.Port) {c : CarvedNode} (h : Carved group insts s₀ c s) :
    Ensures (ports.foldlM (port group) c) s fun c' s' => ∃ listings,
      ports.mapM (fun p => parseStatements p.text) = .ok listings ∧
        Carved group (insts ++ listings.flatten) s₀ c' s' := by
  induction ports generalizing c insts s with
  | nil => exact ensures_pure ⟨[], rfl, (List.append_nil insts).symm ▸ h⟩
  | cons p ports ih =>
    rw [List.foldlM_cons]
    refine Ensures.bind ((port_carved p h).mono ?_)
    rintro c₁ s₁ ⟨more, hmore, hcarved⟩
    refine (ih hcarved).mono ?_
    rintro c' s' ⟨listings, hlistings, hrest⟩
    refine ⟨more :: listings, ?_, ?_⟩
    · rw [List.mapM_cons, hmore, hlistings]
      rfl
    · rw [List.flatten_cons, ← List.append_assoc]
      exact hrest

/-- The blocks of a node hold the instructions of its ports. -/
theorem node_carved (group : Nat) (n : Dot.Node) :
    Ensures (node group n) s fun c s' => ∃ listings,
      n.ports.mapM (fun p => parseStatements p.text) = .ok listings ∧
        Carved group listings.flatten s c s' := by
  have hstart : Carved group [] s ⟨n.name, [], []⟩ s :=
    ⟨.refl group s, fun _ hp => absurd hp List.not_mem_nil⟩
  refine Ensures.bind ((ports_carved n.ports hstart).mono ?_)
  rintro c s₁ ⟨listings, hlistings, hcuts, hports⟩
  split
  next hempty =>
    -- An empty block is cut from no instructions.
    rw [List.isEmpty_iff.mp hempty] at hcuts hports
    refine Ensures.bind ((newBlock_eq group _).mono ?_)
    rintro id s₂ ⟨rfl, hgraph⟩
    have hnew : Cuts group (listings.flatten ++ []) s ([] ++ [s₁.count]) s₂ :=
      hcuts.snoc (.basic rfl rfl rfl rfl rfl hgraph)
    rw [List.append_nil] at hnew
    exact ensures_pure ⟨listings, hlistings, hnew,
      fun p hp id hid => absurd (hports p hp id hid) List.not_mem_nil⟩
  next => exact ensures_pure ⟨listings, hlistings, hcuts, hports⟩

end Carve

/-! ### Graphs -/

/-- Some segments of nodes, of which the first one has the number `lo`, hold the
instructions of the ports of each node. -/
def Hold (lo : Nat) (nodes : List Dot.Node) (xs : List Segment) : Prop :=
  (∀ x ∈ xs, lo ≤ x.group) ∧ ∀ k n, nodes[k]? = some n → ∃ listings,
    n.ports.mapM (fun p => parseStatements p.text) = .ok listings ∧
      (xs.filter (·.group = lo + k)).flatMap Segment.insts = listings.flatten

theorem hold_nil (lo : Nat) : Hold lo [] [] := by
  refine ⟨fun _ hx => absurd hx List.not_mem_nil, fun k n hn => ?_⟩
  rw [List.getElem?_nil] at hn
  injection hn

/-- The segments of a node, followed by those of later nodes. -/
theorem Hold.cons {node : Dot.Node} {nodes : List Dot.Node} {listings : List (List Inst)}
    (hlistings : node.ports.mapM (fun p => parseStatements p.text) = .ok listings)
    (hgroup : ∀ x ∈ xs, x.group = lo) (hinsts : xs.flatMap Segment.insts = listings.flatten)
    (h : Hold (lo + 1) nodes ys) : Hold lo (node :: nodes) (xs ++ ys) := by
  obtain ⟨hlater, hhold⟩ := h
  refine ⟨fun x hx => ?_, fun k n hn => ?_⟩
  · rcases List.mem_append.mp hx with hx | hx
    · exact Nat.le_of_eq (hgroup x hx).symm
    · exact Nat.le_of_succ_le (hlater x hx)
  · rw [List.filter_append, List.flatMap_append]
    cases k with
    | zero =>
      obtain rfl := Option.some.inj hn
      have hnone : ys.filter (·.group = lo + 0) = [] := by
        refine List.filter_eq_nil_iff.mpr fun x hx => ?_
        have hle := hlater x hx
        simp only [decide_eq_true_eq]
        omega
      have hall : xs.filter (·.group = lo + 0) = xs :=
        List.filter_eq_self.mpr fun x hx => decide_eq_true (hgroup x hx)
      exact ⟨listings, hlistings, by rw [hnone, hall, hinsts, List.flatMap_nil, List.append_nil]⟩
    | succ k =>
      obtain ⟨later, hlater', hrest⟩ := hhold k n hn
      have hnone : xs.filter (·.group = lo + (k + 1)) = [] := by
        refine List.filter_eq_nil_iff.mpr fun x hx => ?_
        have heq := hgroup x hx
        simp only [decide_eq_true_eq]
        omega
      refine ⟨later, hlater', ?_⟩
      rw [hnone, List.flatMap_nil, List.nil_append, ← hrest, Nat.add_right_comm, Nat.add_assoc]

namespace Carve

/-- The blocks of some nodes hold the instructions of their ports. -/
theorem nodes_adds (nodes : List Dot.Node) (lo : Nat) :
    Ensures ((nodes.zipIdx lo).mapM fun (n, group) => node group n) s fun cs s' =>
      ∃ xs, Adds s xs (cs.flatMap (·.blocks)) s' ∧ Hold lo nodes xs ∧
        ∀ c ∈ cs, ∃ group insts s₁ s₂, Carved group insts s₁ c s₂ := by
  induction nodes generalizing lo s with
  | nil => exact ensures_pure ⟨[], .refl s, hold_nil lo, fun _ hc => absurd hc List.not_mem_nil⟩
  | cons n nodes ih =>
    rw [List.zipIdx_cons, List.mapM_cons]
    refine Ensures.bind ((node_carved lo n).mono ?_)
    rintro c s₁ ⟨listings, hlistings, hcarved⟩
    refine Ensures.bind ((ih (lo + 1)).mono ?_)
    rintro cs s₂ ⟨ys, hys, hhold, hcs⟩
    obtain ⟨xs, hxs, hgroup, hinsts⟩ := id hcarved.cuts
    refine ensures_pure ⟨xs ++ ys, ?_, hhold.cons hlistings hgroup hinsts, fun d hd => ?_⟩
    · rw [List.flatMap_cons]
      exact hxs.trans hys
    · rcases List.mem_cons.mp hd with rfl | hd
      · exact ⟨lo, _, s, s₁, hcarved⟩
      · exact hcs d hd

/-- An edge leads between the blocks of nodes. -/
theorem edge_adds {cs : List CarvedNode} (e : Dot.Edge)
    (hcs : ∀ c ∈ cs, ∃ group insts s₁ s₂, Carved group insts s₁ c s₂)
    (h : Adds s₀ xs (cs.flatMap (·.blocks)) s) :
    Ensures (edge cs e) s fun _ s' => Adds s₀ xs (cs.flatMap (·.blocks)) s' := by
  rw [edge]
  split
  next source target hsource htarget =>
    split
    next exit entry hexit hentry =>
      have hmem : ∀ {c name}, cs.reverse.find? (fun c => c.name == name) = some c → c ∈ cs :=
        fun hfound => List.mem_reverse.mp (List.mem_of_find?_eq_some hfound)
      obtain ⟨_, _, _, _, hcarved⟩ := hcs source (hmem hsource)
      refine ensures_modify (h.link ?_ ?_ rfl)
      · exact List.mem_flatMap.mpr ⟨source, hmem hsource, CarvedNode.exit_mem hcarved.ports hexit⟩
      · exact List.mem_flatMap.mpr ⟨target, hmem htarget, List.mem_of_head? hentry⟩
    next => exact ensures_throw
  next => exact ensures_throw

/-- The blocks of a graph hold the instructions of its nodes. -/
theorem graph_adds (g : Dot.Graph) : Ensures (graph g) s fun ids s' =>
    ∃ xs, Adds s xs ids s' ∧ Hold 0 g.nodes xs := by
  refine Ensures.bind ((nodes_adds g.nodes 0).mono ?_)
  rintro cs s₁ ⟨xs, hadds, hhold, hcs⟩
  refine Ensures.bind ((ensures_forM (fun e _ h => edge_adds e hcs h) hadds).mono ?_)
  intro _ s₂ hedges
  refine Ensures.bind (ensures_get (Ensures.bind (ensures_modify (ensures_pure ?_))))
  exact ⟨xs, hedges.of_graph_eq rfl, hhold⟩

end Carve

/-! ### What is handed over -/

/-- The blocks that were made since `old`, apart from the controlling ones, are listed, once
each. They are well formed, and with the controlling ones they hold the instructions of the
nodes. -/
structure HandedOver (g : Dot.Graph) (old : FlowGraph) (blocks : List BlockId)
    (new : FlowGraph) : Prop where
  nodup : blocks.Nodup
  mem_iff : ∀ n, n ∈ blocks ↔ n ∈ old.created new ∧ ¬ new.IsControlling n
  verified : new.verify blocks = .ok ()
  duplicateFree : DuplicateFree new blocks
  regs : ∀ n ∈ blocks, new.regs .block n = instRegs (new.insts .block n)
  insts : ∀ k node, g.nodes[k]? = some node → ∃ listings,
    node.ports.mapM (fun p => parseStatements p.text) = .ok listings ∧
      old.instsOfGroup new k = listings.flatten

section

variable {g : Dot.Graph} {state state' : LoggedGraph} {blocks : List BlockId}

/-- Blocks that a graph gives are those that its steps come to. -/
theorem graph_of_carve (h : carve g state = (.ok blocks, state')) :
    ∃ s, Carve.graph g { state with } = .ok blocks s ∧ s.toLoggedGraph = state' := by
  rw [carve] at h
  cases hrun : Carve.graph g { state with } with
  | error e s =>
    rw [hrun] at h
    injection h with h _
    injection h
  | ok ids s =>
    rw [hrun] at h
    injection h with h hstate
    injection h with h
    exact ⟨s, h ▸ rfl, hstate⟩

theorem carve_adds (h : carve g state = (.ok blocks, state')) : ∃ (s s' : CarveState) (xs : _),
    s.graph = state.graph ∧ s'.graph = state'.graph ∧ Adds s xs blocks s' ∧ Hold 0 g.nodes xs := by
  obtain ⟨s, hrun, rfl⟩ := graph_of_carve h
  obtain ⟨xs, hadds, hhold⟩ := Carve.graph_adds g blocks s hrun
  exact ⟨_, s, xs, rfl, rfl, hadds, hhold⟩

/-- The blocks of a graph are listed once each. -/
theorem carve_nodup (h : carve g state = (.ok blocks, state')) : blocks.Nodup := by
  obtain ⟨s, s', xs, _, _, hadds, _⟩ := carve_adds h
  exact hadds.nodup

/-- Whenever a graph gives blocks, these are well formed, and hold the instructions of its
nodes. -/
theorem carve_handsOver (h : carve g state = (.ok blocks, state')) :
    HandedOver g state.graph blocks state'.graph := by
  obtain ⟨s, s', xs, hold, hnew, hadds, hhold⟩ := carve_adds h
  rw [← hold, ← hnew]
  have htidy : Tidy s'.graph blocks := hadds.tidy [] (tidy_nil _)
  refine ⟨hadds.nodup, fun n => hadds.mem_iff, FlowGraph.verify_eq_ok_iff.mpr htidy.wellFormed,
    htidy.duplicateFree, fun n hn => hadds.regs_eq hn, fun k node hnode => ?_⟩
  obtain ⟨listings, hlistings, hinsts⟩ := hhold.2 k node hnode
  refine ⟨listings, hlistings, (hadds.instsOfGroup_eq k).trans ?_⟩
  rw [← hinsts, Nat.zero_add]

end

/-- A block that branches to itself under a predicate, and else leaves the kernel. -/
def guardedLoop : Dot.Graph where
  nodes := [⟨"a", [⟨some "entry", "MOV R1, R2 ;"⟩, ⟨some "back", "@P0 BRA a ;"⟩,
    ⟨none, ""⟩, ⟨some "out", "EXIT ;"⟩]⟩]
  edges := [⟨"a", some "back", "a"⟩]

/-- The block between the two that are listed decides on the branch. -/
theorem handsOver_guardedLoop :
    (carve guardedLoop {}).1 = .ok [0, 2] ∧
      HandedOver guardedLoop (LoggedGraph.graph {}) [0, 2] (carve guardedLoop {}).2.graph := by
  have hok : (carve guardedLoop {}).1 = .ok [0, 2] := by decide +kernel
  exact ⟨hok, carve_handsOver (Prod.ext hok rfl)⟩

end KernelIntervals
