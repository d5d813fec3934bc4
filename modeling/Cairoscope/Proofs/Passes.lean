import Cairoscope.Proofs.StraightLine
import Cairoscope.Proofs.Traces

/-! The memory operations of a contract, in either mode. A run that ends well leaves the names and
registers that its operations leave in an empty memory. -/

namespace Cairoscope.Decompiler

open Memory (Operation)

def passOperations (sc : Scene) (f : Function) : List Operation :=
  f.sites.flatMap (statementOperations sc f.returns.length)

/-- After the first pass `ap` goes back to the start of the function for the second. The function's place
and the number of its first block do not matter for names and registers. -/
def functionOperations (sc : Scene) (firstPassOnly imported : Bool) (f : Function) : List Operation :=
  .enter none f.parameterNames 0 ::
    if f.isImport && !imported then []
    else if firstPassOnly then passOperations sc f
    else passOperations sc f ++
      .moveAp (-Memory.totalRise (passOperations sc f)) :: passOperations sc f

def programOperations (sc : Scene) (firstPassOnly imported : Bool) (fs : List Function) :
    List Operation :=
  fs.flatMap (functionOperations sc firstPassOnly imported)

theorem inFrame_lookBelow (n : Nat) : ∀ op ∈ lookBelow n, op.InFrame := by
  induction n with
  | zero => simp [lookBelow]
  | succ n ih => simpa [lookBelow, Operation.InFrame] using ih

theorem inFrame_lookResults (i : Nat) (names : List String) :
    ∀ op ∈ lookResults i names, op.InFrame := by
  induction names generalizing i with
  | nil => simp [lookResults]
  | cons name names ih => simpa [lookResults, Operation.InFrame] using ih (i + 1)

theorem inFrame_callOperations (index : Nat) (callee : Function) :
    ∀ op ∈ callOperations index callee, op.InFrame := by
  intro op hop
  rcases List.mem_append.1 hop with hop | hop
  · exact inFrame_lookBelow _ op hop
  rcases List.mem_append.1 hop with hop | hop
  · obtain ⟨name, -, hname⟩ := List.mem_flatMap.1 hop
    simp only [List.mem_cons, List.not_mem_nil, or_false] at hname
    rcases hname with rfl | rfl
    · rfl
    · exact Int.one_nonneg
  · exact inFrame_lookResults _ _ op hop

theorem inFrame_equalityOperations (i : Instruction) : ∀ op ∈ equalityOperations i, op.InFrame := by
  unfold equalityOperations
  dsimp only
  split_ifs <;> split <;> simp [Operation.InFrame]

theorem inFrame_statementOperations (sc : Scene) (returns : Nat) (s : Site) :
    ∀ op ∈ statementOperations sc returns s, op.InFrame := by
  unfold statementOperations
  cases s.instruction.opcode with
  | assertEq =>
    intro op hop
    rcases List.mem_append.1 hop with hop | hop
    · exact inFrame_equalityOperations _ op hop
    · rw [List.mem_singleton.1 hop]
      exact apRise_nonneg sc _
  | nop =>
    dsimp only
    split_ifs <;> simp [Operation.InFrame]
  | call =>
    dsimp only
    split
    · exact inFrame_callOperations _ _
    · simp
  | ret => exact inFrame_lookBelow returns

theorem inFrame_passOperations (sc : Scene) (f : Function) :
    ∀ op ∈ passOperations sc f, op.InFrame := by
  intro op hop
  obtain ⟨s, -, hop⟩ := List.mem_flatMap.1 hop
  exact inFrame_statementOperations sc _ s op hop

section Passes

variable {sc : Scene} {f : Function}

theorem performs_scanBlocks (index block : Nat) (blocks : List Block) :
    Performs ((blocks.flatMap (·.sites)).flatMap (statementOperations sc f.returns.length))
      (scanBlocks sc f index block blocks) := by
  induction blocks generalizing block with
  | nil => exact performs_pure _
  | cons b blocks ih =>
    rw [List.flatMap_cons, List.flatMap_append]
    refine performs_bind ?_ fun _ => ih (block + 1)
    unfold scanBlock
    refine performs_idle_bind (performs_idle (fun _ => rfl) fun _ => rfl) fun _ => ?_
    refine performs_idle_bind performs_get fun d => ?_
    refine performs_bind_idle (performs_forM (fun s => ?_) _) fun _ => performs_modify fun d => ?_
    · exact performs_bind_idle (performs_statement _ s _) fun _ => performs_pure _
    · exact .of_eq rfl (length_graphs_withBlock _ _ _)

theorem performs_closings (offset : Nat) : Performs [] (closings sc offset) := by
  have hbrace : Performs [] (indent (-1) >>= fun _ =>
      line sc sc.printer.palette.reset "\x7d" >>= fun text => (pure (text ++ "\n") : Step String)) :=
    performs_idle_bind (performs_indent _) fun _ =>
      performs_idle_bind (performs_line _ _) fun _ => performs_pure _
  have hmap : ∀ ends : List Int, Performs [] (ends.mapM fun _ => indent (-1) >>= fun _ =>
      line sc sc.printer.palette.reset "\x7d" >>= fun text => (pure (text ++ "\n") : Step String)) := by
    intro ends
    induction ends with
    | nil => exact performs_pure _
    | cons e ends ih =>
      rw [List.mapM_cons]
      exact performs_idle_bind hbrace fun _ => performs_idle_bind ih fun _ => performs_pure _
  unfold closings
  refine performs_idle_bind performs_get fun d => ?_
  dsimp only
  split_ifs
  · refine performs_idle_bind (performs_idle (fun _ => rfl) fun _ => rfl) fun _ => ?_
    refine performs_idle_bind hbrace fun _ => performs_idle_bind performs_get fun d => ?_
    exact performs_idle_bind (hmap _) fun _ => performs_pure _
  · refine performs_idle_bind (performs_pure _) fun _ => performs_idle_bind performs_get fun d => ?_
    exact performs_idle_bind (hmap _) fun _ => performs_pure _

theorem performs_writeSites (place : Place) (count : Nat) (sites : List Site) :
    Performs (sites.flatMap (statementOperations sc f.returns.length))
      (writeSites sc f place count sites) := by
  induction sites generalizing count with
  | nil => exact performs_pure _
  | cons s sites ih =>
    unfold writeSites
    refine performs_bind ?_ fun text => performs_bind_idle (ih (count + 1)) fun _ => performs_pure _
    unfold writeSite
    refine performs_idle_bind (performs_closings _) fun braces => ?_
    refine performs_bind_idle (performs_statement _ s _) fun text => ?_
    refine performs_idle_bind (performs_modify fun d => .of_eq rfl ?_) fun _ => performs_pure _
    exact List.length_modify _ _ _

theorem performs_writeBlocks (index count block : Nat) (blocks : List Block) :
    Performs ((blocks.flatMap (·.sites)).flatMap (statementOperations sc f.returns.length))
      (writeBlocks sc f index count block blocks) := by
  induction blocks generalizing count block with
  | nil => exact performs_pure _
  | cons b blocks ih =>
    rw [List.flatMap_cons, List.flatMap_append]
    unfold writeBlocks
    refine performs_idle_bind (performs_idle (fun _ => rfl) fun _ => rfl) fun _ => ?_
    refine performs_bind (performs_writeSites _ _ _) fun text => ?_
    exact performs_bind_idle (ih _ _) fun _ => performs_pure _

variable {firstPassOnly imported : Bool} {index : Nat} {d d' : Decompiler}

/-- Going back keeps the names, and puts the registers where they were before the operations. -/
theorem alike_rewind {ops : List Operation} {m m' : Memory} (hops : ∀ op ∈ ops, op.InFrame)
    (h : (m.performAll ops).Alike m') :
    ((m.performAll ops).perform (.moveAp (-Memory.totalRise ops))).Alike
      { m'.forget with ap := m.ap, fp := m.fp } := by
  refine ⟨?_, h.counter, ?_, (Memory.fp_performAll hops m).symm⟩
  · refine Eq.trans ?_ h.names
    change (m'.cells.map fun v => { v with value := none }).map (·.name) = m'.cells.map (·.name)
    rw [List.map_map]
    rfl
  · change m.ap = (m.performAll ops).ap + -Memory.totalRise ops
    rw [Memory.ap_performAll]
    omega

/-- The graph of a function that has a place for it is cut from all its code. -/
theorem flatMap_sites_of_build {g : FlowGraph} {next n : Nat}
    (hbuild : FlowGraph.build sc.printer f.name f.sites next = .ok g n) (hindex : index < d.graphs.length)
    (hgraphs : d'.graphs = d.graphs.set index (some g)) :
    (d'.blocksOf index).flatMap (·.sites) = f.sites := by
  obtain ⟨blocks, hcut, hblocks⟩ := FlowGraph.blocks_of_build hbuild
  have hsites := (blocks_of_cut hcut hblocks hgraphs).1
  rwa [if_pos hindex] at hsites

/-- The ways a function can go: it is only entered, or a first pass over its blocks follows, or a second
pass too, with the registers where they stood after the entry. -/
theorem passes_of_function {text : String}
    (h : function sc firstPassOnly imported index f d = .ok text d') :
    ∃ e, e.memory = d.memory.enter (some index) f.parameterNames d.nextBlock ∧
      if f.isImport && !imported then d' = e ∧ e.graphs = d.graphs
      else ∃ g next n e', FlowGraph.build sc.printer f.name f.sites next = .ok g n ∧
        e.graphs = d.graphs.set index (some g) ∧
        scanBlocks sc f index 0 (e.blocksOf index) e = .ok () e' ∧
        if firstPassOnly then d' = e'
        else ∃ e₂ out, e₂.memory = { e'.memory.forget with ap := e.memory.ap, fp := e.memory.fp } ∧
          e₂.graphs = e'.graphs ∧ writeBlocks sc f index 1 0 (e.blocksOf index) e₂ = .ok out d' := by
  unfold function enter at h
  rw [Run.modify_bind, Run.modify_bind] at h
  dsimp only at h
  by_cases hskip : (f.isImport && !imported) = true
  · rw [if_pos hskip] at h
    obtain ⟨-, rfl⟩ := Run.pure_eq_ok.1 h
    exact ⟨_, rfl, by rw [if_pos hskip]; exact ⟨rfl, rfl⟩⟩
  rw [if_neg hskip, Run.get_bind, Run.get_bind] at h
  obtain ⟨_, _, hgraph, h⟩ := Run.bind_eq_ok.1 h
  obtain ⟨g, n, hbuild, rfl⟩ := eq_of_buildGraph hgraph
  obtain ⟨head, _, hhead, h⟩ := Run.bind_eq_ok.1 h
  obtain rfl := eq_of_heading hhead
  obtain ⟨_, _, hindent, h⟩ := Run.bind_eq_ok.1 h
  obtain rfl := indent_eq_ok.1 hindent
  rw [Run.get_bind] at h
  obtain ⟨_, e', hscan, h⟩ := Run.bind_eq_ok.1 h
  refine ⟨_, ?_, (if_neg hskip).mpr ⟨g, _, n, e', hbuild, ?_, hscan, ?_⟩⟩
  · rfl
  · rfl
  split_ifs at h ⊢
  · exact (Run.pure_eq_ok.1 h).2.symm
  · unfold rewind at h
    rw [Run.modify_bind] at h
    obtain ⟨out, e₂, hwrite, h⟩ := Run.bind_eq_ok.1 h
    obtain ⟨-, rfl⟩ := Run.pure_eq_ok.1 h
    refine ⟨_, out, ?_, ?_, hwrite⟩ <;> rfl

theorem performed_of_function {text : String} (hindex : index < d.graphs.length)
    (h : function sc firstPassOnly imported index f d = .ok text d') :
    Performed (functionOperations sc firstPassOnly imported f) d d' := by
  obtain ⟨e, hmemory, h⟩ := passes_of_function h
  have hentered : e.graphs.length = d.graphs.length →
      Performed [.enter none f.parameterNames 0] d e := by
    intro hgraphs
    refine ⟨?_, hgraphs⟩
    rw [hmemory]
    exact (Memory.Alike.refl d.memory).enter none (some index) f.parameterNames 0 d.nextBlock
  unfold functionOperations
  by_cases hskip : (f.isImport && !imported) = true
  · rw [if_pos hskip] at h ⊢
    obtain ⟨rfl, hgraphs⟩ := h
    exact hentered (by rw [hgraphs])
  rw [if_neg hskip] at h ⊢
  obtain ⟨g, next, n, e', hbuild, hgraphs, hscan, h⟩ := h
  have hentered := hentered (by rw [hgraphs, List.length_set])
  have hsites := flatMap_sites_of_build hbuild hindex hgraphs
  have hfirst := performs_scanBlocks _ _ _ _ _ _ hscan
  rw [hsites] at hfirst
  by_cases honly : firstPassOnly = true
  · rw [if_pos honly] at h ⊢
    subst h
    exact hentered.trans hfirst
  rw [if_neg honly] at h ⊢
  obtain ⟨e₂, out, hmemory₂, hgraphs₂, hwrite⟩ := h
  have hsecond := performs_writeBlocks _ _ _ _ _ _ _ hwrite
  rw [hsites] at hsecond
  have hback : Performed
      (passOperations sc f ++ [.moveAp (-Memory.totalRise (passOperations sc f))]) e e₂ := by
    refine ⟨?_, by rw [hgraphs₂, hfirst.graphs]⟩
    rw [Memory.performAll_append, hmemory₂]
    exact alike_rewind (inFrame_passOperations sc f) hfirst.memory
  have hall := hentered.trans (hback.trans hsecond)
  rwa [List.append_assoc] at hall

theorem performed_of_functions {fs : List Function} {k : Nat} {texts : List String}
    (hk : k + fs.length ≤ d.graphs.length)
    (h : functions sc firstPassOnly imported k fs d = .ok texts d') :
    Performed (programOperations sc firstPassOnly imported fs) d d' := by
  induction fs generalizing k d texts with
  | nil =>
    obtain ⟨-, rfl⟩ := Run.pure_eq_ok.1 h
    exact .of_eq rfl rfl
  | cons f fs ih =>
    rw [List.length_cons] at hk
    unfold functions at h
    obtain ⟨text, d₁, hfunction, h⟩ := Run.bind_eq_ok.1 h
    obtain ⟨rest, _, hrest, h⟩ := Run.bind_eq_ok.1 h
    obtain ⟨-, rfl⟩ := Run.pure_eq_ok.1 h
    have hone := performed_of_function (by omega) hfunction
    exact hone.trans (ih (by rw [hone.graphs]; omega) hrest)

/-- A run that ends well leaves the names and registers that its operations leave. -/
theorem alike_of_functions {graphs : List (Option FlowGraph)} {fs : List Function} {texts : List String}
    (hgraphs : fs.length ≤ graphs.length)
    (h : functions sc firstPassOnly imported 0 fs (start graphs) = .ok texts d) :
    (Memory.empty.performAll (programOperations sc firstPassOnly imported fs)).Alike d.memory :=
  (performed_of_functions (d := start graphs) (by rw [Nat.zero_add]; exact hgraphs) h).memory

theorem aligned_of_functions {graphs : List (Option FlowGraph)} {fs : List Function} {texts : List String}
    (hgraphs : fs.length ≤ graphs.length)
    (h : functions sc firstPassOnly imported 0 fs (start graphs) = .ok texts d) : d.memory.Aligned :=
  (alike_of_functions hgraphs h).aligned (Memory.aligned_performAll _)

end Passes

end Cairoscope.Decompiler
