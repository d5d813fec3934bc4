import Cairoscope.Proofs.Blocks
import Cairoscope.Proofs.Steps

/-! The first pass as a walk over the instructions of a function, block by block. What one statement
keeps, a whole pass keeps: the invariant is indexed by the instructions that are still to come. -/

namespace Cairoscope.Decompiler

variable {sc : Scene} {place : Place} {d d' : Decompiler}

theorem tabs_of_lines {lines texts : List String}
    (h : lines.mapM (fun l => line sc "" l) d = .ok texts d') : d = d' := by
  induction lines generalizing d d' texts with
  | nil => exact (Run.pure_eq_ok.1 h).2
  | cons l lines ih =>
    rw [List.mapM_cons] at h
    obtain ⟨text, _, hline, h⟩ := Run.bind_eq_ok.1 h
    obtain ⟨-, rfl⟩ := line_eq_ok.1 hline
    obtain ⟨rest, _, hrest, h⟩ := Run.bind_eq_ok.1 h
    obtain rfl := ih hrest
    exact (Run.pure_eq_ok.1 h).2

/-- A hint moves the depth of indentation at most. -/
theorem tabs_of_hintText {hint : Json} {text : String} (h : hintText sc hint d = .ok text d') :
    ∃ t, { d with tabs := t } = d' := by
  unfold hintText at h
  split at h
  · obtain ⟨head, _, hline, h⟩ := Run.bind_eq_ok.1 h
    obtain ⟨-, rfl⟩ := line_eq_ok.1 hline
    obtain ⟨_, _, hindent, h⟩ := Run.bind_eq_ok.1 h
    obtain rfl := indent_eq_ok.1 hindent
    obtain ⟨lines, _, hlines, h⟩ := Run.bind_eq_ok.1 h
    obtain rfl := tabs_of_lines hlines
    obtain ⟨_, _, hindent, h⟩ := Run.bind_eq_ok.1 h
    obtain rfl := indent_eq_ok.1 hindent
    obtain ⟨tail, _, hline, h⟩ := Run.bind_eq_ok.1 h
    obtain ⟨-, rfl⟩ := line_eq_ok.1 hline
    obtain ⟨-, rfl⟩ := Run.pure_eq_ok.1 h
    exact ⟨_, rfl⟩
  · exact absurd h Run.throw_ne_ok

/-- A statement is its body, at some depth of indentation. -/
theorem body_of_statement {returns : Nat} {s : Site} {last : Bool} {text : String}
    (h : statement sc place returns s last d = .ok text d') :
    ∃ t out, body sc place returns s last { d with tabs := t } = .ok out d' := by
  unfold statement at h
  obtain ⟨label, d₁, hlabel, h⟩ := Run.bind_eq_ok.1 h
  have hd₁ : d = d₁ := by
    unfold labelLine at hlabel
    cases hl : sc.printer.labelAt? s.offset with
    | some name => simp only [hl] at hlabel; exact (line_eq_ok.1 hlabel).2
    | none => simp only [hl] at hlabel; exact (Run.pure_eq_ok.1 hlabel).2
  subst hd₁
  obtain ⟨hint, d₂, hhint, h⟩ := Run.bind_eq_ok.1 h
  have hd₂ : ∃ t, { d with tabs := t } = d₂ := by
    cases hs : s.hint with
    | some j =>
      simp only [hs, hintLines] at hhint
      split at hhint
      · exact tabs_of_hintText hhint
      · exact ⟨d.tabs, (Run.pure_eq_ok.1 hhint).2⟩
    | none =>
      simp only [hs, hintLines] at hhint
      exact ⟨d.tabs, (Run.pure_eq_ok.1 hhint).2⟩
  obtain ⟨t, rfl⟩ := hd₂
  obtain ⟨out, _, hbody, h⟩ := Run.bind_eq_ok.1 h
  obtain ⟨-, rfl⟩ := Run.pure_eq_ok.1 h
  exact ⟨t, out, hbody⟩

-- The invariant `P` speaks of the instructions to come and of the state. It holds after a walk if each
-- statement keeps it and if it does not read how many sums a block has had or which variables a block has.

section Walk

variable {P : List Site → Decompiler → Prop} {returns : Nat}

theorem of_forM (hstep : ∀ {s rest e text e'}, P (s :: rest) e →
      statement sc place returns s false e = .ok text e' → P rest e')
    {sites rest : List Site} {u : Unit} (hd : P (sites ++ rest) d)
    (h : (sites.forM fun s => do let _ ← statement sc place returns s false) d = .ok u d') :
    P rest d' := by
  induction sites generalizing d with
  | nil =>
    obtain ⟨-, rfl⟩ := Run.pure_eq_ok.1 h
    exact hd
  | cons s sites ih =>
    obtain ⟨_, _, hone, h⟩ := Run.bind_eq_ok.1 h
    obtain ⟨text, _, hs, hpure⟩ := Run.bind_eq_ok.1 hone
    obtain ⟨-, rfl⟩ := Run.pure_eq_ok.1 hpure
    exact ih (hstep hd hs) h

theorem of_scanBlocks {f : Function} {function : Nat}
    (hstep : ∀ {block s rest e text e'}, P (s :: rest) e →
      statement sc ⟨function, block⟩ f.returns.length s false e = .ok text e' → P rest e')
    (hcount : ∀ {rest e}, P rest e → P rest { e with newInBlock := 0 })
    (hblock : ∀ {rest e} (place : Place) (ns : List Nat), P rest e →
      P rest (e.withBlock place fun b => { b with allocated := ns }))
    {blocks : List Block} {block : Nat} (rest : List Site) {u : Unit}
    (hd : P (blocks.flatMap (·.sites) ++ rest) d)
    (h : scanBlocks sc f function block blocks d = .ok u d') : P rest d' := by
  induction blocks generalizing d block with
  | nil =>
    obtain ⟨-, rfl⟩ := Run.pure_eq_ok.1 h
    exact hd
  | cons b blocks ih =>
    obtain ⟨_, d₁, hscan, h⟩ := Run.bind_eq_ok.1 h
    refine ih ?_ h
    unfold scanBlock at hscan
    rw [Run.modify_bind, Run.get_bind] at hscan
    obtain ⟨_, d₂, hsites, hscan⟩ := Run.bind_eq_ok.1 hscan
    obtain rfl := Run.modify_eq_ok.1 hscan
    rw [List.flatMap_cons, List.append_assoc] at hd
    exact hblock _ _ (of_forM (P := P) (fun hp hs => hstep hp hs) (hcount hd) hsites)

end Walk

-- A pass over a function is a walk over the blocks of its new graph, from the state in which the function has
-- been entered.

theorem eq_of_buildGraph {index : Nat} {f : Function} {u : Unit}
    (h : buildGraph sc index f d = .ok u d') :
    ∃ g n, FlowGraph.build sc.printer f.name f.sites d.nextBlock = .ok g n ∧
      { d with graphs := d.graphs.set index (some g), nextBlock := n } = d' := by
  unfold buildGraph at h
  obtain ⟨g, _, hbuild, h⟩ := Run.bind_eq_ok.1 h
  obtain ⟨n, hn, rfl⟩ := Run.onPart_eq_ok.1 hbuild
  exact ⟨g, n, hn, Run.modify_eq_ok.1 h⟩

theorem eq_of_heading {f : Function} {text : String} (h : heading sc f d = .ok text d') : d = d' := by
  unfold heading at h
  obtain ⟨number, _, hline, h⟩ := Run.bind_eq_ok.1 h
  obtain ⟨-, rfl⟩ := line_eq_ok.1 hline
  obtain ⟨prototype, _, hproto, h⟩ := Run.bind_eq_ok.1 h
  obtain ⟨-, rfl⟩ := Run.ofOutcome_eq_ok.1 hproto
  obtain ⟨blue, _, hline, h⟩ := Run.bind_eq_ok.1 h
  obtain ⟨-, rfl⟩ := line_eq_ok.1 hline
  obtain ⟨brace, _, hline, h⟩ := Run.bind_eq_ok.1 h
  obtain ⟨-, rfl⟩ := line_eq_ok.1 hline
  exact (Run.pure_eq_ok.1 h).2

theorem scanned_of_function {index : Nat} {f : Function} {text : String}
    (h : function sc true true index f d = .ok text d') :
    ∃ e blocks next n, FlowGraph.cut next f.sites = .ok (blocks, n) ∧
      e.memory = d.memory.enter (some index) f.parameterNames d.nextBlock ∧
      (∃ g, g.blocks = FlowGraph.markPhi blocks ∧ e.graphs = d.graphs.set index (some g)) ∧
      e.firstPass = d.firstPass ∧ e.assertions = d.assertions ∧
      scanBlocks sc f index 0 (e.blocksOf index) e = .ok () d' := by
  unfold function at h
  rw [Run.modify_bind] at h
  unfold enter at h
  rw [Run.modify_bind] at h
  simp only [Bool.not_true, Bool.and_false, Bool.false_eq_true, if_false, if_true] at h
  rw [Run.get_bind, Run.get_bind] at h
  obtain ⟨_, _, hgraph, h⟩ := Run.bind_eq_ok.1 h
  obtain ⟨g, n, hbuild, rfl⟩ := eq_of_buildGraph hgraph
  obtain ⟨blocks, hcut, hblocks⟩ := FlowGraph.blocks_of_build hbuild
  obtain ⟨head, _, hhead, h⟩ := Run.bind_eq_ok.1 h
  obtain rfl := eq_of_heading hhead
  obtain ⟨_, _, hindent, h⟩ := Run.bind_eq_ok.1 h
  obtain rfl := indent_eq_ok.1 hindent
  rw [Run.get_bind] at h
  obtain ⟨_, _, hscan, h⟩ := Run.bind_eq_ok.1 h
  obtain ⟨-, rfl⟩ := Run.pure_eq_ok.1 h
  refine ⟨_, blocks, _, n, hcut, ?_, ⟨g, hblocks, ?_⟩, ?_, ?_, hscan⟩ <;> rfl

end Cairoscope.Decompiler
