import Cairoscope.Proofs.Outcome
import Cairoscope.Sierra.Blocks
import Mathlib.Data.List.Intervals

/-! What a program is once a source has been loaded. Each command is recorded at its own offset, and each
function has the statements from its start up to its stop, with the blocks that they are cut into. -/

namespace Cairoscope.Sierra

open Program

inductive Records (offset : Nat) : Command → Action → Prop
  | give (vars : List VarId) : Records offset (.give vars) (.give (numberedNames vars))
  | invoke {id : Ident} {arguments results : List VarId} {libfunc : Libfunc}
      (hid : libfunc.id = (id.innermost .libfunc).text) :
      Records offset (.invoke id arguments results)
        (.assign libfunc (numberedNames arguments) (numberedNames results))
  /-- A branch goes on with the next statement. Of the others the first one is recorded. -/
  | fallthrough {id : Ident} {arguments vars : List VarId} {branches : List Branch} {first : Int}
      {rest : List Int} (hnext : ∃ b ∈ branches, b.target = .next)
      (htargets : branches.filterMap (·.target.index?) = first :: rest)
      (hvars : (jumpLists arguments branches)[2]? = some vars) :
      Records offset (.jump id arguments branches)
        (.jump (id.innermost .libfunc).text (vars.map VarId.text) first (some offset) true)
  | single {id : Ident} {arguments : List VarId} {branches : List Branch} {first : Int}
      (hnext : ∀ b ∈ branches, b.target ≠ .next)
      (htargets : branches.filterMap (·.target.index?) = [first]) :
      Records offset (.jump id arguments branches)
        (.jump (id.innermost .libfunc).text [] first none false)
  /-- Of several targets the first two are recorded. -/
  | several {id : Ident} {arguments vars : List VarId} {branches : List Branch} {first second : Int}
      {rest : List Int} (hnext : ∀ b ∈ branches, b.target ≠ .next)
      (htargets : branches.filterMap (·.target.index?) = first :: second :: rest)
      (hvars : (jumpLists arguments branches)[2]? = some vars) :
      Records offset (.jump id arguments branches)
        (.jump (id.innermost .libfunc).text (vars.map VarId.text) first (some (second - 1)) false)

namespace Program

variable {p p' p'' : Program}

structure SameCode (p p' : Program) : Prop where
  statements : p'.statements = p.statements
  functions : p'.functions = p.functions
  nextOffset : p'.nextOffset = p.nextOffset
  vars : p.vars <+: p'.vars

theorem SameCode.refl (p : Program) : SameCode p p := ⟨rfl, rfl, rfl, List.prefix_rfl⟩

theorem SameCode.trans (h : SameCode p p') (h' : SameCode p' p'') : SameCode p p'' :=
  ⟨h'.statements.trans h.statements, h'.functions.trans h.functions,
    h'.nextOffset.trans h.nextOffset, h.vars.trans h'.vars⟩

theorem sameCode_of_forM {α : Type} {f : α → Load Unit}
    (hf : ∀ a p p', f a p = .ok () p' → SameCode p p') {as : List α} (h : as.forM f p = .ok () p') :
    SameCode p p' :=
  Run.rel_of_forM SameCode.refl SameCode.trans hf h

theorem sameCode_of_needType {id : String} (h : needType id p = .ok () p') : SameCode p p' := by
  unfold needType at h
  obtain rfl := Run.modify_eq_ok.1 h
  split_ifs
  · exact .refl p
  · exact ⟨rfl, rfl, rfl, List.prefix_rfl⟩

theorem sameCode_of_needVariable {name : String} {type : Option String}
    (h : needVariable name type p = .ok () p') : SameCode p p' := by
  unfold needVariable at h
  obtain rfl := Run.modify_eq_ok.1 h
  split_ifs
  · exact .refl p
  · exact ⟨rfl, rfl, rfl, List.prefix_append _ _⟩

theorem sameCode_of_addType {d : Declaration} (h : addType d p = .ok () p') : SameCode p p' := by
  unfold addType at h
  obtain rfl := Run.modify_eq_ok.1 h
  exact ⟨rfl, rfl, rfl, List.prefix_rfl⟩

theorem sameCode_of_addLibfunc {d : Declaration} (h : addLibfunc d p = .ok () p') : SameCode p p' := by
  unfold addLibfunc at h
  obtain rfl := Run.modify_eq_ok.1 h
  exact ⟨rfl, rfl, rfl, List.prefix_rfl⟩

theorem sameCode_of_addParams {params : List Param} {names : List String}
    (h : params.mapM addParam p = .ok names p') : SameCode p p' := by
  induction params generalizing p names with
  | nil =>
    obtain ⟨-, rfl⟩ := Run.pure_eq_ok.1 h
    exact .refl p
  | cons q params ih =>
    rw [List.mapM_cons] at h
    obtain ⟨_, p₁, hparam, h⟩ := Run.bind_eq_ok.1 h
    obtain ⟨_, p₂, hrest, h⟩ := Run.bind_eq_ok.1 h
    obtain ⟨-, rfl⟩ := Run.pure_eq_ok.1 h
    unfold addParam at hparam
    obtain ⟨_, _, htype, hparam⟩ := Run.bind_eq_ok.1 hparam
    obtain ⟨_, _, hvariable, hparam⟩ := Run.bind_eq_ok.1 hparam
    obtain ⟨-, rfl⟩ := Run.pure_eq_ok.1 hparam
    exact (sameCode_of_needType htype).trans ((sameCode_of_needVariable hvariable).trans (ih hrest))

/-- A function is entered without statements and blocks. -/
theorem functions_of_addFunction {d : FunctionDeclaration} (h : addFunction d p = .ok () p') :
    p'.statements = p.statements ∧ p'.nextOffset = p.nextOffset ∧
      ∃ parameters, p'.functions = p.functions ++
        [⟨d.id.text, d.start, none, parameters, returnTypes d.returns, [], []⟩] := by
  unfold addFunction at h
  obtain ⟨parameters, p₁, hparams, h⟩ := Run.bind_eq_ok.1 h
  obtain ⟨_, p₂, htypes, h⟩ := Run.bind_eq_ok.1 h
  obtain rfl := Run.modify_eq_ok.1 h
  have hsame := (sameCode_of_addParams hparams).trans
    (sameCode_of_forM (fun _ _ _ => sameCode_of_needType) htypes)
  exact ⟨hsame.statements, hsame.nextOffset, parameters, by rw [hsame.functions]⟩

theorem functions_of_addFunctions {ds : List FunctionDeclaration} (h : ds.forM addFunction p = .ok () p')
    (hp : ∀ f ∈ p.functions, f.blocks = []) :
    p'.statements = p.statements ∧ p'.nextOffset = p.nextOffset ∧ ∀ f ∈ p'.functions, f.blocks = [] := by
  induction ds generalizing p with
  | nil =>
    obtain ⟨-, rfl⟩ := Run.pure_eq_ok.1 h
    exact ⟨rfl, rfl, hp⟩
  | cons d ds ih =>
    obtain ⟨_, q, hone, hrest⟩ := Run.bind_eq_ok.1 h
    obtain ⟨hstatements, hnext, parameters, hfunctions⟩ := functions_of_addFunction hone
    have hq : ∀ f ∈ q.functions, f.blocks = [] := by
      rw [hfunctions, List.forall_mem_append]
      exact ⟨hp, by simp⟩
    obtain ⟨hstatements', hnext', hall⟩ := ih hrest hq
    exact ⟨hstatements'.trans hstatements, hnext'.trans hnext, hall⟩

theorem eq_of_needAll {names result : List String} (h : needAll names p = .ok result p') :
    result = names ∧ SameCode p p' := by
  unfold needAll at h
  obtain ⟨_, q, hall, h⟩ := Run.bind_eq_ok.1 h
  obtain ⟨rfl, rfl⟩ := Run.pure_eq_ok.1 h
  exact ⟨rfl, sameCode_of_forM (fun _ _ _ => sameCode_of_needVariable) hall⟩

theorem eq_of_libfuncOf {id : String} {l : Libfunc} (h : libfuncOf id p = .ok l p') :
    l.id = id ∧ p' = p := by
  unfold libfuncOf at h
  rw [Run.get_bind] at h
  cases hfound : p.libfuncs.find? fun l => l.id == id with
  | none =>
    rw [hfound] at h
    exact absurd h Run.throw_ne_ok
  | some found =>
    rw [hfound] at h
    obtain ⟨rfl, rfl⟩ := Run.pure_eq_ok.1 h
    exact ⟨by simpa using List.find?_some hfound, rfl⟩

theorem eq_of_jumpParameters {arguments : List VarId} {branches : List Branch} {result : List String}
    (h : jumpParameters arguments branches p = .ok result p') :
    ∃ vars, (jumpLists arguments branches)[2]? = some vars ∧ result = vars.map VarId.text ∧
      SameCode p p' := by
  unfold jumpParameters at h
  cases hvars : (jumpLists arguments branches)[2]? with
  | none =>
    rw [hvars] at h
    exact absurd h Run.throw_ne_ok
  | some vars =>
    rw [hvars] at h
    exact ⟨vars, rfl, eq_of_needAll h⟩

theorem records_of_actionOf {offset : Nat} {c : Command} {a : Action}
    (h : actionOf offset c p = .ok a p') : Records offset c a ∧ SameCode p p' := by
  cases c with
  | give vars =>
    obtain ⟨_, _, hvars, h⟩ := Run.bind_eq_ok.1 h
    obtain ⟨rfl, hsame⟩ := eq_of_needAll hvars
    obtain ⟨rfl, rfl⟩ := Run.pure_eq_ok.1 h
    exact ⟨.give vars, hsame⟩
  | invoke id arguments results =>
    obtain ⟨libfunc, _, hlibfunc, h⟩ := Run.bind_eq_ok.1 h
    obtain ⟨_, _, harguments, h⟩ := Run.bind_eq_ok.1 h
    obtain ⟨_, _, hresults, h⟩ := Run.bind_eq_ok.1 h
    obtain ⟨rfl, rfl⟩ := Run.pure_eq_ok.1 h
    obtain ⟨hid, rfl⟩ := eq_of_libfuncOf hlibfunc
    obtain ⟨rfl, hsame⟩ := eq_of_needAll harguments
    obtain ⟨rfl, hsame'⟩ := eq_of_needAll hresults
    exact ⟨.invoke hid, hsame.trans hsame'⟩
  | jump id arguments branches =>
    unfold actionOf at h
    dsimp only at h
    by_cases hnext : (branches.any fun b => b.target = .next) = true
    · rw [if_pos hnext] at h
      have hnext : ∃ b ∈ branches, b.target = .next := by simpa using hnext
      cases htargets : branches.filterMap (·.target.index?) with
      | nil =>
        rw [htargets] at h
        exact absurd h Run.throw_ne_ok
      | cons first rest =>
        rw [htargets] at h
        obtain ⟨_, _, hparameters, h⟩ := Run.bind_eq_ok.1 h
        obtain ⟨vars, hvars, rfl, hsame⟩ := eq_of_jumpParameters hparameters
        obtain ⟨rfl, rfl⟩ := Run.pure_eq_ok.1 h
        exact ⟨.fallthrough hnext htargets hvars, hsame⟩
    · rw [if_neg hnext] at h
      have hnext : ∀ b ∈ branches, b.target ≠ .next := by simpa using hnext
      rcases htargets : branches.filterMap (·.target.index?) with _ | ⟨first, _ | ⟨second, rest⟩⟩
      · rw [htargets] at h
        exact absurd h Run.throw_ne_ok
      · rw [htargets] at h
        obtain ⟨rfl, rfl⟩ := Run.pure_eq_ok.1 h
        exact ⟨.single hnext htargets, .refl p⟩
      · rw [htargets] at h
        obtain ⟨_, _, hparameters, h⟩ := Run.bind_eq_ok.1 h
        obtain ⟨vars, hvars, rfl, hsame⟩ := eq_of_jumpParameters hparameters
        obtain ⟨rfl, rfl⟩ := Run.pure_eq_ok.1 h
        exact ⟨.several hnext htargets hvars, hsame⟩

/-- A statement has the offset that the counter shows, and the counter goes on by one. -/
theorem statements_of_addStatement {c : Command} (h : addStatement c p = .ok () p') :
    p'.functions = p.functions ∧ p'.nextOffset = p.nextOffset + 1 ∧
      ∃ a, Records p.nextOffset c a ∧ p'.statements = p.statements ++ [⟨p.nextOffset, c.text, a⟩] := by
  unfold addStatement at h
  rw [Run.get_bind] at h
  obtain ⟨a, q, haction, h⟩ := Run.bind_eq_ok.1 h
  obtain rfl := Run.modify_eq_ok.1 h
  obtain ⟨hrecords, hsame⟩ := records_of_actionOf haction
  exact ⟨hsame.functions, congrArg (· + 1) hsame.nextOffset, a, hrecords, by rw [hsame.statements]⟩

theorem statements_of_addStatements {cs : List Command} (h : cs.forM addStatement p = .ok () p') :
    p'.functions = p.functions ∧ p'.nextOffset = p.nextOffset + cs.length ∧
      p'.statements.length = p.statements.length + cs.length ∧ p.statements <+: p'.statements ∧
      ∀ i c, cs[i]? = some c → ∃ a, Records (p.nextOffset + i) c a ∧
        p'.statements[p.statements.length + i]? = some ⟨p.nextOffset + i, c.text, a⟩ := by
  induction cs generalizing p with
  | nil =>
    obtain ⟨-, rfl⟩ := Run.pure_eq_ok.1 h
    exact ⟨rfl, rfl, rfl, List.prefix_rfl, by simp⟩
  | cons c cs ih =>
    obtain ⟨_, q, hone, hrest⟩ := Run.bind_eq_ok.1 h
    obtain ⟨hfunctions, hnext, a, hrecords, hstatements⟩ := statements_of_addStatement hone
    obtain ⟨hfunctions', hnext', hlength, hfront, hall⟩ := ih hrest
    rw [hstatements, List.length_append, List.length_singleton] at hlength hall
    rw [hstatements] at hfront
    rw [hnext] at hnext' hall
    refine ⟨hfunctions'.trans hfunctions, ?_, ?_, (List.prefix_append _ _).trans hfront, ?_⟩
    · rw [hnext', List.length_cons, Nat.add_assoc, Nat.add_comm 1]
    · rw [hlength, List.length_cons, Nat.add_assoc, Nat.add_comm 1]
    · rintro (_ | i) c' hc'
      · obtain rfl : c = c' := by simpa using hc'
        obtain ⟨later, hlater⟩ := hfront
        refine ⟨a, hrecords, ?_⟩
        rw [← hlater]
        simp
      · have hlater := hall i c' (by simpa using hc')
        rwa [Nat.add_assoc, Nat.add_assoc, Nat.add_comm 1] at hlater

theorem vars_of_addStatement {c : Command} (h : addStatement c p = .ok () p') : p.vars <+: p'.vars := by
  unfold addStatement at h
  rw [Run.get_bind] at h
  obtain ⟨a, q, haction, h⟩ := Run.bind_eq_ok.1 h
  obtain rfl := Run.modify_eq_ok.1 h
  exact (records_of_actionOf haction).2.vars

theorem functions_of_addBlocks {index : Nat} (h : addBlocks index p = .ok () p') :
    p'.statements = p.statements ∧ p'.nextOffset = p.nextOffset ∧
      p'.functions.length = p.functions.length ∧
      (∀ i, i ≠ index → p'.functions[i]? = p.functions[i]?) ∧
      ∀ f, p.functions[index]? = some f → ∃ blocks, blocksOf f = .ok blocks ∧
        p'.functions[index]? = some { f with blocks := f.blocks ++ blocks } := by
  unfold addBlocks at h
  rw [Run.get_bind] at h
  cases hf : p.functions[index]? with
  | none =>
    rw [hf] at h
    obtain ⟨-, rfl⟩ := Run.pure_eq_ok.1 h
    exact ⟨rfl, rfl, rfl, fun _ _ => rfl, by simp⟩
  | some f =>
    rw [hf] at h
    obtain ⟨blocks, _, hcut, h⟩ := Run.bind_eq_ok.1 h
    obtain ⟨hblocks, rfl⟩ := Run.ofOutcome_eq_ok.1 hcut
    obtain rfl := Run.modify_eq_ok.1 h
    refine ⟨rfl, rfl, List.length_set, fun i hi => List.getElem?_set_ne hi.symm, fun f' hf' => ?_⟩
    obtain rfl := Option.some.inj hf'
    exact ⟨blocks, hblocks, List.getElem?_set_self (List.getElem?_eq_some_iff.1 hf).1⟩

theorem functions_of_addAllBlocks {k n : Nat} (h : (List.range' k n).forM addBlocks p = .ok () p') :
    p'.statements = p.statements ∧ p'.nextOffset = p.nextOffset ∧
      p'.functions.length = p.functions.length ∧
      (∀ i < k, p'.functions[i]? = p.functions[i]?) ∧
      ∀ i f, k ≤ i → i < k + n → p.functions[i]? = some f → ∃ blocks, blocksOf f = .ok blocks ∧
        p'.functions[i]? = some { f with blocks := f.blocks ++ blocks } := by
  induction n generalizing k p with
  | zero =>
    obtain ⟨-, rfl⟩ := Run.pure_eq_ok.1 h
    exact ⟨rfl, rfl, rfl, fun _ _ => rfl, by omega⟩
  | succ n ih =>
    rw [List.range'_succ] at h
    obtain ⟨_, q, hone, hrest⟩ := Run.bind_eq_ok.1 h
    obtain ⟨hstatements, hnext, hlength, hothers, hown⟩ := functions_of_addBlocks hone
    obtain ⟨hstatements', hnext', hlength', hbefore, hafter⟩ := ih hrest
    refine ⟨hstatements'.trans hstatements, hnext'.trans hnext, hlength'.trans hlength, fun i hi => ?_,
      fun i f hk hi hf => ?_⟩
    · rw [hbefore i (by omega), hothers i (by omega)]
    · rcases hk.eq_or_lt with rfl | hk
      · rw [hbefore k (by omega)]
        exact hown f hf
      · rw [← hothers i (by omega)] at hf
        exact hafter i f hk (by omega) hf

end Program

/-- The statements of a function are those from its start up to its stop, and its blocks are cut from
them. -/
structure Function.Arranged (statements : List Statement) (f : Function) : Prop where
  statements : ∃ stop, f.stop = some stop ∧
    f.statements = statements.filter fun s => decide (f.start ≤ s.offset) && decide ((s.offset : Int) < stop)
  blocks : blocksOf f = .ok f.blocks

theorem Function.Arranged.start_le {statements : List Statement} {f : Function} (h : f.Arranged statements)
    {s : Statement} (hs : s ∈ f.statements) : f.start ≤ s.offset := by
  obtain ⟨stop, -, hstatements⟩ := h.statements
  rw [hstatements, List.mem_filter] at hs
  simp only [Bool.and_eq_true, decide_eq_true_eq] at hs
  exact hs.2.1

namespace Program

theorem statements_of_mem_withStatements {fs : List Function} {size : Nat} {ss : List Statement}
    {f : Function} (hf : f ∈ (withStops fs size).map (withStatements ss)) :
    (∃ stop, f.stop = some stop ∧ f.statements =
      ss.filter fun s => decide (f.start ≤ s.offset) && decide ((s.offset : Int) < stop)) ∧
      ∃ f₀ ∈ fs, f.blocks = f₀.blocks := by
  obtain ⟨_, hstopped, rfl⟩ := List.mem_map.1 hf
  obtain ⟨i, hi, rfl⟩ := List.mem_mapIdx.1 hstopped
  exact ⟨⟨_, rfl, rfl⟩, fs[i], List.getElem_mem hi, rfl⟩

/-- There is a function, and all of them have their statements before the first one has blocks. -/
theorem addBlocks_of_arrange {p p' : Program} (h : arrange p = .ok () p') :
    p.functions ≠ [] ∧ (List.range' 0 p.functions.length).forM addBlocks { p with
      functions := (withStops p.functions p.statements.length).map (withStatements p.statements) } =
      .ok () p' := by
  unfold arrange at h
  rw [Run.get_bind] at h
  by_cases hempty : p.functions.isEmpty = true
  · rw [if_pos hempty] at h
    obtain ⟨_, _, hthrow, -⟩ := Run.bind_eq_ok.1 h
    exact absurd hthrow Run.throw_ne_ok
  rw [if_neg hempty] at h
  obtain ⟨_, q, hset, hblocks⟩ := Run.bind_eq_ok.1 h
  obtain rfl := Run.modify_eq_ok.1 hset
  rw [List.range_eq_range'] at hblocks
  exact ⟨by simpa using hempty, hblocks⟩

theorem arranged_of_arrange {p p' : Program} (h : arrange p = .ok () p')
    (hp : ∀ f ∈ p.functions, f.blocks = []) :
    p'.statements = p.statements ∧ p'.nextOffset = p.nextOffset ∧
      ∀ f ∈ p'.functions, f.Arranged p.statements := by
  obtain ⟨hstatements, hnext, hlength, -, hall⟩ := functions_of_addAllBlocks (addBlocks_of_arrange h).2
  refine ⟨hstatements, hnext, fun f hf => ?_⟩
  obtain ⟨i, hi⟩ := List.mem_iff_getElem?.1 hf
  have hbound := (List.getElem?_eq_some_iff.1 hi).1
  rw [hlength] at hbound
  have hsize : i < p.functions.length := by simpa [withStops] using hbound
  obtain ⟨g, hg⟩ : ∃ g, ((withStops p.functions p.statements.length).map
      (withStatements p.statements))[i]? = some g := ⟨_, List.getElem?_eq_getElem hbound⟩
  obtain ⟨blocks, hcut, hi'⟩ := hall i g (Nat.zero_le i) (by omega) hg
  obtain rfl := Option.some.inj (hi.symm.trans hi')
  obtain ⟨hown, f₀, hf₀, hnone⟩ := statements_of_mem_withStatements (List.mem_of_getElem? hg)
  rw [hp f₀ hf₀] at hnone
  refine ⟨hown, ?_⟩
  rw [hnone]
  exact hcut

structure Loaded (src : Source) (p : Program) : Prop where
  length : p.statements.length = src.commands.length
  nextOffset : p.nextOffset = p.statements.length
  recorded : ∀ i c, src.commands[i]? = some c → ∃ a, Records i c a ∧ p.statements[i]? = some ⟨i, c.text, a⟩
  functions : ∀ f ∈ p.functions, f.Arranged p.statements

/-- The parts of a source are handled one after the other. -/
theorem steps_of_load {text : String} {p p' : Program} (h : load text p = .ok () p') :
    ∃ src, Source.read? text = some src ∧ ∃ p₁ p₂ p₃ p₄, src.types.forM addType p = .ok () p₁ ∧
      src.libfuncs.forM addLibfunc p₁ = .ok () p₂ ∧ src.functions.forM addFunction p₂ = .ok () p₃ ∧
      src.commands.forM addStatement p₃ = .ok () p₄ ∧ arrange p₄ = .ok () p' := by
  unfold load at h
  cases hread : Source.read? text with
  | none =>
    rw [hread] at h
    exact absurd h Run.throw_ne_ok
  | some src =>
    rw [hread] at h
    obtain ⟨_, p₁, htypes, h⟩ := Run.bind_eq_ok.1 h
    obtain ⟨_, p₂, hlibfuncs, h⟩ := Run.bind_eq_ok.1 h
    obtain ⟨_, p₃, hfunctions, h⟩ := Run.bind_eq_ok.1 h
    obtain ⟨_, p₄, hcommands, harrange⟩ := Run.bind_eq_ok.1 h
    exact ⟨src, rfl, p₁, p₂, p₃, p₄, htypes, hlibfuncs, hfunctions, hcommands, harrange⟩

theorem loaded_of_load {text : String} {p : Program} (h : load text .empty = .ok () p) :
    ∃ src, Source.read? text = some src ∧ Loaded src p := by
  obtain ⟨src, hread, p₁, p₂, p₃, p₄, htypes, hlibfuncs, hfunctions, hcommands, harrange⟩ := steps_of_load h
  have hdeclared := (sameCode_of_forM (fun _ _ _ => sameCode_of_addType) htypes).trans
    (sameCode_of_forM (fun _ _ _ => sameCode_of_addLibfunc) hlibfuncs)
  obtain ⟨hstatements₃, hnext₃, hblocks⟩ := functions_of_addFunctions hfunctions
    (by rw [hdeclared.functions]; simp [Program.empty])
  rw [hdeclared.statements] at hstatements₃
  rw [hdeclared.nextOffset] at hnext₃
  obtain ⟨hfunctions₄, hnext₄, hlength, -, hrecorded⟩ := statements_of_addStatements hcommands
  -- before the first statement there is none, and the counter stands at 0
  rw [hnext₃] at hnext₄
  rw [hstatements₃] at hlength
  rw [hstatements₃, hnext₃] at hrecorded
  simp only [Program.empty, List.length_nil, Nat.zero_add] at hnext₄ hlength hrecorded
  rw [← hfunctions₄] at hblocks
  obtain ⟨hstatements, hnext, harranged⟩ := arranged_of_arrange harrange hblocks
  rw [← hstatements] at hlength hrecorded harranged
  exact ⟨src, hread, hlength, by rw [hnext, hnext₄, hlength], hrecorded, harranged⟩

/-- A program that loads and passes a check, both found by evaluation. -/
theorem exists_load (text : String) (check : Program → Bool)
    (h : ((load text >>= fun _ => get : Load Program).run' .empty).any check = true) :
    ∃ p, load text .empty = .ok () p ∧ check p = true := by
  unfold EStateM.run' EStateM.run at h
  cases hrun : (load text >>= fun _ => get : Load Program) .empty with
  | error e p =>
    rw [hrun] at h
    cases h
  | ok q p =>
    rw [hrun] at h
    obtain ⟨_, _, hload, hget⟩ := Run.bind_eq_ok.1 hrun
    obtain ⟨rfl, rfl⟩ := Run.get_eq_ok.1 hget
    exact ⟨_, hload, h⟩

theorem Loaded.offsets {src : Source} {p : Program} (h : Loaded src p) :
    p.statements.map (·.offset) = List.range p.statements.length := by
  refine List.ext_getElem (by simp) fun i hi _ => ?_
  rw [List.length_map, h.length] at hi
  obtain ⟨a, -, ha⟩ := h.recorded i _ (List.getElem?_eq_getElem hi)
  simp [(List.getElem?_eq_some_iff.1 ha).2]

/-- The statements of a function are numbered one after the other. -/
theorem Loaded.offsets_function {src : Source} {p : Program} (h : Loaded src p) {f : Function}
    (hf : f ∈ p.functions) : ∃ last, f.statements.map (·.offset) = List.Ico f.start.toNat last := by
  obtain ⟨stop, -, hstatements⟩ := (h.functions f hf).statements
  refine ⟨min p.statements.length stop.toNat, ?_⟩
  have hrange : f.statements.map (·.offset) = (List.range p.statements.length).filter fun i =>
      decide (f.start.toNat ≤ i) && decide (i < stop.toNat) := by
    rw [← h.offsets, hstatements, List.filter_map]
    congr 1
    refine List.filter_congr fun s _ => ?_
    rw [Bool.eq_iff_iff]
    simp only [Function.comp_apply, Bool.and_eq_true, decide_eq_true_eq]
    omega
  rw [hrange, ← List.Ico.zero_bot, ← List.filter_filter, List.Ico.filter_lt, List.Ico.filter_le,
    Nat.zero_max]

/-- A statement of a function is the record of the command at its offset. -/
theorem Loaded.records {src : Source} {p : Program} (h : Loaded src p) {f : Function}
    (hf : f ∈ p.functions) {s : Statement} (hs : s ∈ f.statements) {c : Command}
    (hc : src.commands[s.offset]? = some c) : Records s.offset c s.action := by
  obtain ⟨stop, -, hstatements⟩ := (h.functions f hf).statements
  rw [hstatements] at hs
  obtain ⟨i, hi⟩ := List.mem_iff_getElem?.1 (List.mem_filter.1 hs).1
  have hoffset : s.offset = i := by
    have hat : (p.statements.map (·.offset))[i]? = some s.offset := by simp [hi]
    rw [h.offsets, List.getElem?_eq_some_iff] at hat
    simpa using hat.2.symm
  obtain ⟨a, hrecords, ha⟩ := h.recorded s.offset c hc
  rw [hoffset] at ha
  obtain rfl := Option.some.inj (hi.symm.trans ha)
  exact hrecords

end Program

end Cairoscope.Sierra
