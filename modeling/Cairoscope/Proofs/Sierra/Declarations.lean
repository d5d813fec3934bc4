import Cairoscope.Proofs.Sierra.InnerTypes
import Cairoscope.Proofs.Sierra.Loading
import Cairoscope.Sierra.Text

/-! Functions as they are declared, and as they are known once a source has been loaded. Variables have one
table for the whole program, where the first parameter of a name decides on its type; and types are entered by
their innermost parts. So a prototype can show other types than those of the declaration. -/

namespace Cairoscope.Sierra

def Param.entered (q : Param) : String := (q.type.innermost .type).text

def Source.params (src : Source) : List Param := src.functions.flatMap (·.params)

def Source.firstParam? (src : Source) (name : String) : Option Param :=
  src.params.find? fun q => q.var.text == name

def FunctionDeclaration.entered (d : FunctionDeclaration) : Function :=
  ⟨d.id.text, d.start, none, d.params.map (·.var.text), Program.returnTypes d.returns, [], []⟩

/-- A function without what it gets once all statements are known. -/
def Function.bare (f : Function) : Function := { f with stop := none, statements := [], blocks := [] }

namespace Program

variable {p p' p'' : Program} {name : String}

def known? (p : Program) (name : String) : Option Variable := p.vars.find? fun v => v.name == name

theorem typeOf?_eq (p : Program) (name : String) : p.typeOf? name = (p.known? name).bind (·.type) := rfl

theorem known?_of_prefix (h : p.vars <+: p'.vars) {v : Variable} (hv : p.known? name = some v) :
    p'.known? name = some v := by
  obtain ⟨more, hmore⟩ := h
  unfold known? at hv ⊢
  rw [← hmore, List.find?_append, hv]
  rfl

def broughtBy (ps : List Param) (name : String) : Option Variable :=
  (ps.find? fun q => q.var.text == name).map fun q => ⟨q.var.text, some q.entered⟩

/-- Parameters have been entered: a name that was not known is known by the first of them. -/
def Enters (ps : List Param) (p p' : Program) : Prop :=
  ∀ name, p'.known? name = (p.known? name).or (broughtBy ps name)

theorem enters_of_vars (h : p'.vars = p.vars) : Enters [] p p' := by
  intro name
  unfold known?
  rw [h]
  simp [broughtBy]

theorem Enters.trans {ps qs : List Param} (h : Enters ps p p') (h' : Enters qs p' p'') :
    Enters (ps ++ qs) p p'' := by
  intro name
  rw [h' name, h name, Option.or_assoc]
  unfold broughtBy
  rw [List.find?_append]
  cases ps.find? fun q => q.var.text == name with
  | none => rfl
  | some q => rfl

theorem vars_of_forM {α : Type} {f : α → Load Unit} (hf : ∀ a p p', f a p = .ok () p' → p'.vars = p.vars)
    {as : List α} (h : as.forM f p = .ok () p') : p'.vars = p.vars :=
  Run.rel_of_forM (R := fun p p' : Program => p'.vars = p.vars) (fun _ => rfl) (fun h h' => h'.trans h) hf h

theorem vars_of_needType {id : String} (h : needType id p = .ok () p') : p'.vars = p.vars := by
  unfold needType at h
  obtain rfl := Run.modify_eq_ok.1 h
  split_ifs
  · rfl
  · rfl

theorem known?_of_needVariable {type : Option String} (h : needVariable name type p = .ok () p')
    (other : String) : p'.known? other =
      (p.known? other).or (if name = other then some ⟨name, type⟩ else none) := by
  unfold needVariable at h
  obtain rfl := Run.modify_eq_ok.1 h
  unfold known?
  by_cases hknown : (p.vars.any fun v => v.name == name) = true
  · rw [if_pos hknown]
    split_ifs with heq
    · subst heq
      obtain ⟨v, hv⟩ := Option.isSome_iff_exists.1 (List.find?_isSome.2 (List.any_eq_true.1 hknown))
      rw [hv, Option.some_or]
    · rw [Option.or_none]
  · rw [if_neg hknown, List.find?_append]
    congr 1
    simp [List.find?_singleton]

theorem enters_of_addParam {q : Param} (h : addParam q p = .ok name p') :
    name = q.var.text ∧ Enters [q] p p' := by
  unfold addParam at h
  obtain ⟨_, p₁, htype, h⟩ := Run.bind_eq_ok.1 h
  obtain ⟨_, p₂, hvariable, h⟩ := Run.bind_eq_ok.1 h
  obtain ⟨rfl, rfl⟩ := Run.pure_eq_ok.1 h
  refine ⟨rfl, (enters_of_vars (vars_of_needType htype)).trans fun other => ?_⟩
  rw [known?_of_needVariable hvariable]
  congr 1
  unfold broughtBy
  rw [List.find?_singleton]
  simp only [beq_iff_eq]
  split_ifs
  · rfl
  · rfl

theorem enters_of_addParams {ps : List Param} {names : List String} (h : ps.mapM addParam p = .ok names p') :
    names = ps.map (·.var.text) ∧ Enters ps p p' := by
  induction ps generalizing p names with
  | nil =>
    obtain ⟨rfl, rfl⟩ := Run.pure_eq_ok.1 h
    exact ⟨rfl, enters_of_vars rfl⟩
  | cons q ps ih =>
    rw [List.mapM_cons] at h
    obtain ⟨_, p₁, hparam, h⟩ := Run.bind_eq_ok.1 h
    obtain ⟨_, p₂, hrest, h⟩ := Run.bind_eq_ok.1 h
    obtain ⟨rfl, rfl⟩ := Run.pure_eq_ok.1 h
    obtain ⟨rfl, hone⟩ := enters_of_addParam hparam
    obtain ⟨rfl, hall⟩ := ih hrest
    exact ⟨rfl, hone.trans hall⟩

theorem enters_of_addFunction {d : FunctionDeclaration} (h : addFunction d p = .ok () p') :
    p'.functions = p.functions ++ [d.entered] ∧ Enters d.params p p' := by
  unfold addFunction at h
  obtain ⟨names, p₁, hparams, h⟩ := Run.bind_eq_ok.1 h
  obtain ⟨_, p₂, htypes, h⟩ := Run.bind_eq_ok.1 h
  obtain rfl := Run.modify_eq_ok.1 h
  obtain ⟨rfl, henters⟩ := enters_of_addParams hparams
  have hvars := vars_of_forM (fun _ _ _ => vars_of_needType) htypes
  have hsame := (sameCode_of_addParams hparams).trans
    (sameCode_of_forM (fun _ _ _ => sameCode_of_needType) htypes)
  refine ⟨by rw [hsame.functions]; rfl, fun name => ?_⟩
  have hall := henters name
  unfold known? at hall ⊢
  rw [← hall, hvars]

theorem enters_of_addFunctions {ds : List FunctionDeclaration} (h : ds.forM addFunction p = .ok () p') :
    p'.functions = p.functions ++ ds.map (·.entered) ∧ Enters (ds.flatMap (·.params)) p p' := by
  induction ds generalizing p with
  | nil =>
    obtain ⟨-, rfl⟩ := Run.pure_eq_ok.1 h
    exact ⟨by simp, enters_of_vars rfl⟩
  | cons d ds ih =>
    obtain ⟨_, q, hone, hrest⟩ := Run.bind_eq_ok.1 h
    obtain ⟨hfunctions, henters⟩ := enters_of_addFunction hone
    obtain ⟨hfunctions', henters'⟩ := ih hrest
    refine ⟨?_, henters.trans henters'⟩
    rw [hfunctions', hfunctions, List.append_assoc]
    rfl

theorem bare_of_addBlocks {index : Nat} (h : addBlocks index p = .ok () p') :
    p'.functions.map Function.bare = p.functions.map Function.bare ∧ p'.vars = p.vars := by
  unfold addBlocks at h
  rw [Run.get_bind] at h
  cases hf : p.functions[index]? with
  | none =>
    rw [hf] at h
    obtain ⟨-, rfl⟩ := Run.pure_eq_ok.1 h
    exact ⟨rfl, rfl⟩
  | some f =>
    rw [hf] at h
    obtain ⟨blocks, _, hcut, h⟩ := Run.bind_eq_ok.1 h
    obtain ⟨-, rfl⟩ := Run.ofOutcome_eq_ok.1 hcut
    obtain rfl := Run.modify_eq_ok.1 h
    refine ⟨?_, rfl⟩
    obtain ⟨hindex, rfl⟩ := List.getElem?_eq_some_iff.1 hf
    have hbound : index < (p.functions.map Function.bare).length := by simpa using hindex
    have hsame : Function.bare { p.functions[index] with blocks := p.functions[index].blocks ++ blocks } =
        (p.functions.map Function.bare)[index] := by
      rw [List.getElem_map]
      rfl
    rw [List.map_set, hsame, List.set_getElem_self]

theorem bare_of_arrange (h : arrange p = .ok () p') :
    p'.functions.map Function.bare = p.functions.map Function.bare ∧ p'.vars = p.vars := by
  have hkept := Run.rel_of_forM
    (R := fun p p' : Program => p'.functions.map Function.bare = p.functions.map Function.bare ∧
      p'.vars = p.vars) (fun _ => ⟨rfl, rfl⟩) (fun h h' => ⟨h'.1.trans h.1, h'.2.trans h.2⟩)
    (fun _ _ _ => bare_of_addBlocks) (addBlocks_of_arrange h).2
  refine ⟨hkept.1.trans ?_, hkept.2⟩
  refine List.ext_getElem? fun i => ?_
  simp only [withStops, List.getElem?_map, List.getElem?_mapIdx, Option.map_map]
  rfl

theorem vars_of_addType {d : Declaration} (h : addType d p = .ok () p') : p'.vars = p.vars := by
  unfold addType at h
  obtain rfl := Run.modify_eq_ok.1 h
  rfl

theorem vars_of_addLibfunc {d : Declaration} (h : addLibfunc d p = .ok () p') : p'.vars = p.vars := by
  unfold addLibfunc at h
  obtain rfl := Run.modify_eq_ok.1 h
  rfl

structure Declared (src : Source) (p : Program) : Prop where
  functions : p.functions.map Function.bare = src.functions.map (·.entered)
  types : ∀ q ∈ src.params, ∃ q', src.firstParam? q.var.text = some q' ∧
    p.typeOf? q.var.text = some q'.entered

theorem declared_of_load {text : String} {src : Source} (hread : Source.read? text = some src)
    (h : load text .empty = .ok () p) : Declared src p := by
  obtain ⟨src', hread', p₁, p₂, p₃, p₄, htypes, hlibfuncs, hfunctions, hcommands, harrange⟩ := steps_of_load h
  obtain rfl := Option.some.inj (hread.symm.trans hread')
  have hvars₂ : p₂.vars = [] := by
    rw [vars_of_forM (fun _ _ _ => vars_of_addLibfunc) hlibfuncs,
      vars_of_forM (fun _ _ _ => vars_of_addType) htypes]
    rfl
  have hfunctions₂ : p₂.functions = [] := by
    rw [(sameCode_of_forM (fun _ _ _ => sameCode_of_addLibfunc) hlibfuncs).functions,
      (sameCode_of_forM (fun _ _ _ => sameCode_of_addType) htypes).functions]
    rfl
  have hfunctions₄ := (statements_of_addStatements hcommands).1
  obtain ⟨hentered, henters⟩ := enters_of_addFunctions hfunctions
  obtain ⟨hbare, hvars⟩ := bare_of_arrange harrange
  have hlater : p₃.vars <+: p.vars := by
    rw [hvars]
    exact Run.rel_of_forM (R := fun p p' : Program => p.vars <+: p'.vars) (fun _ => List.prefix_rfl)
      List.IsPrefix.trans (fun _ _ _ => vars_of_addStatement) hcommands
  refine ⟨?_, fun q hq => ?_⟩
  · rw [hbare, hfunctions₄, hentered, hfunctions₂, List.nil_append, List.map_map]
    rfl
  · obtain ⟨q', hq'⟩ : ∃ q', src.firstParam? q.var.text = some q' :=
      Option.isSome_iff_exists.1 (List.find?_isSome.2 ⟨q, hq, by simp⟩)
    have hentry : p₃.known? q.var.text = some ⟨q'.var.text, some q'.entered⟩ := by
      rw [henters, show p₂.known? q.var.text = none by simp [known?, hvars₂], Option.none_or]
      exact congrArg (Option.map _) hq'
    refine ⟨q', hq', ?_⟩
    rw [typeOf?_eq, known?_of_prefix hlater hentry]
    rfl

end Program

def Function.prototypeWith (f : Function) (types : List String) : String :=
  "func " ++ inColour bold f.id ++ " (" ++ joinWith (List.zipWith typedName f.parameters types) ++
    ") -> (" ++ joinWith (f.returns.map (inColour palette.yellow)) ++ ")"

namespace Program

variable {p : Program}

theorem parameterTexts_of_types {names types : List String} (h : names.map p.typeOf? = types.map some) :
    names.mapM p.parameterText = .ok (List.zipWith typedName names types) := by
  induction names generalizing types with
  | nil => rfl
  | cons name names ih =>
    cases types with
    | nil => cases h
    | cons type types =>
      obtain ⟨htype, hrest⟩ := List.cons.inj h
      have hone : p.parameterText name = .ok (typedName name type) := by
        unfold parameterText
        rw [htype]
      exact Outcome.mapM_cons_eq_ok.2 ⟨_, _, hone, ih hrest, rfl⟩

theorem prototype_of_types {f : Function} {types : List String}
    (h : f.parameters.map p.typeOf? = types.map some) : p.prototype f = .ok (f.prototypeWith types) := by
  unfold prototype
  rw [parameterTexts_of_types h]
  rfl

theorem Declared.function {src : Source} (h : Declared src p) {i : Nat} {d : FunctionDeclaration}
    (hd : src.functions[i]? = some d) : ∃ f, p.functions[i]? = some f ∧ f.bare = d.entered := by
  have hat : (p.functions.map Function.bare)[i]? = some d.entered := by
    rw [h.functions, List.getElem?_map, hd]
    rfl
  rw [List.getElem?_map] at hat
  exact Option.map_eq_some_iff.1 hat

end Program

def Source.shownType (src : Source) (q : Param) : String :=
  ((src.firstParam? q.var.text).getD q).entered

namespace Program

variable {text : String} {src : Source} {p : Program}

theorem Declared.shownTypes (h : Declared src p) {d : FunctionDeclaration} (hd : d ∈ src.functions)
    {f : Function} (hbare : f.bare = d.entered) :
    f.parameters.map p.typeOf? = (d.params.map src.shownType).map some := by
  have hparameters : f.parameters = d.params.map (·.var.text) := congrArg Function.parameters hbare
  rw [hparameters, List.map_map, List.map_map]
  refine List.map_congr_left fun q hq => ?_
  obtain ⟨q', hfirst, hq'⟩ := h.types q (List.mem_flatMap.2 ⟨d, hd, hq⟩)
  simp [Source.shownType, hfirst, hq']

/-- Each parameter has a type, so there is a prototype. -/
theorem exists_prototype (hread : Source.read? text = some src) (hload : load text .empty = .ok () p)
    {f : Function} (hf : f ∈ p.functions) : ∃ prototype, p.prototype f = .ok prototype := by
  have hdeclared := declared_of_load hread hload
  have hbare : f.bare ∈ src.functions.map (·.entered) := by
    rw [← hdeclared.functions]
    exact List.mem_map_of_mem hf
  obtain ⟨d, hd, hentered⟩ := List.mem_map.1 hbare
  exact ⟨_, prototype_of_types (hdeclared.shownTypes hd hentered.symm)⟩

/-- A function has the parameters of its declaration in their order. The type that is known for one, and shown
in the prototype, is the innermost type of the first parameter of the whole source with the same name. So the
declared types are kept exactly when that type is the declared one for each parameter; and for a parameter that
is the first of its name, exactly when its type names no other type. -/
theorem parameter_types_kept_iff (hread : Source.read? text = some src) (hload : load text .empty = .ok () p)
    {i : Nat} {d : FunctionDeclaration} (hd : src.functions[i]? = some d) :
    ∃ f, p.functions[i]? = some f ∧ f.parameters = d.params.map (·.var.text) ∧
      f.parameters.map p.typeOf? = (d.params.map src.shownType).map some ∧
      p.prototype f = .ok (f.prototypeWith (d.params.map src.shownType)) ∧
      (f.parameters.map p.typeOf? = d.params.map (fun q => some q.type.text) ↔
        ∀ q ∈ d.params, ∃ q', src.firstParam? q.var.text = some q' ∧
          (q'.type.innermost .type).text = q.type.text) ∧
      ∀ q ∈ d.params, src.firstParam? q.var.text = some q →
        (p.typeOf? q.var.text = some q.type.text ↔ q.type.within .type 1 = []) := by
  have hdeclared := declared_of_load hread hload
  obtain ⟨f, hf, hbare⟩ := hdeclared.function hd
  have hparameters : f.parameters = d.params.map (·.var.text) := congrArg Function.parameters hbare
  have htype : ∀ q ∈ d.params, ∃ q', src.firstParam? q.var.text = some q' ∧
      p.typeOf? q.var.text = some q'.entered := fun q hq =>
    hdeclared.types q (List.mem_flatMap.2 ⟨d, List.mem_of_getElem? hd, hq⟩)
  have htypes := hdeclared.shownTypes (List.mem_of_getElem? hd) hbare
  refine ⟨f, hf, hparameters, htypes, prototype_of_types htypes, ?_, fun q hq hfirst => ?_⟩
  · rw [hparameters, List.map_map, List.map_inj_left]
    refine forall₂_congr fun q hq => ?_
    obtain ⟨q', hfirst, hq'⟩ := htype q hq
    simp [hfirst, hq', Param.entered]
  · obtain ⟨q', hfirst', hq'⟩ := htype q hq
    obtain rfl := Option.some.inj (hfirst.symm.trans hfirst')
    rw [hq', Option.some_inj]
    exact innermost_text_eq_iff

/-- Two functions that number their variables from 0. -/
def sharedNumbers : String :=
  "return();\nreturn();\nf@0([0]: felt) -> ();\ng@1([0]: u8) -> (felt);\n"

theorem sharedNumbers_loads : ∃ src p d, Source.read? sharedNumbers = some src ∧
    load sharedNumbers .empty = .ok () p ∧ src.functions[1]? = some d ∧
    d.params.map (fun q => (q.var.text, q.type.text)) = [("[0]", "u8")] ∧
    d.params.map src.shownType = ["felt"] ∧
    d.returns.map Ident.text = ["felt"] ∧ innerTypes d.returns = [] := by
  have hsource : (Source.read? sharedNumbers).any (fun src => src.functions[1]?.any fun d =>
      decide (d.params.map (fun q => (q.var.text, q.type.text)) = [("[0]", "u8")]) &&
        decide (d.params.map src.shownType = ["felt"]) &&
        decide (d.returns.map Ident.text = ["felt"]) && (innerTypes d.returns).isEmpty) = true := by
    decide +kernel
  obtain ⟨p, hload, -⟩ := exists_load sharedNumbers (fun _ => true) (by decide +kernel)
  simp only [Option.any_eq_true, Bool.and_eq_true, decide_eq_true_eq, List.isEmpty_iff] at hsource
  obtain ⟨src, hread, d, hd, ⟨⟨hparams, hshown⟩, hreturns⟩, hplain⟩ := hsource
  exact ⟨src, p, d, hread, hload, hd, hparams, hshown, hreturns, hplain⟩

theorem parameter_types_shared : ∃ src p d f, Source.read? sharedNumbers = some src ∧
    load sharedNumbers .empty = .ok () p ∧ src.functions[1]? = some d ∧ p.functions[1]? = some f ∧
    d.params.map (fun q => (q.var.text, q.type.text)) = [("[0]", "u8")] ∧
    f.parameters = ["[0]"] ∧ f.parameters.map p.typeOf? = [some "felt"] := by
  obtain ⟨src, p, d, hread, hload, hd, hparams, hshown, -, -⟩ := sharedNumbers_loads
  obtain ⟨f, hf, hparameters, htypes, -, -, -⟩ := parameter_types_kept_iff hread hload hd
  refine ⟨src, p, d, f, hread, hload, hd, hf, hparams, ?_, ?_⟩
  · rw [hparameters]
    simpa using congrArg (List.map Prod.fst) hparams
  · rw [htypes, hshown]
    rfl

/-- The return types of a function are those of its declaration exactly when there are none, or a single type
is named inside them. One that is named deeper comes first and the first one is left out, so without such types
it is the first return type that is missing. -/
theorem return_types_kept_iff (hread : Source.read? text = some src) (hload : load text .empty = .ok () p)
    {i : Nat} {d : FunctionDeclaration} (hd : src.functions[i]? = some d) :
    ∃ f, p.functions[i]? = some f ∧
      (f.returns = d.returns.map Ident.text ↔ d.returns = [] ∨ (innerTypes d.returns).length = 1) ∧
      (innerTypes d.returns = [] → f.returns = (d.returns.map Ident.text).tail) ∧
      f.returns.length = d.returns.length + (innerTypes d.returns).length - 1 := by
  obtain ⟨f, hf, hbare⟩ := (declared_of_load hread hload).function hd
  have hreturns : f.returns = returnTypes d.returns := congrArg Function.returns hbare
  refine ⟨f, hf, ?_⟩
  rw [hreturns]
  exact ⟨returnTypes_eq_iff, returnTypes_of_plain, length_returnTypes _⟩

theorem return_types_shared : ∃ src p d f, Source.read? sharedNumbers = some src ∧
    load sharedNumbers .empty = .ok () p ∧ src.functions[1]? = some d ∧ p.functions[1]? = some f ∧
    d.returns.map Ident.text = ["felt"] ∧ f.returns = [] := by
  obtain ⟨src, p, d, hread, hload, hd, -, -, hreturns, hplain⟩ := sharedNumbers_loads
  obtain ⟨f, hf, -, hlost, -⟩ := return_types_kept_iff hread hload hd
  refine ⟨src, p, d, f, hread, hload, hd, hf, hreturns, ?_⟩
  rw [hlost hplain, hreturns]
  rfl

end Program

end Cairoscope.Sierra
