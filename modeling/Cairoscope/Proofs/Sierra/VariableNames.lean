import Cairoscope.Proofs.Sierra.BranchTargets
import Cairoscope.Proofs.Sierra.Declarations
import Cairoscope.Proofs.Sierra.Names

/-! The variables of a function as they are written, and as they are recorded. A variable is known by its name,
and a numbered one has two names: its text `[n]` as a parameter or an argument of a jump, and the number `n`
everywhere else. A labelled one has no number, so it is recorded only where variables go by their text. -/

namespace Cairoscope.Sierra

/-- A label starts as the grammar has it. -/
def VarId.Proper : VarId → Prop
  | .number _ => True
  | .label name => name.toList.head?.any Reader.isLabelStart = true

inductive VarId.Called : VarId → String → Prop
  | text (v : VarId) : Called v v.text
  | number (n : Int) : Called (.number n) (Text.decimal n)

section Names

variable {v w : VarId}

theorem bracketed_head (n : Int) : (bracketed n).toList.head? = some '[' := by
  unfold bracketed
  rw [String.toList_append, String.toList_append]
  rfl

theorem bracketed_inj {m n : Int} (h : bracketed m = bracketed n) : m = n := by
  unfold bracketed at h
  rw [String.append_left_inj, String.append_right_inj] at h
  exact Text.decimal_inj h

theorem not_isDigit_of_isLabelStart {c : Char} (h : Reader.isLabelStart c = true) : c.isDigit = false := by
  refine Bool.eq_false_iff.2 fun hdigit => ?_
  have hle : c ≤ '9' := by
    simp only [Char.isDigit, Bool.and_eq_true, decide_eq_true_eq] at hdigit
    exact hdigit.2
  simp only [Reader.isLabelStart, Bool.or_eq_true, Bool.and_eq_true, decide_eq_true_eq] at h
  rcases h with (⟨hsmall, -⟩ | ⟨hlarge, -⟩) | rfl
  · exact absurd (Char.le_trans hsmall hle) (by decide)
  · exact absurd (Char.le_trans hlarge hle) (by decide)
  · exact absurd hle (by decide)

theorem VarId.Proper.text_ne_decimal (h : v.Proper) (n : Int) : v.text ≠ Text.decimal n := by
  intro heq
  obtain ⟨c, hc, hkind⟩ := Text.decimal_head n
  rw [← heq] at hc
  cases v with
  | number m =>
    obtain rfl : '[' = c := Option.some.inj ((bracketed_head m).symm.trans hc)
    simp at hkind
  | label name =>
    have hstart : Reader.isLabelStart c = true := by
      simpa [VarId.Proper, show name.toList.head? = some c from hc] using h
    rcases hkind with hdigit | rfl
    · rw [not_isDigit_of_isLabelStart hstart] at hdigit
      cases hdigit
    · cases hstart

theorem VarId.Proper.text_inj (hv : v.Proper) (hw : w.Proper) (h : v.text = w.text) : v = w := by
  have hmixed : ∀ {n : Int} {name : String}, (VarId.label name).Proper → bracketed n ≠ name := by
    intro n name hname heq
    have hhead := bracketed_head n
    rw [heq] at hhead
    simp [VarId.Proper, hhead] at hname
    cases hname
  cases v with
  | number m =>
    cases w with
    | number n => rw [bracketed_inj h]
    | label name => exact absurd h (hmixed hw)
  | label name =>
    cases w with
    | number n => exact absurd h.symm (hmixed hv)
    | label name' => exact congrArg VarId.label h

end Names

namespace Reader

theorem var_proper : Yields VarId.Proper var := by
  refine .orElse (.after (fun n => yields_pure trivial) _) ?_
  refine Yields.bind (P := fun name => (VarId.label name).Proper) ?_ fun name hname => yields_pure hname
  intro cs name rest h
  unfold label at h
  split at h
  · rename_i c more _
    by_cases hstart : isLabelStart c = true
    · rw [if_pos hstart] at h
      obtain ⟨rfl, -⟩ := Prod.mk.inj (Option.some.inj h)
      simpa [VarId.Proper] using hstart
    · rw [if_neg hstart] at h
      cases h
  · cases h

end Reader

/-- The variables of a source are read as the grammar has them. -/
theorem Source.proper_of_read {text : String} {src : Source} (h : Source.read? text = some src) :
    ∀ c ∈ src.commands, ∀ v ∈ c.vars, v.Proper := by
  obtain ⟨⟨src', rest⟩, hrun, rfl⟩ := Option.map_eq_some_iff.1 h
  have hyields : ∀ limit, Reader.Yields (fun src => ∀ c ∈ src.commands, ∀ v ∈ c.vars, v.Proper)
      (Reader.source limit) := fun limit =>
    .source ((Reader.Yields.command (fun _ => Reader.yields_true _) Reader.var_proper limit).imp fun _ hc => hc.2)
  exact hyields _ _ _ _ hrun

/-- The variables that a command is written with, list by list; those of its branches are not among them. -/
def Command.lists : Command → List (List VarId)
  | .give vars => [vars]
  | .invoke _ arguments results => [arguments, results]
  | .jump _ arguments _ => [arguments]

def Action.lists : Action → List (List String)
  | .give vars => [vars]
  | .assign _ arguments results => [arguments, results]
  | .jump _ parameters _ _ _ => [parameters]

def jumpVars (arguments : List VarId) : List Branch → List VarId
  | [_] => []
  | _ :: _ :: third :: _ => third.results
  | _ => arguments

def Command.recorded : Command → List (List String)
  | .give vars => [Program.numberedNames vars]
  | .invoke _ arguments results => [Program.numberedNames arguments, Program.numberedNames results]
  | .jump _ arguments branches => [(jumpVars arguments branches).map VarId.text]

theorem jumpVars_subset (arguments : List VarId) (branches : List Branch) :
    jumpVars arguments branches ⊆ arguments ++ branches.flatMap (·.results) := by
  intro v hv
  rcases branches with _ | ⟨b, _ | ⟨b', _ | ⟨third, rest⟩⟩⟩
  · simpa [jumpVars] using hv
  · cases hv
  · exact List.mem_append_left _ hv
  · refine List.mem_append_right _ (List.mem_flatMap.2 ⟨third, by simp, hv⟩)

theorem jumpLists_third {branches : List Branch} (h : 2 ≤ branches.length) (arguments : List VarId) :
    (Program.jumpLists arguments branches)[2]? = some (jumpVars arguments branches) := by
  rcases branches with _ | ⟨b, _ | ⟨b', _ | ⟨third, rest⟩⟩⟩
  · simp at h
  · simp at h
  · rfl
  · rfl

theorem two_le_of_targets {branches : List Branch} {first : Int} {rest : List Int}
    (hnext : ∃ b ∈ branches, b.target = .next)
    (htargets : branches.filterMap (·.target.index?) = first :: rest) : 2 ≤ branches.length := by
  rcases branches with _ | ⟨b, _ | ⟨b', rest⟩⟩
  · simp at htargets
  · obtain ⟨b', hb', hnext⟩ := hnext
    obtain rfl := List.mem_singleton.1 hb'
    simp [hnext, Target.index?] at htargets
  · simp

theorem Records.lists {offset : Nat} {c : Command} {a : Action} (h : Records offset c a) :
    a.lists = c.recorded := by
  cases h with
  | give vars => rfl
  | invoke => rfl
  | fallthrough hnext htargets hvars =>
    rw [jumpLists_third (two_le_of_targets hnext htargets)] at hvars
    obtain rfl := Option.some.inj hvars
    rfl
  | @single _ arguments branches _ hnext htargets =>
    have hlength : branches.length = 1 := by
      simpa [htargets] using congrArg List.length (@map_destination_of_forall_ne offset branches hnext)
    obtain ⟨b, rfl⟩ := List.length_eq_one_iff.1 hlength
    rfl
  | @several _ arguments _ branches _ _ _ hnext htargets hvars =>
    have hlength : 2 ≤ branches.length := by
      have hle := List.length_filterMap_le (fun b : Branch => b.target.index?) branches
      rw [htargets] at hle
      simp at hle
      omega
    rw [jumpLists_third hlength] at hvars
    obtain rfl := Option.some.inj hvars
    rfl

namespace Program

variable {p p' p'' : Program} {names names' : List String}

def variableNames (p : Program) : List String := p.vars.map (·.name)

structure Registers (names : List String) (p p' : Program) : Prop where
  nodup : p.variableNames.Nodup → p'.variableNames.Nodup
  kept : p.variableNames ⊆ p'.variableNames
  known : names ⊆ p'.variableNames

theorem Registers.of_vars (h : p'.vars = p.vars) : Registers [] p p' := by
  have hnames : p'.variableNames = p.variableNames := by
    unfold variableNames
    rw [h]
  exact ⟨fun hp => hnames ▸ hp, fun _ hn => hnames ▸ hn, List.nil_subset _⟩

theorem Registers.trans (h : Registers names p p') (h' : Registers names' p' p'') :
    Registers (names ++ names') p p'' :=
  ⟨fun hp => h'.nodup (h.nodup hp), fun _ hn => h'.kept (h.kept hn),
    List.append_subset.2 ⟨fun _ hn => h'.kept (h.known hn), h'.known⟩⟩

theorem registers_of_needVariable {name : String} {type : Option String}
    (h : needVariable name type p = .ok () p') : Registers [name] p p' := by
  unfold needVariable at h
  obtain rfl := Run.modify_eq_ok.1 h
  have hany : (p.vars.any fun v => v.name == name) = true ↔ name ∈ p.variableNames := by
    simp [variableNames]
  by_cases hknown : name ∈ p.variableNames
  · rw [if_pos (hany.2 hknown)]
    exact ⟨id, fun _ hn => hn, by simpa using hknown⟩
  · rw [if_neg (mt hany.1 hknown)]
    have hnames : variableNames { p with vars := p.vars ++ [⟨name, type⟩] } = p.variableNames ++ [name] := by
      simp [variableNames]
    refine ⟨fun hp => ?_, ?_, ?_⟩
    · rw [hnames]
      exact hp.append (List.nodup_singleton name) (by simpa using hknown)
    · rw [hnames]
      exact List.subset_append_left _ _
    · rw [hnames]
      exact List.subset_append_right _ _

theorem registers_of_needVariables
    (h : (names.forM fun name => needVariable name none) p = .ok () p') : Registers names p p' := by
  induction names generalizing p with
  | nil =>
    obtain ⟨-, rfl⟩ := Run.pure_eq_ok.1 h
    exact .of_vars rfl
  | cons name names ih =>
    obtain ⟨_, p₁, hone, hrest⟩ := Run.bind_eq_ok.1 h
    exact (registers_of_needVariable hone).trans (ih hrest)

theorem registers_of_needAll {result : List String} (h : needAll names p = .ok result p') :
    Registers result p p' := by
  unfold needAll at h
  obtain ⟨_, q, hall, h⟩ := Run.bind_eq_ok.1 h
  obtain ⟨rfl, rfl⟩ := Run.pure_eq_ok.1 h
  exact registers_of_needVariables hall

theorem registers_of_addParams {params : List Param} (h : params.mapM addParam p = .ok names p') :
    Registers names p p' := by
  induction params generalizing p names with
  | nil =>
    obtain ⟨rfl, rfl⟩ := Run.pure_eq_ok.1 h
    exact .of_vars rfl
  | cons q params ih =>
    obtain ⟨name, p₁, rest, hone, hrest, rfl⟩ := Run.mapM_cons_eq_ok.1 h
    unfold addParam at hone
    obtain ⟨_, p₂, htype, hone⟩ := Run.bind_eq_ok.1 hone
    obtain ⟨_, p₃, hvariable, hone⟩ := Run.bind_eq_ok.1 hone
    obtain ⟨rfl, rfl⟩ := Run.pure_eq_ok.1 hone
    exact (Registers.of_vars (vars_of_needType htype)).trans
      ((registers_of_needVariable hvariable).trans (ih hrest))

theorem registers_of_jumpParameters {arguments : List VarId} {branches : List Branch}
    (h : jumpParameters arguments branches p = .ok names p') : Registers names p p' := by
  unfold jumpParameters at h
  cases hvars : (jumpLists arguments branches)[2]? with
  | none =>
    rw [hvars] at h
    exact absurd h Run.throw_ne_ok
  | some vars =>
    rw [hvars] at h
    exact registers_of_needAll h

theorem registers_of_actionOf {offset : Nat} {c : Command} {a : Action}
    (h : actionOf offset c p = .ok a p') : Registers a.lists.flatten p p' := by
  have hjump : ∀ {libfunc : String} {arguments : List VarId} {branches : List Branch} {first : Int}
      {second : Option Int} {isFallthrough : Bool},
      (jumpParameters arguments branches >>= fun parameters =>
        pure (Action.jump libfunc parameters first second isFallthrough)) p = .ok a p' →
      Registers a.lists.flatten p p' := by
    intro libfunc arguments branches first second isFallthrough h
    obtain ⟨parameters, _, hparameters, h⟩ := Run.bind_eq_ok.1 h
    obtain ⟨rfl, rfl⟩ := Run.pure_eq_ok.1 h
    simpa [Action.lists] using registers_of_jumpParameters hparameters
  cases c with
  | give vars =>
    obtain ⟨names, _, hvars, h⟩ := Run.bind_eq_ok.1 h
    obtain ⟨rfl, rfl⟩ := Run.pure_eq_ok.1 h
    simpa [Action.lists] using registers_of_needAll hvars
  | invoke id arguments results =>
    obtain ⟨libfunc, _, hlibfunc, h⟩ := Run.bind_eq_ok.1 h
    obtain ⟨_, _, harguments, h⟩ := Run.bind_eq_ok.1 h
    obtain ⟨_, _, hresults, h⟩ := Run.bind_eq_ok.1 h
    obtain ⟨rfl, rfl⟩ := Run.pure_eq_ok.1 h
    obtain ⟨-, rfl⟩ := eq_of_libfuncOf hlibfunc
    simpa [Action.lists] using (registers_of_needAll harguments).trans (registers_of_needAll hresults)
  | jump id arguments branches =>
    unfold actionOf at h
    dsimp only at h
    split_ifs at h
    · cases htargets : branches.filterMap (·.target.index?) with
      | nil =>
        rw [htargets] at h
        exact absurd h Run.throw_ne_ok
      | cons first rest =>
        rw [htargets] at h
        exact hjump h
    · rcases htargets : branches.filterMap (·.target.index?) with _ | ⟨first, _ | ⟨second, rest⟩⟩
      · rw [htargets] at h
        exact absurd h Run.throw_ne_ok
      · rw [htargets] at h
        obtain ⟨rfl, rfl⟩ := Run.pure_eq_ok.1 h
        exact .of_vars rfl
      · rw [htargets] at h
        exact hjump h

structure Tabled (p : Program) : Prop where
  nodup : p.variableNames.Nodup
  parameters : ∀ f ∈ p.functions, f.parameters ⊆ p.variableNames
  statements : ∀ s ∈ p.statements, s.action.lists.flatten ⊆ p.variableNames

theorem Tabled.of_vars (h : Tabled p) (hvars : p'.vars = p.vars) (hfunctions : p'.functions = p.functions)
    (hstatements : p'.statements = p.statements) : Tabled p' := by
  have hnames : p'.variableNames = p.variableNames := by
    unfold variableNames
    rw [hvars]
  exact ⟨hnames ▸ h.nodup, hnames ▸ hfunctions ▸ h.parameters, hnames ▸ hstatements ▸ h.statements⟩

theorem Tabled.addFunction {d : FunctionDeclaration} (hp : Tabled p) (h : addFunction d p = .ok () p') :
    Tabled p' := by
  obtain ⟨hstatements, -⟩ := functions_of_addFunction h
  obtain ⟨hfunctions, -⟩ := enters_of_addFunction h
  unfold Program.addFunction at h
  obtain ⟨names, p₁, hparams, h⟩ := Run.bind_eq_ok.1 h
  obtain ⟨_, p₂, htypes, h⟩ := Run.bind_eq_ok.1 h
  obtain ⟨rfl, -⟩ := enters_of_addParams hparams
  have hvars : p'.vars = p₁.vars := by
    have hsame := vars_of_forM (fun _ _ _ => vars_of_needType) htypes
    rw [← Run.modify_eq_ok.1 h]
    exact hsame
  have hregisters := (registers_of_addParams hparams).trans (.of_vars hvars)
  refine ⟨hregisters.nodup hp.nodup, ?_, fun s hs => ?_⟩
  · rw [hfunctions]
    refine List.forall_mem_append.2 ⟨fun f hf => ?_, fun f hf => ?_⟩
    · exact List.Subset.trans (hp.parameters f hf) hregisters.kept
    · obtain rfl := List.mem_singleton.1 hf
      simpa [FunctionDeclaration.entered] using hregisters.known
  · rw [hstatements] at hs
    exact List.Subset.trans (hp.statements s hs) hregisters.kept

theorem Tabled.addStatement {c : Command} (hp : Tabled p) (h : addStatement c p = .ok () p') : Tabled p' := by
  unfold Program.addStatement at h
  rw [Run.get_bind] at h
  obtain ⟨a, q, haction, h⟩ := Run.bind_eq_ok.1 h
  obtain rfl := Run.modify_eq_ok.1 h
  obtain ⟨-, hsame⟩ := records_of_actionOf haction
  have hregisters := registers_of_actionOf haction
  refine ⟨hregisters.nodup hp.nodup, fun f hf => ?_, ?_⟩
  · change f ∈ q.functions at hf
    rw [hsame.functions] at hf
    exact List.Subset.trans (hp.parameters f hf) hregisters.kept
  · change ∀ s ∈ q.statements ++ _, _
    rw [hsame.statements]
    refine List.forall_mem_append.2 ⟨fun s hs => ?_, fun s hs => ?_⟩
    · exact List.Subset.trans (hp.statements s hs) hregisters.kept
    · obtain rfl := List.mem_singleton.1 hs
      exact hregisters.known

theorem Tabled.arrange (hp : Tabled p) (h : arrange p = .ok () p') : Tabled p' := by
  have hstatements := (functions_of_addAllBlocks (addBlocks_of_arrange h).2).1
  obtain ⟨hbare, hvars⟩ := bare_of_arrange h
  have hnames : p'.variableNames = p.variableNames := by
    unfold variableNames
    rw [hvars]
  refine ⟨hnames ▸ hp.nodup, fun f hf => ?_, hnames ▸ hstatements ▸ hp.statements⟩
  have hmem : f.bare ∈ p.functions.map Function.bare := by
    rw [← hbare]
    exact List.mem_map_of_mem hf
  obtain ⟨g, hg, hsame⟩ := List.mem_map.1 hmem
  have hparameters : g.bare.parameters = f.bare.parameters := congrArg Function.parameters hsame
  rw [hnames]
  exact hparameters ▸ hp.parameters g hg

theorem tabled_of_load {text : String} (h : load text .empty = .ok () p) : Tabled p := by
  obtain ⟨src, -, p₁, p₂, p₃, p₄, htypes, hlibfuncs, hfunctions, hcommands, harrange⟩ := steps_of_load h
  have hkeeps : ∀ {α : Type} {f : α → Load Unit} {as : List α} {q q' : Program},
      (∀ a q q', f a q = .ok () q' → Tabled q → Tabled q') → as.forM f q = .ok () q' →
      Tabled q → Tabled q' := fun hf =>
    Run.rel_of_forM (fun _ => id) (fun h h' hq => h' (h hq)) hf
  have hempty : Tabled .empty := ⟨List.nodup_nil, by simp [empty], by simp [empty]⟩
  have hdeclared : Tabled p₂ := by
    refine hempty.of_vars ?_ ?_ ?_
    · rw [vars_of_forM (fun _ _ _ => vars_of_addLibfunc) hlibfuncs,
        vars_of_forM (fun _ _ _ => vars_of_addType) htypes]
    · rw [(sameCode_of_forM (fun _ _ _ => sameCode_of_addLibfunc) hlibfuncs).functions,
        (sameCode_of_forM (fun _ _ _ => sameCode_of_addType) htypes).functions]
    · rw [(sameCode_of_forM (fun _ _ _ => sameCode_of_addLibfunc) hlibfuncs).statements,
        (sameCode_of_forM (fun _ _ _ => sameCode_of_addType) htypes).statements]
  have hentered := hkeeps (fun _ _ _ hone hq => hq.addFunction hone) hfunctions hdeclared
  exact (hkeeps (fun _ _ _ hone hq => hq.addStatement hone) hcommands hentered).arrange harrange

end Program

def Command.byNumber : Command → List VarId
  | .give vars => vars
  | .invoke _ arguments results => arguments ++ results
  | .jump .. => []

def Command.byText : Command → List VarId
  | .jump _ arguments _ => arguments
  | _ => []

/-- A jump is recorded with its own arguments. -/
def Command.KeepsArguments : Command → Prop
  | .jump _ arguments branches => jumpVars arguments branches = arguments
  | _ => True

section Naming

variable {name : VarId → String}

theorem numberedNames_eq_map_iff {vars : List VarId} : Program.numberedNames vars = vars.map name ↔
    ∀ v ∈ vars, ∃ n, v = .number n ∧ name v = Text.decimal n := by
  induction vars with
  | nil => simp [Program.numberedNames]
  | cons v vars ih =>
    rw [List.forall_mem_cons, ← ih]
    cases v with
    | number n => simp [Program.numberedNames, VarId.number?, eq_comm]
    | label l =>
      have hlength : (Program.numberedNames vars).length ≤ vars.length := by
        simpa [Program.numberedNames] using List.length_filterMap_le VarId.number? vars
      constructor
      · intro h
        -- A label is left out, so the rest would have to be as long as the whole.
        have hskip : Program.numberedNames (.label l :: vars) = Program.numberedNames vars := rfl
        rw [hskip] at h
        have hsame := congrArg List.length h
        rw [List.length_map, List.length_cons] at hsame
        omega
      · simp

theorem map_text_eq_map_iff (hname : ∀ v, VarId.Called v (name v)) {vs ws : List VarId}
    (hvs : ∀ v ∈ vs, v.Proper) (hws : ∀ w ∈ ws, w.Proper) :
    vs.map VarId.text = ws.map name ↔ vs = ws ∧ ∀ w ∈ ws, name w = w.text := by
  have hone : ∀ {v w : VarId}, v.Proper → w.Proper → v.text = name w → v = w ∧ name w = w.text := by
    intro v w hv hw h
    have hcalled := hname w
    generalize name w = called at h hcalled
    cases hcalled with
    | text => exact ⟨hv.text_inj hw h, rfl⟩
    | number n => exact absurd h (hv.text_ne_decimal n)
  constructor
  · induction vs generalizing ws with
    | nil =>
      intro h
      obtain rfl : ws = [] := by simpa using h.symm
      simp
    | cons v vs ih =>
      intro h
      cases ws with
      | nil => cases h
      | cons w ws =>
        obtain ⟨hv, hvs'⟩ := List.forall_mem_cons.1 hvs
        obtain ⟨hw, hws'⟩ := List.forall_mem_cons.1 hws
        obtain ⟨hfirst, hrest⟩ := List.cons.inj h
        obtain ⟨rfl, htext⟩ := hone hv hw hfirst
        obtain ⟨rfl, htexts⟩ := ih hvs' hws' hrest
        exact ⟨rfl, List.forall_mem_cons.2 ⟨htext, htexts⟩⟩
  · rintro ⟨rfl, htexts⟩
    exact List.map_congr_left fun v hv => (htexts v hv).symm

/-- What it takes that a command is recorded under the names. -/
theorem Command.recorded_eq_iff (hname : ∀ v, VarId.Called v (name v)) {c : Command}
    (hc : ∀ v ∈ c.vars, v.Proper) : c.recorded = c.lists.map (List.map name) ↔
      (∀ v ∈ c.byNumber, ∃ n, v = .number n ∧ name v = Text.decimal n) ∧
        (∀ v ∈ c.byText, name v = v.text) ∧ c.KeepsArguments := by
  cases c with
  | give vars => simp [recorded, lists, byNumber, byText, KeepsArguments, numberedNames_eq_map_iff]
  | invoke id arguments results =>
    simp [recorded, lists, byNumber, byText, KeepsArguments, numberedNames_eq_map_iff, -List.mem_append,
      List.forall_mem_append]
  | jump id arguments branches =>
    have harguments : ∀ v ∈ arguments, v.Proper := fun v hv => hc v (List.mem_append_left _ hv)
    have hvars : ∀ v ∈ jumpVars arguments branches, v.Proper := fun v hv =>
      hc v (jumpVars_subset arguments branches hv)
    simp [recorded, lists, byNumber, byText, KeepsArguments, map_text_eq_map_iff hname hvars harguments, and_comm]

end Naming

def Function.commands (f : Function) (src : Source) : List Command :=
  f.statements.filterMap fun s => src.commands[s.offset]?

theorem Function.Arranged.mem_of_mem {statements : List Statement} {f : Function} (h : f.Arranged statements)
    {s : Statement} (hs : s ∈ f.statements) : s ∈ statements := by
  obtain ⟨stop, -, hstatements⟩ := h.statements
  rw [hstatements] at hs
  exact (List.mem_filter.1 hs).1

namespace Program

variable {src : Source} {p : Program} {f : Function}

theorem Loaded.exists_command (h : Loaded src p) (hf : f ∈ p.functions) {s : Statement} (hs : s ∈ f.statements) :
    ∃ c, src.commands[s.offset]? = some c ∧ s.action.lists = c.recorded := by
  have hoffset : s.offset ∈ List.range p.statements.length := by
    rw [← h.offsets]
    exact List.mem_map_of_mem ((h.functions f hf).mem_of_mem hs)
  have hlt : s.offset < src.commands.length := by
    rw [← h.length]
    exact List.mem_range.1 hoffset
  have hc := List.getElem?_eq_getElem hlt
  exact ⟨_, hc, (h.records hf hs hc).lists⟩

/-- The statements of a function record its commands, one by one. -/
theorem Loaded.map_lists (h : Loaded src p) (hf : f ∈ p.functions) :
    f.statements.map (·.action.lists) = (f.commands src).map Command.recorded := by
  have hall : ∀ ss ⊆ f.statements, ss.map (·.action.lists) =
      (ss.filterMap fun s => src.commands[s.offset]?).map Command.recorded := by
    intro ss hss
    induction ss with
    | nil => rfl
    | cons s ss ih =>
      obtain ⟨hs, hrest⟩ := List.cons_subset.1 hss
      obtain ⟨c, hc, hlists⟩ := h.exists_command hf hs
      rw [List.filterMap_cons_some (f := fun s : Statement => src.commands[s.offset]?) hc, List.map_cons, List.map_cons,
        hlists, ih hrest]
  exact hall _ (List.Subset.refl _)

end Program

/-- Each variable of the function is recorded under its name, place by place. -/
structure RecordedBy (src : Source) (d : FunctionDeclaration) (f : Function) (name : VarId → String) : Prop where
  called : ∀ v, VarId.Called v (name v)
  parameters : f.parameters = d.params.map fun q => name q.var
  statements : f.statements.map (·.action.lists) = (f.commands src).map fun c => c.lists.map (List.map name)

/-- When the variables of a function can each go by one name: none of those that go by their numbers is labelled,
jumps keep their arguments, and no variable goes by its number in one place and by its text in another. -/
structure Nameable (src : Source) (d : FunctionDeclaration) (f : Function) : Prop where
  numbered : ∀ c ∈ f.commands src, ∀ v ∈ c.byNumber, ∃ n, v = .number n
  arguments : ∀ c ∈ f.commands src, c.KeepsArguments
  apart : ∀ c ∈ f.commands src, ∀ v ∈ c.byNumber,
    (∀ q ∈ d.params, q.var ≠ v) ∧ ∀ c' ∈ f.commands src, v ∉ c'.byText

/-- The name of a variable: its number if it is one of those that go by it, else its text. -/
def VarId.nameIn (numbered : List VarId) (v : VarId) : String :=
  if v ∈ numbered then (v.number?.map Text.decimal).getD v.text else v.text

theorem VarId.called_nameIn (numbered : List VarId) (v : VarId) : v.Called (v.nameIn numbered) := by
  unfold nameIn
  split_ifs
  · cases v with
    | number n => exact .number n
    | label l => exact .text (.label l)
  · exact .text v

theorem VarId.decimal_ne_text (n : Int) : Text.decimal n ≠ (VarId.number n).text := fun h =>
  VarId.Proper.text_ne_decimal (v := .number n) trivial n h.symm

section Exact

variable {src : Source} {d : FunctionDeclaration} {f : Function}

theorem recordedBy_iff (hparameters : f.parameters = d.params.map (·.var.text))
    (hstatements : f.statements.map (·.action.lists) = (f.commands src).map Command.recorded)
    (hproper : ∀ c ∈ f.commands src, ∀ v ∈ c.vars, v.Proper) {name : VarId → String}
    (hname : ∀ v, VarId.Called v (name v)) : RecordedBy src d f name ↔ (∀ q ∈ d.params, name q.var = q.var.text) ∧
      ∀ c ∈ f.commands src, (∀ v ∈ c.byNumber, ∃ n, v = .number n ∧ name v = Text.decimal n) ∧
        (∀ v ∈ c.byText, name v = v.text) ∧ c.KeepsArguments := by
  have hparams : (f.parameters = d.params.map fun q => name q.var) ↔
      ∀ q ∈ d.params, name q.var = q.var.text := by
    rw [hparameters, List.map_inj_left]
    exact forall₂_congr fun _ _ => eq_comm
  have hcommands : (f.statements.map (·.action.lists) = (f.commands src).map fun c => c.lists.map (List.map name)) ↔
      ∀ c ∈ f.commands src, (∀ v ∈ c.byNumber, ∃ n, v = .number n ∧ name v = Text.decimal n) ∧
        (∀ v ∈ c.byText, name v = v.text) ∧ c.KeepsArguments := by
    rw [hstatements, List.map_inj_left]
    exact forall₂_congr fun c hc => Command.recorded_eq_iff hname (hproper c hc)
  exact ⟨fun h => ⟨hparams.1 h.parameters, hcommands.1 h.statements⟩,
    fun h => ⟨hname, hparams.2 h.1, hcommands.2 h.2⟩⟩

theorem exists_recordedBy_iff (hparameters : f.parameters = d.params.map (·.var.text))
    (hstatements : f.statements.map (·.action.lists) = (f.commands src).map Command.recorded)
    (hproper : ∀ c ∈ f.commands src, ∀ v ∈ c.vars, v.Proper) :
    (∃ name, RecordedBy src d f name) ↔ Nameable src d f := by
  constructor
  · rintro ⟨name, hrecorded⟩
    obtain ⟨hparams, hcommands⟩ := (recordedBy_iff hparameters hstatements hproper hrecorded.called).1 hrecorded
    refine ⟨fun c hc v hv => ?_, fun c hc => (hcommands c hc).2.2, fun c hc v hv => ?_⟩
    · obtain ⟨n, hn, -⟩ := (hcommands c hc).1 v hv
      exact ⟨n, hn⟩
    · obtain ⟨n, rfl, hdecimal⟩ := (hcommands c hc).1 v hv
      refine ⟨fun q hq hsame => ?_, fun c' hc' hmem => ?_⟩
      · have htext := hparams q hq
        rw [hsame, hdecimal] at htext
        exact VarId.decimal_ne_text n htext
      · have htext := (hcommands c' hc').2.1 _ hmem
        rw [hdecimal] at htext
        exact VarId.decimal_ne_text n htext
  · rintro ⟨hnumbered, harguments, hapart⟩
    let numbered := (f.commands src).flatMap Command.byNumber
    have htext : ∀ v, v ∉ numbered → VarId.nameIn numbered v = v.text := fun v hv => if_neg hv
    refine ⟨VarId.nameIn numbered, (recordedBy_iff hparameters hstatements hproper
      (VarId.called_nameIn numbered)).2 ⟨fun q hq => htext _ fun hmem => ?_, fun c hc =>
        ⟨fun v hv => ?_, fun v hv => htext _ fun hmem => ?_, harguments c hc⟩⟩⟩
    · obtain ⟨c, hc, hv⟩ := List.mem_flatMap.1 hmem
      exact (hapart c hc q.var hv).1 q hq rfl
    · obtain ⟨n, rfl⟩ := hnumbered c hc v hv
      exact ⟨n, rfl, if_pos (List.mem_flatMap.2 ⟨c, hc, hv⟩)⟩
    · obtain ⟨c', hc', hv'⟩ := List.mem_flatMap.1 hmem
      exact (hapart c' hc' v hv').2 c hc hv

end Exact

namespace Program

/-- The table has each recorded name once. A parameter is recorded by its text, and a statement as
`Command.recorded` says. So the variables of a function are recorded in their places, each under one name of its
own, exactly when none is labelled outside the parameters and the jumps, jumps keep their arguments, and no
variable goes by its number in one place and by its text in another. -/
theorem variables_kept_iff {text : String} {src : Source} {p : Program} {i : Nat} {d : FunctionDeclaration}
    (hread : Source.read? text = some src) (hload : load text .empty = .ok () p)
    (hd : src.functions[i]? = some d) : ∃ f, p.functions[i]? = some f ∧
      p.variableNames.Nodup ∧ f.parameters ++ f.statements.flatMap (·.action.lists.flatten) ⊆ p.variableNames ∧
      f.parameters = d.params.map (·.var.text) ∧
      f.statements.map (·.action.lists) = (f.commands src).map Command.recorded ∧
      ((∃ name, RecordedBy src d f name) ↔ Nameable src d f) := by
  obtain ⟨src', hread', hloaded⟩ := loaded_of_load hload
  obtain rfl := Option.some.inj (hread.symm.trans hread')
  have htabled := tabled_of_load hload
  obtain ⟨f, hf, hbare⟩ := (declared_of_load hread hload).function hd
  have hmem := List.mem_of_getElem? hf
  have hparameters : f.parameters = d.params.map (·.var.text) := congrArg Function.parameters hbare
  have hstatements := hloaded.map_lists hmem
  refine ⟨f, hf, htabled.nodup, ?_, hparameters, hstatements, exists_recordedBy_iff hparameters hstatements ?_⟩
  · refine List.append_subset.2 ⟨htabled.parameters f hmem, fun n hn => ?_⟩
    obtain ⟨s, hs, hn⟩ := List.mem_flatMap.1 hn
    exact htabled.statements s ((hloaded.functions f hmem).mem_of_mem hs) hn
  · intro c hc
    obtain ⟨s, -, hat⟩ := List.mem_filterMap.1 hc
    exact Source.proper_of_read hread c (List.mem_of_getElem? hat)

/-- Two parameters that are returned. -/
def givesParameters : String := "return([0], x);\nmain@0([0]: felt, x: felt) -> ();\n"

theorem variables_not_kept : ∃ src p d f, Source.read? givesParameters = some src ∧
    load givesParameters .empty = .ok () p ∧ src.functions[0]? = some d ∧ p.functions[0]? = some f ∧
    d.params.map (·.var) = [.number 0, .label "x"] ∧ src.commands.map Command.byNumber = [[.number 0, .label "x"]] ∧
    f.parameters = ["[0]", "x"] ∧ f.statements.map (·.action.lists) = [[["0"]]] ∧
    p.variableNames = ["[0]", "x", "0"] ∧ ¬ ∃ name, RecordedBy src d f name := by
  have hsource : (Source.read? givesParameters).any (fun src =>
      decide (src.commands.map Command.byNumber = [[.number 0, .label "x"]]) &&
        src.functions[0]?.any fun d => decide (d.params.map (·.var) = [.number 0, .label "x"])) = true := by
    decide +kernel
  have hprogram : ∃ p, load givesParameters .empty = .ok () p ∧
      (decide (p.variableNames = ["[0]", "x", "0"]) && p.functions[0]?.any fun f =>
        decide (f.parameters = ["[0]", "x"]) && decide (f.statements.map (·.offset) = [0]) &&
          decide (f.statements.map (·.action.lists) = [[["0"]]])) = true :=
    exists_load givesParameters _ (by decide +kernel)
  simp only [Option.any_eq_true, Bool.and_eq_true, decide_eq_true_eq] at hsource hprogram
  obtain ⟨src, hread, hcommands, d, hd, hparams⟩ := hsource
  obtain ⟨p, hload, hnames, f, hf, ⟨hparameters, hoffsets⟩, hlists⟩ := hprogram
  obtain ⟨f', hf', -, -, -, -, hiff⟩ := variables_kept_iff hread hload hd
  obtain rfl := Option.some.inj (hf.symm.trans hf')
  refine ⟨src, p, d, f, hread, hload, hd, hf, hparams, hcommands, hparameters, hlists, hnames, fun hkept => ?_⟩
  obtain ⟨c, hc⟩ := List.map_eq_singleton_iff.1 hcommands
  obtain ⟨s, hs⟩ := List.map_eq_singleton_iff.1 hoffsets
  have hmem : c ∈ f.commands src := by simp [Function.commands, hc.1, hs.1, hs.2]
  obtain ⟨n, hn⟩ := (hiff.1 hkept).numbered c hmem (.label "x") (by simp [hc.2])
  cases hn

end Program

end Cairoscope.Sierra
