import Cairoscope.Proofs.BranchEnds
import Cairoscope.Proofs.Operations
import Cairoscope.Proofs.Steps

/-! The braces of one statement. Where names have neither braces nor slashes, a conditional jump shows one
brace that opens, the last return one that closes, and all other statements none outside their comments. The
ends of branches change with jumps only. -/

namespace Cairoscope

open Text (Bare Shows)

/-- No name or type has a brace or a slash, and colours are those of a terminal or none. -/
structure Scene.Bare (sc : Scene) : Prop where
  palette : ∃ colour, sc.printer.palette = Palette.of colour
  names : ∀ f ∈ sc.functions, Text.Bare f.name
  members : ∀ f ∈ sc.functions, ∀ e ∈ f.implicit ++ f.explicit ++ f.returns,
    Text.Bare e.2.name ∧ ∀ type, e.2.type = .str type → Text.Bare type
  decorators : ∀ f ∈ sc.functions, ∀ ds, f.decorators.elements = .ok ds → ∀ d ∈ ds, Text.Bare d.display
  labels : ∀ l ∈ sc.printer.labels, Text.Bare l.2

def Memory.BareLabels (m : Memory) : Prop := ∀ v ∈ m.cells, ∀ label ∈ v.label, Bare label

namespace Memory

variable {m m' : Memory}

theorem BareLabels.appends (h : m.BareLabels) {labels : List (Option String)} (happends : Appends labels m m')
    (hlabels : ∀ l ∈ labels, ∀ label ∈ l, Bare label) : m'.BareLabels := by
  obtain ⟨-, new, hcells, -, rfl⟩ := happends
  intro v hv label hlabel
  rw [hcells] at hv
  rcases List.mem_append.1 hv with hv | hv
  · exact h v hv label hlabel
  · exact hlabels v.label (List.mem_map_of_mem hv) label hlabel

theorem BareLabels.update (h : m.BareLabels) (n : Nat) {f : Variable → Variable}
    (hf : ∀ v, (f v).label = v.label) : (m.update n f).BareLabels := by
  intro v hv label hlabel
  obtain ⟨q, hq⟩ := List.mem_iff_getElem?.1 hv
  rw [getElem?_update] at hq
  split_ifs at hq
  · obtain ⟨w, hw, rfl⟩ := Option.map_eq_some_iff.1 hq
    rw [hf] at hlabel
    exact h w (List.mem_of_getElem? hw) label hlabel
  · exact h v (List.mem_of_getElem? hq) label hlabel

theorem BareLabels.nameOf (h : m.BareLabels) (n : Nat) : Bare (m.nameOf n) := by
  have hname : ∀ label : Option String, (∀ l ∈ label, Bare l) → ∀ k, Bare (Variable.nameOf k label) := by
    intro label hlabel k
    cases label with
    | none => exact Text.bare_append.2 ⟨by decide, Text.bare_toString k⟩
    | some l =>
      refine Text.bare_append.2 ⟨Text.bare_append.2 ⟨Text.bare_append.2 ⟨by decide, Text.bare_toString k⟩,
        by decide⟩, hlabel l rfl⟩
  unfold Memory.nameOf
  split
  · rename_i v hv
    exact hname v.label (h v (List.mem_of_getElem? hv)) v.number
  · exact hname none (by simp) n

end Memory

namespace Decompiler

def schedule (d : Decompiler) : Schedule := ⟨d.ifEnd, d.elseEnds, d.openIfs⟩

variable {sc : Scene} {place : Place} {α β : Type} {P : α → Prop} {Q : β → Prop}

/-- The step gives an answer with the property, and keeps the labels bare and the ends of branches. -/
def Says (P : α → Prop) (x : Step α) : Prop := ∀ d a d', d.memory.BareLabels → x d = .ok a d' →
  P a ∧ d'.memory.BareLabels ∧ d'.schedule = d.schedule

theorem says_pure {a : α} (h : P a) : Says P (pure a) := by
  intro d b d' hd hrun
  obtain ⟨rfl, rfl⟩ := Run.pure_eq_ok.1 hrun
  exact ⟨h, hd, rfl⟩

theorem Says.bind {x : Step α} {f : α → Step β} (hx : Says P x) (hf : ∀ a, P a → Says Q (f a)) :
    Says Q (x >>= f) := by
  intro d b d' hd hrun
  obtain ⟨a, d₁, hxd, hfd⟩ := Run.bind_eq_ok.1 hrun
  obtain ⟨ha, hd₁, hschedule⟩ := hx d a d₁ hd hxd
  obtain ⟨hb, hd', hschedule'⟩ := hf a ha d₁ b d' hd₁ hfd
  exact ⟨hb, hd', hschedule'.trans hschedule⟩

theorem Says.imp {x : Step α} {P' : α → Prop} (hx : Says P x) (h : ∀ a, P a → P' a) : Says P' x :=
  fun d a d' hd hrun => (hx d a d' hd hrun).imp_left (h a)

theorem says_of_eq {x : Step α} (hx : ∀ {d a d'}, x d = .ok a d' → d = d') : Says (fun _ => True) x := by
  intro d a d' hd hrun
  obtain rfl := hx hrun
  exact ⟨trivial, hd, rfl⟩

theorem says_ofOutcome {o : Outcome α} (h : ∀ a, o = .ok a → P a) : Says P (Run.ofOutcome o) := by
  intro d a d' hd hrun
  obtain ⟨ho, rfl⟩ := Run.ofOutcome_eq_ok.1 hrun
  exact ⟨h a ho, hd, rfl⟩

theorem says_get : Says (fun _ => True) get := says_of_eq fun h => (Run.get_eq_ok.1 h).2

theorem says_modify {f : Decompiler → Decompiler}
    (hlabels : ∀ d, d.memory.BareLabels → (f d).memory.BareLabels)
    (hschedule : ∀ d, (f d).schedule = d.schedule) : Says (fun _ => True) (modify f) := by
  intro d u d' hd hrun
  obtain rfl := Run.modify_eq_ok.1 hrun
  exact ⟨trivial, hlabels d hd, hschedule d⟩

/-- A change of neither the memory nor the ends of branches. -/
theorem says_idle {f : Decompiler → Decompiler} (hmemory : ∀ d, (f d).memory = d.memory)
    (hschedule : ∀ d, (f d).schedule = d.schedule) : Says (fun _ => True) (modify f) :=
  says_modify (fun d hd => by rwa [hmemory d]) hschedule

theorem says_indent (n : Int) : Says (fun _ => True) (indent n) := says_idle (fun _ => rfl) fun _ => rfl

theorem says_cell (r : Register) (offset : Int) : Says (fun _ => True) (cell r offset) := by
  intro d n d' hd hrun
  unfold cell at hrun
  rw [Run.get_bind] at hrun
  obtain ⟨⟨m, a⟩, _, hout, hrun⟩ := Run.bind_eq_ok.1 hrun
  obtain ⟨haccess, rfl⟩ := Run.ofOutcome_eq_ok.1 hout
  obtain ⟨_, _, hset, hrun⟩ := Run.bind_eq_ok.1 hrun
  obtain rfl := Run.set_eq_ok.1 hset
  obtain ⟨-, rfl⟩ := Run.pure_eq_ok.1 hrun
  obtain ⟨-, k, rfl⟩ := Memory.growTo_of_reach haccess
  refine ⟨trivial, hd.appends (Memory.Appends.growTo d.memory k) fun l hl label hlabel => ?_, rfl⟩
  rw [(List.mem_replicate.1 hl).2] at hlabel
  cases hlabel

theorem says_nameOf (n : Nat) : Says Bare (nameOf n) := by
  intro d s d' hd hrun
  obtain ⟨rfl, rfl⟩ := nameOf_eq_ok.1 hrun
  exact ⟨hd.nameOf n, hd, rfl⟩

theorem says_namesOf (ns : List Nat) : Says (fun names => ∀ s ∈ names, Bare s) (namesOf ns) := by
  intro d names d' hd hrun
  unfold namesOf at hrun
  rw [Run.get_bind] at hrun
  obtain ⟨rfl, rfl⟩ := Run.pure_eq_ok.1 hrun
  refine ⟨fun s hs => ?_, hd, rfl⟩
  obtain ⟨n, -, rfl⟩ := List.mem_map.1 hs
  exact hd.nameOf n

theorem says_updateVariable {f : Variable → Variable} (hf : ∀ v, (f v).label = v.label) (n : Nat) :
    Says (fun _ => True) (updateVariable n f) :=
  says_modify (fun _ hd => hd.update n hf) fun _ => rfl

theorem says_define (n : Nat) (x : Value) : Says (fun _ => True) (define n x) := by
  apply says_updateVariable
  intro v
  split_ifs <;> rfl

theorem says_assertMark (n : Nat) : Says Bare (assertMark n) := by
  unfold assertMark
  refine Says.bind (P := fun _ => True) (says_of_eq fun h => ?_) fun known _ => says_pure ?_
  · unfold hasValue at h
    rw [Run.get_bind] at h
    exact (Run.pure_eq_ok.1 h).2
  · split_ifs <;> decide

theorem says_currentBlock : Says (fun _ => True) (currentBlock place) :=
  says_of_eq fun h => (currentBlock_eq_ok.1 h).2

theorem says_mergedAt : Says (fun _ => True) (mergedAt place) := says_of_eq eq_of_mergedAt

theorem says_hasParents : Says (fun _ => True) (hasParents place) :=
  says_of_eq fun h => (hasParents_eq_ok.1 h).2

theorem says_forM {γ : Type} {f : γ → Step Unit} {cs : List γ} (hf : ∀ c ∈ cs, Says (fun _ => True) (f c)) :
    Says (fun _ => True) (cs.forM f) := by
  induction cs with
  | nil => exact says_pure trivial
  | cons c cs ih =>
    obtain ⟨hc, hcs⟩ := List.forall_mem_cons.1 hf
    exact hc.bind fun _ _ => ih hcs

theorem bare_indentation (tabs : Int) : Bare (indentation tabs) := by
  refine List.all_eq_true.2 fun c hc => ?_
  rw [indentation, String.toList_ofList] at hc
  obtain rfl := (List.mem_replicate.1 hc).2
  decide

theorem bare_phiText {names : List String} (h : ∀ s ∈ names, Bare s) : Bare (phiText names) :=
  Text.bare_append.2 ⟨Text.bare_append.2 ⟨by decide, Text.bare_intercalate (by decide) h⟩, by decide⟩

theorem bare_numeral (n : Field.Numeral) : Bare n.text := by
  cases n with
  | decimal k => exact Text.bare_decimal k
  | hex k => exact Text.bare_hexadecimal k

theorem bare_loadOffset (n : Int) : Bare (loadOffset n) := by
  unfold loadOffset
  split_ifs
  · decide
  · exact Text.bare_append.2 ⟨by decide, Text.bare_decimal n⟩
  · exact Text.bare_append.2 ⟨by decide, Text.bare_decimal n⟩

theorem bare_signedTerm {op : String} (h : Bare op) (n : Int) : Bare (signedTerm op n) := by
  unfold signedTerm
  split_ifs
  · exact Text.bare_append.2 ⟨by decide, Text.bare_decimal _⟩
  · exact Text.bare_append.2 ⟨Text.bare_append.2 ⟨h, by decide⟩, Text.bare_decimal n⟩

theorem bare_operatorText {r : Res} {op : String} (h : Site.operatorText r = .ok op) : Bare op := by
  cases r with
  | add =>
    obtain rfl := Except.ok.inj h
    decide
  | mul =>
    obtain rfl := Except.ok.inj h
    decide
  | op1 => cases h
  | unconstrained => cases h

/-- A number read as text stays on its line. -/
theorem newline_not_mem_reading {val prime : Int} {s : String} (h : Field.reading val prime = .ok s) :
    '\n' ∉ s.toList := by
  have hdigits : ∀ n : Int, '\n' ∉ (Text.hexadecimal n).toList := by
    intro n hmem
    rw [Text.hexadecimal, String.toList_append, List.mem_append, String.toList_ofList] at hmem
    rcases hmem with hmem | hmem
    · split_ifs at hmem <;> exact absurd hmem (by decide)
    · have hnone : ∀ d < 16, Nat.digitChar d ≠ '\n' := by decide
      obtain ⟨d, hd, heq⟩ := Text.exists_digit_of_mem_toDigits (by decide) hmem
      exact hnone d hd heq
  unfold Field.reading at h
  obtain ⟨numeral, -, h⟩ := Outcome.bind_eq_ok.1 h
  cases numeral with
  | hex n =>
    obtain rfl := Outcome.pure_eq_ok.1 h
    decide
  | decimal n =>
    obtain rfl := Outcome.pure_eq_ok.1 h
    cases hprintable : Field.printable? n with
    | none => exact hdigits n
    | some t =>
      intro hmem
      obtain ⟨-, hall⟩ := Option.filter_eq_some_iff.1 hprintable
      have hnewline : Text.isPrintable '\n' = false := by decide +kernel
      rw [List.all_eq_true.1 hall '\n' hmem] at hnewline
      cases hnewline

theorem says_meeting : Says (fun m => Bare m.text) (meeting place) := by
  unfold meeting
  refine says_get.bind fun d _ => says_currentBlock.bind fun b _ => ?_
  dsimp only
  split_ifs
  · refine says_mergedAt.bind fun numbers _ => (says_namesOf numbers).bind fun names hnames => ?_
    exact says_pure (bare_phiText hnames)
  · refine says_hasParents.bind fun parents _ => ?_
    split_ifs
    · refine says_mergedAt.bind fun numbers _ => (says_namesOf numbers).bind fun names hnames => ?_
      refine says_pure ?_
      cases hlast : names.getLast? with
      | none => exact (by decide : Bare "")
      | some s => exact hnames s (List.mem_of_getLast? hlast)
    · exact says_pure (by decide)

theorem says_source {m : Meeting} (hm : Bare m.text) (n : Nat) :
    Says (fun source => Bare source.text) (m.source n) := by
  unfold Meeting.source
  split_ifs
  · exact says_pure hm
  · exact (says_nameOf n).bind fun name hname => says_pure hname

theorem says_immediateSource {m : Meeting} (hm : Bare m.text) (asserted : Bool) (n : Nat) :
    Says (fun source => Bare source.text) (immediateSource place m asserted n) := by
  unfold immediateSource
  split_ifs
  · exact says_pure hm
  · refine says_get.bind fun d _ => says_hasParents.bind fun parents _ => ?_
    dsimp only
    split_ifs
    · exact says_pure hm
    · exact (says_nameOf n).bind fun name hname => says_pure hname

theorem says_callArguments (n : Nat) :
    Says (fun arguments => ∀ a ∈ arguments, Bare a.2) (callArguments place n) := by
  induction n with
  | zero => exact says_pure (by simp)
  | succ n ih =>
    unfold callArguments
    refine says_currentBlock.bind fun b _ => says_get.bind fun d _ => ?_
    have hrest : ∀ numbers : List Nat, Says (fun arguments => ∀ a ∈ arguments, Bare a.2) (do
        let number ← cell .ap (-(n + 1 : Nat))
        let argument ← if numbers.contains number then
            do pure (CallArgument.merged numbers, phiText (← namesOf numbers))
          else do pure (CallArgument.single number, ← nameOf number)
        return argument :: (← callArguments place n)) := by
      intro numbers
      have hadd : ∀ argument : CallArgument × String, Bare argument.2 →
          Says (fun arguments => ∀ a ∈ arguments, Bare a.2) (callArguments place n >>= fun rest =>
            pure (argument :: rest)) := fun argument hargument =>
        ih.bind fun rest hrest => says_pure (List.forall_mem_cons.2 ⟨hargument, hrest⟩)
      refine (says_cell _ _).bind fun number _ => ?_
      dsimp only
      split_ifs
      · refine (says_namesOf numbers).bind fun names hnames => ?_
        have hargument : Says (fun p : CallArgument × String => Bare p.2)
            (pure (CallArgument.merged numbers, phiText names)) := says_pure (bare_phiText hnames)
        exact hargument.bind hadd
      · refine (says_nameOf number).bind fun name hname => ?_
        have hargument : Says (fun p : CallArgument × String => Bare p.2)
            (pure (CallArgument.single number, name)) := says_pure hname
        exact hargument.bind hadd
    dsimp only
    split_ifs
    · exact says_mergedAt.bind fun numbers _ => hrest numbers
    · exact hrest []

theorem says_assignResults (callee : Nat) (returns : List String) (arguments : List CallArgument) (i : Nat)
    (names : List String) :
    Says (fun texts => ∀ s ∈ texts, Bare s) (assignResults place callee returns arguments i names) := by
  induction names generalizing i with
  | nil => exact says_pure (by simp)
  | cons name names ih =>
    unfold assignResults
    refine (says_cell _ _).bind fun number _ => says_currentBlock.bind fun b _ => ?_
    refine says_get.bind fun d _ => Says.bind (says_updateVariable (by intro v; rfl) _) fun _ _ => ?_
    refine (says_nameOf number).bind fun text htext => (ih (i + 1)).bind fun texts htexts => ?_
    exact says_pure (List.forall_mem_cons.2 ⟨htext, htexts⟩)

theorem says_returnNames (n : Nat) : Says (fun names => ∀ s ∈ names, Bare s) (returnNames n) := by
  induction n with
  | zero => exact says_pure (by simp)
  | succ n ih =>
    unfold returnNames
    refine (says_cell _ _).bind fun number _ => ?_
    refine Says.bind (says_updateVariable (by intro v; rfl) _) fun _ _ => ?_
    refine (says_nameOf number).bind fun name hname => ih.bind fun names hnames => ?_
    exact says_pure (List.forall_mem_cons.2 ⟨hname, hnames⟩)

theorem goal_eq {s : Site} {imm n : Int} (himm : s.instruction.imm = some imm)
    (hsmall : Field.small imm sc.printer.prime = .ok n) : n + s.offset = s.goal sc.printer.prime := by
  rw [Site.goal, himm, Option.getD_some, hsmall]
  rfl

theorem plainBefore_eq {f : Function} (hf : sc.functions[place.function]? = some f) (t : Int) :
    plainBefore sc place t = f.plainBefore t := by
  rw [plainBefore, hf]
  rfl

def ownBraces (s : Site) (last : Bool) : List Char :=
  if s.opensBranch then ['\x7b'] else if last && s.instruction.opcode == .ret then ['\x7d'] else []

section Scene

variable (hsc : sc.Bare)

include hsc

theorem bare_colours : Bare sc.printer.palette.green ∧ Bare sc.printer.palette.cyan ∧
    Bare sc.printer.palette.red ∧ Bare sc.printer.palette.blue ∧ Bare sc.printer.palette.reset ∧
    '\n' ∉ sc.printer.palette.reset.toList := by
  obtain ⟨colour, hpalette⟩ := hsc.palette
  rw [hpalette]
  cases colour with
  | true => decide
  | false => decide

theorem bare_reset : Bare sc.printer.palette.reset := (bare_colours hsc).2.2.2.2.1

theorem bare_lineAt {colour data : String} (hcolour : Bare colour) (hdata : Bare data) (tabs : Int) :
    Bare (lineAt sc tabs colour data) := by
  simp only [lineAt, Text.bare_append]
  exact ⟨⟨⟨hcolour, bare_indentation tabs⟩, hdata⟩, bare_reset hsc⟩

theorem says_line {colour data : String} (hcolour : Bare colour) (hdata : Bare data) :
    Says Bare (line sc colour data) := by
  intro d s d' hd hrun
  obtain ⟨rfl, rfl⟩ := line_eq_ok.1 hrun
  exact ⟨bare_lineAt hsc hcolour hdata d.tabs, hd, rfl⟩

theorem bare_of_labelAt {offset : Int} {label : String} (h : sc.printer.labelAt? offset = some label) :
    Bare label := by
  obtain ⟨before, after, hlabels, -⟩ := List.lookup_eq_some_iff.1 h
  exact hsc.labels (Text.decimal offset, label) (hlabels ▸ by simp)

theorem shows_lineAt {colour data : String} {ms : List Char} (hcolour : Bare colour) (hdata : Shows data ms)
    (tabs : Int) : Shows (lineAt sc tabs colour data) ms := by
  have hfront := hdata.after_bare (Text.bare_append.2 ⟨hcolour, bare_indentation tabs⟩)
  have hall := hfront.append (Text.shows_of_bare (bare_reset hsc))
  rwa [List.append_nil] at hall

/-- A text with a comment after it. -/
theorem shows_note {text comment colour : String} (htext : Bare text)
    (hcomment : '\n' ∉ comment.toList ∨ Bare comment) (hcolour : Bare colour) (tabs : Int) :
    Shows (text ++ lineAt sc tabs colour ("// " ++ comment) ++ "\n") [] := by
  obtain ⟨-, -, -, -, hreset, hline⟩ := bare_colours hsc
  have hsplit : text ++ lineAt sc tabs colour ("// " ++ comment) ++ "\n" =
      (text ++ colour ++ indentation tabs) ++ ("//" ++ (" " ++ comment ++ sc.printer.palette.reset) ++ "\n") := by
    apply String.toList_inj.1
    simp [lineAt]
  rw [hsplit]
  refine Shows.after_bare ?_ (Text.shows_comment ?_)
  · simp only [Text.bare_append]
    exact ⟨⟨htext, hcolour⟩, bare_indentation tabs⟩
  · simp only [Text.bare_append, String.toList_append, List.mem_append, not_or]
    refine hcomment.imp (fun h => ⟨⟨by decide, h⟩, hline⟩) fun h => ⟨⟨by decide, h⟩, hreset⟩

theorem says_assignImmediate (i : Instruction) :
    Says (fun p => Shows (p.2 ++ "\n") []) (assignImmediate sc i) := by
  obtain ⟨hgreen, hcyan, -⟩ := bare_colours hsc
  unfold assignImmediate
  refine (says_ofOutcome fun reading h => newline_not_mem_reading h).bind fun reading hreading => ?_
  refine (says_ofOutcome fun numeral _ => bare_numeral numeral).bind fun numeral hnumeral => ?_
  refine (says_cell _ _).bind fun dst _ => (says_assertMark dst).bind fun mark hmark => ?_
  refine (says_define _ _).bind fun _ _ => (says_nameOf dst).bind fun name hname => ?_
  refine (says_line hsc hgreen ?_).bind fun text htext => ?_
  · simp only [Text.bare_append]
    exact ⟨⟨⟨hmark, hname⟩, by decide⟩, hnumeral⟩
  have hnote : Shows (text ++ lineAt sc 1 sc.printer.palette.cyan
      ("// " ++ if reading = "" then numeral.text else reading) ++ "\n") [] := by
    refine shows_note hsc htext ?_ hcyan 1
    split_ifs
    · exact Or.inr hnumeral
    · exact Or.inl hreading
  dsimp only
  by_cases hasserted : mark ≠ ""
  · rw [if_pos hasserted]
    exact Says.bind (says_idle (fun _ => rfl) fun _ => rfl) fun _ _ => says_pure hnote
  · rw [if_neg hasserted]
    exact says_pure hnote

/-- The last steps of the other assignments: the name of the cell and a line. -/
theorem says_written {text : String → String} (htext : ∀ name, Bare name → Bare (text name)) (n : Nat) :
    Says (fun p => Shows (p.2 ++ "\n") []) (nameOf n >>= fun name =>
      line sc sc.printer.palette.green (text name) >>= fun out => pure (n, out)) := by
  refine (says_nameOf n).bind fun name hname => ?_
  refine (says_line hsc (bare_colours hsc).1 (htext name hname)).bind fun out hout => says_pure ?_
  exact Text.shows_of_bare (Text.bare_append.2 ⟨hout, by decide⟩)

theorem says_assignLoad {m : Meeting} (hm : Bare m.text) (i : Instruction) :
    Says (fun p => Shows (p.2 ++ "\n") []) (assignLoad sc m i) := by
  unfold assignLoad
  refine (says_cell _ _).bind fun dst _ => (says_assertMark dst).bind fun mark hmark => ?_
  refine (says_cell _ _).bind fun n _ => (says_source hm n).bind fun base hbase => ?_
  refine (says_define _ _).bind fun _ _ => says_written hsc (fun name hname => ?_) dst
  simp only [Text.bare_append]
  refine ⟨⟨⟨⟨⟨⟨hmark, hname⟩, ?_⟩, by decide⟩, hbase⟩, bare_loadOffset _⟩, by decide⟩
  split_ifs <;> decide

theorem says_assignCopy {m : Meeting} (hm : Bare m.text) (i : Instruction) :
    Says (fun p => Shows (p.2 ++ "\n") []) (assignCopy sc m i) := by
  unfold assignCopy
  refine (says_cell _ _).bind fun dst _ => (says_assertMark dst).bind fun mark hmark => ?_
  refine (says_cell _ _).bind fun n _ => (says_source hm n).bind fun source hsource => ?_
  refine (says_define _ _).bind fun _ _ => says_written hsc (fun name hname => ?_) dst
  simp only [Text.bare_append]
  exact ⟨⟨⟨hmark, hname⟩, by decide⟩, hsource⟩

theorem says_assignCells {m : Meeting} (hm : Bare m.text) {op : String} (hop : Bare op) (i : Instruction) :
    Says (fun p => Shows (p.2 ++ "\n") []) (assignCells sc m op i) := by
  unfold assignCells
  refine (says_cell _ _).bind fun dst _ => (says_assertMark dst).bind fun mark hmark => ?_
  refine (says_cell _ _).bind fun n _ => (says_source hm n).bind fun left hleft => ?_
  refine (says_cell _ _).bind fun n' _ => (says_source hm n').bind fun right hright => ?_
  refine (says_define _ _).bind fun _ _ => says_written hsc (fun name hname => ?_) dst
  simp only [Text.bare_append]
  exact ⟨⟨⟨⟨⟨⟨⟨hmark, hname⟩, by decide⟩, hleft⟩, by decide⟩, hop⟩, by decide⟩, hright⟩

theorem says_assignCellImmediate {m : Meeting} (hm : Bare m.text) {op : String} (hop : Bare op)
    (i : Instruction) : Says (fun p => Shows (p.2 ++ "\n") []) (assignCellImmediate sc place m op i) := by
  unfold assignCellImmediate
  refine (says_cell _ _).bind fun dst _ => (says_assertMark dst).bind fun mark hmark => ?_
  refine (says_cell _ _).bind fun n _ => (says_immediateSource hm _ n).bind fun left hleft => ?_
  have hend : ∀ term, Bare term → Says (fun p => Shows (p.2 ++ "\n") []) (nameOf dst >>= fun name =>
      line sc sc.printer.palette.green (mark ++ name ++ " = " ++ left.text ++ " " ++ term) >>= fun out =>
        (modify fun d => { d with newInBlock := d.newInBlock + 1 }) >>= fun _ => pure (dst, out)) := by
    intro term hterm
    refine (says_nameOf dst).bind fun name hname => ?_
    refine (says_line hsc (bare_colours hsc).1 ?_).bind fun out hout => ?_
    · simp only [Text.bare_append]
      exact ⟨⟨⟨⟨⟨hmark, hname⟩, by decide⟩, hleft⟩, by decide⟩, hterm⟩
    · refine Says.bind (says_idle (fun _ => rfl) fun _ => rfl) fun _ _ => says_pure ?_
      exact Text.shows_of_bare (Text.bare_append.2 ⟨hout, by decide⟩)
  cases Field.small (i.imm.getD 0) sc.printer.prime with
  | ok k => exact (says_define _ _).bind fun _ _ => hend _ (bare_signedTerm hop k)
  | error e =>
    refine hend _ ?_
    simp only [Text.bare_append]
    exact ⟨⟨hop, by decide⟩, Text.bare_decimal _⟩

theorem says_assign {m : Meeting} (hm : Bare m.text) (i : Instruction) :
    Says (fun p => Shows (p.2 ++ "\n") []) (assign sc place m i) := by
  unfold assign
  split_ifs
  · split
    · exact says_assignImmediate hsc i
    · exact says_assignLoad hsc hm i
    · exact says_assignCopy hsc hm i
  · refine (says_ofOutcome fun op h => bare_operatorText h).bind fun op hop => ?_
    split
    · exact says_assignCellImmediate hsc hm hop i
    · exact says_assignCells hsc hm hop i

theorem says_assertEq (i : Instruction) : Says (fun text => Shows (text ++ "\n") []) (assertEq sc place i) := by
  unfold assertEq
  refine says_meeting.bind fun m hm => (says_assign hsc hm i).bind fun p hp => ?_
  refine says_currentBlock.bind fun b _ => ?_
  exact Says.bind (says_updateVariable (by intro v; rfl) _) fun _ _ => says_pure hp

theorem says_callFunction (index : Nat) {callee : Function} (hcallee : callee ∈ sc.functions) :
    Says Bare (callFunction sc place index callee) := by
  obtain ⟨hgreen, -, hred, -⟩ := bare_colours hsc
  have hname : Bare callee.shortName := (hsc.names callee hcallee).lastPart '.'
  have hreturns : ∀ name ∈ callee.returns.names, Bare name := by
    intro name hmem
    obtain ⟨e, he, rfl⟩ := List.mem_map.1 hmem
    exact (hsc.members callee hcallee e (List.mem_append_right _ he)).1
  unfold callFunction
  refine (says_callArguments _).bind fun arguments harguments => ?_
  have hargumentText : Bare ("(" ++ String.intercalate ", " (arguments.map (·.2)) ++ ")") := by
    simp only [Text.bare_append]
    refine ⟨⟨by decide, Text.bare_intercalate (by decide) fun s hs => ?_⟩, by decide⟩
    obtain ⟨a, ha, rfl⟩ := List.mem_map.1 hs
    exact harguments a ha
  refine Says.bind (says_forM fun name hmem => says_modify (fun d hd => ?_) fun _ => rfl) fun _ _ => ?_
  · refine hd.appends (Memory.Appends.push (some name) (fun _ => rfl) fun _ => rfl) fun l hl label hlabel => ?_
    rw [List.mem_singleton.1 hl] at hlabel
    obtain rfl := Option.some.inj hlabel
    exact hreturns name hmem
  have hend : ∀ text, Bare text → Says Bare (do
      modify fun d => { d with calls := d.calls + 1 }
      return text : Step String) := fun text htext =>
    Says.bind (says_idle (fun _ => rfl) fun _ => rfl) fun _ _ => says_pure htext
  dsimp only
  split_ifs
  · refine (says_line hsc hred hname).bind fun head hhead => ?_
    exact (says_pure (Text.bare_append.2 ⟨hhead, hargumentText⟩)).bind hend
  · refine (says_assignResults _ _ _ _ _).bind fun names hnames => ?_
    refine (says_line hsc hgreen ?_).bind fun head hhead => ?_
    · simp only [Text.bare_append]
      exact ⟨⟨by decide, Text.bare_intercalate (by decide) hnames⟩, by decide⟩
    · refine (says_pure ?_).bind hend
      simp only [Text.bare_append]
      exact ⟨⟨hhead, bare_lineAt hsc hred hname 0⟩, by simpa only [Text.bare_append] using hargumentText⟩

theorem says_call (s : Site) : Says (fun text => Shows (text ++ "\n") []) (call sc place s) := by
  obtain ⟨-, hcyan, hred, -⟩ := bare_colours hsc
  have hplain : ∀ {text : String}, Bare text → Shows (text ++ "\n") [] := fun htext =>
    Text.shows_of_bare (Text.bare_append.2 ⟨htext, by decide⟩)
  unfold call
  have hkind : Bare (if s.instruction.isAbsoluteCall then "call abs" else "call rel") := by
    split_ifs <;> decide
  dsimp only
  cases s.instruction.imm with
  | none =>
    refine (says_line hsc (by decide) ?_).imp fun _ => hplain
    simp only [Site.cell, Text.bare_append]
    refine ⟨⟨hkind, by decide⟩, ⟨⟨by decide, ?_⟩, ?_⟩, by decide⟩
    · cases s.instruction.op1Source <;> decide
    · unfold Text.signedOffset
      split_ifs
      · decide
      · exact Text.bare_decimal _
      · exact Text.bare_append.2 ⟨by decide, Text.bare_decimal _⟩
  | some imm =>
    refine Says.bind (P := fun _ => True) (says_ofOutcome fun _ _ => trivial) fun offset _ => ?_
    split
    · rename_i index f hcallee
      obtain ⟨name, -, hfound⟩ := Option.bind_eq_some_iff.1 hcallee
      obtain ⟨k, -, hfound⟩ := Option.bind_eq_some_iff.1 hfound
      obtain ⟨g, hg, hpair⟩ := Option.bind_eq_some_iff.1 hfound
      obtain ⟨rfl, rfl⟩ := Prod.mk.inj (Option.some.inj hpair)
      exact (says_callFunction hsc k (List.mem_of_getElem? hg)).imp fun _ => hplain
    · refine (says_line hsc hred ?_).bind fun text htext => ?_
      · simp only [Text.bare_append]
        exact ⟨⟨⟨hkind, by decide⟩, Text.bare_decimal _⟩, by decide⟩
      split
      · rename_i label hlabel
        intro d out d' hd hrun
        obtain ⟨note, _, hline, hrun⟩ := Run.bind_eq_ok.1 hrun
        obtain ⟨rfl, rfl⟩ := line_eq_ok.1 hline
        obtain ⟨rfl, rfl⟩ := Run.pure_eq_ok.1 hrun
        exact ⟨shows_note hsc htext (Or.inr (bare_of_labelAt hsc hlabel)) hcyan _, hd, rfl⟩
      · exact says_pure (hplain htext)

theorem says_returnText (returns : Nat) : Says Bare (returnText sc returns) := by
  obtain ⟨-, -, hred, -⟩ := bare_colours hsc
  unfold returnText
  dsimp only
  split_ifs
  · refine (says_line hsc hred (by decide)).bind fun text htext => says_pure ?_
    exact Text.bare_append.2 ⟨htext, by decide⟩
  · refine (says_line hsc hred (by decide)).bind fun head hhead => ?_
    refine (says_returnNames returns).bind fun names hnames => says_pure ?_
    simp only [Text.bare_append]
    exact ⟨⟨⟨hhead, by decide⟩, Text.bare_intercalate (by decide) hnames⟩, by decide⟩

/-- A line with a brace that closes. -/
theorem shows_closingLine (tabs : Int) :
    Shows (lineAt sc tabs sc.printer.palette.reset "\x7d" ++ "\n") ['\x7d'] := by
  have hline := shows_lineAt hsc (bare_reset hsc) Text.shows_closing tabs
  exact hline.append (Text.shows_of_bare (by decide))

theorem says_ret (returns : Nat) (last : Bool) :
    Says (fun text => Shows (text ++ "\n") (if last then ['\x7d'] else [])) (ret sc returns last) := by
  unfold ret
  refine (says_returnText hsc returns).bind fun text htext => ?_
  cases last with
  | false => exact says_pure (Text.shows_of_bare (Text.bare_append.2 ⟨htext, by decide⟩))
  | true =>
    refine Says.bind (says_idle (fun _ => rfl) fun _ => rfl) fun _ _ => ?_
    intro d out d' hd hrun
    obtain ⟨brace, _, hline, hrun⟩ := Run.bind_eq_ok.1 hrun
    obtain ⟨rfl, rfl⟩ := line_eq_ok.1 hline
    obtain ⟨rfl, rfl⟩ := Run.pure_eq_ok.1 hrun
    refine ⟨?_, hd, rfl⟩
    dsimp only
    rw [String.append_assoc]
    exact (shows_closingLine hsc d.tabs).after_bare htext

variable {d d' : Decompiler} {s : Site} {text : String}

theorem shows_openingLine {name : String} (hname : Bare name) (tabs : Int) :
    Shows (lineAt sc tabs sc.printer.palette.red "if " ++ "(" ++ name ++ " == 0) \x7b" ++ "\n") ['\x7b'] := by
  obtain ⟨-, -, hred, -⟩ := bare_colours hsc
  have hsplit : lineAt sc tabs sc.printer.palette.red "if " ++ "(" ++ name ++ " == 0) \x7b" ++ "\n" =
      (lineAt sc tabs sc.printer.palette.red "if " ++ "(" ++ name ++ " == 0) ") ++ "\x7b" ++ "\n" := by
    apply String.toList_inj.1
    simp
  have hfront : Bare (lineAt sc tabs sc.printer.palette.red "if " ++ "(" ++ name ++ " == 0) ") := by
    simp only [Text.bare_append]
    exact ⟨⟨⟨bare_lineAt hsc hred (by decide) tabs, by decide⟩, hname⟩, by decide⟩
  rw [hsplit]
  exact (Text.shows_opening.after_bare hfront).append (Text.shows_of_bare (by decide))

theorem shows_of_branch {f : Function} (hf : sc.functions[place.function]? = some f)
    (hopens : s.opensBranch = true) (hd : d.memory.BareLabels) (h : branch sc place s d = .ok text d') :
    Shows (text ++ "\n") ['\x7b'] ∧ d'.memory.BareLabels ∧
      d'.schedule = d.schedule.pass sc.printer.prime f s := by
  unfold branch updateVariable indent at h
  obtain ⟨tested, d₁, hcell, h⟩ := Run.bind_eq_ok.1 h
  obtain ⟨-, hd₁, hschedule⟩ := says_cell .ap s.instruction.off0 d tested d₁ hd hcell
  rw [Run.modify_bind] at h
  obtain ⟨head, _, hline, h⟩ := Run.bind_eq_ok.1 h
  obtain ⟨rfl, rfl⟩ := line_eq_ok.1 hline
  obtain ⟨name, _, hname, h⟩ := Run.bind_eq_ok.1 h
  obtain ⟨rfl, rfl⟩ := nameOf_eq_ok.1 hname
  have hshows := shows_openingLine hsc (hd₁.nameOf tested) d₁.tabs
  have hlabels := hd₁.update tested (f := fun v => { v with function := some place.function }) fun _ => rfl
  dsimp only at h
  rw [Run.modify_bind, Run.modify_bind, Run.modify_bind] at h
  cases himm : s.instruction.imm with
  | none =>
    simp only [himm] at h
    exact absurd h Run.throw_ne_ok
  | some imm =>
    simp only [himm] at h
    obtain ⟨n, _, hout, h⟩ := Run.bind_eq_ok.1 h
    obtain ⟨hsmall, rfl⟩ := Run.ofOutcome_eq_ok.1 hout
    unfold Schedule.pass Function.lacksElse Function.hasElse
    rw [hopens, Bool.true_and, Bool.true_and, ← hschedule]
    rw [plainBefore_eq hf, goal_eq himm hsmall] at h
    by_cases hnone : f.plainBefore (s.goal sc.printer.prime) = 0
    · simp only [hnone] at h ⊢
      obtain ⟨rfl, rfl⟩ := Run.pure_eq_ok.1 h
      exact ⟨hshows, hlabels, rfl⟩
    · rw [if_pos hnone, Run.modify_bind] at h
      obtain ⟨rfl, rfl⟩ := Run.pure_eq_ok.1 h
      rw [if_pos (bne_iff_ne.2 hnone), ← goal_eq himm hsmall]
      exact ⟨hshows, hlabels, rfl⟩

theorem shows_of_relativeJump {f : Function} {imm : Int} (himm : s.instruction.imm = some imm)
    (hskips : s.skips = true) (hd : d.memory.BareLabels) (h : relativeJump sc imm s d = .ok text d') :
    Bare text ∧ d'.memory.BareLabels ∧ d'.schedule = d.schedule.pass sc.printer.prime f s := by
  obtain ⟨-, -, hred, -⟩ := bare_colours hsc
  have hopens := Site.opensBranch_eq_false_of_skips hskips
  unfold Schedule.pass Function.lacksElse Function.hasElse
  rw [hopens, Bool.false_and, Bool.false_and, if_neg Bool.false_ne_true, if_neg Bool.false_ne_true]
  unfold relativeJump indent at h
  rw [Run.get_bind] at h
  by_cases hopen : d.openIfs = 0
  · rw [if_neg (not_not.2 hopen)] at h
    obtain ⟨rfl, rfl⟩ := line_eq_ok.1 h
    rw [if_neg fun hboth => hboth.2 hopen]
    refine ⟨bare_lineAt hsc (by decide) ?_ _, hd, rfl⟩
    exact Text.bare_append.2 ⟨by decide, Text.bare_decimal imm⟩
  · rw [if_pos hopen, Run.modify_bind] at h
    obtain ⟨line, _, hline, h⟩ := Run.bind_eq_ok.1 h
    obtain ⟨rfl, rfl⟩ := line_eq_ok.1 hline
    rw [Run.modify_bind] at h
    obtain ⟨n, _, hout, h⟩ := Run.bind_eq_ok.1 h
    obtain ⟨hsmall, rfl⟩ := Run.ofOutcome_eq_ok.1 hout
    rw [Run.modify_bind] at h
    obtain ⟨rfl, rfl⟩ := Run.pure_eq_ok.1 h
    rw [if_pos ⟨hskips, hopen⟩, ← goal_eq himm hsmall]
    exact ⟨bare_lineAt hsc hred (by decide) _, hd, rfl⟩

theorem shows_of_nop {f : Function} (hf : sc.functions[place.function]? = some f)
    (hopcode : s.instruction.opcode = .nop) (hd : d.memory.BareLabels) (h : nop sc place s d = .ok text d') :
    Shows (text ++ "\n") (if s.opensBranch then ['\x7b'] else []) ∧ d'.memory.BareLabels ∧
      d'.schedule = d.schedule.pass sc.printer.prime f s := by
  have hplain : ∀ {t : String}, Bare t → Shows (t ++ "\n") [] := fun ht =>
    Text.shows_of_bare (Text.bare_append.2 ⟨ht, by decide⟩)
  -- what is neither a conditional nor a relative jump
  have hidle : Says Bare (nop sc place s) → s.opensBranch = false → s.skips = false →
      Shows (text ++ "\n") (if s.opensBranch then ['\x7b'] else []) ∧ d'.memory.BareLabels ∧
        d'.schedule = d.schedule.pass sc.printer.prime f s := by
    intro hsays hopens hskips
    obtain ⟨htext, hd', hschedule⟩ := hsays d text d' hd h
    rw [hopens, Schedule.pass_of_not_jump _ _ _ hopens hskips]
    exact ⟨hplain htext, hd', hschedule⟩
  unfold nop at h hidle
  cases hpc : s.instruction.pcUpdate with
  | jnz =>
    have hopens : s.opensBranch = true := by simp [Site.opensBranch, hopcode, hpc]
    simp only [hpc] at h
    rw [if_pos hopens]
    exact shows_of_branch hsc hf hopens hd h
  | jump =>
    simp only [hpc] at hidle
    exact hidle (says_pure (by decide)) (by simp [Site.opensBranch, hpc]) (by simp [Site.skips, hpc])
  | regular =>
    have hopens : s.opensBranch = false := by simp [Site.opensBranch, hpc]
    have hskips : s.skips = false := by simp [Site.skips, hpc]
    cases himm : s.instruction.imm with
    | some imm =>
      simp only [hpc, himm] at hidle
      exact hidle (says_pure (by decide)) hopens hskips
    | none =>
      simp only [hpc, himm] at hidle
      refine hidle ?_ hopens hskips
      split_ifs
      · refine says_line hsc (bare_colours hsc).2.2.2.1 (Text.bare_append.2 ⟨by decide, ?_⟩)
        exact Text.bare_toString _
      · exact says_pure (by decide)
  | jumpRel =>
    have hopens : s.opensBranch = false := by simp [Site.opensBranch, hpc]
    cases himm : s.instruction.imm with
    | none =>
      simp only [hpc, himm] at hidle
      exact hidle (says_pure (by decide)) hopens (by simp [Site.skips, himm])
    | some imm =>
      simp only [hpc, himm] at h
      have hskips : s.skips = true := by simp [Site.skips, hopcode, hpc, himm]
      obtain ⟨htext, hrest⟩ := shows_of_relativeJump (f := f) hsc himm hskips hd h
      rw [hopens]
      exact ⟨hplain htext, hrest⟩

theorem shows_of_body {f : Function} (hf : sc.functions[place.function]? = some f) {returns : Nat} {last : Bool}
    (hd : d.memory.BareLabels) (h : body sc place returns s last d = .ok text d') :
    Shows (text ++ "\n") (ownBraces s last) ∧ d'.memory.BareLabels ∧
      d'.schedule = d.schedule.pass sc.printer.prime f s := by
  have hother : ∀ ms : List Char, Says (fun t => Shows (t ++ "\n") ms) (body sc place returns s last) →
      s.instruction.opcode ≠ .nop → ownBraces s last = ms →
      Shows (text ++ "\n") (ownBraces s last) ∧ d'.memory.BareLabels ∧
        d'.schedule = d.schedule.pass sc.printer.prime f s := by
    intro ms hsays hopcode hms
    obtain ⟨htext, hd', hschedule⟩ := hsays d text d' hd h
    rw [hms, Schedule.pass_of_not_jump _ _ _ (by simp [Site.opensBranch, hopcode])
      (by simp [Site.skips, hopcode])]
    exact ⟨htext, hd', hschedule⟩
  unfold body at h hother
  cases hopcode : s.instruction.opcode with
  | nop =>
    simp only [hopcode] at h
    obtain ⟨htext, hrest⟩ := shows_of_nop hsc hf hopcode hd h
    refine ⟨?_, hrest⟩
    simpa [ownBraces, hopcode] using htext
  | assertEq =>
    simp only [hopcode] at hother
    refine hother [] ?_ (by simp) (by simp [ownBraces, Site.opensBranch, hopcode])
    refine (says_assertEq hsc _).bind fun out hout => ?_
    refine Says.bind (P := fun _ => True) (says_ofOutcome fun _ _ => trivial) fun n _ => ?_
    exact Says.bind (says_modify (fun _ hd => hd) fun _ => rfl) fun _ _ => says_pure hout
  | call =>
    simp only [hopcode] at hother
    exact hother [] (says_call hsc s) (by simp) (by simp [ownBraces, Site.opensBranch, hopcode])
  | ret =>
    simp only [hopcode] at hother
    exact hother _ (says_ret hsc returns last) (by simp) (by simp [ownBraces, Site.opensBranch, hopcode])

theorem shows_of_statement {f : Function} (hf : sc.functions[place.function]? = some f) {returns : Nat}
    {last : Bool} (hhint : s.hint = none) (hd : d.memory.BareLabels)
    (h : statement sc place returns s last d = .ok text d') :
    Shows (text ++ "\n") (ownBraces s last) ∧ d'.memory.BareLabels ∧
      d'.schedule = d.schedule.pass sc.printer.prime f s := by
  unfold statement at h
  obtain ⟨label, d₁, hlabel, h⟩ := Run.bind_eq_ok.1 h
  have hlabels : Says Bare (labelLine sc s.offset) := by
    unfold labelLine
    split
    · rename_i name hname
      refine says_line hsc (bare_colours hsc).1 ?_
      simp only [Text.bare_append]
      exact ⟨⟨by decide, bare_of_labelAt hsc hname⟩, by decide⟩
    · exact says_pure (by decide)
  obtain ⟨hbare, hd₁, hschedule⟩ := hlabels d label d₁ hd hlabel
  rw [hhint] at h
  obtain ⟨hint, _, hnone, h⟩ := Run.bind_eq_ok.1 h
  obtain ⟨rfl, rfl⟩ := Run.pure_eq_ok.1 hnone
  obtain ⟨out, d₂, hbody, h⟩ := Run.bind_eq_ok.1 h
  obtain ⟨rfl, rfl⟩ := Run.pure_eq_ok.1 h
  obtain ⟨hshows, hd', hpass⟩ := shows_of_body hsc hf hd₁ hbody
  rw [String.append_empty, String.append_assoc, ← hschedule]
  exact ⟨hshows.after_bare hbare, hd', hpass⟩

end Scene

end Decompiler

end Cairoscope
