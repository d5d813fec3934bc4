import Cairoscope.Proofs.Sierra.Conditions
import Cairoscope.Proofs.Sierra.Declarations
import Cairoscope.Proofs.Sierra.Names

/-! What a decompilation has written. The body of a function is made of pieces: the statements of its blocks,
and what stands around the arms of conditions. Where there has been room for everything, each block stands once
among them; where there has not, the run still ends and marks blocks of its own function only. -/

namespace Cairoscope.Sierra

/-- A piece of a body: the statements of a block, or what stands around the arms of conditions. -/
inductive Part
  | block (place : Nat) (tabs : Int)
  | alternative (tabs : Int)
  | ending (tabs : Int)

def margin (tabs : Int) : String := String.ofList (List.replicate tabs.toNat '\t')

/-- The lines of a statement: a condition opens, another jump has none, all else has one. -/
def Statement.lines (tabs : Int) (s : Statement) : List String :=
  match s.action with
  | .jump libfunc parameters _ (some _) _ =>
    [margin tabs ++ "if (" ++ libfunc ++ "(" ++ String.intercalate ", " parameters ++
      ") == 0) \x1b[92m\x7b\x1b[0m\n"]
  | .jump _ _ _ none _ => []
  | .give vars => [margin tabs ++ "\x1b[91mreturn\x1b[0m (" ++ String.intercalate ", " vars ++ ")\n"]
  | .assign libfunc arguments [] =>
    [margin tabs ++ "\x1b[94m" ++ libfunc.id ++ "\x1b[0m(" ++ String.intercalate ", " arguments ++ ")\n"]
  | .assign libfunc arguments results =>
    [margin tabs ++ String.intercalate ", " results ++ " = \x1b[94m" ++ libfunc.id ++ "\x1b[0m(" ++
      String.intercalate ", " arguments ++ ")\n"]

section Lines

variable {s : Statement} (tabs : Int)

theorem lines_of_condition {libfunc : String} {parameters : List String} {first second : Int} {isFallthrough : Bool}
    (h : s.action = .jump libfunc parameters first (some second) isFallthrough) :
    s.lines tabs = [conditionLine tabs libfunc parameters] := by
  have htail : ") == 0) \x1b[92m\x7b\x1b[0m\n" = ") == 0) " ++ inColour palette.green "\x7b" ++ "\n" := by decide
  simp only [Statement.lines, h, htail, conditionLine, margin, tabsText, joinWith, String.append_assoc]

theorem lines_of_isPlain (h : s.isPlain = true) :
    s.lines tabs = [tabsText tabs ++ s.action.line?.getD "" ++ "\n"] := by
  have hgive : "\x1b[91mreturn\x1b[0m (" = inColour palette.red "return" ++ " (" := by decide
  have hcall : " = \x1b[94m" = " = " ++ palette.blue := by decide
  have hreset : "\x1b[0m(" = palette.reset ++ "(" := by decide
  have hend : ")\n" = ")" ++ "\n" := by decide
  unfold Statement.isPlain at h
  cases haction : s.action with
  | jump => simp [haction] at h
  | give vars =>
    simp only [Statement.lines, haction, Action.line?, Option.getD_some, hgive, hend, margin, tabsText, joinWith,
      String.append_assoc]
  | assign libfunc arguments results =>
    cases results with
    | nil =>
      simp only [Statement.lines, haction, Action.line?, Option.getD_some, hreset, hend, margin, tabsText, joinWith,
        inColour, String.append_assoc, List.isEmpty_nil, if_true]
      rfl
    | cons result results =>
      simp only [Statement.lines, haction, Action.line?, Option.getD_some, hcall, hreset, hend, margin, tabsText,
        joinWith, inColour, String.append_assoc, List.isEmpty_cons, Bool.false_eq_true, if_false]

end Lines

theorem tabsText_inline (tabs : Int) : Inline (tabsText tabs) := by
  unfold Inline tabsText
  rw [String.toList_ofList, List.all_eq_true]
  intro c hc
  obtain rfl := (List.mem_replicate.1 hc).2
  decide

theorem conditionLine_eq {libfunc : String} {parameters : List String} (hlibfunc : Inline libfunc)
    (hparameters : ∀ v ∈ parameters, Inline v) (tabs : Int) :
    ∃ front, Inline front ∧
      conditionLine tabs libfunc parameters = front ++ "\x7b" ++ palette.reset ++ "\n" := by
  refine ⟨tabsText tabs ++ "if (" ++ libfunc ++ "(" ++ joinWith parameters ++ ") == 0) " ++ palette.green,
    ?_, ?_⟩
  · have htabs := tabsText_inline tabs
    have hjoined := inline_joinWith hparameters
    simp only [inline_append]
    exact ⟨⟨⟨⟨⟨⟨htabs, by decide⟩, hlibfunc⟩, by decide⟩, hjoined⟩, by decide⟩, by decide⟩
  · simp only [conditionLine, inColour, String.append_assoc]

theorem line_inline {a : Action} (h : a.Named) : Inline (a.line?.getD "") := by
  cases a with
  | give vars =>
    have hvars := inline_joinWith h
    simp only [Action.line?, inColour, Option.getD_some, inline_append]
    exact ⟨⟨⟨by decide, by decide⟩, hvars⟩, by decide⟩
  | assign libfunc arguments results =>
    obtain ⟨hlibfunc, harguments, hresults⟩ := h
    have hcall : Inline (inColour palette.blue libfunc.id ++ "(" ++ joinWith arguments ++ ")") := by
      simp only [inColour, inline_append]
      exact ⟨⟨⟨⟨⟨by decide, hlibfunc⟩, by decide⟩, by decide⟩, inline_joinWith harguments⟩, by decide⟩
    simp only [Action.line?, Option.getD_some]
    split_ifs
    · exact hcall
    · exact inline_append.2 ⟨inline_append.2 ⟨inline_joinWith hresults, by decide⟩, hcall⟩
  | jump => rfl

/-- Each of the lines is one line. -/
theorem Statement.lines_end {s : Statement} (h : s.action.Named) {tabs : Int} {line : String}
    (hline : line ∈ s.lines tabs) : ∃ text, line = text ++ "\n" ∧ '\n' ∉ text.toList := by
  have hone : s.isPlain = true → ∃ text, line = text ++ "\n" ∧ '\n' ∉ text.toList := by
    intro hplain
    rw [lines_of_isPlain tabs hplain] at hline
    have hinline : Inline (tabsText tabs ++ s.action.line?.getD "") :=
      inline_append.2 ⟨tabsText_inline tabs, line_inline h⟩
    exact ⟨_, List.mem_singleton.1 hline, hinline.not_mem (by decide)⟩
  cases haction : s.action with
  | give => exact hone (by simp [Statement.isPlain, haction])
  | assign => exact hone (by simp [Statement.isPlain, haction])
  | jump libfunc parameters first second isFallthrough =>
    rw [haction] at h
    cases second with
    | none => simp [Statement.lines, haction] at hline
    | some second =>
      rw [lines_of_condition tabs haction] at hline
      obtain rfl := List.mem_singleton.1 hline
      obtain ⟨front, hfront, hcondition⟩ := conditionLine_eq h.1 h.2 tabs
      refine ⟨_, hcondition, ?_⟩
      rw [String.toList_append, String.toList_append, List.mem_append, List.mem_append]
      exact fun hmem => hmem.elim (fun hmem => hmem.elim (hfront.not_mem (by decide)) (by decide)) (by decide)

namespace Part

def text (blocks : List Block) : Part → String
  | block place tabs =>
    String.join (((blocks[place]?.map (·.statements)).getD []).flatMap (Statement.lines tabs))
  | alternative tabs => margin tabs ++ "\x1b[92m\x7d\x1b[0m else \x1b[92m\x7b\n\x1b[0m"
  | ending tabs => "\x1b[92m" ++ margin tabs ++ "\x7d\n\x1b[0m"

def place? : Part → Option Nat
  | block place _ => some place
  | _ => none

end Part

def textOf (blocks : List Block) (parts : List Part) : String :=
  String.join (parts.map (Part.text blocks))

def placesIn (parts : List Part) : List Nat := parts.filterMap Part.place?

theorem exists_of_mem_placesIn {parts : List Part} {i : Nat} (h : i ∈ placesIn parts) :
    ∃ front tabs back, parts = front ++ .block i tabs :: back := by
  obtain ⟨part, hpart, hplace⟩ := List.mem_filterMap.1 h
  obtain ⟨front, back, rfl⟩ := List.append_of_mem hpart
  cases part with
  | block place tabs =>
    obtain rfl := Option.some.inj hplace
    exact ⟨front, tabs, back, rfl⟩
  | alternative => cases hplace
  | ending => cases hplace

section Parts

variable {function place n : Nat} {blocks : List Block} {parts parts' : List Part} {b : Block}
  {w v w' : Progress}

theorem elseLine_eq (blocks : List Block) (tabs : Int) : elseLine tabs = (Part.alternative tabs).text blocks := by
  have hbraces : "\x1b[92m\x7d\x1b[0m else \x1b[92m\x7b\n\x1b[0m" =
      inColour palette.green "\x7d" ++ " else " ++ inColour palette.green "\x7b\n" := by decide
  simp only [elseLine, Part.text, margin, tabsText, hbraces, String.append_assoc]

theorem closingLine_eq (blocks : List Block) (tabs : Int) : closingLine tabs = (Part.ending tabs).text blocks := by
  have hbrace : "\x7d\n\x1b[0m" = "\x7d\n" ++ palette.reset := by decide
  simp only [closingLine, inColour, Part.text, margin, tabsText, hbrace, String.append_assoc]
  rfl

theorem textOf_append : textOf blocks (parts ++ parts') = textOf blocks parts ++ textOf blocks parts' := by
  simp [textOf]

theorem placesIn_append : placesIn (parts ++ parts') = placesIn parts ++ placesIn parts' :=
  List.filterMap_append

theorem statementLine_eq {s : Statement} (tabs : Int) (h : s.isPlain = true ∨ (s.forks = true ↔ n = 2)) :
    statementLine tabs n s = String.join (s.lines tabs) := by
  have hone : s.isPlain = true → String.join (s.lines tabs) = tabsText tabs ++ s.action.line?.getD "" ++ "\n" := by
    intro hplain
    rw [lines_of_isPlain tabs hplain]
    simp
  unfold statementLine
  cases haction : s.action with
  | give => rw [hone (by simp [Statement.isPlain, haction]), haction]
  | assign => rw [hone (by simp [Statement.isPlain, haction]), haction]
  | jump libfunc parameters first second isFallthrough =>
    unfold Statement.isPlain Statement.forks at h
    cases second with
    | none =>
      have hn : n ≠ 2 := by simpa [haction] using h
      simp [Statement.lines, haction, hn]
    | some second =>
      obtain rfl : n = 2 := by simpa [haction] using h
      simp [lines_of_condition tabs haction]

theorem Block.Shaped.lines (h : b.Shaped) (tabs : Int) :
    String.join (b.statements.map (statementLine tabs b.edges.length)) =
      String.join (b.statements.flatMap (Statement.lines tabs)) := by
  have hlines : ∀ s ∈ b.statements, statementLine tabs b.edges.length s = String.join (s.lines tabs) := by
    intro s hs
    apply statementLine_eq
    obtain ⟨t, u, h⟩ | h := h
    · obtain ⟨source, hedges⟩ := h.edges
      obtain ⟨front, last, hstatements, hfront, hlast⟩ := h.statements
      rw [hstatements] at hs
      obtain hs | hs := List.mem_append.1 hs
      · exact .inl (hfront s hs)
      · rw [List.mem_singleton.1 hs, hlast, hedges]
        simp
    · have hlength := h.length
      rw [h.statements s hs]
      exact .inr (by simp; omega)
  rw [List.map_congr_left hlines]
  induction b.statements with
  | nil => rfl
  | cons s rest ih => simp [ih]

/-- What a run adds: it writes the pieces, and marks their blocks, which have not been written before. -/
structure Adds (function : Nat) (blocks : List Block) (parts : List Part) (w w' : Progress) : Prop where
  printed : w'.printed = w.printed ++ (placesIn parts).map (function, ·)
  bounded : ∀ i ∈ placesIn parts, i < blocks.length
  nodup : (placesIn parts).Nodup
  fresh : ∀ i ∈ placesIn parts, (function, i) ∉ w.printed

namespace Adds

/-- Pieces without a block. -/
theorem around (hnone : placesIn parts = []) (h : w'.printed = w.printed) :
    Adds function blocks parts w w' :=
  ⟨by simp [hnone, h], by simp [hnone], by simp [hnone], by simp [hnone]⟩

theorem trans (h : Adds function blocks parts w v) (h' : Adds function blocks parts' v w') :
    Adds function blocks (parts ++ parts') w w' := by
  refine ⟨?_, ?_, ?_, ?_⟩
  · rw [h'.printed, h.printed, placesIn_append, List.map_append, List.append_assoc]
  · rw [placesIn_append]
    exact List.forall_mem_append.2 ⟨h.bounded, h'.bounded⟩
  · rw [placesIn_append]
    refine List.nodup_append.2 ⟨h.nodup, h'.nodup, fun i hi j hj hij => ?_⟩
    apply h'.fresh j hj
    rw [h.printed, ← hij]
    exact List.mem_append_right _ (List.mem_map_of_mem hi)
  · rw [placesIn_append]
    refine List.forall_mem_append.2 ⟨h.fresh, fun i hi hw => h'.fresh i hi ?_⟩
    rw [h.printed]
    exact List.mem_append_left _ hw

theorem mem (h : Adds function blocks parts w w') {q : Nat × Nat} (hq : q ∈ w.printed) : q ∈ w'.printed := by
  rw [h.printed]
  exact List.mem_append_left _ hq

end Adds

theorem adds_of_mark (function : Nat) (hb : blocks[place]? = some b) (hshape : b.Shaped) (w : Progress) :
    ∃ parts, w.opening function place b = textOf blocks parts ∧
      Adds function blocks parts w (w.mark function place) ∧
      (function, place) ∈ (w.mark function place).printed := by
  by_cases hprinted : (function, place) ∈ w.printed
  · refine ⟨[], if_pos hprinted, .around rfl ?_, ?_⟩
    · rw [Progress.mark_of_mem hprinted]
    · rwa [Progress.mark_of_mem hprinted]
  · refine ⟨[.block place w.tabs], ?_, ⟨?_, ?_, ?_, ?_⟩, ?_⟩
    · rw [Progress.opening, if_neg hprinted, hshape.lines]
      simp [textOf, Part.text, hb]
    · rw [Progress.printed_mark_of_not_mem hprinted]
      rfl
    · simpa [placesIn, Part.place?] using (List.getElem?_eq_some_iff.1 hb).1
    · simp [placesIn, Part.place?]
    · simpa [placesIn, Part.place?] using hprinted
    · rw [Progress.printed_mark_of_not_mem hprinted]
      simp

variable {nested : Nat → Writing (Option String)} {target : Int} {text : String}

/-- What is written for a block is made of pieces, and the block has been written then. -/
def TellsParts (function : Nat) (blocks : List Block) (nested : Nat → Writing (Option String)) : Prop :=
  ∀ {i : Nat} {w w' : Progress} {r : Option String}, i < blocks.length → nested i w = .ok r w' →
    ∃ parts, r = some (textOf blocks parts) ∧ Adds function blocks parts w w' ∧ (function, i) ∈ w'.printed

theorem WritesFirst.adds (htells : TellsParts function blocks nested)
    (h : WritesFirst blocks nested target w text w') :
    ∃ parts, text = textOf blocks parts ∧ Adds function blocks parts w w' := by
  cases h with
  | missing => exact ⟨[], rfl, .around rfl rfl⟩
  | nested h hrun =>
    obtain ⟨parts, rfl, hadds, -⟩ := htells (lt_of_placeOf? h) hrun
    exact ⟨parts, rfl, hadds.printed, hadds.bounded, hadds.nodup, hadds.fresh⟩

theorem WritesSecond.adds (htells : TellsParts function blocks nested)
    (h : WritesSecond function blocks nested target w text w') :
    ∃ parts, text = textOf blocks parts ∧ Adds function blocks parts w w' := by
  cases h with
  | absent => exact ⟨[], rfl, .around rfl rfl⟩
  | nested h _ hrun =>
    obtain ⟨parts, rfl, hadds, -⟩ := htells (lt_of_placeOf? h) hrun
    exact ⟨.alternative w.tabs :: parts, by simp [textOf, ← elseLine_eq blocks], hadds.printed, hadds.bounded, hadds.nodup,
      hadds.fresh⟩

theorem closed_textOf (blocks : List Block) (parts : List Part) (tabs : Int) :
    ∃ last, closed (textOf blocks parts) tabs = textOf blocks (parts ++ last) ∧ placesIn last = [] := by
  unfold closed
  by_cases hempty : textOf blocks parts = ""
  · exact ⟨[], by rw [if_pos hempty, List.append_nil, hempty], rfl⟩
  · exact ⟨[.ending tabs], by rw [if_neg hempty, textOf_append, closingLine_eq blocks]; simp [textOf], rfl⟩

theorem WritesLevel.adds {levels : Nat} (htells : TellsParts function blocks nested)
    (h : WritesLevel function blocks nested levels place w text w') :
    ∃ parts, text = textOf blocks parts ∧ Adds function blocks parts w w' ∧ (function, place) ∈ w'.printed := by
  cases h with
  | straight hb _ hshape => exact adds_of_mark function hb (.inr hshape) w
  | forks hb _ hshape hfirst hsecond =>
    obtain ⟨opening, hopening, hmark, hmem⟩ := adds_of_mark function hb (.inl ⟨_, _, hshape⟩) w
    obtain ⟨inner, rfl, hinner⟩ := hfirst.adds htells
    obtain ⟨alternative, rfl, halternative⟩ := hsecond.adds htells
    rw [hopening, ← textOf_append, ← textOf_append]
    obtain ⟨last, hclosed, hnone⟩ := closed_textOf blocks (opening ++ inner ++ alternative) w'.tabs
    exact ⟨_, hclosed, ((hmark.trans hinner).trans halternative).trans (.around hnone rfl),
      halternative.mem (hinner.mem hmem)⟩

theorem nestedText_tellsParts (hshapes : ∀ b ∈ blocks, b.Shaped) (n : Nat) :
    TellsParts function blocks (nestedText tooDeep function blocks n) := by
  intro place w w' r hplace hrun
  induction n generalizing place w w' r with
  | zero => exact absurd hrun Run.throw_ne_ok
  | succ n ih =>
    obtain ⟨text, rfl, hlevel⟩ := level_of_nestedText hshapes hplace hrun
    obtain ⟨parts, rfl, hadds, hmem⟩ := hlevel.adds ih
    exact ⟨parts, rfl, hadds, hmem⟩

end Parts

section Bodies

variable {full : Writing (Option String)} {limit m function place : Nat} {blocks : List Block}
  {text body : String} {w w' : Progress}

theorem outermostText_eq_ok : outermostText full limit function blocks place w = .ok text w' ↔
    ∃ r, nestedText full function blocks limit place { w with tabs := 1 } = .ok r w' ∧ text = r.getD "" := by
  unfold outermostText
  rw [Run.modify_bind]
  constructor
  · intro h
    obtain ⟨r, _, hrun, h⟩ := Run.bind_eq_ok.1 h
    obtain ⟨rfl, rfl⟩ := Run.pure_eq_ok.1 h
    exact ⟨r, hrun, rfl⟩
  · rintro ⟨r, hrun, rfl⟩
    exact Run.bind_eq_ok.2 ⟨r, w', hrun, rfl⟩

theorem bodyText_eq_ok : bodyText full limit function blocks w = .ok body w' ↔
    ∃ texts, (List.range blocks.length).mapM (outermostText full limit function blocks) w = .ok texts w' ∧
      body = String.join texts := by
  unfold bodyText
  constructor
  · intro h
    obtain ⟨texts, _, hrun, h⟩ := Run.bind_eq_ok.1 h
    obtain ⟨rfl, rfl⟩ := Run.pure_eq_ok.1 h
    exact ⟨texts, hrun, rfl⟩
  · rintro ⟨texts, hrun, rfl⟩
    exact Run.bind_eq_ok.2 ⟨texts, w', hrun, rfl⟩

theorem bodyText_extends (hshapes : ∀ b ∈ blocks, b.Shaped) (hle : limit ≤ m)
    (h : bodyText tooDeep limit function blocks w = .ok body w') :
    bodyText full m function blocks w = .ok body w' := by
  obtain ⟨texts, hrun, hbody⟩ := bodyText_eq_ok.1 h
  refine bodyText_eq_ok.2 ⟨texts, Run.mapM_extends (fun place hplace v text v' hone => ?_) hrun, hbody⟩
  obtain ⟨r, hnested, htext⟩ := outermostText_eq_ok.1 hone
  exact outermostText_eq_ok.2 ⟨r, nestedText_extends hshapes hle (List.mem_range.1 hplace) hnested, htext⟩

theorem adds_of_outermostTexts (hshapes : ∀ b ∈ blocks, b.Shaped) {places : List Nat} {texts : List String}
    (hplaces : ∀ i ∈ places, i < blocks.length)
    (h : places.mapM (outermostText tooDeep limit function blocks) w = .ok texts w') :
    ∃ parts, String.join texts = textOf blocks parts ∧ Adds function blocks parts w w' ∧
      ∀ i ∈ places, (function, i) ∈ w'.printed := by
  induction places generalizing w texts with
  | nil =>
    obtain ⟨rfl, rfl⟩ := Run.pure_eq_ok.1 h
    exact ⟨[], rfl, .around rfl rfl, by simp⟩
  | cons place places ih =>
    obtain ⟨hplace, hplaces⟩ := List.forall_mem_cons.1 hplaces
    obtain ⟨text, v, rest, hone, hrest, rfl⟩ := Run.mapM_cons_eq_ok.1 h
    obtain ⟨r, hnested, rfl⟩ := outermostText_eq_ok.1 hone
    obtain ⟨first, rfl, hfirst, hmem⟩ := nestedText_tellsParts hshapes limit hplace hnested
    obtain ⟨later, hlater, hadds, hmems⟩ := ih hplaces hrest
    -- the tabs do not matter for what is added
    have hfirst : Adds function blocks first w v := ⟨hfirst.printed, hfirst.bounded, hfirst.nodup, hfirst.fresh⟩
    refine ⟨first ++ later, ?_, hfirst.trans hadds, List.forall_mem_cons.2 ⟨hadds.mem hmem, hmems⟩⟩
    rw [textOf_append, ← hlater, String.join_cons]
    rfl

/-- A body that comes to an end has each block once. -/
theorem parts_of_bodyText (hshapes : ∀ b ∈ blocks, b.Shaped)
    (h : bodyText tooDeep limit function blocks w = .ok body w') :
    ∃ parts, body = textOf blocks parts ∧ Adds function blocks parts w w' ∧
      ((∀ q ∈ w.printed, q.1 ≠ function) → (placesIn parts).Perm (List.range blocks.length)) := by
  obtain ⟨texts, hrun, rfl⟩ := bodyText_eq_ok.1 h
  obtain ⟨parts, htexts, hadds, hmem⟩ := adds_of_outermostTexts hshapes (fun i => List.mem_range.1) hrun
  refine ⟨parts, htexts, hadds, fun hnone => ?_⟩
  refine (List.perm_ext_iff_of_nodup hadds.nodup List.nodup_range).2 fun i => ⟨fun hi => ?_, fun hi => ?_⟩
  · exact List.mem_range.2 (hadds.bounded i hi)
  · have hprinted := hmem i hi
    rw [hadds.printed] at hprinted
    obtain hold | hnew := List.mem_append.1 hprinted
    · exact absurd rfl (hnone _ hold)
    · simpa using hnew

theorem exists_bodyText (h : ∀ i < blocks.length, ∀ v,
    ∃ r v', nestedText tooDeep function blocks limit i v = .ok r v') (w : Progress) :
    ∃ body w', bodyText tooDeep limit function blocks w = .ok body w' := by
  obtain ⟨texts, w', hrun⟩ := Run.exists_mapM (fun i hi v => by
    obtain ⟨r, v', hrun⟩ := h i (List.mem_range.1 hi) { v with tabs := 1 }
    exact ⟨_, v', outermostText_eq_ok.2 ⟨r, hrun, rfl⟩⟩) w
  exact ⟨_, w', bodyText_eq_ok.2 ⟨texts, hrun, rfl⟩⟩

end Bodies

/-- The run ends well, and marks blocks of the function only. -/
def Keeps {α : Type} (function : Nat) (x : Writing α) : Prop :=
  ∀ w, ∃ a w', x w = .ok a w' ∧ ∀ q ∈ w'.printed, q ∈ w.printed ∨ q.1 = function

section Keeps

variable {α β : Type} {full : Writing (Option String)} {function : Nat} {blocks : List Block}
  {nested : Nat → Writing (Option String)}

theorem keeps_pure (a : α) : Keeps function (pure a : Writing α) :=
  fun w => ⟨a, w, rfl, fun _ hq => .inl hq⟩

theorem keeps_get : Keeps function (get : Writing Progress) :=
  fun w => ⟨w, w, rfl, fun _ hq => .inl hq⟩

theorem keeps_indentBy (n : Int) : Keeps function (indentBy n) :=
  fun w => ⟨(), w.indent n, rfl, fun _ hq => .inl hq⟩

theorem Keeps.bind {x : Writing α} {f : α → Writing β} (hx : Keeps function x)
    (hf : ∀ a, Keeps function (f a)) : Keeps function (x >>= f) := by
  intro w
  obtain ⟨a, v, hrun, hv⟩ := hx w
  obtain ⟨b, w', hrun', hw'⟩ := hf a v
  refine ⟨b, w', Run.bind_eq_ok.2 ⟨a, v, hrun, hrun'⟩, fun q hq => ?_⟩
  obtain hq | hq := hw' q hq
  · exact hv q hq
  · exact .inr hq

theorem keeps_foldlM {f : β → α → Writing β} (h : ∀ b a, Keeps function (f b a)) (l : List α) (b : β) :
    Keeps function (l.foldlM f b) := by
  induction l generalizing b with
  | nil => exact keeps_pure b
  | cons a l ih =>
    rw [List.foldlM_cons]
    exact (h b a).bind ih

theorem keeps_mapM {f : α → Writing β} (h : ∀ a, Keeps function (f a)) (l : List α) :
    Keeps function (l.mapM f) := by
  induction l with
  | nil => exact keeps_pure []
  | cons a l ih =>
    rw [List.mapM_cons]
    exact (h a).bind fun b => ih.bind fun bs => keeps_pure (b :: bs)

theorem keeps_blockText (hfull : Keeps function full) (place levels : Nat) (b : Block) :
    Keeps function (blockText full function place levels b) := by
  have hmark : Keeps function
      (modify fun w => { w with printed := w.printed ++ [(function, place)] } : Writing PUnit) := by
    refine fun w => ⟨⟨⟩, _, rfl, fun q hq => ?_⟩
    obtain hq | hq := List.mem_append.1 hq
    · exact .inl hq
    · rw [List.mem_singleton.1 hq]
      exact .inr rfl
  unfold blockText
  refine keeps_get.bind fun w => ?_
  split_ifs
  · exact keeps_pure _
  · refine hmark.bind fun _ => ?_
    exact hfull
  · refine hmark.bind fun _ => ?_
    exact keeps_get.bind fun _ => keeps_pure _

theorem keeps_edgeText (h : ∀ i, Keeps function (nested i)) (text : String) (e : Edge) :
    Keeps function (edgeText function blocks nested text e) := by
  have hfirst : ∀ target, Keeps function (firstArm blocks nested target) := by
    intro target
    unfold firstArm
    refine (keeps_indentBy 1).bind fun _ => ?_
    split
    · exact (h _).bind fun r => (keeps_indentBy (-1)).bind fun _ => keeps_pure _
    · exact (keeps_pure none).bind fun r => (keeps_indentBy (-1)).bind fun _ => keeps_pure _
  have hsecond : ∀ target, Keeps function (secondArm function blocks nested target) := by
    intro target
    unfold secondArm
    refine keeps_get.bind fun w => ?_
    split
    · exact (keeps_indentBy 1).bind fun _ => (h _).bind fun r => (keeps_pure _).bind fun _ =>
        (keeps_indentBy (-1)).bind fun _ => keeps_pure _
    · exact (keeps_pure "").bind fun r => (keeps_indentBy (-1)).bind fun _ => keeps_pure _
  unfold edgeText
  split
  · exact (hfirst _).bind fun _ => keeps_pure _
  · exact (hsecond _).bind fun _ => keeps_get.bind fun _ => keeps_pure _
  · exact keeps_pure _

theorem keeps_nestedText (hfull : Keeps function full) (blocks : List Block) (levels place : Nat) :
    Keeps function (nestedText full function blocks levels place) := by
  induction levels generalizing place with
  | zero => exact hfull
  | succ levels ih =>
    unfold nestedText
    split
    · exact keeps_pure none
    · refine (keeps_blockText hfull place levels _).bind fun r => ?_
      cases r with
      | none => exact keeps_pure none
      | some text => exact (keeps_foldlM (keeps_edgeText ih) _ text).bind fun _ => keeps_pure _

theorem keeps_bodyText (hfull : Keeps function full) (limit : Nat) (blocks : List Block) :
    Keeps function (bodyText full limit function blocks) := by
  have hone : ∀ place, Keeps function (outermostText full limit function blocks place) := by
    intro place w
    obtain ⟨r, w', hrun, hw'⟩ := keeps_nestedText hfull blocks limit place { w with tabs := 1 }
    exact ⟨_, w', outermostText_eq_ok.2 ⟨r, hrun, rfl⟩, hw'⟩
  exact (keeps_mapM hone _).bind fun _ => keeps_pure _

end Keeps

namespace Program

variable {full : Writing (Option String)} {limit m k : Nat} {p : Program} {f : Function} {text : String}
  {w w' : Progress}

theorem functionWritten_eq_ok {i : Nat} : p.functionWritten full limit (f, i) w = .ok text w' ↔
    ∃ prototype body, p.prototype f = .ok prototype ∧ bodyText full limit i f.blocks w = .ok body w' ∧
      text = functionText i prototype body := by
  unfold functionWritten
  constructor
  · intro h
    obtain ⟨prototype, _, hfirst, h⟩ := Run.bind_eq_ok.1 h
    obtain ⟨hprototype, rfl⟩ := Run.ofOutcome_eq_ok.1 hfirst
    obtain ⟨body, _, hbody, h⟩ := Run.bind_eq_ok.1 h
    obtain ⟨rfl, rfl⟩ := Run.pure_eq_ok.1 h
    exact ⟨prototype, body, hprototype, hbody, rfl⟩
  · rintro ⟨prototype, body, hprototype, hbody, rfl⟩
    refine Run.bind_eq_ok.2 ⟨prototype, w, Run.ofOutcome_eq_ok.2 ⟨hprototype, rfl⟩, ?_⟩
    exact Run.bind_eq_ok.2 ⟨body, w', hbody, rfl⟩

theorem written_eq_ok : p.written full limit w = .ok text w' ↔
    ∃ texts, p.functions.zipIdx.mapM (p.functionWritten full limit) w = .ok texts w' ∧
      text = p.declarationsText ++ String.intercalate "\n\n" texts := by
  unfold written
  constructor
  · intro h
    obtain ⟨texts, _, hrun, h⟩ := Run.bind_eq_ok.1 h
    obtain ⟨rfl, rfl⟩ := Run.pure_eq_ok.1 h
    exact ⟨texts, hrun, rfl⟩
  · rintro ⟨texts, hrun, rfl⟩
    exact Run.bind_eq_ok.2 ⟨texts, w', hrun, rfl⟩

/-- Bodies mark blocks of their own functions only, so each starts with none of its own marked. -/
theorem bodies_of_functionsWritten {fs : List Function} {texts : List String}
    (hown : ∀ f ∈ fs, ∀ i v body v', bodyText full limit i f.blocks v = .ok body v' →
      ∀ q ∈ v'.printed, q ∈ v.printed ∨ q.1 = i)
    (hstart : ∀ q ∈ w.printed, q.1 < k)
    (h : (fs.zipIdx k).mapM (p.functionWritten full limit) w = .ok texts w') :
    texts.length = fs.length ∧ ∀ i f, fs[i]? = some f → ∃ prototype body v v',
      p.prototype f = .ok prototype ∧ texts[i]? = some (functionText (k + i) prototype body) ∧
      bodyText full limit (k + i) f.blocks v = .ok body v' ∧ ∀ q ∈ v.printed, q.1 < k + i := by
  induction fs generalizing k w texts with
  | nil =>
    obtain ⟨rfl, rfl⟩ := Run.pure_eq_ok.1 h
    exact ⟨rfl, by simp⟩
  | cons f fs ih =>
    obtain ⟨hfirst, hown⟩ := List.forall_mem_cons.1 hown
    rw [List.zipIdx_cons] at h
    obtain ⟨text, v, rest, hone, hrest, rfl⟩ := Run.mapM_cons_eq_ok.1 h
    obtain ⟨prototype, body, hprototype, hbody, rfl⟩ := functionWritten_eq_ok.1 hone
    have hv : ∀ q ∈ v.printed, q.1 < k + 1 := by
      intro q hq
      obtain hold | hnew := hfirst k w body v hbody q hq
      · exact (hstart q hold).trans (Nat.lt_succ_self k)
      · omega
    obtain ⟨hlength, hall⟩ := ih hown hv hrest
    refine ⟨by rw [List.length_cons, List.length_cons, hlength], fun i g hg => ?_⟩
    cases i with
    | zero =>
      obtain rfl := Option.some.inj hg
      exact ⟨prototype, body, w, v, hprototype, rfl, hbody, hstart⟩
    | succ i =>
      obtain ⟨prototype, body, v, v', hfacts⟩ := hall i g hg
      rw [Nat.add_right_comm, Nat.add_assoc] at hfacts
      exact ⟨prototype, body, v, v', hfacts⟩

theorem written_extends (hshapes : ∀ f ∈ p.functions, ∀ b ∈ f.blocks, b.Shaped) (hle : limit ≤ m)
    (h : p.written tooDeep limit w = .ok text w') : p.written full m w = .ok text w' := by
  obtain ⟨texts, hrun, htext⟩ := written_eq_ok.1 h
  refine written_eq_ok.2 ⟨texts, Run.mapM_extends (fun fi hfi v one v' hone => ?_) hrun, htext⟩
  obtain ⟨prototype, body, hprototype, hbody, hone⟩ := functionWritten_eq_ok.1 hone
  exact functionWritten_eq_ok.2 ⟨prototype, body, hprototype,
    bodyText_extends (hshapes _ (List.fst_mem_of_mem_zipIdx hfi)) hle hbody, hone⟩

/-- The program is written if each of its bodies is, wherever that is started. -/
theorem exists_written (h : load text .empty = .ok () p)
    (hbodies : ∀ f ∈ p.functions, ∀ i v, ∃ body v', bodyText full limit i f.blocks v = .ok body v')
    (w : Progress) : ∃ out w', p.written full limit w = .ok out w' := by
  obtain ⟨src, hread, -⟩ := loaded_of_load h
  have heach : ∀ fi ∈ p.functions.zipIdx, ∀ v, ∃ one v',
      p.functionWritten full limit fi v = .ok one v' := by
    intro fi hfi v
    have hf := List.fst_mem_of_mem_zipIdx hfi
    obtain ⟨prototype, hprototype⟩ := exists_prototype hread h hf
    obtain ⟨body, v', hbody⟩ := hbodies fi.1 hf fi.2 v
    exact ⟨_, v', functionWritten_eq_ok.2 ⟨prototype, body, hprototype, hbody, rfl⟩⟩
  obtain ⟨texts, w', hrun⟩ := Run.exists_mapM heach w
  exact ⟨_, w', written_eq_ok.2 ⟨texts, hrun, rfl⟩⟩

theorem shaped_of_load (h : load text .empty = .ok () p) : ∀ f ∈ p.functions, ∀ b ∈ f.blocks, b.Shaped := by
  obtain ⟨src, -, hloaded⟩ := loaded_of_load h
  exact fun f hf => Function.shaped_of_mem_blocks (hloaded.functions f hf).blocks

end Program

end Cairoscope.Sierra
