import Cairoscope.Proofs.Assertions
import Cairoscope.Proofs.Passes
import Cairoscope.Proofs.StatementBraces

/-! The braces of decompiled code. Outside comments a function has the braces of its heading, those of its
branches, and one at its end. So the code of a contract is well bracketed exactly when the branches of its
functions are ended. -/

namespace Cairoscope.Decompiler

open Text (Bare Shows)

variable {sc : Scene} {place : Place} {d d' : Decompiler} {f : Function} {s : Site} {text : String}

theorem bare_membersText {layout : Artifact.Layout} {out : String}
    (h : ∀ e ∈ layout, Bare e.2.name ∧ ∀ type, e.2.type = .str type → Bare type)
    (hout : Function.membersText layout = .ok out) : Bare out := by
  unfold Function.membersText at hout
  obtain ⟨parts, hparts, hout⟩ := Outcome.bind_eq_ok.1 hout
  obtain rfl := Outcome.pure_eq_ok.1 hout
  refine Text.bare_join fun part hpart => ?_
  obtain ⟨e, he, hpart⟩ := Outcome.exists_of_mem_mapM hparts hpart
  obtain ⟨type, htype, hpart⟩ := Outcome.bind_eq_ok.1 hpart
  obtain ⟨offset, -, hpart⟩ := Outcome.bind_eq_ok.1 hpart
  obtain rfl := Outcome.pure_eq_ok.1 hpart
  obtain ⟨hname, htypes⟩ := h e he
  have htext : e.2.type = .str type := by
    cases hkind : e.2.type with
    | str t =>
      rw [hkind] at htype
      rw [Except.ok.inj htype]
    | _ => rw [hkind] at htype; cases htype
  simp only [Text.bare_append]
  refine ⟨⟨⟨hname, by decide⟩, htypes type htext⟩, ?_⟩
  split_ifs <;> decide

def writtenBraces (prime : Int) (f : Function) : Nat → Schedule → List Site → List Char
  | _, _, [] => []
  | count, σ, s :: rest => List.replicate (σ.ends s) '\x7d' ++ ownBraces s (count == f.sites.length) ++
      writtenBraces prime f (count + 1) (σ.step prime f s) rest

theorem writtenBraces_append (prime : Int) (f : Function) (count : Nat) (σ : Schedule) (front back : List Site) :
    writtenBraces prime f count σ (front ++ back) = writtenBraces prime f count σ front ++
      writtenBraces prime f (count + front.length) (front.foldl (Schedule.step prime f) σ) back := by
  induction front generalizing count σ with
  | nil => rfl
  | cons s front ih =>
    rw [List.cons_append, writtenBraces, ih, writtenBraces, List.length_cons, List.foldl_cons, Nat.add_assoc,
      Nat.add_comm 1, List.append_assoc _ _ (writtenBraces prime f _ _ back)]

/-- The last instruction is a return and closes the function. -/
theorem writtenBraces_eq {prime : Int} {σ : Schedule} {sites : List Site} {count : Nat} {r : Site}
    (hlast : sites.getLast? = some r) (hret : r.instruction.opcode = .ret)
    (hcount : count + sites.length = f.sites.length + 1) :
    writtenBraces prime f count σ sites = Schedule.bracesFrom prime f σ sites ++ ['\x7d'] := by
  induction sites generalizing count σ with
  | nil => cases hlast
  | cons s rest ih =>
    rw [writtenBraces, Schedule.bracesFrom]
    cases rest with
    | nil =>
      obtain rfl : s = r := Option.some.inj hlast
      have hown : ownBraces s (count == f.sites.length) = ['\x7d'] := by
        have hnumber : count = f.sites.length := by simpa using hcount
        simp [ownBraces, Site.opensBranch, hret, hnumber]
      have hnone : s.opensBranch = false := by simp [Site.opensBranch, hret]
      rw [hown, hnone]
      simp [writtenBraces, Schedule.bracesFrom]
    | cons t rest =>
      rw [List.length_cons, List.length_cons] at hcount
      have hown : ownBraces s (count == f.sites.length) = if s.opensBranch then ['\x7b'] else [] := by
        have hnumber : (count == f.sites.length) = false := beq_eq_false_iff_ne.2 (by omega)
        rw [ownBraces, hnumber, Bool.false_and, if_neg Bool.false_ne_true]
      rw [hown, ih (by rwa [List.getLast?_cons_cons] at hlast) (by rw [List.length_cons]; omega)]
      simp only [List.append_assoc]

theorem bareLabels_forget {m : Memory} (hm : m.BareLabels) : m.forget.BareLabels := by
  intro v hv label hlabel
  obtain ⟨w, hw, rfl⟩ := List.mem_map.1 hv
  exact hm w hw label hlabel

/-- The text of a function in both passes: its heading, and what the second pass writes from the start of a
schedule on. -/
theorem written_of_function {index : Nat} (h : function sc false true index f d = .ok text d') :
    ∃ d₀ e e' e₂ head out, heading sc f d₀ = .ok head d₀ ∧
      e.memory = d.memory.enter (some index) f.parameterNames d.nextBlock ∧
      (∃ g next n, FlowGraph.build sc.printer f.name f.sites next = .ok g n ∧
        e.graphs = d.graphs.set index (some g)) ∧
      scanBlocks sc f index 0 (e.blocksOf index) e = .ok () e' ∧
      e₂.memory = { e'.memory.forget with ap := e.memory.ap, fp := e.memory.fp } ∧ e₂.schedule = .start ∧
      writeBlocks sc f index 1 0 (e.blocksOf index) e₂ = .ok out d' ∧ text = head ++ out ++ "\n" := by
  unfold function enter at h
  rw [Run.modify_bind, Run.modify_bind] at h
  simp only [Bool.not_true, Bool.and_false, Bool.false_eq_true, if_false] at h
  rw [Run.get_bind, Run.get_bind] at h
  obtain ⟨_, _, hgraph, h⟩ := Run.bind_eq_ok.1 h
  obtain ⟨g, n, hbuild, rfl⟩ := eq_of_buildGraph hgraph
  obtain ⟨head, _, hhead, h⟩ := Run.bind_eq_ok.1 h
  obtain rfl := eq_of_heading hhead
  obtain ⟨_, _, hindent, h⟩ := Run.bind_eq_ok.1 h
  obtain rfl := indent_eq_ok.1 hindent
  rw [Run.get_bind] at h
  obtain ⟨_, e', hscan, h⟩ := Run.bind_eq_ok.1 h
  unfold rewind at h
  rw [Run.modify_bind] at h
  obtain ⟨out, _, hwrite, h⟩ := Run.bind_eq_ok.1 h
  obtain ⟨rfl, rfl⟩ := Run.pure_eq_ok.1 h
  exact ⟨_, _, e', _, head, out, hhead, rfl, ⟨g, _, n, hbuild, rfl⟩, hscan, rfl, rfl, hwrite, rfl⟩

section Scene

variable (hsc : sc.Bare)

include hsc

theorem shows_prototype (hf : f ∈ sc.functions) {out : String} (hout : f.prototype = .ok out) :
    Shows out ['\x7b', '\x7d'] := by
  unfold Function.prototype at hout
  obtain ⟨decorators, hdecorators, hout⟩ := Outcome.bind_eq_ok.1 hout
  obtain ⟨implicit, himplicit, hout⟩ := Outcome.bind_eq_ok.1 hout
  obtain ⟨explicit, hexplicit, hout⟩ := Outcome.bind_eq_ok.1 hout
  obtain ⟨returns, hreturns, hout⟩ := Outcome.bind_eq_ok.1 hout
  obtain rfl := Outcome.pure_eq_ok.1 hout
  have hmembers := hsc.members f hf
  have himplicit := bare_membersText (fun e he => hmembers e (by simp [he])) himplicit
  have hexplicit := bare_membersText (fun e he => hmembers e (by simp [he])) hexplicit
  have hreturns := bare_membersText (fun e he => hmembers e (by simp [he])) hreturns
  have hdecorators : Bare decorators := by
    unfold Function.decoratorsText at hdecorators
    obtain ⟨ds, hds, hdecorators⟩ := Outcome.bind_eq_ok.1 hdecorators
    obtain rfl := Outcome.pure_eq_ok.1 hdecorators
    refine Text.bare_join fun part hpart => ?_
    obtain ⟨x, hx, rfl⟩ := List.mem_map.1 hpart
    simp only [Text.bare_append]
    exact ⟨⟨by decide, hsc.decorators f hf ds hds x hx⟩, by decide⟩
  have harrow : Bare (if f.returns.isEmpty then "" else " -> (" ++ returns ++ ")") := by
    split_ifs
    · decide
    · simp only [Text.bare_append]
      exact ⟨⟨by decide, hreturns⟩, by decide⟩
  have hfront : Shows (decorators ++ "func " ++ f.name ++ "\x7b") ['\x7b'] := by
    refine Text.shows_opening.after_bare ?_
    simp only [Text.bare_append]
    exact ⟨⟨hdecorators, by decide⟩, hsc.names f hf⟩
  have hmiddle : Shows (implicit ++ "\x7d") ['\x7d'] := Text.shows_closing.after_bare himplicit
  have hback : Bare ("(" ++ explicit ++ ")" ++ if f.returns.isEmpty then "" else " -> (" ++ returns ++ ")") := by
    simp only [Text.bare_append]
    exact ⟨⟨⟨by decide, hexplicit⟩, by decide⟩, harrow⟩
  have hsplit : decorators ++ "func " ++ f.name ++ "\x7b" ++ implicit ++ "\x7d(" ++ explicit ++ ")" ++
      (if f.returns.isEmpty then "" else " -> (" ++ returns ++ ")") =
      (decorators ++ "func " ++ f.name ++ "\x7b") ++ (implicit ++ "\x7d") ++
        ("(" ++ explicit ++ ")" ++ if f.returns.isEmpty then "" else " -> (" ++ returns ++ ")") := by
    apply String.toList_inj.1
    simp
  rw [hsplit]
  exact (hfront.append hmiddle).append (Text.shows_of_bare hback)

theorem shows_of_heading (hf : f ∈ sc.functions) (h : heading sc f d = .ok text d') :
    Shows text ['\x7b', '\x7d', '\x7b'] := by
  obtain ⟨-, hcyan, -, hblue, hreset, -⟩ := bare_colours hsc
  unfold heading at h
  obtain ⟨number, _, hline, h⟩ := Run.bind_eq_ok.1 h
  obtain ⟨rfl, rfl⟩ := line_eq_ok.1 hline
  obtain ⟨prototype, _, hout, h⟩ := Run.bind_eq_ok.1 h
  obtain ⟨hprototype, rfl⟩ := Run.ofOutcome_eq_ok.1 hout
  obtain ⟨declared, _, hline, h⟩ := Run.bind_eq_ok.1 h
  obtain ⟨rfl, rfl⟩ := line_eq_ok.1 hline
  obtain ⟨brace, _, hline, h⟩ := Run.bind_eq_ok.1 h
  obtain ⟨rfl, rfl⟩ := line_eq_ok.1 hline
  obtain ⟨rfl, rfl⟩ := Run.pure_eq_ok.1 h
  have hid : Bare ("Function " ++ toString f.id) := Text.bare_append.2 ⟨by decide, Text.bare_toString f.id⟩
  have hnumber := shows_note hsc (by decide : Bare "") (Or.inr hid) hcyan d.tabs
  have hsame : "// " ++ ("Function " ++ toString f.id) = "// Function " ++ toString f.id := by
    apply String.toList_inj.1
    simp
  rw [String.empty_append, hsame] at hnumber
  have hdeclared := shows_lineAt hsc hblue (shows_prototype hsc hf hprototype) d.tabs
  have hbrace := shows_lineAt hsc hreset Text.shows_opening d.tabs
  exact ((hnumber.append hdeclared).append hbrace).append (Text.shows_of_bare (by decide))

theorem says_brace : Says (fun out => Shows out ['\x7d']) (do
    indent (-1)
    return (← line sc sc.printer.palette.reset "\x7d") ++ "\n") := by
  refine (says_indent (-1)).bind fun _ _ d out d' hd hrun => ?_
  obtain ⟨brace, _, hline, hrun⟩ := Run.bind_eq_ok.1 hrun
  obtain ⟨rfl, rfl⟩ := line_eq_ok.1 hline
  obtain ⟨rfl, rfl⟩ := Run.pure_eq_ok.1 hrun
  exact ⟨shows_closingLine hsc d.tabs, hd, rfl⟩

theorem says_braces (ends : List Int) :
    Says (fun texts => Shows (String.join texts) (List.replicate ends.length '\x7d')) (ends.mapM fun _ => do
      indent (-1)
      return (← line sc sc.printer.palette.reset "\x7d") ++ "\n") := by
  induction ends with
  | nil => exact says_pure (Text.shows_of_bare (by decide))
  | cons e ends ih =>
    rw [List.mapM_cons]
    refine (says_brace hsc).bind fun out hout => ih.bind fun texts htexts => says_pure ?_
    rw [String.join_cons, List.length_cons, List.replicate_succ]
    exact hout.append htexts

theorem shows_of_closings (hd : d.memory.BareLabels) (h : closings sc s.offset d = .ok text d') :
    Shows text (List.replicate (d.schedule.ends s) '\x7d') ∧ d'.memory.BareLabels ∧
      d'.schedule = d.schedule.close s := by
  have hrest : ∀ (e : Decompiler) (front : String) (n : Nat), e.memory.BareLabels →
      Shows front (List.replicate n '\x7d') → (do
        let ends := (← get).elseEnds.filter (· == (s.offset : Int))
        return front ++ String.join (← ends.mapM fun _ => do
          indent (-1)
          return (← line sc sc.printer.palette.reset "\x7d") ++ "\n") : Step String) e = .ok text d' →
      Shows text (List.replicate (n + e.elseEnds.count (s.offset : Int)) '\x7d') ∧ d'.memory.BareLabels ∧
        d'.schedule = e.schedule := by
    intro e front n he hfront hrun
    rw [Run.get_bind] at hrun
    obtain ⟨texts, e', htexts, hrun⟩ := Run.bind_eq_ok.1 hrun
    obtain ⟨rfl, rfl⟩ := Run.pure_eq_ok.1 hrun
    obtain ⟨hshows, he', hschedule⟩ := says_braces hsc _ e texts e' he htexts
    rw [← List.countP_eq_length_filter] at hshows
    rw [List.replicate_add]
    exact ⟨hfront.append hshows, he', hschedule⟩
  unfold closings at h
  rw [Run.get_bind] at h
  unfold Schedule.ends Schedule.close
  by_cases hend : d.schedule.ifEnd = some (s.offset : Int)
  · rw [if_pos (show d.ifEnd = some (s.offset : Int) from hend), Run.modify_bind] at h
    obtain ⟨out, e, hout, h⟩ := Run.bind_eq_ok.1 h
    obtain ⟨hshows, he, hschedule⟩ := says_brace hsc { d with ifEnd := none } out e hd hout
    obtain ⟨htext, hd', hkept⟩ := hrest e out 1 he hshows h
    rw [show e.elseEnds = d.elseEnds from congrArg Schedule.elseEnds hschedule] at htext
    rw [if_pos hend, if_pos hend]
    exact ⟨htext, hd', hkept.trans hschedule⟩
  · rw [if_neg (show ¬ d.ifEnd = some (s.offset : Int) from hend)] at h
    obtain ⟨htext, hd', hkept⟩ := hrest d "" 0 hd (Text.shows_of_bare (by decide)) h
    rw [if_neg hend, if_neg hend]
    exact ⟨htext, hd', hkept⟩

theorem shows_of_writeSite {count : Nat} (hf : sc.functions[place.function]? = some f) (hhint : s.hint = none)
    (hd : d.memory.BareLabels) (h : writeSite sc f place count s d = .ok text d') :
    Shows text (List.replicate (d.schedule.ends s) '\x7d' ++ ownBraces s (count == f.sites.length)) ∧
      d'.memory.BareLabels ∧ d'.schedule = d.schedule.step sc.printer.prime f s := by
  unfold writeSite at h
  obtain ⟨braces, d₁, hclosings, h⟩ := Run.bind_eq_ok.1 h
  obtain ⟨hbraces, hd₁, hclose⟩ := shows_of_closings hsc hd hclosings
  obtain ⟨out, d₂, hstatement, h⟩ := Run.bind_eq_ok.1 h
  obtain ⟨hout, hd₂, hpass⟩ := shows_of_statement hsc hf hhint hd₁ hstatement
  rw [Run.modify_bind] at h
  obtain ⟨rfl, rfl⟩ := Run.pure_eq_ok.1 h
  refine ⟨?_, hd₂, by rw [Schedule.step, ← hclose]; exact hpass⟩
  rw [String.append_assoc]
  refine hbraces.append ?_
  split_ifs with hblank
  · -- a blank statement has no braces, and its line is left out
    have hbare := Text.bare_of_trim hblank
    rw [hout.eq_nil_of_bare (Text.bare_append.2 ⟨hbare, by decide⟩), String.append_empty]
    exact Text.shows_of_bare hbare
  · exact hout

theorem shows_of_writeSites {count : Nat} {sites : List Site} (hf : sc.functions[place.function]? = some f)
    (hhints : ∀ s ∈ sites, s.hint = none) (hd : d.memory.BareLabels)
    (h : writeSites sc f place count sites d = .ok text d') :
    Shows text (writtenBraces sc.printer.prime f count d.schedule sites) ∧ d'.memory.BareLabels ∧
      d'.schedule = sites.foldl (Schedule.step sc.printer.prime f) d.schedule := by
  induction sites generalizing d count text with
  | nil =>
    obtain ⟨rfl, rfl⟩ := Run.pure_eq_ok.1 h
    exact ⟨Text.shows_of_bare (by decide), hd, rfl⟩
  | cons s sites ih =>
    obtain ⟨hhint, hhints⟩ := List.forall_mem_cons.1 hhints
    obtain ⟨front, d₁, hone, h⟩ := Run.bind_eq_ok.1 h
    obtain ⟨back, d₂, hrest, h⟩ := Run.bind_eq_ok.1 h
    obtain ⟨rfl, rfl⟩ := Run.pure_eq_ok.1 h
    obtain ⟨hfront, hd₁, hstep⟩ := shows_of_writeSite hsc hf hhint hd hone
    obtain ⟨hback, hd₂, hsteps⟩ := ih hhints hd₁ hrest
    rw [hstep] at hback hsteps
    exact ⟨hfront.append hback, hd₂, hsteps⟩

theorem shows_of_writeBlocks {index count block : Nat} {blocks : List Block} (hf : sc.functions[index]? = some f)
    (hhints : ∀ s ∈ blocks.flatMap (·.sites), s.hint = none) (hd : d.memory.BareLabels)
    (h : writeBlocks sc f index count block blocks d = .ok text d') :
    Shows text (writtenBraces sc.printer.prime f count d.schedule (blocks.flatMap (·.sites))) ∧
      d'.memory.BareLabels := by
  induction blocks generalizing d count block text with
  | nil =>
    obtain ⟨rfl, rfl⟩ := Run.pure_eq_ok.1 h
    exact ⟨Text.shows_of_bare (by decide), hd⟩
  | cons b blocks ih =>
    rw [List.flatMap_cons] at hhints ⊢
    unfold writeBlocks at h
    rw [Run.modify_bind] at h
    obtain ⟨front, d₁, hone, h⟩ := Run.bind_eq_ok.1 h
    obtain ⟨back, d₂, hrest, h⟩ := Run.bind_eq_ok.1 h
    obtain ⟨rfl, rfl⟩ := Run.pure_eq_ok.1 h
    have hplace : sc.functions[(⟨index, block⟩ : Place).function]? = some f := hf
    have hd₀ : ({ d with newInBlock := 0 } : Decompiler).memory.BareLabels := hd
    obtain ⟨hfront, hd₁, hsteps⟩ := shows_of_writeSites hsc hplace
      (fun s hs => hhints s (List.mem_append_left _ hs)) hd₀ hone
    obtain ⟨hback, hd₂⟩ := ih (fun s hs => hhints s (List.mem_append_right _ hs)) hd₁ hrest
    rw [hsteps] at hback
    rw [writtenBraces_append]
    exact ⟨hfront.append hback, hd₂⟩

theorem bareLabels_of_scanBlocks {index block : Nat} {blocks : List Block} {u : Unit}
    (hf : sc.functions[index]? = some f) (hhints : ∀ s ∈ blocks.flatMap (·.sites), s.hint = none)
    (hd : d.memory.BareLabels) (h : scanBlocks sc f index block blocks d = .ok u d') :
    d'.memory.BareLabels := by
  have hwalk := of_scanBlocks (P := fun rest e => e.memory.BareLabels ∧ ∀ s ∈ rest, s.hint = none)
    (fun {block s rest e out e'} he hrun => ?_) (fun he => he) (fun _ _ he => he) []
    ⟨hd, by rwa [List.append_nil]⟩ h
  · exact hwalk.1
  · have hplace : sc.functions[(⟨index, block⟩ : Place).function]? = some f := hf
    obtain ⟨-, he', -⟩ := shows_of_statement hsc hplace (he.2 s List.mem_cons_self) he.1 hrun
    exact ⟨he', fun t ht => he.2 t (List.mem_cons_of_mem s ht)⟩

theorem bareLabels_enter (hf : f ∈ sc.functions) {m : Memory} (hm : m.BareLabels) (function : Option Nat)
    (block : Nat) : (m.enter function f.parameterNames block).BareLabels := by
  refine hm.appends (Memory.Appends.enter m function f.parameterNames block) fun l hl label hlabel => ?_
  obtain ⟨name, hname, rfl⟩ := List.mem_map.1 hl
  obtain rfl := Option.some.inj hlabel
  rcases List.mem_append.1 hname with hname | hname
  · have hmembers := hsc.members f hf
    rcases List.mem_append.1 hname with hname | hname
    · obtain ⟨e, he, rfl⟩ := List.mem_map.1 hname
      exact (hmembers e (by simp [he])).1
    · obtain ⟨e, he, rfl⟩ := List.mem_map.1 hname
      exact (hmembers e (by simp [he])).1
  · rcases List.mem_pair.1 hname with rfl | rfl
    · decide
    · decide

theorem shows_of_function {index : Nat} (hf : sc.functions[index]? = some f)
    (hhints : ∀ s ∈ f.sites, s.hint = none) {r : Site} (hlast : f.sites.getLast? = some r)
    (hret : r.instruction.opcode = .ret) (hindex : index < d.graphs.length) (hd : d.memory.BareLabels)
    (h : function sc false true index f d = .ok text d') :
    Shows text (f.outline sc.printer.prime) ∧ d'.memory.BareLabels := by
  have hmem := List.mem_of_getElem? hf
  obtain ⟨d₀, e, e', e₂, head, out, hhead, hentered, ⟨g, next, n, hbuild, hgraphs⟩, hscan, hback, hstart, hwrite,
    rfl⟩ := written_of_function h
  have hsites := flatMap_sites_of_build hbuild hindex hgraphs
  have hhints : ∀ s ∈ (e.blocksOf index).flatMap (·.sites), s.hint = none := by rwa [hsites]
  have he : e.memory.BareLabels := hentered ▸ bareLabels_enter hsc hmem hd (some index) d.nextBlock
  have he' := bareLabels_of_scanBlocks hsc hf hhints he hscan
  have he₂ : e₂.memory.BareLabels := hback ▸ bareLabels_forget he'
  obtain ⟨hout, hd'⟩ := shows_of_writeBlocks hsc hf hhints he₂ hwrite
  rw [hstart, hsites, writtenBraces_eq hlast hret (Nat.add_comm _ _)] at hout
  have hall := ((shows_of_heading hsc hmem hhead).append hout).append (Text.shows_of_bare (by decide : Bare "\n"))
  rw [List.append_nil, ← List.append_assoc] at hall
  exact ⟨hall, hd'⟩

theorem shows_of_functions {fs : List Function} {k : Nat} {texts : List String}
    (hfs : ∀ i f, fs[i]? = some f → sc.functions[k + i]? = some f)
    (hhints : ∀ f ∈ fs, ∀ s ∈ f.sites, s.hint = none)
    (hrets : ∀ f ∈ fs, ∃ r, f.sites.getLast? = some r ∧ r.instruction.opcode = .ret)
    (hk : k + fs.length ≤ d.graphs.length) (hd : d.memory.BareLabels)
    (h : functions sc false true k fs d = .ok texts d') :
    Shows (String.join texts) (fs.flatMap (Function.outline sc.printer.prime)) := by
  induction fs generalizing k d texts with
  | nil =>
    obtain ⟨rfl, rfl⟩ := Run.pure_eq_ok.1 h
    exact Text.shows_of_bare (by decide)
  | cons f fs ih =>
    obtain ⟨hhint, hhints⟩ := List.forall_mem_cons.1 hhints
    obtain ⟨⟨r, hlast, hret⟩, hrets⟩ := List.forall_mem_cons.1 hrets
    rw [List.length_cons] at hk
    obtain ⟨text, d₁, hone, h⟩ := Run.bind_eq_ok.1 h
    obtain ⟨rest, _, hrest, h⟩ := Run.bind_eq_ok.1 h
    obtain ⟨rfl, rfl⟩ := Run.pure_eq_ok.1 h
    obtain ⟨htext, hd₁⟩ := shows_of_function hsc (hfs 0 f rfl) hhint hlast hret (by omega) hd hone
    have hgraphs : d₁.graphs.length = d.graphs.length :=
      (performed_of_function (show k < d.graphs.length by omega) hone).graphs
    have hfs' : ∀ i g, fs[i]? = some g → sc.functions[k + 1 + i]? = some g := by
      intro i g hg
      rw [Nat.add_assoc, Nat.add_comm 1]
      exact hfs (i + 1) g hg
    rw [String.join_cons, List.flatMap_cons]
    exact htext.append (ih hfs' hhints hrets (by omega) hd₁ hrest)

theorem marks_of_program {graphs : List (Option FlowGraph)} (hgraphs : sc.functions.length ≤ graphs.length)
    (hhints : ∀ f ∈ sc.functions, ∀ s ∈ f.sites, s.hint = none)
    (hrets : ∀ f ∈ sc.functions, ∃ r, f.sites.getLast? = some r ∧ r.instruction.opcode = .ret)
    (h : program sc false true (start graphs) = .ok text d) :
    Text.marks text.toList = sc.functions.flatMap (Function.outline sc.printer.prime) := by
  unfold program at h
  obtain ⟨texts, _, htexts, h⟩ := Run.bind_eq_ok.1 h
  obtain ⟨rfl, -⟩ := Run.pure_eq_ok.1 h
  have hshows := shows_of_functions hsc (fun i f hf => by rwa [Nat.zero_add]) hhints hrets
    (by rwa [Nat.zero_add]) (fun v hv => by cases hv) htexts
  rw [Text.marks_trim, ← List.append_nil (String.join texts).toList, hshows, Text.marks, Text.uncommentFrom,
    List.filter_nil, List.append_nil]

end Scene

/-- The code of a contract without hints whose functions end with a return, and whose names and types have
neither braces nor slashes, is well bracketed outside comments if and only if its functions end their
branches. They do where the code is structured. -/
theorem code_balanced_iff {graphs : List (Option FlowGraph)} (hsc : sc.Bare)
    (hhints : ∀ f ∈ sc.functions, ∀ s ∈ f.sites, s.hint = none)
    (hrets : ∀ f ∈ sc.functions, ∃ r, f.sites.getLast? = some r ∧ r.instruction.opcode = .ret)
    (hgraphs : sc.functions.length ≤ graphs.length)
    (h : program sc false true (start graphs) = .ok text d) :
    (Text.Balanced (Text.uncomment text) ↔ Function.EndsBranches sc.printer.prime sc.functions) ∧
      ((∀ f ∈ sc.functions, f.Structured sc.printer.prime) → Text.Balanced (Text.uncomment text)) := by
  have hiff : Text.Balanced (Text.uncomment text) ↔ Function.EndsBranches sc.printer.prime sc.functions := by
    rw [Text.balanced_uncomment_iff, marks_of_program hsc hgraphs hhints hrets h,
      Function.goes_iff_endsBranches]
  exact ⟨hiff, fun hstructured => hiff.2 (Function.Structured.endsBranches hstructured)⟩

def nested (sites : List Site) : Function where
  name := "main"
  id := 0
  start := 0
  stop := 0
  sites
  implicit := []
  explicit := [(.number 0, ⟨"x", .str "felt"⟩)]
  returns := []
  decorators := .arr []
  isImport := false
  entryPoint := true

def nestedScene (sites : List Site) : Scene := ⟨[nested sites], ⟨.plain, Field.defaultPrime, []⟩⟩

theorem bare_nestedScene (sites : List Site) : (nestedScene sites).Bare := by
  refine ⟨⟨false, rfl⟩, ?_, ?_, ?_, by simp [nestedScene]⟩
  all_goals
    intro f hf
    obtain rfl := List.mem_singleton.1 hf
  · exact (by decide : Bare "main")
  · intro e he
    obtain rfl := List.mem_singleton.1 he
    refine ⟨(by decide : Bare "x"), fun type htype => ?_⟩
    obtain rfl := Json.str.inj htype
    decide
  · intro ds hds x hx
    obtain rfl := Except.ok.inj hds
    cases hx

/-- `if x == 0`, and in it `if x == 0` with the same end. -/
def sameEnd : List Site := [.pushing 0 .fp .fp .op1 (-1) (-3) none, .jumping 1 .jnz 6, .jumping 3 .jnz 4,
  .pushing 5 .fp .imm .op1 (-1) 1 (some 1), .returning 7]

/-- `if x == 0` with both halves, and in the first of them the same. -/
def innerHalves : List Site := [.pushing 0 .fp .fp .op1 (-1) (-3) none, .jumping 1 .jnz 12, .jumping 3 .jnz 6,
  .pushing 5 .fp .imm .op1 (-1) 1 (some 1), .jumping 7 .jumpRel 4, .pushing 9 .fp .imm .op1 (-1) 1 (some 2),
  .jumping 11 .jumpRel 4, .pushing 13 .fp .imm .op1 (-1) 1 (some 3), .returning 15]

/-- One of two branches with the same end is never ended. -/
theorem sameEnd_not_balanced :
    (∃ text d, program (nestedScene sameEnd) false true (start [none]) = .ok text d ∧
      ¬ Text.Balanced (Text.uncomment text)) ∧
    ∃ text d, program (nestedScene innerHalves) false true (start [none]) = .ok text d ∧
      Text.Balanced (Text.uncomment text) := by
  have hends : ∀ sites, (after? (program (nestedScene sites) false true) (start [none])).isSome = true →
      ∃ text d, program (nestedScene sites) false true (start [none]) = .ok text d := by
    intro sites hsome
    obtain ⟨d, hd⟩ := Option.isSome_iff_exists.1 hsome
    obtain ⟨text, hrun⟩ := after?_eq_some_iff.1 hd
    exact ⟨text, d, hrun⟩
  have hrets : ∀ sites r, sites.getLast? = some r → r.instruction.opcode = .ret →
      ∀ f ∈ (nestedScene sites).functions, ∃ r, f.sites.getLast? = some r ∧ r.instruction.opcode = .ret := by
    intro sites r hlast hret f hf
    obtain rfl := List.mem_singleton.1 hf
    exact ⟨r, hlast, hret⟩
  constructor
  · obtain ⟨text, d, hrun⟩ := hends sameEnd (by decide +kernel)
    obtain ⟨hiff, -⟩ := code_balanced_iff (bare_nestedScene sameEnd) (by decide)
      (hrets sameEnd (.returning 7) rfl rfl) (by decide) hrun
    refine ⟨text, d, hrun, fun hbalanced => ?_⟩
    exact absurd (hiff.1 hbalanced).all (by decide +kernel)
  · obtain ⟨text, d, hrun⟩ := hends innerHalves (by decide +kernel)
    obtain ⟨-, hstructured⟩ := code_balanced_iff (bare_nestedScene innerHalves) (by decide)
      (hrets innerHalves (.returning 15) rfl rfl) (by decide) hrun
    refine ⟨text, d, hrun, hstructured fun f hf => ?_⟩
    obtain rfl := List.mem_singleton.1 hf
    exact ⟨by decide, by decide +kernel⟩

end Cairoscope.Decompiler
