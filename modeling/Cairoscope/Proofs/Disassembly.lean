import Cairoscope.Contract.Disassembly
import Cairoscope.Proofs.LoadedCode
import Cairoscope.Proofs.RecordText
import Cairoscope.Proofs.Transfers
import Mathlib.Data.List.Forall2

/-! When a contract has a disassembly. Loading accepts every code that can be decoded and has near calls only, but some
instructions have no line: a jump that is not near, an equality that adds to `ap` without a near immediate, and one that
leaves its result open. Without them there is a text, as long as what the contract declares can be shown, and each
instruction has a line of its own in it. -/

namespace Cairoscope

namespace Text

theorem tail_pieces_cons (mark c : Char) (cs : List Char) :
    (pieces mark (c :: cs)).tail = if c = mark then pieces mark cs else (pieces mark cs).tail := by
  rw [pieces]
  split_ifs
  · rfl
  · cases pieces mark cs <;> rfl

/-- What has no mark in it stands in front of the first piece. -/
theorem pieces_append_front {mark : Char} {front : List Char} (h : mark ∉ front) (cs : List Char) :
    pieces mark (front ++ cs) = (front ++ (pieces mark cs).head (pieces_ne_nil mark cs)) :: (pieces mark cs).tail := by
  induction front with
  | nil => simp
  | cons c front ih =>
    rw [List.mem_cons, not_or] at h
    rw [List.cons_append, pieces, if_neg fun heq => h.1 heq.symm, ih h.2]
    rfl

end Text

namespace Site

def heading (s : Site) : String := "offset " ++ toString s.offset ++ ":"

/-- The line is one of the instruction. -/
def Opens (s : Site) (line : String) : Prop := s.heading.toList <+: line.toList

/-- Each instruction has a line of its own after the first line, in their order. The first line does not count, since
what stands in front of the text may run into it. -/
def Shown (sites : List Site) (cs : List Char) : Prop :=
  List.SublistForall₂ (fun s line => s.heading.toList <+: line) sites (Text.pieces '\n' cs).tail

variable {s : Site} {sites : List Site} {cs : List Char}

theorem Shown.append_front (h : Shown sites cs) (front : List Char) : Shown sites (front ++ cs) := by
  induction front with
  | nil => exact h
  | cons c front ih =>
    unfold Shown at ih ⊢
    rw [List.cons_append, Text.tail_pieces_cons]
    split_ifs
    · rw [← List.cons_head_tail (Text.pieces_ne_nil '\n' (front ++ cs))]
      exact .cons_right ih
    · exact ih

theorem not_mem_heading (s : Site) : '\n' ∉ s.heading.toList := by
  unfold heading
  rw [String.toList_append, String.toList_append, Text.toList_toString, List.mem_append, List.mem_append]
  rintro ((h | h) | h)
  · exact absurd h (by decide)
  · exact absurd (Nat.isDigit_of_mem_toDigits (by decide) (by decide) h) (by decide)
  · exact absurd h (by decide)

theorem Shown.cons (h : Shown sites cs) (s : Site) : Shown (s :: sites) ('\n' :: (s.heading.toList ++ cs)) := by
  unfold Shown at h ⊢
  rw [Text.tail_pieces_cons, if_pos rfl, Text.pieces_append_front s.not_mem_heading]
  exact .cons (List.prefix_append _ _) h

theorem Shown.split {text : String} (h : Shown sites text.toList) :
    List.SublistForall₂ Opens sites (Text.split '\n' text) := by
  unfold Shown at h
  unfold Text.split Opens
  rw [List.sublistForall₂_map_right_iff, ← List.cons_head_tail (Text.pieces_ne_nil '\n' text.toList)]
  simp only [String.toList_ofList]
  exact .cons_right h

theorem toList_offsetText (p : Printer) (s : Site) : ∃ rest, (s.offsetText p).toList =
    p.palette.header.toList ++ '\n' :: (s.heading.toList ++ rest) := by
  unfold offsetText Printer.piece heading
  simp only [String.toList_append, List.append_assoc]
  exact ⟨_, rfl⟩

/-- The text of an instruction has its heading in a line of its own. -/
theorem Shown.text {p : Printer} {t : String} (ht : s.text p = .ok t) (h : Shown sites cs) :
    Shown (s :: sites) (t.toList ++ cs) := by
  rw [text_eq] at ht
  obtain ⟨body, -, rfl⟩ := Outcome.map_eq_ok.1 ht
  obtain ⟨rest, hrest⟩ := toList_offsetText p s
  unfold frontText
  simp only [String.toList_append, hrest, List.append_assoc, List.cons_append]
  exact (((h.append_front _).append_front _).append_front _).cons s |>.append_front _ |>.append_front _

theorem Shown.texts {p : Printer} {more : List Site} {ts : List String} (hts : more.mapM (Site.text p) = .ok ts)
    (h : Shown sites cs) : Shown (more ++ sites) ((String.join ts).toList ++ cs) := by
  induction more generalizing ts with
  | nil =>
    obtain rfl := Outcome.pure_eq_ok.1 hts
    exact h
  | cons s more ih =>
    obtain ⟨t, rest, ht, hrest, rfl⟩ := Outcome.mapM_cons_eq_ok.1 hts
    rw [String.join_cons, String.toList_append, List.append_assoc]
    exact (ih hrest).text ht

theorem Shown.function {p : Printer} {f : Function} {t : String} (ht : f.disassembly p = .ok t)
    (h : Shown sites cs) : Shown (f.sites ++ sites) (t.toList ++ cs) := by
  unfold Function.disassembly at ht
  obtain ⟨prototype, -, ht⟩ := Outcome.bind_eq_ok.1 ht
  obtain ⟨code, hcode, ht⟩ := Outcome.bind_eq_ok.1 ht
  obtain rfl := Outcome.pure_eq_ok.1 ht
  rw [String.toList_append, List.append_assoc]
  exact (h.texts hcode).append_front _

theorem Shown.functions {p : Printer} {fs : List Function} {ts : List String}
    (hts : fs.mapM (fun f => f.disassembly p) = .ok ts) :
    Shown (fs.flatMap (·.sites)) (String.join (ts.map (· ++ "\n"))).toList := by
  induction fs generalizing ts with
  | nil =>
    obtain rfl := Outcome.pure_eq_ok.1 hts
    exact .nil
  | cons f fs ih =>
    obtain ⟨t, rest, ht, hrest, rfl⟩ := Outcome.mapM_cons_eq_ok.1 hts
    rw [List.map_cons, String.join_cons, String.toList_append, String.toList_append, List.append_assoc]
    exact ((ih hrest).append_front _).function ht

end Site

namespace Field

variable {prime m : Int}

/-- The signed reading of the element is near zero, so that it is written in decimal. -/
def IsSmall (prime m : Int) : Prop := ∃ n, IsSigned prime m n ∧ n.natAbs < decimalBound

theorem exists_small_iff : (∃ n, small m prime = .ok n) ↔ IsSmall prime m := by
  constructor
  · rintro ⟨n, hn⟩
    exact ⟨n, isSigned_of_small hn, natAbs_lt_of_small (isSigned_of_small hn) hn⟩
  · rintro ⟨n, hsigned, hnear⟩
    exact ⟨n, by rw [small_of_isSigned hsigned, if_pos hnear]⟩

theorem exists_numeral_iff : (∃ k, numeral m prime = .ok k) ↔ prime ≠ 0 := by
  constructor
  · rintro ⟨k, hk⟩ rfl
    cases hk
  · intro hprime
    have hcentered : centered m prime = .ok ((m + prime.fdiv 2).fmod prime - prime.fdiv 2) := if_neg hprime
    exact ⟨_, numeral_of_isSigned (centered_eq_ok_iff.1 hcentered)⟩

theorem exists_text_iff : (∃ t, text m prime = .ok t) ↔ prime ≠ 0 := by
  rw [← exists_numeral_iff (m := m)]
  exact Outcome.exists_bind_pure_iff

theorem exists_reading_iff : (∃ t, reading m prime = .ok t) ↔ prime ≠ 0 := by
  rw [← exists_numeral_iff (m := m), ← and_true (∃ k, numeral m prime = .ok k)]
  refine Outcome.exists_bind_iff fun k _ => iff_true_intro ?_
  cases k with
  | decimal n => exact ⟨_, rfl⟩
  | hex n => exact ⟨_, rfl⟩

end Field

structure Instruction.Writable (prime : Int) (i : Instruction) : Prop where
  /-- The result of an equality is an operand, a sum or a product. -/
  result : i.opcode = .assertEq → i.res ≠ .unconstrained
  /-- An immediate in an equality can be reduced. -/
  operand : i.opcode = .assertEq → i.imm.isSome = true → prime ≠ 0
  /-- An equality that moves `ap` by a number of its own has the number at hand. -/
  apStep : i.opcode = .assertEq → i.apUpdate = .add → ∃ m ∈ i.imm, Field.IsSmall prime m
  /-- A jump by an immediate is near. -/
  jump : i.opcode = .nop → i.pcUpdate ≠ .regular → ∀ m ∈ i.imm, Field.IsSmall prime m

namespace Site

structure Checked (prime : Int) (s : Site) : Prop where
  imm : s.instruction.imm.isSome = true ↔ s.instruction.op1Source = .imm
  call : s.instruction.opcode = .call → ∀ m ∈ s.instruction.imm, Field.IsSmall prime m

variable {p : Printer} {s : Site}

theorem exists_operatorText_iff {r : Res} (hr : r ≠ .op1) :
    (∃ op, operatorText r = .ok op) ↔ r ≠ .unconstrained := by
  cases r <;> simp [operatorText] at hr ⊢

theorem exists_assertEqText_iff (himm : s.instruction.imm.isSome = true ↔ s.instruction.op1Source = .imm) :
    (∃ t, s.assertEqText p = .ok t) ↔
      s.instruction.res ≠ .unconstrained ∧ (s.instruction.imm.isSome = true → p.prime ≠ 0) := by
  rw [himm]
  unfold assertEqText
  by_cases hres : s.instruction.res = .op1
  · have hresult : s.instruction.res ≠ .unconstrained := by simp [hres]
    simp only [if_pos hres, hresult, ne_eq, not_false_eq_true, true_and]
    cases hsource : s.instruction.op1Source with
    | imm =>
      refine (Outcome.exists_bind_iff fun a _ =>
        Outcome.exists_bind_pure_iff.trans Field.exists_reading_iff).trans ?_
      rw [Field.exists_text_iff]
      simp
    | ap => simp [pure, Except.pure]
    | fp => simp [pure, Except.pure]
    | op0 => simp [pure, Except.pure]
  · simp only [if_neg hres]
    rw [← exists_operatorText_iff hres]
    refine Outcome.exists_bind_iff fun op _ => ?_
    cases hsource : s.instruction.op1Source with
    | imm => simpa using Outcome.exists_bind_pure_iff.trans Field.exists_text_iff
    | ap => simp [pure, Except.pure]
    | fp => simp [pure, Except.pure]
    | op0 => simp [pure, Except.pure]

theorem exists_apLine_iff : (∃ t, s.apLine p = .ok t) ↔
    (s.instruction.apUpdate = .add → ∃ m ∈ s.instruction.imm, Field.IsSmall p.prime m) := by
  unfold apLine
  by_cases hregular : s.instruction.apUpdate = .regular
  · simp [hregular, pure, Except.pure]
  · simp only [if_neg hregular]
    refine Outcome.exists_bind_pure_iff.trans ?_
    unfold apStep
    cases hap : s.instruction.apUpdate with
    | regular => exact absurd hap hregular
    | add1 => simp
    | add2 => simp
    | add =>
      cases himm : s.instruction.imm with
      | none => simp
      | some m => simpa using Outcome.exists_bind_pure_iff.trans Field.exists_small_iff

theorem exists_nopText_iff : (∃ t, s.nopText p = .ok t) ↔
    (s.instruction.pcUpdate ≠ .regular → ∀ m ∈ s.instruction.imm, Field.IsSmall p.prime m) := by
  unfold nopText
  cases himm : s.instruction.imm with
  | none =>
    simp only [himm, Option.mem_def, reduceCtorEq, false_implies, implies_true, iff_true]
    split_ifs <;> exact ⟨_, rfl⟩
  | some m =>
    simp only [himm, Option.mem_def, Option.some.injEq, forall_eq']
    by_cases hregular : s.instruction.pcUpdate = .regular
    · simp [hregular, pure, Except.pure]
    · -- The immediate is written first, and read back from there for the note.
      rw [if_neg hregular, ← Field.exists_small_iff, Field.small, imp_iff_right hregular]
      cases Field.numeral m p.prime with
      | error e => exact iff_of_false (fun ⟨_, h⟩ => nomatch h) (fun ⟨_, h⟩ => nomatch h)
      | ok k => exact Outcome.exists_bind_pure_iff

theorem exists_callText_iff (hcall : s.instruction.opcode = .call) :
    (∃ t, s.callText p = .ok t) ↔ ∀ m ∈ s.instruction.imm, Field.IsSmall p.prime m := by
  cases himm : s.instruction.imm with
  | none =>
    unfold callText
    simp [himm, pure, Except.pure]
  | some m =>
    rw [callText_eq himm hcall, Outcome.exists_map_iff, Field.exists_small_iff]
    simp

theorem Checked.exists_text_iff (h : s.Checked p.prime) :
    (∃ t, s.text p = .ok t) ↔ s.instruction.Writable p.prime := by
  rw [text_eq, Outcome.exists_map_iff]
  unfold bodyText
  cases hopcode : s.instruction.opcode with
  | call =>
    -- A call that was loaded has a target already, so its immediate is near.
    rw [if_pos rfl, exists_callText_iff hopcode]
    refine iff_of_true (h.call hopcode) ⟨?_, ?_, ?_, ?_⟩ <;> simp [hopcode]
  | nop =>
    rw [if_neg (by decide), if_pos rfl, exists_nopText_iff]
    constructor
    · intro hjump
      exact ⟨by simp [hopcode], by simp [hopcode], by simp [hopcode], fun _ => hjump⟩
    · exact fun hwritable => hwritable.jump hopcode
  | ret =>
    rw [if_neg (by decide), if_neg (by decide), if_pos rfl]
    refine iff_of_true ⟨_, rfl⟩ ⟨?_, ?_, ?_, ?_⟩ <;> simp [hopcode]
  | assertEq =>
    rw [if_neg (by decide), if_neg (by decide), if_neg (by decide)]
    refine (Outcome.exists_bind_iff fun a _ => Outcome.exists_bind_pure_iff.trans exists_apLine_iff).trans ?_
    rw [exists_assertEqText_iff h.imm]
    constructor
    · rintro ⟨⟨hresult, hoperand⟩, hstep⟩
      exact ⟨fun _ => hresult, fun _ => hoperand, fun _ => hstep, by simp [hopcode]⟩
    · intro hwritable
      exact ⟨⟨hwritable.result hopcode, hwritable.operand hopcode⟩, hwritable.apStep hopcode⟩

end Site

/-- What loading knows of an instruction: it has an immediate if it reads one, and a direct call is near. -/
theorem Contract.checked_of_ofArtifact {doc : Json} {c : Contract} (hload : ofArtifact doc = .ok c) {f : Function}
    (hf : f ∈ c.functions) {s : Site} (hs : s ∈ f.sites) : s.Checked c.prime := by
  obtain ⟨k, references, hints, groups, fs, hlisting, hfs, hfunctions⟩ := functions_of_ofArtifact hload
  obtain ⟨words, code, hlisted⟩ := Artifact.listed_of_listing hlisting
  rw [hfunctions] at hf
  obtain ⟨f₀, hf₀, rfl⟩ := List.mem_map.1 hf
  obtain ⟨s₀, hs₀, rfl⟩ := List.mem_map.1 hs
  obtain ⟨g, hg, id, hfunction⟩ := functionOf_of_functionsOf hfs hf₀
  obtain ⟨q, hq, hsite⟩ := Outcome.exists_of_mem_mapM (sites_of_functionOf hfunction) hs₀
  have hdecoded := hlisted.decoded q (hlisted.flat ▸ List.mem_flatMap.2 ⟨g, hg, hq⟩)
  have hcall : s₀.instruction.opcode = .call → ∀ m ∈ s₀.instruction.imm, Field.IsSmall c.prime m := by
    intro hopcode m hm
    obtain ⟨n, hn, -⟩ := target_of_siteOf hsite hopcode hm
    exact Field.exists_small_iff.1 ⟨n, hn⟩
  have himm : s₀.instruction.imm.isSome = true ↔ s₀.instruction.op1Source = .imm := by
    unfold siteOf at hsite
    obtain ⟨target, -, hsite⟩ := Outcome.bind_eq_ok.1 hsite
    obtain rfl := Outcome.pure_eq_ok.1 hsite
    rw [← hdecoded.size_eq_two_iff, Instruction.size]
    cases q.instruction.imm <;> simp
  split_ifs
  · exact ⟨himm, hcall⟩
  · exact ⟨himm, hcall⟩

namespace Json

def IsText (v : Json) : Prop := ∃ t, v = .str t

def HasText (v : Json) (name : String) : Prop := ∃ w, v.field name = .ok w ∧ w.IsText

def Lists (v : Json) (P : Json → Prop) : Prop := ∃ items, v.elements = .ok items ∧ ∀ w ∈ items, P w

variable {v : Json}

theorem exists_text_iff : (∃ t, v.text = .ok t) ↔ v.IsText := by
  cases v <;> simp [text, IsText]

/-- A chain that starts with the text in a field. -/
theorem exists_field_text_bind_iff {α : Type} {name : String} {f : String → Outcome α} {P : Prop}
    (h : ∀ t, (∃ a, f t = .ok a) ↔ P) :
    (∃ a, (v.field name >>= fun w => w.text >>= f) = .ok a) ↔ v.HasText name ∧ P := by
  unfold HasText
  simp only [Outcome.bind_eq_ok, ← exists_text_iff]
  constructor
  · rintro ⟨a, w, hw, t, ht, ha⟩
    exact ⟨⟨w, hw, t, ht⟩, (h t).1 ⟨a, ha⟩⟩
  · rintro ⟨⟨w, hw, t, ht⟩, hP⟩
    obtain ⟨a, ha⟩ := (h t).2 hP
    exact ⟨a, w, hw, t, ht, ha⟩

/-- A walk over the elements ends well exactly when there are elements and it does so at each. -/
theorem exists_elements_mapM_iff {α β : Type} {f : Json → Outcome α} {g : List α → β} {P : Json → Prop}
    (h : ∀ w, (∃ a, f w = .ok a) ↔ P w) :
    (∃ b, (v.elements >>= fun items => items.mapM f >>= fun as => pure (g as)) = .ok b) ↔ v.Lists P := by
  unfold Lists
  simp only [← h, ← Outcome.exists_mapM_iff, Outcome.bind_eq_ok, Outcome.pure_eq_ok]
  constructor
  · rintro ⟨_, items, hitems, as, has, -⟩
    exact ⟨items, hitems, as, has⟩
  · rintro ⟨items, hitems, as, has⟩
    exact ⟨_, items, hitems, as, has, rfl⟩

end Json

namespace Artifact.Layout

def Typed (l : Layout) : Prop := ∀ e ∈ l, e.2.type.IsText

def Numbered (l : Layout) : Prop := ∀ e ∈ l, ∃ n, e.1.toInt = .ok n

theorem exists_membersText_iff {l : Layout} : (∃ t, Function.membersText l = .ok t) ↔ l.Typed ∧ l.Numbered := by
  unfold Function.membersText Typed Numbered
  refine Outcome.exists_bind_pure_iff.trans (Outcome.exists_mapM_iff.trans ?_)
  rw [← forall₂_and]
  refine forall₂_congr fun e _ => ?_
  rw [← Json.exists_text_iff]
  exact Outcome.exists_bind_iff fun _ _ => Outcome.exists_bind_pure_iff

theorem exists_structText_iff {l : Layout} {palette : Palette} {name : String} :
    (∃ t, Contract.structText palette name l = .ok t) ↔ l.Typed := by
  unfold Contract.structText Typed
  refine Outcome.exists_bind_pure_iff.trans (Outcome.exists_mapM_iff.trans (forall₂_congr fun e _ => ?_))
  exact Outcome.exists_bind_pure_iff.trans Json.exists_text_iff

end Artifact.Layout

namespace Function

structure Typed (f : Function) : Prop where
  implicit : f.implicit.Typed
  explicit : f.explicit.Typed
  returns : f.returns.Typed
  decorators : ∃ ds, f.decorators.elements = .ok ds

structure Numbered (f : Function) : Prop where
  implicit : f.implicit.Numbered
  explicit : f.explicit.Numbered
  returns : f.returns.Numbered

variable {f : Function}

theorem exists_prototype_iff : (∃ t, f.prototype = .ok t) ↔ f.Typed ∧ f.Numbered := by
  unfold prototype
  refine (Outcome.exists_bind_iff fun _ _ => Outcome.exists_bind_iff fun _ _ => Outcome.exists_bind_iff fun _ _ =>
    Outcome.exists_bind_pure_iff).trans ?_
  unfold decoratorsText
  simp only [Outcome.exists_bind_pure_iff, Artifact.Layout.exists_membersText_iff]
  constructor
  · rintro ⟨hd, ⟨hi, hi'⟩, ⟨he, he'⟩, hr, hr'⟩
    exact ⟨⟨hi, he, hr, hd⟩, hi', he', hr'⟩
  · rintro ⟨⟨hi, he, hr, hd⟩, hi', he', hr'⟩
    exact ⟨hd, ⟨hi, hi'⟩, ⟨he, he'⟩, hr, hr'⟩

theorem exists_disassembly_iff {p : Printer} (h : ∀ s ∈ f.sites, s.Checked p.prime) :
    (∃ t, f.disassembly p = .ok t) ↔
      (f.Typed ∧ f.Numbered) ∧ ∀ s ∈ f.sites, s.instruction.Writable p.prime := by
  unfold disassembly
  rw [← exists_prototype_iff]
  refine Outcome.exists_bind_iff fun _ _ => Outcome.exists_bind_pure_iff.trans (Outcome.exists_mapM_iff.trans ?_)
  exact forall₂_congr fun s hs => (h s hs).exists_text_iff

end Function

namespace Contract

/-- The name of an event is a text, and so are the names and types of its fields. -/
def EventTyped (name : Key) (data : Json) : Prop :=
  name.toJson.IsText ∧ data.Lists fun d => d.HasText "name" ∧ d.HasText "type"

/-- Names and types in the contract are texts, and decorators are lists. -/
structure Typed (c : Contract) : Prop where
  structs : ∀ s ∈ c.structs, s.2.Typed
  events : ∀ e ∈ c.events, EventTyped e.1 e.2
  functions : ∀ f ∈ c.functions, f.Typed

def BuiltinsNamed (c : Contract) : Prop := c.builtins.isPresent = true → c.builtins.Lists Json.IsText

variable {doc : Json} {c : Contract} {palette : Palette}

theorem exists_builtinsText_iff (h : c.builtins.isPresent = true) :
    (∃ t, c.builtinsText palette = .ok t) ↔ c.builtins.Lists Json.IsText := by
  unfold builtinsText
  split
  case h_1 hnone =>
    rw [hnone] at h
    cases h
  case h_2 =>
    exact Json.exists_elements_mapM_iff fun _ => Json.exists_text_iff

theorem exists_eventText_iff {name : Key} {data : Json} :
    (∃ t, eventText palette name data = .ok t) ↔ EventTyped name data := by
  unfold eventText EventTyped
  rw [← Json.exists_text_iff]
  refine Outcome.exists_bind_iff fun _ _ => Json.exists_elements_mapM_iff fun d => ?_
  rw [← and_true (d.HasText "type")]
  exact Json.exists_field_text_bind_iff fun _ => Json.exists_field_text_bind_iff fun _ => iff_true_intro ⟨_, rfl⟩

/-- A part of a chain that may be left out. -/
theorem exists_part_iff {β : Type} {left : Prop} [Decidable left] {x : Outcome String} {g : String → String}
    {f : String → Outcome β} {P : Prop} (h : ∀ t, (∃ b, f t = .ok b) ↔ P) :
    (∃ b, (if left then pure "" >>= f else x >>= fun t => pure (g t) >>= f) = .ok b) ↔
      (¬left → ∃ t, x = .ok t) ∧ P := by
  by_cases hleft : left
  · rw [if_pos hleft]
    exact (h "").trans (by simp [hleft])
  · rw [if_neg hleft]
    exact (Outcome.exists_bind_iff fun t _ => h (g t)).trans (by simp [hleft])

theorem exists_preamble_iff : (∃ t, c.preamble palette = .ok t) ↔
    c.BuiltinsNamed ∧ (∀ s ∈ c.structs, s.2.Typed) ∧ ∀ e ∈ c.events, EventTyped e.1 e.2 := by
  have hstructs : (c.structs.isEmpty ≠ true → ∃ t, c.structsText palette false = .ok t) ↔
      ∀ s ∈ c.structs, s.2.Typed := by
    unfold structsText
    simp only [Bool.false_and, Bool.not_false, List.filter_true, Outcome.exists_bind_pure_iff,
      Outcome.exists_mapM_iff, Artifact.Layout.exists_structText_iff]
    cases c.structs <;> simp
  have hevents : (c.events.isEmpty ≠ true → ∃ t, c.eventsText palette = .ok t) ↔
      ∀ e ∈ c.events, EventTyped e.1 e.2 := by
    unfold eventsText
    simp only [Outcome.exists_bind_pure_iff, Outcome.exists_mapM_iff, exists_eventText_iff]
    cases c.events <;> simp
  unfold preamble BuiltinsNamed
  dsimp only
  -- The three parts are optional alike, but the first is written with its branches the other way round.
  rw [← ite_not]
  refine (exists_part_iff fun _ => exists_part_iff fun _ => exists_part_iff fun _ => iff_true_intro ⟨_, rfl⟩).trans ?_
  rw [not_not, and_true, hstructs, hevents, forall_congr' exists_builtinsText_iff]

/-- Without a request for one function, all of them follow the preamble. -/
theorem disassembly_eq (c : Contract) (palette : Palette) : c.disassembly palette none none =
    (c.preamble palette >>= fun front => (c.functions.mapM fun f => f.disassembly (c.printer palette)) >>= fun texts =>
      pure (front ++ String.join (texts.map (· ++ "\n")))) := by
  unfold disassembly
  cases c.functions with
  | nil => simp
  | cons f fs => rfl

/-- Each instruction of each function has a line of its own in a disassembly. -/
theorem lines_of_disassembly {text : String} (h : c.disassembly palette none none = .ok text) :
    List.SublistForall₂ Site.Opens (c.functions.flatMap (·.sites)) (Text.split '\n' text) := by
  rw [disassembly_eq] at h
  obtain ⟨front, -, h⟩ := Outcome.bind_eq_ok.1 h
  obtain ⟨texts, htexts, h⟩ := Outcome.bind_eq_ok.1 h
  obtain rfl := Outcome.pure_eq_ok.1 h
  refine Site.Shown.split ?_
  rw [String.toList_append]
  exact (Site.Shown.functions htexts).append_front _

/-- A contract has a disassembly exactly when the names, types, offsets and decorators that it declares can be shown
and every instruction has a line. In the text, each instruction of each function then has a line of its own, in the
order of the code. -/
theorem disassembled_iff_writable (hload : ofArtifact doc = .ok c) (palette : Palette) :
    ((∃ text, c.disassembly palette none none = .ok text) ↔
      c.Typed ∧ c.BuiltinsNamed ∧
        ∀ f ∈ c.functions, f.Numbered ∧ ∀ s ∈ f.sites, s.instruction.Writable c.prime) ∧
      ∀ text, c.disassembly palette none none = .ok text →
        List.SublistForall₂ Site.Opens (c.functions.flatMap (·.sites)) (Text.split '\n' text) := by
  have hfunctions (f : Function) (hf : f ∈ c.functions) : (∃ t, f.disassembly (c.printer palette) = .ok t) ↔
      (f.Typed ∧ f.Numbered) ∧ ∀ s ∈ f.sites, s.instruction.Writable c.prime :=
    Function.exists_disassembly_iff fun s hs => checked_of_ofArtifact hload hf hs
  refine ⟨?_, fun text => lines_of_disassembly⟩
  rw [disassembly_eq]
  refine (Outcome.exists_bind_iff fun _ _ => Outcome.exists_bind_pure_iff.trans
    (Outcome.exists_mapM_iff.trans (forall₂_congr hfunctions))).trans ?_
  rw [exists_preamble_iff]
  constructor
  · rintro ⟨⟨hbuiltins, hstructs, hevents⟩, hall⟩
    exact ⟨⟨hstructs, hevents, fun f hf => (hall f hf).1.1⟩, hbuiltins,
      fun f hf => ⟨(hall f hf).1.2, (hall f hf).2⟩⟩
  · rintro ⟨⟨hstructs, hevents, htyped⟩, hbuiltins, hall⟩
    exact ⟨⟨hbuiltins, hstructs, hevents⟩, fun f hf => ⟨⟨htyped f hf, (hall f hf).1⟩, (hall f hf).2⟩⟩

def jumpArtifact (imm : String) : Json :=
  .obj [("prime", .str "0x800000000000011000000000000000000000000000000000000000000000001"),
    ("builtins", .arr [.str "output"]), ("hints", .obj []),
    ("data", .arr (["0x10780017fff7fff", imm, "0x208b7fff7fff7ffe"].map .str)),
    ("identifiers", .obj [
      ("main", .obj [("type", .str "function"), ("pc", .num 0), ("decorators", .arr [.str "view"])]),
      ("main.Args", .obj [("type", .str "struct"), ("size", .num 1),
        ("members", .obj [("x", .obj [("cairo_type", .str "felt"), ("offset", .num 0)])])])])]

/-- A jump by 2 has its line. One by 2 ^ 40 does not, so that there is no text although all else can be shown. -/
theorem disassembled_iff_writable_jump :
    (∃ c text, ofArtifact (jumpArtifact "0x2") = .ok c ∧ c.disassembly .plain none none = .ok text ∧
      (c.functions.flatMap (·.sites)).map (·.offset) = [0, 2] ∧
      List.SublistForall₂ Site.Opens (c.functions.flatMap (·.sites)) (Text.split '\n' text)) ∧
    ∃ c, ofArtifact (jumpArtifact "0x10000000000") = .ok c ∧ c.Typed ∧ c.BuiltinsNamed ∧
      (∀ f ∈ c.functions, f.Numbered) ∧ ∀ text, c.disassembly .plain none none ≠ .ok text := by
  have hnear : (ofArtifact (jumpArtifact "0x2") >>= fun c => pure (decide
      ((c.functions.flatMap (·.sites)).map (·.offset) = [0, 2] ∧
        ∃ text, c.disassembly .plain none none = .ok text))) = .ok true := by
    decide +kernel
  have hfar : (ofArtifact (jumpArtifact "0x10000000000") >>= fun c => pure (decide
      ((∃ t, c.preamble .plain = .ok t) ∧ (∀ f ∈ c.functions, ∃ t, f.prototype = .ok t) ∧
        ∃ f ∈ c.functions, ∃ s ∈ f.sites, s.instruction.opcode = .nop ∧ s.instruction.pcUpdate ≠ .regular ∧
          s.instruction.imm = some (2 ^ 40) ∧ ¬∃ n, Field.small (2 ^ 40) c.prime = .ok n))) = .ok true := by
    decide +kernel
  obtain ⟨c, hload, hnear⟩ := Outcome.bind_eq_ok.1 hnear
  obtain ⟨hoffsets, text, htext⟩ := of_decide_eq_true (Outcome.pure_eq_ok.1 hnear)
  obtain ⟨d, hloaded, hfar⟩ := Outcome.bind_eq_ok.1 hfar
  obtain ⟨hfront, hprototypes, f, hf, s, hs, hopcode, hjump, himm, hsmall⟩ :=
    of_decide_eq_true (Outcome.pure_eq_ok.1 hfar)
  obtain ⟨hbuiltins, hstructs, hevents⟩ := exists_preamble_iff.1 hfront
  have hsignature (g : Function) (hg : g ∈ d.functions) := Function.exists_prototype_iff.1 (hprototypes g hg)
  refine ⟨⟨c, text, hload, htext, hoffsets, (disassembled_iff_writable hload .plain).2 text htext⟩, d, hloaded,
    ⟨hstructs, hevents, fun g hg => (hsignature g hg).1⟩, hbuiltins, fun g hg => (hsignature g hg).2, ?_⟩
  intro far hdisassembly
  obtain ⟨-, -, hall⟩ := (disassembled_iff_writable hloaded .plain).1.1 ⟨far, hdisassembly⟩
  exact hsmall (Field.exists_small_iff.2 (((hall f hf).2 s hs).jump hopcode hjump _ himm))

end Contract

end Cairoscope
