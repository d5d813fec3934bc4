import Cairoscope.Proofs.ApMoves
import Cairoscope.Proofs.CallResults
import Cairoscope.Proofs.RecordText

/-! How many values a function returns, as read from the text of its return type. Only values with a name are
counted, so the count is right exactly for a tuple that names all its members, and after a call `ap` is too
low by the number of the others. -/

namespace Cairoscope

namespace Artifact

/-- A member of a tuple. Blanks around the colon belong to the texts on its sides. -/
structure Returned where
  name : Option String
  type : String

inductive ReturnType
  | single (type : String)
  | tuple (members : List Returned)

def Unmarked (s : String) : Prop := ∀ c ∈ ['(', ')', ',', ':'], c ∉ s.toList

theorem unmarked_of_any {s : String} (h : (['(', ')', ',', ':'].any s.toList.contains) = false) : Unmarked s := by
  intro c hc hmem
  exact List.any_eq_false.1 h c hc (List.contains_iff_mem.2 hmem)

namespace Returned

def text (m : Returned) : String :=
  match m.name with
  | some name => name ++ ":" ++ m.type
  | none => m.type

def WellFormed (m : Returned) : Prop := (∀ name ∈ m.name, Unmarked name) ∧ Unmarked m.type

def member? (m : Returned) : Option Member :=
  m.name.map fun name => ⟨Text.without (· = ' ') name, .str (Text.without (· = ' ') m.type)⟩

end Returned

namespace ReturnType

def text : ReturnType → String
  | single type => type
  | tuple members => "(" ++ String.intercalate ", " (members.map Returned.text) ++ ")"

def WellFormed : ReturnType → Prop
  | single type => Unmarked type
  | tuple members => ∀ m ∈ members, m.WellFormed

def arity : ReturnType → Nat
  | single _ => 1
  | tuple members => members.length

def named : ReturnType → List Member
  | single _ => []
  | tuple members => members.filterMap Returned.member?

/-- A tuple, and all its members have names. -/
def NamesAll : ReturnType → Prop
  | single _ => False
  | tuple members => ∀ m ∈ members, m.name.isSome = true

theorem length_named_eq_arity_iff (t : ReturnType) : t.named.length = t.arity ↔ t.NamesAll := by
  cases t with
  | single type => simp [named, arity, NamesAll]
  | tuple members =>
    rw [named, arity, List.length_filterMap_eq_countP, List.countP_eq_length]
    simp [NamesAll, Returned.member?]

end ReturnType

def memberOf (part : String) : Option Member :=
  match Text.split ':' part with
  | name :: type :: _ => some ⟨Text.without (· = ' ') name, .str (Text.without (· = ' ') type)⟩
  | _ => none

theorem namedReturns_eq (type : String) : namedReturns type =
    (Text.split ',' (Text.without (fun c => c = '(' || c = ')') type)).filterMap memberOf := rfl

theorem memberOf_text {m : Returned} (h : m.WellFormed) : memberOf m.text = m.member? := by
  obtain ⟨name, type⟩ := m
  obtain ⟨hname, htype⟩ := h
  have hcolon := htype ':' (by decide)
  cases name with
  | none =>
    have hsplit : Text.split ':' type = [type] := by
      rw [Text.split, Text.pieces_of_not_mem hcolon, List.map_singleton, String.ofList_toList]
    unfold memberOf
    simp only [Returned.text, hsplit]
    rfl
  | some name =>
    have hsplit : Text.split ':' (name ++ ":" ++ type) = [name, type] := by
      have hlist : (name ++ ":" ++ type).toList = name.toList ++ ':' :: type.toList := by simp
      rw [Text.split, hlist, Text.pieces_append (hname name rfl ':' (by decide)),
        Text.pieces_of_not_mem hcolon]
      simp
    unfold memberOf
    simp only [Returned.text, hsplit]
    rfl

namespace Returned

def spaced (m : Returned) : Returned :=
  match m.name with
  | some name => ⟨some (" " ++ name), m.type⟩
  | none => ⟨none, " " ++ m.type⟩

theorem text_spaced (m : Returned) : m.spaced.text = " " ++ m.text := by
  obtain ⟨name | name, type⟩ := m
  · rfl
  · simp [spaced, text, String.append_assoc]

theorem member?_spaced (m : Returned) : m.spaced.member? = m.member? := by
  obtain ⟨name | name, type⟩ := m
  · rfl
  · simp [spaced, member?, Text.without]

theorem WellFormed.spaced {m : Returned} (h : m.WellFormed) : m.spaced.WellFormed := by
  have hblank : ∀ {s}, Unmarked s → Unmarked (" " ++ s) := by
    intro s hs c hc
    have hne : c ≠ ' ' := by
      rintro rfl
      exact absurd hc (by decide)
    rw [String.toList_append, List.mem_append, not_or]
    exact ⟨by simpa using hne, hs c hc⟩
  obtain ⟨name | name, type⟩ := m
  · exact ⟨by simp [Returned.spaced], hblank h.2⟩
  · refine ⟨fun name' hname' => ?_, h.2⟩
    obtain rfl := Option.some.inj hname'
    exact hblank (h.1 name rfl)

theorem not_mem_text {m : Returned} (h : m.WellFormed) {c : Char} (hc : c ∈ ['(', ')', ',']) :
    c ∉ m.text.toList := by
  have hmark : c ∈ ['(', ')', ',', ':'] := List.mem_append_left [':'] hc
  obtain ⟨name | name, type⟩ := m
  · exact h.2 c hmark
  · have hcolon : c ≠ ':' := by
      rintro rfl
      exact absurd hc (by decide)
    rw [text, String.toList_append, String.toList_append, List.mem_append, List.mem_append, not_or, not_or]
    exact ⟨⟨h.1 name rfl c hmark, by simpa using hcolon⟩, h.2 c hmark⟩

end Returned

/-- The pieces that the text of a tuple is cut into. There is always one. -/
def tuplePieces : List Returned → List String
  | [] => [""]
  | m :: rest => m.text :: rest.map fun r => r.spaced.text

theorem split_intercalate {members : List Returned} (h : ∀ m ∈ members, m.WellFormed) :
    Text.split ',' (String.intercalate ", " (members.map Returned.text)) = tuplePieces members := by
  have hcomma : ∀ m ∈ members, ',' ∉ m.text.toList := fun m hm => Returned.not_mem_text (h m hm) (by decide)
  rw [Text.split, String.toList_intercalate, List.map_map]
  cases members with
  | nil => rfl
  | cons m rest =>
    obtain ⟨hm, hrest⟩ := List.forall_mem_cons.1 hcomma
    have hparts : ∀ p ∈ rest.map (String.toList ∘ Returned.text), ',' ∉ p := by
      intro p hp
      obtain ⟨r, hr, rfl⟩ := List.mem_map.1 hp
      exact hrest r hr
    have hpieces := Text.pieces_intercalate (by decide) hm hparts
    change (Text.pieces ',' ([',', ' '].intercalate (m.text.toList :: _))).map String.ofList = _
    rw [hpieces, List.map_cons, String.ofList_toList, List.map_map, List.map_map, tuplePieces]
    congr 1
    refine List.map_congr_left fun r _ => ?_
    rw [Returned.text_spaced]
    apply String.toList_inj.1
    simp

theorem filter_of_no_parentheses {cs : List Char} (hopen : '(' ∉ cs) (hclose : ')' ∉ cs) :
    (cs.filter fun c => !(decide (c = '(') || decide (c = ')'))) = cs := by
  refine List.filter_eq_self.2 fun c hc => ?_
  have hne : c ≠ '(' := fun heq => hopen (heq ▸ hc)
  have hne' : c ≠ ')' := fun heq => hclose (heq ▸ hc)
  simp [hne, hne']

/-- The parentheses around a tuple are its only ones. -/
theorem without_tuple {members : List Returned} (h : ∀ m ∈ members, m.WellFormed) :
    Text.without (fun c => c = '(' || c = ')') (ReturnType.tuple members).text =
      String.intercalate ", " (members.map Returned.text) := by
  have hinner : ∀ c, c ≠ ',' ∧ c ≠ ' ' → c ∈ ['(', ')', ','] →
      c ∉ (String.intercalate ", " (members.map Returned.text)).toList := by
    intro c hown hc
    rw [String.toList_intercalate]
    refine Instruction.not_mem_intercalate hown fun p hp => ?_
    obtain ⟨s, hs, rfl⟩ := List.mem_map.1 hp
    obtain ⟨m, hm, rfl⟩ := List.mem_map.1 hs
    exact Returned.not_mem_text (h m hm) hc
  have hkept := filter_of_no_parentheses (hinner '(' (by decide) (by decide))
    (hinner ')' (by decide) (by decide))
  rw [Text.without, ReturnType.text, String.toList_append, String.toList_append, List.filter_append,
    List.filter_append, hkept]
  apply String.toList_inj.1
  simp

/-- What is read from the text of a type are its values with a name. -/
theorem namedReturns_text {t : ReturnType} (h : t.WellFormed) : namedReturns t.text = t.named := by
  rw [namedReturns_eq]
  cases t with
  | single type =>
    have hnone : memberOf type = none := memberOf_text (m := ⟨none, type⟩) ⟨by simp, h⟩
    rw [ReturnType.text, Text.without, filter_of_no_parentheses (h '(' (by decide)) (h ')' (by decide)),
      String.ofList_toList, Text.split, Text.pieces_of_not_mem (h ',' (by decide)), List.map_singleton,
      String.ofList_toList, List.filterMap_cons_none hnone]
    rfl
  | tuple members =>
    rw [without_tuple h, split_intercalate h]
    cases members with
    | nil => rfl
    | cons m rest =>
      obtain ⟨hm, hrest⟩ := List.forall_mem_cons.1 h
      have hspaced : (rest.map fun r => r.spaced.text).filterMap memberOf = rest.filterMap Returned.member? := by
        rw [List.filterMap_map]
        refine List.filterMap_congr fun r hr => ?_
        rw [Function.comp_apply, memberOf_text (hrest r hr).spaced, Returned.member?_spaced]
      rw [ReturnType.named, tuplePieces, List.filterMap_cons, List.filterMap_cons, memberOf_text hm, hspaced]

def numberedFrom (i : Nat) : List Member → Layout
  | [] => []
  | m :: ms => (.number i, m) :: numberedFrom (i + 1) ms

theorem map_fst_numberedFrom (i : Nat) (ms : List Member) :
    (numberedFrom i ms).map Prod.fst = (List.range' i ms.length).map fun j : Nat => .number j := by
  induction ms generalizing i with
  | nil => rfl
  | cons m ms ih => rw [numberedFrom, List.map_cons, ih, List.length_cons, List.range'_succ, List.map_cons]

theorem map_snd_numberedFrom (i : Nat) (ms : List Member) : (numberedFrom i ms).map Prod.snd = ms := by
  induction ms generalizing i with
  | nil => rfl
  | cons m ms ih => rw [numberedFrom, List.map_cons, ih]

theorem assocSet_number {i : Nat} {acc : Layout} (h : ∀ e ∈ acc, ∃ j < i, e.1 = .number (j : Nat)) (m : Member) :
    assocSet (.number i) m acc = acc ++ [(.number i, m)] := by
  induction acc with
  | nil => rfl
  | cons e acc ih =>
    obtain ⟨⟨j, hj, hkey⟩, hrest⟩ := List.forall_mem_cons.1 h
    obtain ⟨k, v⟩ := e
    have hne : (k == Key.number i) = false := by
      rw [show k = .number j from hkey]
      exact decide_eq_false fun heq => by injection heq; omega
    rw [assocSet, hne, if_neg Bool.false_ne_true, ih hrest, List.cons_append]

theorem setFrom_eq (i : Nat) (ms : List Member) {acc : Layout}
    (h : ∀ e ∈ acc, ∃ j < i, e.1 = .number (j : Nat)) : setFrom i ms acc = acc ++ numberedFrom i ms := by
  induction ms generalizing i acc with
  | nil => exact (List.append_nil acc).symm
  | cons m ms ih =>
    rw [setFrom, assocSet_number h, ih, numberedFrom, List.append_assoc, List.singleton_append]
    intro e he
    rcases List.mem_append.1 he with he | he
    · obtain ⟨j, hj, hkey⟩ := h e he
      exact ⟨j, by omega, hkey⟩
    · obtain rfl := List.mem_singleton.1 he
      exact ⟨i, by omega, rfl⟩

theorem sorted_numberedFrom (i : Nat) (ms : List Member) :
    Key.sorted (numberedFrom i ms) = .ok (numberedFrom i ms) := by
  have hkeys : ∀ e ∈ numberedFrom i ms, ∃ j : Nat, e.1 = .number j := by
    intro e he
    have hmem : e.1 ∈ (numberedFrom i ms).map Prod.fst := List.mem_map_of_mem he
    rw [map_fst_numberedFrom] at hmem
    obtain ⟨j, -, hj⟩ := List.mem_map.1 hmem
    exact ⟨j, hj.symm⟩
  have hsorted : (numberedFrom i ms).Pairwise fun p q => (Key.le? p.1 q.1).getD false = true := by
    have hkeysSorted : ((numberedFrom i ms).map Prod.fst).Pairwise fun a b =>
        (Key.le? a b).getD false = true := by
      rw [map_fst_numberedFrom, List.pairwise_map]
      exact (List.pairwise_lt_range' (s := i) (n := ms.length)).imp fun hlt => decide_eq_true (by omega)
    exact List.pairwise_map.1 hkeysSorted
  unfold Key.sorted
  split_ifs with hshort hall
  · rfl
  · rw [List.mergeSort_of_pairwise hsorted]
  · refine absurd (List.all_eq_true.2 fun p hp => List.all_eq_true.2 fun q hq => ?_) hall
    obtain ⟨j, hj⟩ := hkeys p hp
    obtain ⟨k, hk⟩ := hkeys q hq
    rw [hj, hk]
    rfl

/-- The return values of an identifier that has a type and no members. -/
theorem layoutOf_of_type {ids fields : Json.Members} {name : String} {t : ReturnType} (h : t.WellFormed)
    (hname : ids.lookup name = some (.obj fields)) (hmembers : "members" ∉ fields.map Prod.fst)
    (htype : fields.lookup "cairo_type" = some (.str t.text)) :
    layoutOf ids name true = .ok (numberedFrom 0 t.named) := by
  have hnone : (fields.any fun m => m.1 == "members") = false := by
    rw [List.any_eq_false]
    intro m hm heq
    exact hmembers (List.mem_map.2 ⟨m, hm, beq_iff_eq.1 heq⟩)
  have hsome : (fields.any fun m => m.1 == "cairo_type") = true := by
    obtain ⟨before, after, rfl, -⟩ := List.lookup_eq_some_iff.1 htype
    simp
  have hfield : (Json.obj fields).field "cairo_type" = .ok (.str t.text) := by
    simp only [Json.field, htype]
  unfold layoutOf
  rw [hname]
  refine Outcome.bind_eq_ok.2 ⟨false, congrArg Except.ok hnone, ?_⟩
  refine Outcome.bind_eq_ok.2 ⟨[], rfl, Outcome.bind_eq_ok.2 ⟨true, congrArg Except.ok hsome, ?_⟩⟩
  dsimp only
  rw [if_pos rfl, hfield]
  refine Outcome.bind_eq_ok.2 ⟨_, rfl, ?_⟩
  dsimp only
  rw [namedReturns_text h, setFrom_eq 0 _ (by simp), List.nil_append]
  exact sorted_numberedFrom 0 _

theorem returns_of_signatureOf {ids : Json.Members} {entries : List String} {offset name : String}
    {sig : Signature} (h : signatureOf ids entries offset name = .ok sig) :
    layoutOf ids (name ++ ".Return") true = .ok sig.returns := by
  unfold signatureOf at h
  obtain ⟨implicit, -, h⟩ := Outcome.bind_eq_ok.1 h
  obtain ⟨explicit, -, h⟩ := Outcome.bind_eq_ok.1 h
  obtain ⟨returns, hreturns, h⟩ := Outcome.bind_eq_ok.1 h
  obtain ⟨decorators, -, h⟩ := Outcome.bind_eq_ok.1 h
  obtain rfl := Outcome.pure_eq_ok.1 h
  exact hreturns

end Artifact

namespace Decompiler

open Artifact (ReturnType numberedFrom)

theorem totalRise_lookBelow (n : Nat) : Memory.totalRise (lookBelow n) = 0 := by
  induction n with
  | zero => rfl
  | succ n ih => exact (Int.zero_add _).trans ih

theorem totalRise_lookResults (i : Nat) (names : List String) : Memory.totalRise (lookResults i names) = 0 := by
  induction names generalizing i with
  | nil => rfl
  | cons name names ih => exact (Int.zero_add _).trans (ih (i + 1))

theorem totalRise_pushResults (index : Nat) (names : List String) :
    Memory.totalRise (pushResults index names) = names.length := by
  induction names with
  | nil => rfl
  | cons name names ih =>
    have hone : Memory.totalRise [.new (some name) (some index) none true false, .moveAp 1] = 1 := rfl
    rw [pushResults, List.flatMap_cons, Memory.totalRise_append, hone, ← pushResults, ih, List.length_cons]
    omega

/-- After a call `ap` is higher by the number of return values that the callee is known to have. -/
theorem ap_of_call {sc : Scene} {place : Place} {returns : Nat} {s : Site} {last : Bool} {d d' : Decompiler}
    {text : String} {imm : Int} {index : Nat} {callee : Function} (hopcode : s.instruction.opcode = .call)
    (himm : s.instruction.imm = some imm) (hcallee : sc.calleeAt s = some (index, callee))
    (h : statement sc place returns s last d = .ok text d') :
    d'.memory.ap = d.memory.ap + callee.returns.length := by
  have hoperations : statementOperations sc returns s = callOperations index callee := by
    simp only [statementOperations, hopcode, himm, hcallee]
  rw [ap_of_statement h, hoperations, callOperations, Memory.totalRise_append, Memory.totalRise_append,
    totalRise_lookBelow, totalRise_pushResults, totalRise_lookResults]
  simp [Artifact.Layout.names]

/-- The return values of a function whose return type is given as text. Those that have a name are
entries, numbered from 0. So there are as many entries as values, and a call moves `ap` past all of them, if
and only if the type is a tuple that names all its members; a single type has no entry. -/
theorem returned_values_counted_iff {ids fields : Json.Members} {name : String} {t : ReturnType}
    (ht : t.WellFormed) (hname : ids.lookup (name ++ ".Return") = some (.obj fields))
    (hmembers : "members" ∉ fields.map Prod.fst)
    (htype : fields.lookup "cairo_type" = some (.str t.text)) :
    ∃ layout, Artifact.layoutOf ids (name ++ ".Return") true = .ok layout ∧
      (∀ entries offset sig, Artifact.signatureOf ids entries offset name = .ok sig → sig.returns = layout) ∧
      layout.map Prod.fst = (List.range layout.length).map (fun j : Nat => .number j) ∧
      layout.map Prod.snd = t.named ∧ (layout.length = t.arity ↔ t.NamesAll) ∧
      ∀ {sc : Scene} {place : Place} {returns : Nat} {s : Site} {last : Bool} {d d' : Decompiler}
        {text : String} {imm : Int} {index : Nat} {callee : Function}, s.instruction.opcode = .call →
        s.instruction.imm = some imm → sc.calleeAt s = some (index, callee) → callee.returns = layout →
        statement sc place returns s last d = .ok text d' →
        (d'.memory.ap = d.memory.ap + t.arity ↔ t.NamesAll) := by
  have hlayout := Artifact.layoutOf_of_type ht hname hmembers htype
  have hlength := congrArg List.length (Artifact.map_snd_numberedFrom 0 t.named)
  rw [List.length_map] at hlength
  refine ⟨_, hlayout, fun entries offset sig hsig => ?_, ?_, Artifact.map_snd_numberedFrom 0 t.named, ?_, ?_⟩
  · have hreturns := Artifact.returns_of_signatureOf hsig
    exact Except.ok.inj (hreturns.symm.trans hlayout)
  · rw [Artifact.map_fst_numberedFrom, hlength, List.range_eq_range']
  · rw [hlength, t.length_named_eq_arity_iff]
  · intro sc place returns s last d d' text imm index callee hopcode himm hcallee hreturns h
    rw [ap_of_call hopcode himm hcallee h, hreturns, hlength, ← t.length_named_eq_arity_iff]
    omega

/-- Two values, of which the second has no name. -/
def halfNamed : ReturnType := .tuple [⟨some "a", " felt"⟩, ⟨none, "felt"⟩]

def halfNamedFields : Json.Members :=
  [("cairo_type", .str "(a: felt, felt)"), ("type", .str "type_definition")]

def halfNamedFunction : Function := { pairFunction with
  name := "half"
  returns := [(.number 0, ⟨"a", .str "felt"⟩)] }

def halfNamedScene : Scene := ⟨[halfNamedFunction], ⟨.plain, Field.defaultPrime, []⟩⟩

/-- One of the two values is counted, and a call moves `ap` by one. A single type is not counted at all. -/
theorem halfNamed_miscounted :
    (∃ layout, Artifact.layoutOf [("half.Return", .obj halfNamedFields)] "half.Return" true = .ok layout ∧
      layout.length ≠ 2 ∧ ∃ text d, statement halfNamedScene ⟨0, 0⟩ 0 (.calling 5 (-5) "half") false
        inEmptyFrame = .ok text d ∧ d.memory.ap ≠ inEmptyFrame.memory.ap + 2) ∧
    ∃ layout, Artifact.layoutOf [("one.Return", .obj [("cairo_type", .str "felt")])] "one.Return" true =
      .ok layout ∧ layout.length ≠ 1 := by
  constructor
  · have hformed : halfNamed.WellFormed := by
      intro m hm
      rcases List.mem_pair.1 hm with rfl | rfl
      · refine ⟨fun name hname => ?_, Artifact.unmarked_of_any (by decide)⟩
        obtain rfl := Option.some.inj hname
        exact Artifact.unmarked_of_any (by decide)
      · exact ⟨by simp, Artifact.unmarked_of_any (by decide)⟩
    have hname : List.lookup ("half" ++ ".Return") [("half.Return", Json.obj halfNamedFields)] =
        some (.obj halfNamedFields) := by simp
    obtain ⟨layout, hlayout, -, -, -, hcount, hcall⟩ :=
      returned_values_counted_iff hformed hname (by decide) rfl
    have hpartly : ¬ halfNamed.NamesAll := by simp [halfNamed, ReturnType.NamesAll]
    have hreturns : halfNamedFunction.returns = layout :=
      Except.ok.inj ((Artifact.layoutOf_of_type hformed hname (by decide) rfl).symm.trans hlayout)
    have hends : (after? (statement halfNamedScene ⟨0, 0⟩ 0 (.calling 5 (-5) "half") false) inEmptyFrame).isSome =
        true := by decide +kernel
    obtain ⟨d, hd⟩ := Option.isSome_iff_exists.1 hends
    obtain ⟨text, hrun⟩ := after?_eq_some_iff.1 hd
    exact ⟨layout, hlayout, fun htwo => hpartly (hcount.1 htwo), text, d, hrun,
      fun hap => hpartly ((hcall rfl rfl rfl hreturns hrun).1 hap)⟩
  · have hname : List.lookup ("one" ++ ".Return") [("one.Return", Json.obj [("cairo_type", .str "felt")])] =
        some (.obj [("cairo_type", .str "felt")]) := by simp
    obtain ⟨layout, hlayout, -, -, -, hcount, -⟩ := returned_values_counted_iff (t := .single "felt")
      (Artifact.unmarked_of_any (by decide)) hname (by decide) rfl
    exact ⟨layout, hlayout, hcount.1⟩

end Decompiler

end Cairoscope
