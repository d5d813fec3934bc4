import Cairoscope.Proofs.Assertions
import Cairoscope.Proofs.Frames
import Cairoscope.Proofs.Modes
import Cairoscope.Proofs.RequestForms
import Cairoscope.Proofs.WrapAround
import Mathlib.Control.Monad.Basic

/-! Clauses of a request, written as text. A clause reaches the problems of its request exactly when its
variables have at most four digits and the one on its right, if there is one, has no label. The others are read as
something else, and left out where that names no variable. -/

namespace Cairoscope

namespace Symbolic

open Decompiler

inductive Side
  | number (digits : List Char)
  | cell (v : Variable)

namespace Side

def text : Side → String
  | number digits => String.ofList digits
  | cell v => v.name

def term : Side → Term
  | number digits => .integer (Nat.ofDigitChars 10 digits 0 : Nat)
  | cell v => .unknown v.number

def Valid (m : Memory) : Side → Prop
  | number digits => digits ≠ [] ∧ ∀ c ∈ digits, c.isDigit = true
  | cell v => v ∈ m.cells ∧ Worded v

/-- A side that is read as it stands. -/
def Plain : Side → Prop
  | number _ => True
  | cell v => v.number < 10000 ∧ v.label = none

def bound : Side → Bound
  | number digits => .integer (Nat.ofDigitChars 10 digits 0 : Nat)
  | cell v => .named v.name

theorem toList_text_number (digits : List Char) : (number digits).text.toList = digits := String.toList_ofList

variable {m : Memory} {side : Side}

theorem head?_text (h : side.Valid m) : side.text.toList.head? ≠ some '=' := by
  intro hhead
  cases side with
  | number digits =>
    rw [toList_text_number] at hhead
    exact absurd (h.2 '=' (List.mem_of_head? hhead)) (by decide)
  | cell v =>
    rw [text, toList_name] at hhead
    cases hhead

theorem exists_boundAt (h : side.Valid m) : ∃ b, boundAt side.text.toList = some b := by
  cases side with
  | number digits =>
    rw [toList_text_number]
    exact ⟨_, boundAt_digits h.1 h.2⟩
  | cell v => exact exists_boundAt_name v

theorem boundAt_text (h : side.Valid m) (hplain : side.Plain) : boundAt side.text.toList = some (side.bound, []) := by
  cases side with
  | number digits =>
    rw [toList_text_number]
    exact boundAt_digits h.1 h.2
  | cell v => exact boundAt_name hplain.1 hplain.2

end Side

/-- A comparison of a variable of the memory with a number or another variable of it. -/
structure Clause (m : Memory) where
  left : Variable
  relation : Relation
  right : Side
  mem_left : left ∈ m.cells
  worded_left : Worded left
  valid_right : right.Valid m

namespace Clause

variable {m : Memory}

def text (k : Clause m) : String := k.left.name ++ k.relation.sign ++ k.right.text

def formula (k : Clause m) : Formula := ⟨k.relation, .unknown k.left.number, k.right.term⟩

def Plain (k : Clause m) : Prop := k.left.number < 10000 ∧ k.right.Plain

theorem toList_text (k : Clause m) :
    k.text.toList = k.left.name.toList ++ (k.relation.sign.toList ++ k.right.text.toList) := by
  simp [text, String.toList_append]

/-- After the name on the left and the relation, a clause is read at its right side. -/
theorem comparisonAt_text (k : Clause m) (h : k.left.number < 10000) : comparisonAt k.text.toList =
    (boundAt k.right.text.toList).map fun b => (⟨k.left.name, k.relation, b.1⟩, b.2) := by
  unfold comparisonAt
  rw [toList_text, nameAt_append h k.worded_left (head?_sign _ _)]
  simp only [Option.bind_eq_bind, Option.bind_some, relationAt_append k.relation (Side.head?_text k.valid_right)]
  cases boundAt k.right.text.toList <;> rfl

theorem firstMatch_text {k : Clause m} {b : Comparison} {rest : List Char}
    (h : comparisonAt k.text.toList = some (b, rest)) : firstMatch comparisonAt k.text.toList = some b := by
  rw [toList_text, toList_name, List.cons_append] at h ⊢
  exact firstMatch_of_form h

/-- A clause is found in its text if the number on its left has at most four digits. -/
theorem exists_firstMatch (k : Clause m) (h : k.left.number < 10000) :
    ∃ b, firstMatch comparisonAt k.text.toList = some b := by
  obtain ⟨b, hb⟩ := Side.exists_boundAt k.valid_right
  exact ⟨_, firstMatch_text ((k.comparisonAt_text h).trans (by rw [hb]; rfl))⟩

theorem firstMatch_of_plain (k : Clause m) (h : k.Plain) :
    firstMatch comparisonAt k.text.toList = some ⟨k.left.name, k.relation, k.right.bound⟩ :=
  firstMatch_text ((k.comparisonAt_text h.1).trans (by rw [Side.boundAt_text k.valid_right h.2]; rfl))

end Clause

section Problems

variable {s : Subject}

theorem numbered?_name (hs : s.memory.Aligned) {v : Variable} (hv : v ∈ s.memory.cells) :
    s.numbered? v.name = some v.number := by
  obtain ⟨q, hq⟩ := List.mem_iff_getElem?.1 hv
  rw [numbered?_eq hs, Memory.positionNamed?_eq_some hs hq, hs.number q v hq]

theorem exists_of_numbered? {name : String} {n : Nat} (h : s.numbered? name = some n) :
    ∃ v ∈ s.memory.cells, v.name = name ∧ v.number = n := by
  obtain ⟨v, hfind, rfl⟩ := Option.map_eq_some_iff.1 h
  exact ⟨v, List.mem_of_find?_eq_some hfind, eq_of_beq (List.find?_some hfind :), rfl⟩

theorem comparisonFormula_bound (hs : s.memory.Aligned) {v : Variable} (hv : v ∈ s.memory.cells) (rel : Relation)
    {side : Side} (hside : side.Valid s.memory) :
    comparisonFormula s ⟨v.name, rel, side.bound⟩ = some ⟨rel, .unknown v.number, side.term⟩ := by
  unfold comparisonFormula
  rw [numbered?_name hs hv]
  cases side with
  | number digits => rfl
  | cell w =>
    simp only [Side.bound, numbered?_name hs hside.1]
    rfl

theorem comparisonFormula_eq_some {b : Comparison} {f : Formula} (h : comparisonFormula s b = some f) :
    ∃ left right, s.numbered? b.name = some left ∧ f = ⟨b.relation, .unknown left, right⟩ ∧
      (∀ n, b.bound = .integer n → right = .integer n) ∧
      ∀ name, b.bound = .named name → ∃ n, s.numbered? name = some n ∧ right = .unknown n := by
  unfold comparisonFormula at h
  obtain ⟨left, hleft, h⟩ := Option.bind_eq_some_iff.1 h
  cases hb : b.bound with
  | integer n =>
    rw [hb] at h
    refine ⟨left, .integer n, hleft, (Option.some.inj h).symm, fun n' hn => ?_, fun name hname => ?_⟩
    · rw [Bound.integer.inj hn]
    · cases hname
  | named name =>
    rw [hb] at h
    obtain ⟨right, hright, h⟩ := Option.bind_eq_some_iff.1 h
    obtain ⟨n, hn, rfl⟩ := Option.map_eq_some_iff.1 hright
    refine ⟨left, .unknown n, hleft, (Option.some.inj h).symm, fun n' hn => ?_, fun name' hname => ?_⟩
    · cases hn
    · exact ⟨n, Bound.named.inj hname ▸ hn, rfl⟩

/-- What a text is read as has short names, and no label on its right. -/
theorem plain_of_comparisonFormula (hs : s.memory.Aligned) {k : Clause s.memory} {cs : List Char}
    {b : Comparison} (hread : firstMatch comparisonAt cs = some b) (h : comparisonFormula s b = some k.formula) :
    k.Plain := by
  obtain ⟨cs', rest, hform⟩ := exists_of_firstMatch hread
  obtain ⟨⟨_, hname⟩, _, _, hbound⟩ := comparisonAt_eq_some hform
  obtain ⟨left, right, hleft, hformula, hinteger, hnamed⟩ := comparisonFormula_eq_some h
  have hnumber : k.left.number = left := Term.unknown.inj (congrArg Formula.left hformula)
  have hterm : k.right.term = right := congrArg Formula.right hformula
  refine ⟨?_, ?_⟩
  · obtain ⟨v, -, hv, rfl⟩ := exists_of_numbered? hleft
    obtain ⟨ds, tail, hlist, hlength, hds, htail⟩ := nameAt_eq_some hname
    rw [hnumber]
    exact (short_of_name (hv ▸ hlist) hlength hds htail).1
  · have hvalid := k.valid_right
    cases hk : k.right with
    | number digits => trivial
    | cell w =>
      rw [hk] at hterm hvalid
      cases hb : b.bound with
      | integer n => cases hterm.trans (hinteger n hb)
      | named name =>
        obtain ⟨n, hn, hunknown⟩ := hnamed name hb
        obtain ⟨v, hv, hvname, rfl⟩ := exists_of_numbered? hn
        -- a number belongs to one variable only, so the one that was found is the one that was written
        obtain rfl := Memory.eq_of_number_eq hs hv hvalid.1 (Term.unknown.inj (hterm.trans hunknown)).symm
        obtain ⟨ds, hlist, hlength, hds⟩ := boundAt_eq_named (hb ▸ hbound)
        have happend : v.name.toList = 'v' :: (ds ++ []) := by rw [hvname, hlist, List.append_nil]
        obtain ⟨hnumber, hlabel⟩ := short_of_name happend hlength hds (by simp)
        exact ⟨hnumber, hlabel rfl⟩

/-- The comparisons of a request stand at the end of its problems. -/
theorem requestProblem_comparisons {r : Request} {assertions : List Assertion} {path : FlowGraph.Path} {p : Problem}
    (h : requestProblem s r assertions path = .ok (some p)) :
    ∃ base, requestProblem s { r with comparisons := [] } assertions path = .ok (some base) ∧
      p = base ++ r.comparisons.filterMap (comparisonFormula s) := by
  unfold requestProblem at h
  dsimp only at h
  split_ifs at h
  · obtain ⟨values, hvalues, h⟩ := Outcome.bind_eq_ok.1 h
    obtain ⟨asserted, hasserted, h⟩ := Outcome.bind_eq_ok.1 h
    obtain ⟨fixed, hfixed, h⟩ := Outcome.bind_eq_ok.1 h
    refine ⟨values ++ asserted ++ fixed, ?_, (Option.some.inj (Outcome.pure_eq_ok.1 h)).symm⟩
    -- which variables are open depends on the values of the request, not on its comparisons
    have hopen : openVariables s { r with comparisons := [] } path = openVariables s r path := rfl
    unfold requestProblem
    rw [hopen]
    dsimp only
    rw [if_pos List.all_nil, hvalues, hasserted, hfixed]
    exact congrArg (fun q => Except.ok (some q)) (List.append_nil _)
  · cases h

end Problems

/-- Clauses with short names on the left are found in their texts. Whatever is read, each problem of the request is
the one without comparisons and formulas for these, and a clause has its formula among them exactly when both of
its names are short and the one on the right has no label. -/
theorem clauses_kept_iff {sc : Scene} {graphs : List (Option FlowGraph)} {imported : Bool} {text : String}
    {d : Decompiler} (hgraphs : sc.functions.length ≤ graphs.length)
    (hrun : program sc true imported (start graphs) = .ok text d) (ks : List (Clause d.memory)) :
    ((∀ k ∈ ks, k.left.number < 10000) → ∃ bs, readAll comparisonAt (ks.map (·.text)) = .ok bs) ∧
    ∀ values solves r, Request.read (ks.map (·.text)) values solves = .ok r →
      ∀ index assertions path p,
        requestProblem ⟨d.memory, index, d.blocksOf index⟩ r assertions path = .ok (some p) →
        ∃ base, requestProblem ⟨d.memory, index, d.blocksOf index⟩ { r with comparisons := [] } assertions path =
            .ok (some base) ∧
          base ⊆ p ∧ ∀ k ∈ ks, k.formula ∈ p ↔ k.formula ∈ base ∨ k.Plain := by
  refine ⟨fun hshort => exists_readAll fun t ht => ?_, fun values solves r hread index assertions path p hp => ?_⟩
  · obtain ⟨k, hk, rfl⟩ := List.mem_map.1 ht
    exact k.exists_firstMatch (hshort k hk)
  · have hs : (Subject.mk d.memory index (d.blocksOf index)).memory.Aligned := aligned_of_program hgraphs hrun
    obtain ⟨base, hbase, rfl⟩ := requestProblem_comparisons hp
    have hcomparisons := readAll_of_read hread
    refine ⟨base, hbase, List.subset_append_left _ _, fun k hk => ?_⟩
    rw [List.mem_append, List.mem_filterMap]
    refine or_congr_right ⟨?_, fun hplain => ?_⟩
    · rintro ⟨b, hb, hformula⟩
      obtain ⟨t, -, ht⟩ := exists_of_mem_readAll hcomparisons hb
      exact plain_of_comparisonFormula hs ht hformula
    · obtain ⟨b, hb, hfirst⟩ := exists_mem_of_readAll hcomparisons (List.mem_map_of_mem hk)
      obtain rfl := Option.some.inj ((k.firstMatch_of_plain hplain).symm.trans hfirst)
      exact ⟨_, hb, comparisonFormula_bound hs k.mem_left k.relation k.valid_right⟩

/-- The value of `v3` in the function that adds one. -/
def increment : Formula := ⟨.equal, .unknown 3, .sum (.unknown 0) (.integer 1)⟩

/-- A clause between the result and the argument of a function is left out, as the argument has a label. -/
theorem labelled_bound_left_out : ∃ text d, program successorScene true true (start [none]) = .ok text d ∧
    ∃ (k : Clause d.memory) (r : Request) (p : Problem), k.text = "v3!=v0_x" ∧
      Request.read [k.text] [] [] = .ok r ∧
      requestProblem ⟨d.memory, 0, d.blocksOf 0⟩ r d.assertions [1] = .ok (some p) ∧ k.formula ∉ p := by
  have hcells : (after? (program successorScene true true) (start [none])).map (fun d =>
      d.memory.cells.map fun v => (v.number, v.label)) =
      some [(0, some "x"), (1, some "callers_function_frame"), (2, some "return_instruction"), (3, none)] := by
    decide +kernel
  have hproblems : (after? (program successorScene true true) (start [none])).map (fun d =>
      (requestProblem ⟨d.memory, 0, d.blocksOf 0⟩ ⟨[⟨"v3", .distinct, .named "v0"⟩], [], []⟩ d.assertions [1],
        requestProblem ⟨d.memory, 0, d.blocksOf 0⟩ ⟨[], [], []⟩ d.assertions [1])) =
      some (.ok (some [increment]), .ok (some [increment])) := by
    decide +kernel
  obtain ⟨d, hd, hcells⟩ := Option.map_eq_some_iff.1 hcells
  rw [hd] at hproblems
  obtain ⟨hproblem, hbase⟩ := Prod.mk.inj (Option.some.inj hproblems)
  obtain ⟨text, hrun⟩ := after?_eq_some_iff.1 hd
  have hleft : (3, none) ∈ d.memory.cells.map fun v => (v.number, v.label) := by simp [hcells]
  have hright : (0, some "x") ∈ d.memory.cells.map fun v => (v.number, v.label) := by simp [hcells]
  obtain ⟨v, hv, hvname⟩ := List.mem_map.1 hleft
  obtain ⟨w, hw, hwname⟩ := List.mem_map.1 hright
  obtain ⟨hvnumber, hvlabel⟩ := Prod.mk.inj hvname
  obtain ⟨hwnumber, hwlabel⟩ := Prod.mk.inj hwname
  have hvworded : Worded v := by
    intro l hl
    cases hvlabel.symm.trans hl
  have hwworded : Worded w := by
    intro l hl
    obtain rfl := Option.some.inj (hwlabel.symm.trans hl)
    exact ⟨by decide, List.all_eq_true.1 (by decide +kernel)⟩
  let k : Clause d.memory := ⟨v, .distinct, .cell w, hv, hvworded, hw, hwworded⟩
  have htext : k.text = "v3!=v0_x" := by
    change Variable.nameOf v.number v.label ++ "!=" ++ Variable.nameOf w.number w.label = _
    rw [hvnumber, hvlabel, hwnumber, hwlabel]
    decide +kernel
  have hread : Request.read [k.text] [] [] = .ok ⟨[⟨"v3", .distinct, .named "v0"⟩], [], []⟩ := by
    rw [htext]
    decide +kernel
  obtain ⟨-, hkept⟩ := clauses_kept_iff (by decide) hrun [k]
  obtain ⟨base, hok, -, hiff⟩ := hkept [] [] _ hread 0 d.assertions [1] _ hproblem
  refine ⟨text, d, hrun, k, _, _, htext, hread, hproblem, fun hmem => ?_⟩
  rcases (hiff k (List.mem_singleton.2 rfl)).1 hmem with hformula | hplain
  · obtain rfl : [increment] = base := Option.some.inj (Except.ok.inj (hbase.symm.trans hok))
    cases List.mem_singleton.1 hformula
  · cases hwlabel.symm.trans hplain.2.2

end Symbolic

end Cairoscope
