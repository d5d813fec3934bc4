import Cairoscope.Proofs.Modes
import Cairoscope.Proofs.PathValues

/-! What it means that a request has no solution along a path. Problems are over unbounded integers, values over a
field. Where the integers have no solution, a solution in the field is one that wraps around: computed over the
integers, a variable that is asked about leaves the field. -/

namespace Cairoscope

section Related

variable {R : Int → Int → Prop} {on : Nat → Prop} {a b : Nat → Int} {k : Int}

theorem Operand.IsLeft.related {o : Operand} (hrefl : ∀ n, R n n) (hab : ∀ ns, o = .cells ns → ∀ n ∈ ns, R (a n) (b n))
    (h : o.IsLeft on a k) : ∃ k', o.IsLeft on b k' ∧ R k k' := by
  cases h with
  | integer => exact ⟨k, .integer k, hrefl k⟩
  | @onPath ns n hfirst => exact ⟨b n, .onPath hfirst, hab _ rfl n hfirst.mem⟩
  | @offPath n rest hoff => exact ⟨b n, .offPath hoff, hab _ rfl n List.mem_cons_self⟩

theorem Operand.IsRight.related {o : Operand} (hrefl : ∀ n, R n n)
    (hab : ∀ ns, o = .cells ns → ∀ n ∈ ns, R (a n) (b n)) (h : o.IsRight a k) : ∃ k', o.IsRight b k' ∧ R k k' := by
  cases h with
  | integer => exact ⟨k, .integer k, hrefl k⟩
  | cell n rest => exact ⟨b n, .cell n rest, hab _ rfl n List.mem_cons_self⟩

/-- Where the operands are related, so is the value. -/
theorem Value.Is.related {x : Value} (hrefl : ∀ n, R n n)
    (hop : ∀ op i i' j j', R i i' → R j j' → R (Operator.apply op i j) (Operator.apply op i' j'))
    (hab : ∀ ns, .cells ns ∈ x.operands → ∀ n ∈ ns, R (a n) (b n)) (h : x.Is on a k) :
    ∃ k', x.Is on b k' ∧ R k k' := by
  cases h with
  | integer => exact ⟨k, .integer k, hrefl k⟩
  | @copy ns n hfirst => exact ⟨b n, .copy hfirst, hab _ List.mem_cons_self n hfirst.mem⟩
  | @combined l r op i j hl hr =>
    obtain ⟨i', hl', hi⟩ := hl.related hrefl fun ns hns => hab ns (by simp [operands, hns])
    obtain ⟨j', hr', hj⟩ := hr.related hrefl fun ns hns => hab ns (by simp [operands, hns])
    exact ⟨_, .combined hl' hr', hop op i i' j j' hi hj⟩

end Related

theorem Operator.apply_modEq {prime : Int} (op : Operator) {i i' j j' : Int} (hi : i ≡ i' [ZMOD prime])
    (hj : j ≡ j' [ZMOD prime]) : op.apply i j ≡ op.apply i' j' [ZMOD prime] := by
  cases op with
  | addition => exact hi.add hj
  | multiplication => exact hi.mul hj

namespace Symbolic

def InField (prime k : Int) : Prop := 0 ≤ k ∧ k < prime

def valueNamed (memory : Memory) (m : Nat → Int) (name : String) : Option Int :=
  (memory.positionNamed? name).map m

def Bound.value? (read : String → Option Int) : Bound → Option Int
  | .integer n => some n
  | .named name => read name

/-- A comparison of integers. One with a variable that does not exist says nothing. -/
def Comparison.Holds (read : String → Option Int) (c : Comparison) : Prop :=
  ∀ a b, read c.name = some a → c.bound.value? read = some b → c.relation.Holds a b

/-- A variable on the path to which the request gives no value. -/
def Subject.Open (s : Subject) (r : Request) (path : FlowGraph.Path) (v : Variable) : Prop :=
  s.OnPath path v ∧ v.name ∉ r.values.map Prod.fst

/-- Elements of the field for the variables that satisfy all that was recorded on the path, modulo the prime, and
all that is asked for, as integers. -/
structure FieldSolution (prime : Int) (s : Subject) (r : Request) (assertions : List Assertion)
    (path : FlowGraph.Path) (m : Nat → Int) : Prop where
  range : ∀ n, InField prime (m n)
  recorded : ∀ v k, Prescribes (s.Open r path) m v k → m v.number ≡ k [ZMOD prime]
  asserted : ∀ a ∈ assertions, m a.number ≡ a.value.value [ZMOD prime]
  values : ∀ e ∈ r.values, ∀ a, valueNamed s.memory m e.1 = some a → a = e.2
  comparisons : ∀ c ∈ r.comparisons, c.Holds (valueNamed s.memory m)

/-- The formula is the equation of a variable on the path, or an assertion, and its right side is not in the field. -/
def Wraps (prime : Int) (s : Subject) (r : Request) (assertions : List Assertion) (path : FlowGraph.Path)
    (m : Nat → Int) (f : Formula) : Prop :=
  (∃ v t, f = ⟨.equal, .unknown v.number, t⟩ ∧ Prescribes (s.Open r path) m v (t.eval m) ∧
      ¬ InField prime (t.eval m)) ∨
    ∃ a ∈ assertions, f = ⟨.equal, .unknown a.number, .integer a.value.value⟩ ∧ ¬ InField prime a.value.value

/-- Integers that leave the same remainders, and for which all that was recorded on the path holds exactly. -/
structure Lifts (prime : Int) (s : Subject) (r : Request) (path : FlowGraph.Path) (m z : Nat → Int) : Prop where
  congruent : ∀ n, z n ≡ m n [ZMOD prime]
  recorded : ∀ v k, Prescribes (s.Open r path) z v k → z v.number = k

/-- The formula is about a variable that is not in the field, or it is an assertion of what is not in the field. -/
def Escapes (prime : Int) (assertions : List Assertion) (z : Nat → Int) (f : Formula) : Prop :=
  (∃ n ∈ f.unknowns, ¬ InField prime (z n)) ∨
    ∃ a ∈ assertions, f = ⟨.equal, .unknown a.number, .integer a.value.value⟩ ∧ ¬ InField prime a.value.value

/-- The values of these variables are made of variables with smaller numbers. -/
def LookBack (on : Variable → Prop) : Prop :=
  ∀ v, on v → ∀ x, v.value = some x → ∀ ns, .cells ns ∈ x.operands → ∀ n ∈ ns, n < v.number

/-- In an aligned memory a name leads to the number that is the position of its variable. -/
theorem numbered?_eq {s : Subject} (h : s.memory.Aligned) (name : String) :
    s.numbered? name = s.memory.positionNamed? name := by
  unfold Subject.numbered? Memory.positionNamed?
  cases hfind : s.memory.cells.findIdx? fun v => v.name == name with
  | none =>
    rw [List.findIdx?_eq_none_iff] at hfind
    rw [List.find?_eq_none.2 fun v hv => by simp [hfind v hv]]
    rfl
  | some q =>
    obtain ⟨hq, hname, hfirst⟩ := List.findIdx?_eq_some_iff_getElem.1 hfind
    have hcell : s.memory.cells[q]? = some s.memory.cells[q] := List.getElem?_eq_getElem hq
    have hfound : s.memory.cells.find? (fun v => v.name == name) = some s.memory.cells[q] := by
      rw [List.find?_eq_some_iff_getElem]
      exact ⟨hname, q, hq, rfl, fun j hj => by simpa using hfirst j hj⟩
    rw [hfound, Option.map_some, h.number q _ hcell]

theorem open_iff {s : Subject} {r : Request} {path : FlowGraph.Path} {v : Variable} :
    s.Open r path v ↔ v ∈ openVariables s r path := by
  unfold Subject.Open openVariables
  rw [Subject.onPath_iff, List.mem_filter]
  simp

theorem Subject.Open.mem_cells {s : Subject} {r : Request} {path : FlowGraph.Path} {v : Variable}
    (h : s.Open r path v) : v ∈ s.memory.cells := by
  obtain ⟨⟨hv, -⟩ | ⟨b, -, n, -, hn⟩, -⟩ := h
  · exact hv
  · exact List.mem_of_getElem? hn

section Lift

variable {on : Variable → Prop} {prime : Int} {a b m i : Nat → Int} {v : Variable} {k : Int}

theorem Prescribes.modEq (h : Prescribes on a v k) (hab : ∀ n, a n ≡ b n [ZMOD prime]) :
    ∃ k', Prescribes on b v k' ∧ k ≡ k' [ZMOD prime] := by
  obtain ⟨x, hx, his⟩ := h.value
  obtain ⟨k', his', hk⟩ := his.related (fun _ => Int.ModEq.refl _) (fun op _ _ _ _ => op.apply_modEq)
    fun _ _ n _ => hab n
  exact ⟨k', ⟨h.mem, x, hx, his'⟩, hk⟩

/-- A value is made of the variables before its own. -/
theorem Prescribes.congr (hback : LookBack on) (h : Prescribes on a v k) (hab : ∀ n < v.number, a n = b n) :
    Prescribes on b v k := by
  obtain ⟨x, hx, his⟩ := h.value
  have hoperands : ∀ ns, .cells ns ∈ x.operands → ∀ n ∈ ns, a n = b n :=
    fun ns hns n hn => hab n (hback v h.mem x hx ns hns n hn)
  obtain ⟨k', his', rfl⟩ := his.related (fun _ => rfl) (fun op _ _ _ _ hi hj => by rw [hi, hj]) hoperands
  exact ⟨h.mem, x, hx, his'⟩

/-- One variable after the other, the recorded values are computed over the integers. Those below the bound are done;
the others, and those without a value, are as they were chosen. -/
theorem exists_lift {vs : List Variable} {p : Problem} (hon : ∀ v, on v ↔ v ∈ vs) (hp : equations vs = .ok p)
    (hnumber : ∀ v w, on v → on w → v.number = w.number → v = w) (hback : LookBack on)
    (hm : ∀ v k, Prescribes on m v k → m v.number ≡ k [ZMOD prime]) (hi : ∀ n, i n ≡ m n [ZMOD prime])
    (bound : Nat) : ∃ z : Nat → Int, (∀ n, z n ≡ m n [ZMOD prime]) ∧
      (∀ v k, v.number < bound → Prescribes on z v k → z v.number = k) ∧
      ∀ n, (∀ v k, Prescribes on m v k → v.number ≠ n) → z n = i n := by
  induction bound with
  | zero => exact ⟨i, hi, fun v k hv => absurd hv (Nat.not_lt_zero _), fun _ _ => rfl⟩
  | succ bound ih =>
    obtain ⟨z, hcongruent, hdone, hchosen⟩ := ih
    by_cases hvalue : ∃ v k, v.number = bound ∧ Prescribes on z v k
    · obtain ⟨v, k, rfl, hv⟩ := hvalue
      obtain ⟨k', hv', hk⟩ := hv.modEq hcongruent
      -- the new integer does not disturb what the values up to here are made of
      have hold : ∀ w j, w.number ≤ v.number → Prescribes on (Function.update z v.number k) w j →
          Prescribes on z w j := fun w j hle hw =>
        hw.congr hback fun n hn => Function.update_of_ne (by omega) _ _
      refine ⟨Function.update z v.number k, fun n => ?_, fun w j hlt hw => ?_, fun n hn => ?_⟩
      · by_cases hn : n = v.number
        · rw [hn, Function.update_self]
          exact hk.trans (hm v k' hv').symm
        · rw [Function.update_of_ne hn]
          exact hcongruent n
      · have hbefore := hold w j (by omega) hw
        by_cases hsame : w.number = v.number
        · obtain rfl := hnumber w v hw.mem hv.mem hsame
          rw [Function.update_self]
          exact prescribes_unique hon hp hv hbefore
        · rw [Function.update_of_ne hsame]
          exact hdone w j (by omega) hbefore
      · rw [Function.update_of_ne (hn v k' hv').symm]
        exact hchosen n hn
    · refine ⟨z, hcongruent, fun w j hlt hw => ?_, hchosen⟩
      by_cases hsame : w.number = bound
      · exact absurd ⟨w, j, hsame, hw⟩ hvalue
      · exact hdone w j (by omega) hw

end Lift

section Requests

variable {prime : Int} {s : Subject} {assertions : List Assertion} {r : Request} {path : FlowGraph.Path}
  {p : Problem} {f : Formula} {m z : Nat → Int}

/-- The formulas of a request, part by part. -/
theorem parts_of_requestProblem (h : requestProblem s r assertions path = .ok (some p)) :
    ∃ recorded asserted fixed, equations (openVariables s r path) = .ok recorded ∧
      assertionFormulas assertions = .ok asserted ∧ r.values.mapM (valueFormula s) = .ok fixed ∧
      p = recorded ++ asserted ++ fixed ++ r.comparisons.filterMap (comparisonFormula s) := by
  unfold requestProblem at h
  dsimp only at h
  split at h
  case isFalse => cases Except.ok.inj h
  obtain ⟨recorded, hrecorded, h⟩ := Outcome.bind_eq_ok.1 h
  obtain ⟨asserted, hasserted, h⟩ := Outcome.bind_eq_ok.1 h
  obtain ⟨fixed, hfixed, h⟩ := Outcome.bind_eq_ok.1 h
  exact ⟨recorded, asserted, fixed, hrecorded, hasserted, hfixed, (Option.some.inj (Outcome.pure_eq_ok.1 h)).symm⟩

theorem exists_assertion_of_mem (h : assertionFormulas assertions = .ok p) (hf : f ∈ p) :
    ∃ a ∈ assertions, f = ⟨.equal, .unknown a.number, .integer a.value.value⟩ := by
  obtain ⟨a, ha, hfa⟩ := Outcome.exists_of_mem_mapM h hf
  obtain ⟨n, hn, hfa⟩ := Outcome.bind_eq_ok.1 hfa
  obtain rfl := Outcome.pure_eq_ok.1 hfa
  refine ⟨a, ha, ?_⟩
  cases hnumeral : a.value with
  | decimal k =>
    rw [hnumeral] at hn
    obtain rfl := Except.ok.inj hn
    rfl
  | hex k =>
    rw [hnumeral] at hn
    cases hn

theorem holds_of_values (hs : s.memory.Aligned) (h : FieldSolution prime s r assertions path m)
    (hp : r.values.mapM (valueFormula s) = .ok p) : p.Holds m := by
  intro f hf
  obtain ⟨e, he, hfe⟩ := Outcome.exists_of_mem_mapM hp hf
  unfold valueFormula at hfe
  rw [numbered?_eq hs] at hfe
  cases hn : s.memory.positionNamed? e.1 with
  | none => simp [hn] at hfe
  | some n =>
    rw [hn] at hfe
    obtain rfl := Except.ok.inj hfe
    exact h.values e he (m n) (by simp [valueNamed, hn])

theorem holds_of_comparisons (hs : s.memory.Aligned) (h : FieldSolution prime s r assertions path m) :
    Problem.Holds (r.comparisons.filterMap (comparisonFormula s)) m := by
  intro f hf
  obtain ⟨c, hc, hfc⟩ := List.mem_filterMap.1 hf
  have hholds := h.comparisons c hc
  unfold comparisonFormula at hfc
  rw [numbered?_eq hs] at hfc
  cases hleft : s.memory.positionNamed? c.name with
  | none => simp [hleft] at hfc
  | some left =>
    have hname : valueNamed s.memory m c.name = some (m left) := by simp [valueNamed, hleft]
    cases hbound : c.bound with
    | integer n =>
      obtain rfl : ⟨c.relation, .unknown left, .integer n⟩ = f := by simpa [hleft, hbound] using hfc
      exact hholds (m left) n hname (by simp [Bound.value?, hbound])
    | named name =>
      simp only [hleft, hbound, numbered?_eq hs] at hfc
      cases hright : s.memory.positionNamed? name with
      | none => simp [hright] at hfc
      | some right =>
        obtain rfl : ⟨c.relation, .unknown left, .unknown right⟩ = f := by simpa [hright] using hfc
        exact hholds (m left) (m right) hname (by simp [Bound.value?, hbound, valueNamed, hright])

/-- Each formula of the problem of a request is the equation of a variable on the path, an assertion, or holds of every
solution in the field. -/
theorem cases_of_mem_requestProblem (hs : s.memory.Aligned) (h : FieldSolution prime s r assertions path m)
    (hp : requestProblem s r assertions path = .ok (some p)) (hf : f ∈ p) :
    (∃ v t, f = ⟨.equal, .unknown v.number, t⟩ ∧ ∀ a, Prescribes (s.Open r path) a v (t.eval a)) ∨
      (∃ a ∈ assertions, f = ⟨.equal, .unknown a.number, .integer a.value.value⟩) ∨ f.Holds m := by
  obtain ⟨recorded, asserted, fixed, hrecorded, hasserted, hfixed, rfl⟩ := parts_of_requestProblem hp
  rcases List.mem_append.1 hf with hf | hf
  · rcases List.mem_append.1 hf with hf | hf
    · rcases List.mem_append.1 hf with hf | hf
      · exact Or.inl (exists_prescribes_of_mem (fun _ => open_iff) hrecorded hf)
      · exact Or.inr (Or.inl (exists_assertion_of_mem hasserted hf))
    · exact Or.inr (Or.inr (holds_of_values hs h hfixed f hf))
  · exact Or.inr (Or.inr (holds_of_comparisons hs h f hf))

/-- What a solution in the field does not satisfy over the integers wraps around. -/
theorem wraps_of_not_holds (hs : s.memory.Aligned) (h : FieldSolution prime s r assertions path m)
    (hp : requestProblem s r assertions path = .ok (some p)) (hf : f ∈ p) (hnot : ¬ f.Holds m) :
    Wraps prime s r assertions path m f := by
  rcases cases_of_mem_requestProblem hs h hp hf with ⟨v, t, rfl, hv⟩ | ⟨a, ha, rfl⟩ | hholds
  · exact Or.inl ⟨v, t, rfl, hv m, fun hin => hnot (eq_of_modEq (h.recorded v _ (hv m)) (h.range _) hin)⟩
  · exact Or.inr ⟨a, ha, rfl, fun hin => hnot (eq_of_modEq (h.asserted a ha) (h.range _) hin)⟩
  · exact absurd hholds hnot

/-- What fails when the path is computed over the integers is about a variable that has left the field. -/
theorem escapes_of_not_holds (hs : s.memory.Aligned) (h : FieldSolution prime s r assertions path m)
    (hp : requestProblem s r assertions path = .ok (some p)) (hz : Lifts prime s r path m z) (hf : f ∈ p)
    (hnot : ¬ f.Holds z) : Escapes prime assertions z f := by
  rcases cases_of_mem_requestProblem hs h hp hf with ⟨v, t, rfl, hv⟩ | ⟨a, ha, rfl⟩ | hholds
  · exact absurd (hz.recorded v _ (hv z)) hnot
  · by_cases hin : InField prime a.value.value
    · refine Or.inl ⟨a.number, by simp [Formula.unknowns, Term.unknowns], fun hstays => hnot ?_⟩
      exact eq_of_modEq ((hz.congruent _).trans (h.asserted a ha)) hstays hin
    · exact Or.inr ⟨a, ha, rfl, hin⟩
  · by_contra hstays
    refine hnot ((f.holds_congr fun n hn => ?_).1 hholds)
    refine (eq_of_modEq (hz.congruent n) ?_ (h.range n)).symm
    by_contra hout
    exact hstays (Or.inl ⟨n, hn, hout⟩)

/-- Where values are made of earlier variables, a solution in the field is one over the integers modulo the prime,
whichever integers are chosen for the variables without a value. -/
theorem exists_lifts (hs : s.memory.Aligned) (h : FieldSolution prime s r assertions path m)
    (hp : requestProblem s r assertions path = .ok (some p)) (hback : LookBack (s.Open r path)) {i : Nat → Int}
    (hi : ∀ n, i n ≡ m n [ZMOD prime]) : ∃ z, Lifts prime s r path m z ∧
      ∀ n, (∀ v k, Prescribes (s.Open r path) m v k → v.number ≠ n) → z n = i n := by
  obtain ⟨recorded, -, -, hrecorded, -⟩ := parts_of_requestProblem hp
  have hnumber : ∀ v w, s.Open r path v → s.Open r path w → v.number = w.number → v = w :=
    fun v w hv hw => Memory.eq_of_number_eq hs hv.mem_cells hw.mem_cells
  obtain ⟨z, hcongruent, hdone, hchosen⟩ := exists_lift (fun _ => open_iff) hrecorded hnumber hback h.recorded hi
    s.memory.size
  refine ⟨z, ⟨hcongruent, fun v k hv => hdone v k ?_ hv⟩, hchosen⟩
  obtain ⟨q, hq⟩ := List.mem_iff_getElem?.1 hv.mem.mem_cells
  rw [hs.number q v hq]
  exact (List.getElem?_eq_some_iff.1 hq).1

end Requests

open Decompiler

/-- A solution in the field, and a part of the problem that has no solution over the integers. The part has an equation
of the path, or an assertion, that wraps around. When what was recorded on the path is computed over the integers, it
is another formula of the part that fails: one about a variable that has left the field by then. The path can be
computed from any integers with the same remainders, unless a value is used before it is known. -/
theorem wraps_around_of_unsatisfiable {sc : Scene} {imported : Bool} {graphs : List (Option FlowGraph)}
    {text : String} {d : Decompiler} {index : Nat} {r : Request} {path : FlowGraph.Path} {p : Problem} {m : Nat → Int}
    (hgraphs : sc.functions.length ≤ graphs.length)
    (hrun : program sc true imported (start graphs) = .ok text d)
    (hp : requestProblem ⟨d.memory, index, d.blocksOf index⟩ r d.assertions path = .ok (some p))
    (h : FieldSolution sc.printer.prime ⟨d.memory, index, d.blocksOf index⟩ r d.assertions path m) :
    (∀ q ⊆ p, (∀ a, ¬ Problem.Holds q a) →
      (∃ f ∈ q, ¬ f.Holds m ∧
        Wraps sc.printer.prime ⟨d.memory, index, d.blocksOf index⟩ r d.assertions path m f) ∧
      ∀ z, Lifts sc.printer.prime ⟨d.memory, index, d.blocksOf index⟩ r path m z →
        ∃ f ∈ q, ¬ f.Holds z ∧ Escapes sc.printer.prime d.assertions z f) ∧
    (LookBack (Subject.Open ⟨d.memory, index, d.blocksOf index⟩ r path) →
      ∀ i : Nat → Int, (∀ n, i n ≡ m n [ZMOD sc.printer.prime]) →
        ∃ z, Lifts sc.printer.prime ⟨d.memory, index, d.blocksOf index⟩ r path m z ∧
          ∀ n, (∀ v k, Prescribes (Subject.Open ⟨d.memory, index, d.blocksOf index⟩ r path) m v k →
            v.number ≠ n) → z n = i n) := by
  have hs : (Subject.mk d.memory index (d.blocksOf index)).memory.Aligned := aligned_of_program hgraphs hrun
  refine ⟨fun q hq hnone => ?_, fun hback i hi => exists_lifts hs h hp hback hi⟩
  have hfails : ∀ a, ∃ f ∈ q, ¬ f.Holds a := fun a => by simpa [Problem.Holds] using hnone a
  refine ⟨?_, fun z hz => ?_⟩
  · obtain ⟨f, hf, hnot⟩ := hfails m
    exact ⟨f, hf, hnot, wraps_of_not_holds hs h hp (hq hf) hnot⟩
  · obtain ⟨f, hf, hnot⟩ := hfails z
    exact ⟨f, hf, hnot, escapes_of_not_holds hs h hp hz (hq hf) hnot⟩

/-- A function of `x` that computes `x + 1`. -/
def successor : Function where
  name := "successor"
  id := 0
  start := 0
  stop := 2
  sites := [.pushing 0 .fp .imm .add (-3) 1 (some 1), .returning 2]
  implicit := []
  explicit := [(.number 0, ⟨"x", .str "felt"⟩)]
  returns := []
  decorators := .arr []
  isImport := false
  entryPoint := true

def successorScene : Scene := ⟨[successor], ⟨.plain, Field.defaultPrime, []⟩⟩

/-- `x` is not negative, and `x + 1` is 0. -/
def successorRequest : Request where
  comparisons := [⟨"v0_x", .atLeast, .integer 0⟩, ⟨"v3", .equal, .integer 0⟩]
  values := []
  solves := ["v0_x"]

def successorProblem : Problem :=
  [⟨.equal, .unknown 3, .sum (.unknown 0) (.integer 1)⟩, ⟨.atLeast, .unknown 0, .integer 0⟩,
    ⟨.equal, .unknown 3, .integer 0⟩]

/-- The largest element of the field is followed by 0. -/
def lastElement (n : Nat) : Int := if n = 0 then Field.defaultPrime - 1 else 0

theorem successor_straightLine : ∀ f ∈ successorScene.functions, f.StraightLine := by
  intro f hf
  obtain rfl := List.mem_singleton.1 hf
  exact ⟨[.pushing 0 .fp .imm .add (-3) 1 (some 1)], .returning 2, rfl, by decide +kernel, rfl⟩

theorem successorProblem_unsatisfiable (m : Nat → Int) : ¬ successorProblem.Holds m := by
  intro h
  have hsum : m 3 = m 0 + 1 :=
    h ⟨.equal, .unknown 3, .sum (.unknown 0) (.integer 1)⟩ (by simp [successorProblem])
  have hleast : (0 : Int) ≤ m 0 :=
    h ⟨.atLeast, .unknown 0, .integer 0⟩ (by simp [successorProblem])
  have hzero : m 3 = 0 := h ⟨.equal, .unknown 3, .integer 0⟩ (by simp [successorProblem])
  omega

def successorCells : List (Nat × String × Option Value) :=
  [(0, "v0_x", none), (1, "v1_callers_function_frame", none), (2, "v2_return_instruction", none),
    (3, "v3", some (.combined (.cells [0]) .addition (.integer 1)))]

theorem successor_run : ∃ text d, program successorScene true true (start [none]) = .ok text d ∧
    d.memory.cells.map (fun v => (v.number, v.name, v.value)) = successorCells ∧ d.assertions = [] ∧
    requestProblem ⟨d.memory, 0, d.blocksOf 0⟩ successorRequest d.assertions [1] = .ok (some successorProblem) ∧
    requestProblems ⟨d.memory, 0, d.blocksOf 0⟩ successorRequest d.assertions = .ok [successorProblem] := by
  have hseen : (after? (program successorScene true true) (start [none])).map (fun d =>
      (d.memory.cells.map fun v => (v.number, v.name, v.value), d.assertions)) = some (successorCells, []) := by
    decide +kernel
  have hproblems : (after? (program successorScene true true) (start [none])).map (fun d =>
      (requestProblem ⟨d.memory, 0, d.blocksOf 0⟩ successorRequest d.assertions [1],
        requestProblems ⟨d.memory, 0, d.blocksOf 0⟩ successorRequest d.assertions)) =
      some (.ok (some successorProblem), .ok [successorProblem]) := by
    decide +kernel
  obtain ⟨d, hd, hseen⟩ := Option.map_eq_some_iff.1 hseen
  rw [hd] at hproblems
  obtain ⟨text, hrun⟩ := after?_eq_some_iff.1 hd
  obtain ⟨hcells, hassertions⟩ := Prod.mk.inj hseen
  obtain ⟨hproblem, hall⟩ := Prod.mk.inj (Option.some.inj hproblems)
  exact ⟨text, d, hrun, hcells, hassertions, hproblem, hall⟩

section Successor

variable {memory : Memory} (hcells : memory.cells.map (fun v => (v.number, v.name, v.value)) = successorCells)

include hcells in
theorem successor_value {v : Variable} {x : Value} (hv : v ∈ memory.cells) (hx : v.value = some x) :
    v.number = 3 ∧ x = .combined (.cells [0]) .addition (.integer 1) := by
  have hmem := List.mem_map_of_mem (f := fun v : Variable => (v.number, v.name, v.value)) hv
  rw [hcells, hx] at hmem
  have hfound : v.number = 3 ∧ v.name = "v3" ∧ x = .combined (.cells [0]) .addition (.integer 1) := by
    simpa [successorCells] using hmem
  exact ⟨hfound.1, hfound.2.2⟩

include hcells in
theorem successor_comparisons : ∀ c ∈ successorRequest.comparisons, c.Holds (valueNamed memory lastElement) := by
  have hname : ∀ name, valueNamed memory lastElement name =
      (["v0_x", "v1_callers_function_frame", "v2_return_instruction", "v3"].findIdx?
        (· == name)).map lastElement := by
    intro name
    have hnames : memory.cells.map (·.name) =
        ["v0_x", "v1_callers_function_frame", "v2_return_instruction", "v3"] := by
      simpa [successorCells, Function.comp_def] using congrArg (List.map fun e => e.2.1) hcells
    rw [← hnames, List.findIdx?_map]
    rfl
  intro c hc a b ha hb
  rw [hname] at ha
  simp only [successorRequest, List.mem_cons, List.not_mem_nil, or_false] at hc
  rcases hc with rfl | rfl
  · obtain rfl : lastElement 0 = a := by simpa [List.findIdx?_cons] using ha
    obtain rfl : (0 : Int) = b := by simpa [Bound.value?] using hb
    decide
  · obtain rfl : lastElement 3 = a := by simpa [List.findIdx?_cons] using ha
    obtain rfl : (0 : Int) = b := by simpa [Bound.value?] using hb
    decide

end Successor

theorem lastElement_inField (n : Nat) : InField Field.defaultPrime (lastElement n) := by
  unfold InField lastElement
  split_ifs
  · decide
  · decide

theorem successor_fieldSolution {s : Subject} {path : FlowGraph.Path}
    (hcells : s.memory.cells.map (fun v => (v.number, v.name, v.value)) = successorCells) :
    FieldSolution Field.defaultPrime s successorRequest [] path lastElement := by
  refine ⟨lastElement_inField, fun v k hv => ?_, by simp, by simp [successorRequest], successor_comparisons hcells⟩
  obtain ⟨x, hx, his⟩ := hv.value
  obtain ⟨hnumber, rfl⟩ := successor_value hcells hv.mem.mem_cells hx
  obtain rfl : k = lastElement 0 + 1 := by
    cases his with
    | combined hleft hright =>
      cases hright
      cases hleft with
      | onPath hfirst =>
        rw [List.mem_singleton.1 hfirst.mem]
        rfl
      | offPath => rfl
  rw [hnumber]
  decide

/-- Computed over the integers, the successor of the largest element leaves the field. -/
theorem wraps_around_successor : ∃ text d, program successorScene true true (start [none]) = .ok text d ∧
    requestProblem ⟨d.memory, 0, d.blocksOf 0⟩ successorRequest d.assertions [1] = .ok (some successorProblem) ∧
    (∀ a, ¬ successorProblem.Holds a) ∧
    FieldSolution Field.defaultPrime ⟨d.memory, 0, d.blocksOf 0⟩ successorRequest d.assertions [1] lastElement ∧
    (∃ f ∈ successorProblem, ¬ f.Holds lastElement ∧
      Wraps Field.defaultPrime ⟨d.memory, 0, d.blocksOf 0⟩ successorRequest d.assertions [1] lastElement f) ∧
    ∃ z, Lifts Field.defaultPrime ⟨d.memory, 0, d.blocksOf 0⟩ successorRequest [1] lastElement z ∧
      z 0 = Field.defaultPrime - 1 ∧
      ∃ f ∈ successorProblem, ¬ f.Holds z ∧ Escapes Field.defaultPrime d.assertions z f := by
  obtain ⟨text, d, hrun, hcells, hassertions, hproblem, -⟩ := successor_run
  have hsolution : FieldSolution Field.defaultPrime ⟨d.memory, 0, d.blocksOf 0⟩ successorRequest d.assertions [1]
      lastElement := by
    rw [hassertions]
    exact successor_fieldSolution hcells
  have hback : LookBack (Subject.Open ⟨d.memory, 0, d.blocksOf 0⟩ successorRequest [1]) := by
    intro v hv x hx ns hns n hn
    obtain ⟨hnumber, rfl⟩ := successor_value hcells hv.mem_cells hx
    obtain rfl : ns = [0] := by simpa [Value.operands] using hns
    rw [hnumber, List.mem_singleton.1 hn]
    decide
  obtain ⟨hparts, hlifts⟩ := wraps_around_of_unsatisfiable (by decide) hrun hproblem hsolution
  obtain ⟨hwraps, hescapes⟩ := hparts _ (List.Subset.refl _) successorProblem_unsatisfiable
  obtain ⟨z, hz, hchosen⟩ := hlifts hback lastElement fun n => Int.ModEq.refl _
  refine ⟨text, d, hrun, hproblem, successorProblem_unsatisfiable, hsolution, hwraps, z, hz, ?_, hescapes z hz⟩
  refine hchosen 0 fun v k hv => ?_
  obtain ⟨x, hx, -⟩ := hv.value
  rw [(successor_value hcells hv.mem.mem_cells hx).1]
  decide

/-- All problems of a request on straight-line code can be unsatisfiable while elements of the field satisfy all that
was recorded, modulo the prime, and all that is asked for. -/
theorem unsatisfiable_with_fieldSolution : ∃ text d ps m,
    (∀ f ∈ successorScene.functions, f.StraightLine) ∧
    program successorScene true true (start [none]) = .ok text d ∧
    requestProblems ⟨d.memory, 0, d.blocksOf 0⟩ successorRequest d.assertions = .ok ps ∧ ps ≠ [] ∧
    (∀ p ∈ ps, ∀ a, ¬ Problem.Holds p a) ∧
    (∀ n, InField successorScene.printer.prime (m n)) ∧
    (∀ v ∈ d.memory.cells, ∀ x k, v.value = some x → x.absolute? (fun n => some (m n)) = some k →
      m v.number ≡ k [ZMOD successorScene.printer.prime]) ∧
    d.assertions = [] ∧ ∀ c ∈ successorRequest.comparisons, c.Holds (valueNamed d.memory m) := by
  obtain ⟨text, d, hrun, hcells, hassertions, -, hps⟩ := successor_run
  refine ⟨text, d, _, lastElement, successor_straightLine, hrun, hps, by simp, ?_, lastElement_inField, ?_,
    hassertions, successor_comparisons hcells⟩
  · intro p hp a
    rw [List.mem_singleton.1 hp]
    exact successorProblem_unsatisfiable a
  · intro v hv x k hx hk
    obtain ⟨hnumber, rfl⟩ := successor_value hcells hv hx
    obtain rfl : lastElement 0 + 1 = k := by simpa [Value.absolute?, Operand.eval, Operator.apply] using hk
    rw [hnumber]
    decide

end Symbolic

end Cairoscope
