import Cairoscope.Proofs.Documents
import Cairoscope.Proofs.Modes
import Cairoscope.Proofs.PathValues
import Cairoscope.Symbolic.Search

/-! Test cases are real. An argument that a model does not mention gets 0, which is right because the problem
does not mention it either: each test case belongs to values of all variables that solve the problem of a
path. -/

namespace Cairoscope.Symbolic

open Decompiler FlowGraph

/-- What is expected of a solver's answer: a value for each unknown of the problem and for nothing else, and
there is a solution with these values. -/
structure Model.Fits (m : Model) (p : Problem) : Prop where
  unknowns : ∀ n, n ∈ m.map Prod.fst ↔ n ∈ p.unknowns
  solution : ∃ a : Nat → Int, (∀ e ∈ m, a e.1 = e.2) ∧ p.Holds a

theorem Model.value_of_mem {m : Model} {a : Nat → Int} (h : ∀ e ∈ m, a e.1 = e.2) {n : Nat}
    (hn : n ∈ m.map Prod.fst) : m.value n = a n := by
  obtain ⟨e, he, rfl⟩ := List.mem_map.1 hn
  cases hlookup : m.lookup e.1 with
  | none =>
    have := List.lookup_eq_none_iff.1 hlookup e he
    simp at this
  | some z =>
    obtain ⟨before, after, hsplit, -⟩ := List.lookup_eq_some_iff.1 hlookup
    rw [Model.value, hlookup, Option.getD_some]
    exact (h (e.1, z) (by simp [hsplit])).symm

theorem Model.value_of_not_mem {m : Model} {n : Nat} (hn : n ∉ m.map Prod.fst) : m.value n = 0 := by
  have hlookup : m.lookup n = none := by
    rw [List.lookup_eq_none_iff]
    intro e he
    rw [bne_iff_ne]
    rintro rfl
    exact hn (List.mem_map_of_mem he)
  rw [Model.value, hlookup, Option.getD_none]

/-- With 0 for all variables that the problem does not mention, the values are a solution. -/
theorem Model.Fits.holds {m : Model} {p : Problem} (h : m.Fits p) : p.Holds m.value := by
  obtain ⟨a, hagree, hholds⟩ := h.solution
  exact (p.holds_congr fun n hn => (value_of_mem hagree ((h.unknowns n).2 hn)).symm).1 hholds

theorem perm_byName (pairs : List (String × Int)) : (byName pairs).Perm pairs :=
  List.mergeSort_perm pairs _

theorem pairwise_byName (pairs : List (String × Int)) :
    (byName pairs).Pairwise fun x y => x.1 ≤ y.1 := by
  have hsorted : (byName pairs).Pairwise fun x y => decide (x.1 ≤ y.1) = true := by
    apply List.pairwise_mergeSort
    · intro x y z hxy hyz
      exact decide_eq_true (String.le_trans (of_decide_eq_true hxy) (of_decide_eq_true hyz))
    · intro x y
      simpa using String.le_total x.1 y.1
  exact hsorted.imp of_decide_eq_true

theorem strict_byName {pairs : List (String × Int)} (h : (pairs.map Prod.fst).Nodup) :
    ((byName pairs).map Prod.fst).Pairwise (· < ·) := by
  have hnodup : ((byName pairs).map Prod.fst).Nodup := ((perm_byName pairs).map Prod.fst).nodup_iff.2 h
  have hsorted : ((byName pairs).map Prod.fst).Pairwise (· ≤ ·) :=
    List.pairwise_map.2 (pairwise_byName pairs)
  exact hsorted.imp₂ (fun x y hle hne => String.not_le.1 fun hge => hne (String.le_antisymm hle hge)) hnodup

theorem nodup_eraseDups {α : Type} [BEq α] [LawfulBEq α] (as : List α) : as.eraseDups.Nodup := by
  induction hn : as.length using Nat.strong_induction_on generalizing as with
  | _ n ih =>
    cases as with
    | nil => simp
    | cons a as =>
      rw [List.eraseDups_cons, List.nodup_cons, List.mem_eraseDups]
      refine ⟨by simp, ih _ ?_ _ rfl⟩
      have := List.length_filter_le (fun b => !b == a) as
      simp only [List.length_cons] at hn
      omega

section Cases

variable {s : Subject} {solver : Solver} {cases : List TestCase} {c : TestCase}

theorem nodup_names_arguments (h : s.memory.Aligned) : (s.arguments.map (·.name)).Nodup :=
  (Memory.nodup_names h).sublist (List.filter_sublist.map _)

/-- A name that a model has a value for tells the variable. -/
theorem mem_namedValues (hs : s.memory.Aligned) {m : Model} {v : Variable} {k : Int}
    (h : (v.name, k) ∈ namedValues s m) : (v.number, k) ∈ m := by
  obtain ⟨e, he, hpair⟩ := List.mem_map.1 (mem_of_mem_assocOfPairs h)
  obtain ⟨hname, rfl⟩ := Prod.mk.inj hpair
  have hnumber : e.1 = v.number := by
    unfold Memory.nameOf at hname
    cases hcell : s.memory.cells[e.1]? with
    | none =>
      rw [hcell] at hname
      exact Variable.nameOf_inj hname
    | some w =>
      rw [hcell] at hname
      rw [← hs.number e.1 w hcell]
      exact Variable.nameOf_inj hname
  rw [← hnumber]
  exact he

theorem mem_keys_namedValues (hs : s.memory.Aligned) {m : Model} {v : Variable} (hv : v ∈ s.memory.cells)
    (h : v.number ∈ m.map Prod.fst) : v.name ∈ (namedValues s m).map Prod.fst := by
  obtain ⟨e, he, hnumber⟩ := List.mem_map.1 h
  obtain ⟨q, hq⟩ := List.mem_iff_getElem?.1 hv
  rw [namedValues, mem_keys_assocOfPairs, List.map_map, List.mem_map]
  refine ⟨e, he, ?_⟩
  change s.memory.nameOf e.1 = v.name
  rw [Memory.nameOf, hnumber, hs.number q v hq, hq]

theorem nodup_keys_withZeros (names : List String) {values : List (String × Int)}
    (h : (values.map Prod.fst).Nodup) : ((withZeros names values).map Prod.fst).Nodup := by
  unfold withZeros
  induction names generalizing values with
  | nil => exact h
  | cons name names ih =>
    rw [List.foldl_cons]
    apply ih
    split_ifs
    · exact h
    · exact nodup_keys_assocSet h

/-- Values stay, and the names that have none get 0. -/
theorem mem_withZeros {names : List String} {values : List (String × Int)} {e : String × Int} :
    e ∈ withZeros names values ↔ e ∈ values ∨ e.2 = 0 ∧ e.1 ∈ names ∧ e.1 ∉ values.map Prod.fst := by
  unfold withZeros
  induction names generalizing values with
  | nil => simp
  | cons name names ih =>
    rw [List.foldl_cons, ih]
    by_cases hname : name ∈ values.map Prod.fst
    · rw [if_pos (by simpa using hname)]
      refine or_congr_right ⟨fun ⟨hzero, hin, hnot⟩ => ⟨hzero, List.mem_cons_of_mem _ hin, hnot⟩, ?_⟩
      rintro ⟨hzero, hin, hnot⟩
      refine ⟨hzero, (List.mem_cons.1 hin).resolve_left ?_, hnot⟩
      rintro rfl
      exact hnot hname
    · rw [if_neg (by simpa using hname), assocSet_of_not_mem hname]
      simp only [List.mem_append, List.map_append, List.map_cons, List.map_nil, List.mem_cons, List.not_mem_nil,
        or_false, not_or]
      constructor
      · rintro ((hold | rfl) | ⟨hzero, hin, hnot, -⟩)
        · exact Or.inl hold
        · exact Or.inr ⟨rfl, Or.inl rfl, hname⟩
        · exact Or.inr ⟨hzero, Or.inr hin, hnot⟩
      · rintro (hold | ⟨hzero, hin, hnot⟩)
        · exact Or.inl (Or.inl hold)
        · by_cases hfirst : e.1 = name
          · exact Or.inl (Or.inr (Prod.ext hfirst hzero))
          · exact Or.inr ⟨hzero, hin.resolve_left hfirst, hnot, hfirst⟩

theorem mem_testCase_iff {m : Model} {e : String × Int} : e ∈ testCase s m ↔
    (e ∈ namedValues s m ∨ e.2 = 0 ∧ e.1 ∉ (namedValues s m).map Prod.fst) ∧ e.1 ∈ s.arguments.map (·.name) := by
  unfold testCase
  dsimp only
  rw [(perm_byName _).mem_iff, List.mem_filter, mem_withZeros, List.contains_iff_mem]
  tauto

theorem nodup_keys_testCase (s : Subject) (m : Model) :
    (((withZeros (s.arguments.map (·.name)) (namedValues s m)).filter fun e =>
      (s.arguments.map (·.name)).contains e.1).map Prod.fst).Nodup :=
  (nodup_keys_withZeros _ (nodup_keys_assocOfPairs _)).sublist (List.filter_sublist.map _)

/-- A test case lists the arguments of the function, each once. -/
theorem map_fst_testCase (hs : s.memory.Aligned) (m : Model) :
    ((testCase s m).map Prod.fst).Perm (s.arguments.map (·.name)) := by
  have hnodup : ((testCase s m).map Prod.fst).Nodup :=
    ((perm_byName _).map Prod.fst).nodup_iff.2 (nodup_keys_testCase s m)
  refine (List.perm_ext_iff_of_nodup hnodup (nodup_names_arguments hs)).2 fun name => ⟨fun h => ?_, fun h => ?_⟩
  · obtain ⟨e, he, rfl⟩ := List.mem_map.1 h
    exact (mem_testCase_iff.1 he).2
  · by_cases hvalue : name ∈ (namedValues s m).map Prod.fst
    · obtain ⟨e, he, rfl⟩ := List.mem_map.1 hvalue
      exact List.mem_map_of_mem (mem_testCase_iff.2 ⟨Or.inl he, h⟩)
    · exact List.mem_map.2 ⟨(name, 0), mem_testCase_iff.2 ⟨Or.inr ⟨rfl, hvalue⟩, h⟩, rfl⟩

/-- An argument has its integer of the model, or 0 if the model has none. -/
theorem mem_testCase (hs : s.memory.Aligned) {m : Model} {a : Nat → Int} (hm : ∀ e ∈ m, a e.1 = e.2) {v : Variable}
    (hv : v ∈ s.arguments) : (v.name, m.value v.number) ∈ testCase s m := by
  refine mem_testCase_iff.2 ⟨?_, List.mem_map_of_mem hv⟩
  by_cases hnumber : v.number ∈ m.map Prod.fst
  · left
    have hkey := mem_keys_namedValues hs (Subject.mem_arguments.1 hv).1 hnumber
    obtain ⟨⟨_, k⟩, he, rfl⟩ := List.mem_map.1 hkey
    rw [Model.value_of_mem hm hnumber, hm _ (mem_namedValues hs he)]
    exact he
  · refine Or.inr ⟨Model.value_of_not_mem hnumber, fun hkey => hnumber ?_⟩
    obtain ⟨⟨_, k⟩, he, rfl⟩ := List.mem_map.1 hkey
    exact List.mem_map_of_mem (mem_namedValues hs he)

theorem testCase_eq_nil_iff (hs : s.memory.Aligned) {m : Model} : testCase s m = [] ↔ s.arguments = [] := by
  have hlength := (map_fst_testCase hs m).length_eq
  rw [List.length_map, List.length_map] at hlength
  rw [← List.length_eq_zero_iff, hlength, List.length_eq_zero_iff]

/-- A test case comes from a path whose problem the solver has answered. -/
theorem mem_testCases (hs : s.memory.Aligned) (h : testCases solver s = .ok cases) : c ∈ cases ↔
    ∃ ps path p m, paths s.blocks = .ok ps ∧ path ∈ ps ∧ branchProblem s path = .ok p ∧
      solver p = some m ∧ s.arguments ≠ [] ∧ testCase s m = c := by
  unfold testCases at h
  obtain ⟨problems, hproblems, h⟩ := Outcome.bind_eq_ok.1 h
  obtain rfl := Outcome.pure_eq_ok.1 h
  obtain ⟨ps, hps, hmap⟩ := Outcome.bind_eq_ok.1 hproblems
  simp only [List.mem_eraseDups, List.mem_filter, List.mem_map, List.mem_filterMap]
  constructor
  · rintro ⟨⟨m, ⟨p, hp, hm⟩, rfl⟩, hsome⟩
    obtain ⟨path, hpath, hproblem⟩ := Outcome.exists_of_mem_mapM hmap hp
    refine ⟨ps, path, p, m, hps, hpath, hproblem, hm, fun hnone => ?_, rfl⟩
    rw [(testCase_eq_nil_iff hs).2 hnone] at hsome
    cases hsome
  · rintro ⟨ps', path, p, m, hps', hpath, hproblem, hm, hsome, rfl⟩
    obtain rfl := Except.ok.inj (hps'.symm.trans hps)
    obtain ⟨p', hp', hproblem'⟩ := Outcome.exists_mem_of_mapM hmap hpath
    obtain rfl := Except.ok.inj (hproblem'.symm.trans hproblem)
    refine ⟨⟨m, ⟨p', hp', hm⟩, rfl⟩, ?_⟩
    rw [Bool.not_eq_true', List.isEmpty_eq_false_iff]
    exact fun hnone => hsome ((testCase_eq_nil_iff hs).1 hnone)

theorem nodup_testCases (h : testCases solver s = .ok cases) : cases.Nodup := by
  unfold testCases at h
  obtain ⟨problems, -, h⟩ := Outcome.bind_eq_ok.1 h
  obtain rfl := Outcome.pure_eq_ok.1 h
  exact nodup_eraseDups _

end Cases

/-- The test cases of a function after a first pass, by a solver whose answers fit. No two are equal. Each
lists the variables that are arguments of the function, every one of them once and in the order of the names,
with values that belong to integers for all variables that agree with some path: with what was recorded on it, and with
the outcomes of its tests. The solver is asked for such integers, and every path for which it finds some has its test
case, unless the function has no arguments. -/
theorem test_cases_real {sc : Scene} {imported : Bool} {graphs : List (Option FlowGraph)} {text : String}
    {d : Decompiler} {index : Nat} {solver : Solver} {cases : List TestCase}
    (hgraphs : sc.functions.length ≤ graphs.length)
    (hrun : program sc true imported (start graphs) = .ok text d)
    (hsolver : ∀ p m, solver p = some m → m.Fits p)
    (h : testCases solver ⟨d.memory, index, d.blocksOf index⟩ = .ok cases) :
    cases.Nodup ∧
    (∀ c ∈ cases, (c.map Prod.fst).Pairwise (· < ·) ∧
      (c.map Prod.fst).Perm ((d.memory.cells.filter fun v =>
        v.function == some index && v.isArgument).map (·.name)) ∧
      ∃ ps path a, paths (d.blocksOf index) = .ok ps ∧ path ∈ ps ∧
        Subject.Allows ⟨d.memory, index, d.blocksOf index⟩ path a ∧
        ∀ v ∈ d.memory.cells, v.function = some index → v.isArgument = true → (v.name, a v.number) ∈ c) ∧
    ∀ ps path p, paths (d.blocksOf index) = .ok ps → path ∈ ps →
      branchProblem ⟨d.memory, index, d.blocksOf index⟩ path = .ok p →
      (∀ a, p.Holds a ↔ Subject.Allows ⟨d.memory, index, d.blocksOf index⟩ path a) ∧
      ∀ m, solver p = some m → (∃ v ∈ d.memory.cells, v.function = some index ∧ v.isArgument = true) →
        ∃ c ∈ cases, ∀ v ∈ d.memory.cells, v.function = some index → v.isArgument = true →
          (v.name, m.value v.number) ∈ c := by
  have hs : (Subject.mk d.memory index (d.blocksOf index)).memory.Aligned := aligned_of_program hgraphs hrun
  have hlisted : ∀ {p : Problem} {m : Model}, solver p = some m → ∀ v ∈ d.memory.cells, v.function = some index →
      v.isArgument = true → (v.name, m.value v.number) ∈ testCase ⟨d.memory, index, d.blocksOf index⟩ m := by
    intro p m hm v hv hfunction hargument
    obtain ⟨a, hagree, -⟩ := (hsolver p m hm).solution
    exact mem_testCase hs hagree (Subject.mem_arguments.2 ⟨hv, hfunction, hargument⟩)
  refine ⟨nodup_testCases h, fun c hc => ?_, fun ps path p hps hpath hp => ⟨fun a => ?_, ?_⟩⟩
  · obtain ⟨ps, path, p, m, hps, hpath, hp, hm, -, rfl⟩ := (mem_testCases hs h).1 hc
    exact ⟨strict_byName (nodup_keys_testCase _ m), map_fst_testCase hs m, ps, path, m.value, hps, hpath,
      (holds_branchProblem_iff hps hpath hp).1 (hsolver p m hm).holds, hlisted hm⟩
  · exact holds_branchProblem_iff hps hpath hp
  · rintro m hm ⟨v, hv⟩
    have harguments : (Subject.mk d.memory index (d.blocksOf index)).arguments ≠ [] :=
      List.ne_nil_of_mem (Subject.mem_arguments.2 hv)
    exact ⟨_, (mem_testCases hs h).2 ⟨ps, path, p, m, hps, hpath, hp, hm, harguments, rfl⟩, hlisted hm⟩

def solveAll : Solver := fun p => (solve p).map fun m => p.unknowns.map fun n => (n, m.value n)

theorem fits_of_solveAll {p : Problem} {m : Model} (h : solveAll p = some m) : m.Fits p := by
  obtain ⟨found, hfound, rfl⟩ := Option.map_eq_some_iff.1 h
  refine ⟨fun n => by simp, found.value, fun e he => ?_, holds_of_solve hfound⟩
  obtain ⟨n, -, rfl⟩ := List.mem_map.1 he
  rfl

/-- `assert x = 7`, and then `if y == 0` with both alternatives. -/
def assertsFirst : Function := { alternatives with
  stop := 11
  sites := [.setting 0 .fp (-4) 7, .pushing 2 .fp .fp .op1 (-1) (-3) none, .jumping 3 .jnz 6,
    .pushing 5 .fp .imm .op1 (-1) 1 (some 1), .jumping 7 .jumpRel 4,
    .pushing 9 .fp .imm .op1 (-1) 1 (some 2), .returning 11]
  explicit := [(.number 0, ⟨"x", .str "felt"⟩), (.number 1, ⟨"y", .str "felt"⟩)] }

def assertsFirstScene : Scene := ⟨[assertsFirst], ⟨.plain, Field.defaultPrime, []⟩⟩

/-- On the path that ends before the test `y` is not mentioned, and 0 is listed for it. -/
theorem unmentioned_argument_listed : ∃ text d cases,
    program assertsFirstScene true true (start [none]) = .ok text d ∧
      testCases solveAll ⟨d.memory, 0, d.blocksOf 0⟩ = .ok cases ∧ cases.Nodup ∧
      (∀ c ∈ cases, (c.map Prod.fst).Pairwise (· < ·) ∧ (c.map Prod.fst).Perm ["v0_x", "v1_y"]) ∧
      ∃ c ∈ cases, ("v0_x", 7) ∈ c ∧ ("v1_y", 0) ∈ c := by
  have hproblem : (after? (program assertsFirstScene true true) (start [none])).map (fun d =>
      (paths (d.blocksOf 0), branchProblem ⟨d.memory, 0, d.blocksOf 0⟩ [0])) =
      some (.ok [[0], [1, 2, 4], [1, 3, 4]], .ok [⟨.equal, .unknown 0, .integer 7⟩]) := by
    decide +kernel
  have hseen : (after? (program assertsFirstScene true true) (start [none])).map (fun d =>
      ((testCases solveAll ⟨d.memory, 0, d.blocksOf 0⟩).toOption.isSome,
        (d.memory.cells.filter fun v => v.function == some 0 && v.isArgument).map fun v =>
          (v.name, v.number))) = some (true, [("v0_x", 0), ("v1_y", 1)]) := by
    decide +kernel
  have hsolved : solveAll [⟨.equal, .unknown 0, .integer 7⟩] = some [(0, 7)] := by decide +kernel
  obtain ⟨d, hd, hseen⟩ := Option.map_eq_some_iff.1 hseen
  rw [hd] at hproblem
  obtain ⟨hpaths, hproblem⟩ := Prod.mk.inj (Option.some.inj hproblem)
  obtain ⟨hends, harguments⟩ := Prod.mk.inj hseen
  obtain ⟨text, hrun⟩ := after?_eq_some_iff.1 hd
  obtain ⟨cases, hcases⟩ : ∃ cases, testCases solveAll ⟨d.memory, 0, d.blocksOf 0⟩ = .ok cases := by
    cases hall : testCases solveAll ⟨d.memory, 0, d.blocksOf 0⟩ with
    | ok cases => exact ⟨cases, rfl⟩
    | error e => simp [hall, Except.toOption] at hends
  obtain ⟨hnodup, hlisted, hanswered⟩ := test_cases_real (by decide) hrun (fun _ _ => fits_of_solveAll) hcases
  have hargument : ∀ name n, (name, n) ∈ [("v0_x", 0), ("v1_y", 1)] → ∃ v ∈ d.memory.cells,
      v.function = some 0 ∧ v.isArgument = true ∧ v.name = name ∧ v.number = n := by
    intro name n h
    rw [← harguments] at h
    obtain ⟨v, hv, hpair⟩ := List.mem_map.1 h
    obtain ⟨hmem, hfunction⟩ := List.mem_filter.1 hv
    rw [Bool.and_eq_true, beq_iff_eq] at hfunction
    obtain ⟨hname, hnumber⟩ := Prod.mk.inj hpair
    exact ⟨v, hmem, hfunction.1, hfunction.2, hname, hnumber⟩
  have hnames := congrArg (List.map Prod.fst) harguments
  rw [List.map_map] at hnames
  obtain ⟨x, hx, hxfunction, hxargument, hxname, hxnumber⟩ := hargument "v0_x" 0 (by simp)
  obtain ⟨y, hy, hyfunction, hyargument, hyname, hynumber⟩ := hargument "v1_y" 1 (by simp)
  obtain ⟨-, hfound⟩ := hanswered _ [0] _ hpaths (by simp) hproblem
  obtain ⟨c, hc, hvalues⟩ := hfound _ hsolved ⟨x, hx, hxfunction, hxargument⟩
  refine ⟨text, d, cases, hrun, hcases, hnodup, fun c hc => ?_, c, hc, ?_, ?_⟩
  · obtain ⟨hordered, hperm, -⟩ := hlisted c hc
    exact ⟨hordered, hperm.trans (List.Perm.of_eq hnames)⟩
  · have hvalue := hvalues x hx hxfunction hxargument
    rwa [hxname, hxnumber] at hvalue
  · have hvalue := hvalues y hy hyfunction hyargument
    rwa [hyname, hynumber] at hvalue

end Cairoscope.Symbolic
