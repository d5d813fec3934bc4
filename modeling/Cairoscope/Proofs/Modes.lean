import Cairoscope.Proofs.Passes

/-! The variables of a first pass alone, and of both passes. A second pass finds all cells that the first
one has looked up, but it appends the results of calls once more: the two modes name the same variables
if and only if no call gives a result. -/

namespace Cairoscope

namespace Memory

def isLabelled (name : String) : Bool := name.toList.contains '_'

theorem isLabelled_nameOf (n : Nat) (label : Option String) :
    isLabelled (Variable.nameOf n label) = label.isSome := by
  have hdigits : '_' ∉ Nat.toDigits 10 n := fun hmem =>
    absurd (Nat.isDigit_of_mem_toDigits (by decide) (by decide) hmem) (by decide)
  unfold isLabelled
  rw [Variable.toList_nameOf]
  cases label with
  | none => simp [Variable.tail, hdigits]
  | some l => simp [Variable.tail]

def labelled (m : Memory) : Nat := m.names.countP isLabelled

theorem countP_nameOf (labels : List (Option String)) (first : Nat) :
    (List.zipWith Variable.nameOf (List.range' first labels.length) labels).countP isLabelled =
      labels.countP (·.isSome) := by
  induction labels generalizing first with
  | nil => rfl
  | cons label labels ih =>
    rw [List.length_cons, List.range'_succ, List.zipWith_cons_cons, List.countP_cons, List.countP_cons,
      ih, isLabelled_nameOf]

def Operation.labels : Operation → Nat
  | .new label _ _ _ _ => if label.isSome then 1 else 0
  | .enter _ arguments _ => arguments.length + 2
  | _ => 0

theorem countP_labelsOf (m : Memory) (op : Operation) :
    (m.labelsOf op).countP (·.isSome) = op.labels := by
  cases op with
  | get r offset => simp [labelsOf, Operation.labels]
  | new label function block isResult isArgument =>
    cases label with
    | none => rfl
    | some l => rfl
  | enter function arguments block =>
    simp [labelsOf, Operation.labels, frameLabels, List.countP_map, Function.comp_def]
  | moveAp n => rfl
  | moveFp n => rfl

theorem labelled_perform (m : Memory) (op : Operation) :
    (m.perform op).labelled = m.labelled + op.labels := by
  rw [labelled, (appends_perform m op).names_eq, List.countP_append, countP_nameOf, countP_labelsOf]
  rfl

def totalLabels : List Operation → Nat
  | [] => 0
  | op :: ops => op.labels + totalLabels ops

theorem totalLabels_append (ops ops' : List Operation) :
    totalLabels (ops ++ ops') = totalLabels ops + totalLabels ops' := by
  induction ops with
  | nil => exact (Nat.zero_add _).symm
  | cons op ops ih => rw [List.cons_append, totalLabels, totalLabels, ih, Nat.add_assoc]

theorem totalLabels_flatMap_eq_zero {α : Type} {f : α → List Operation} {as : List α} :
    totalLabels (as.flatMap f) = 0 ↔ ∀ a ∈ as, totalLabels (f a) = 0 := by
  induction as with
  | nil => simp [totalLabels]
  | cons a as ih => rw [List.flatMap_cons, totalLabels_append, Nat.add_eq_zero_iff, ih, List.forall_mem_cons]

theorem labelled_performAll (m : Memory) (ops : List Operation) :
    (m.performAll ops).labelled = m.labelled + totalLabels ops := by
  induction ops generalizing m with
  | nil => rfl
  | cons op ops ih => rw [performAll_cons, ih, labelled_perform, Nat.add_assoc]; rfl

theorem size_le_performAll (m : Memory) (ops : List Operation) : m.size ≤ (m.performAll ops).size := by
  obtain ⟨labels, h⟩ := appends_performAll m ops
  rw [h.size_eq]
  omega

/-- Look-ups and moves that have been made on one memory find all their cells in another that has the
registers in the same places and no fewer cells than they left. -/
theorem cells_performAll_again {ops : List Operation} {m m' : Memory}
    (hops : ∀ op ∈ ops, op.InFrame) (hlabels : totalLabels ops = 0) (hap : m'.ap = m.ap)
    (hfp : m'.fp = m.fp) (hsize : (m.performAll ops).size ≤ m'.size) :
    (m'.performAll ops).cells = m'.cells := by
  induction ops generalizing m m' with
  | nil => rfl
  | cons op ops ih =>
    have hop : op.InFrame := hops op (by simp)
    obtain ⟨hnone, hrest⟩ : op.labels = 0 ∧ totalLabels ops = 0 := Nat.add_eq_zero_iff.1 hlabels
    have hops' : ∀ op' ∈ ops, op'.InFrame := fun op' hop' => hops op' (by simp [hop'])
    rw [performAll_cons] at hsize ⊢
    cases op with
    | get r offset =>
      have hregister : m'.registerAt r = m.registerAt r := by
        cases r with
        | ap => exact hap
        | fp => exact hfp
      have hle : (m'.registerAt r + offset + 1).toNat ≤ m'.size := by
        have hgrown := (size_le_performAll (m.perform (.get r offset)) ops).trans hsize
        rw [perform_get, size_growTo, ← hregister] at hgrown
        omega
      rw [perform_get m', growTo_of_le hle]
      refine ih (m := m.perform (.get r offset)) hops' hrest ?_ ?_ hsize
      · rw [perform_get]
        exact hap.trans (registerAt_growTo m _ .ap).symm
      · rw [perform_get]
        exact hfp.trans (registerAt_growTo m _ .fp).symm
    | new label function block isResult isArgument =>
      -- a new variable in a frame has a label
      have hlabel : label.isSome := hop
      rw [Operation.labels, if_pos hlabel] at hnone
      cases hnone
    | enter function arguments block => exact False.elim hop
    | moveAp n =>
      exact ih (m := m.perform (.moveAp n)) hops' hrest
        (congrArg (· + n) hap) hfp hsize
    | moveFp n => exact False.elim hop

/-- Operations without labels can be made twice: after `ap` has gone back, they change nothing more. -/
theorem alike_twice {ops : List Operation} (hops : ∀ op ∈ ops, op.InFrame) (hlabels : totalLabels ops = 0)
    (m : Memory) :
    (m.performAll ops).Alike ((m.performAll ops).performAll (.moveAp (-totalRise ops) :: ops)) := by
  rw [performAll_cons]
  have hap : ((m.performAll ops).perform (.moveAp (-totalRise ops))).ap = m.ap := by
    rw [ap_perform, ap_performAll]
    change m.ap + totalRise ops + -totalRise ops = m.ap
    omega
  have hcells := cells_performAll_again hops hlabels hap (fp_performAll hops m) (Nat.le_refl _)
  refine ⟨congrArg (List.map Variable.name) hcells, ?_, ?_, ?_⟩
  · obtain ⟨labels, h⟩ := appends_performAll ((m.performAll ops).perform (.moveAp (-totalRise ops))) ops
    exact h.counter_eq hcells
  · rw [ap_performAll, hap, ap_performAll]
  · exact fp_performAll hops _

end Memory

def Scene.GivesResults (sc : Scene) (s : Site) : Prop :=
  s.instruction.opcode = .call ∧ s.instruction.imm ≠ none ∧
    ∃ index callee, sc.calleeAt s = some (index, callee) ∧ callee.returns ≠ []

namespace Decompiler

open Memory (totalLabels)

theorem totalLabels_lookBelow (n : Nat) : totalLabels (lookBelow n) = 0 := by
  induction n with
  | zero => rfl
  | succ n ih => rw [lookBelow, totalLabels, ih]; rfl

theorem totalLabels_lookResults (i : Nat) (names : List String) :
    totalLabels (lookResults i names) = 0 := by
  induction names generalizing i with
  | nil => rfl
  | cons name names ih => rw [lookResults, totalLabels, ih]; rfl

theorem totalLabels_pushResults (callee : Nat) (returns : List String) :
    totalLabels (pushResults callee returns) = returns.length := by
  induction returns with
  | nil => rfl
  | cons name names ih =>
    rw [pushResults, List.flatMap_cons, Memory.totalLabels_append, ← pushResults, ih, List.length_cons]
    exact Nat.add_comm _ _

theorem totalLabels_callOperations (index : Nat) (callee : Function) :
    totalLabels (callOperations index callee) = callee.returns.length := by
  rw [callOperations, Memory.totalLabels_append, Memory.totalLabels_append, totalLabels_lookBelow,
    totalLabels_pushResults, totalLabels_lookResults, Artifact.Layout.names, List.length_map]
  omega

theorem totalLabels_equalityOperations (i : Instruction) : totalLabels (equalityOperations i) = 0 := by
  unfold equalityOperations
  dsimp only
  split_ifs <;> split <;> rfl

theorem totalLabels_statementOperations (sc : Scene) (returns : Nat) (s : Site) :
    totalLabels (statementOperations sc returns s) = 0 ↔ ¬ sc.GivesResults s := by
  unfold statementOperations Scene.GivesResults
  cases s.instruction.opcode with
  | assertEq => simp [Memory.totalLabels_append, totalLabels_equalityOperations, totalLabels,
      Memory.Operation.labels]
  | nop => dsimp only; split_ifs <;> simp [totalLabels, Memory.Operation.labels]
  | call =>
    cases s.instruction.imm with
    | none => simp [totalLabels]
    | some imm =>
      cases sc.calleeAt s with
      | none => simp [totalLabels]
      | some p => simp [totalLabels_callOperations, Prod.ext_iff]
  | ret => simp [totalLabels_lookBelow]

def isWalked (imported : Bool) (f : Function) : Bool := !(f.isImport && !imported)

theorem isWalked_eq_true {imported : Bool} {f : Function} :
    isWalked imported f = true ↔ (f.isImport = true → imported = true) := by
  unfold isWalked
  cases f.isImport <;> cases imported <;> decide

section Modes

variable {sc : Scene} {imported : Bool} {fs : List Function}

theorem functionOperations_of_walked {f : Function} (firstPassOnly : Bool)
    (hwalked : isWalked imported f = true) :
    functionOperations sc firstPassOnly imported f = .enter none f.parameterNames 0 ::
      if firstPassOnly then passOperations sc f
      else passOperations sc f ++
        .moveAp (-Memory.totalRise (passOperations sc f)) :: passOperations sc f := by
  rw [isWalked, Bool.not_eq_true'] at hwalked
  rw [functionOperations, hwalked, if_neg Bool.false_ne_true]

/-- The modes agree on a function that is only entered. -/
theorem functionOperations_of_not_walked {f : Function} (firstPassOnly : Bool)
    (hskipped : ¬ isWalked imported f = true) :
    functionOperations sc firstPassOnly imported f = [.enter none f.parameterNames 0] := by
  rw [isWalked, Bool.not_eq_true', Bool.not_eq_false] at hskipped
  rw [functionOperations, if_pos hskipped]

/-- The second passes bring the labels of the first ones once more. -/
theorem totalLabels_programOperations (sc : Scene) (imported : Bool) (fs : List Function) :
    totalLabels (programOperations sc false imported fs) =
      totalLabels (programOperations sc true imported fs) +
        totalLabels ((fs.filter (isWalked imported)).flatMap (passOperations sc)) := by
  induction fs with
  | nil => rfl
  | cons f fs ih =>
    simp only [programOperations, List.flatMap_cons, Memory.totalLabels_append] at ih ⊢
    rw [ih]
    by_cases hwalked : isWalked imported f = true
    · rw [List.filter_cons_of_pos hwalked, List.flatMap_cons, Memory.totalLabels_append,
        functionOperations_of_walked _ hwalked, functionOperations_of_walked _ hwalked, if_pos rfl,
        if_neg Bool.false_ne_true, totalLabels, totalLabels, Memory.totalLabels_append, totalLabels]
      change _ + (_ + (0 + _)) + _ = _
      omega
    · rw [List.filter_cons_of_neg hwalked, functionOperations_of_not_walked _ hwalked,
        functionOperations_of_not_walked _ hwalked]
      omega

/-- The second passes over functions without labels change no memory. -/
theorem alike_of_totalLabels_eq_zero {m m' : Memory} (h : m.Alike m')
    (hlabels : ∀ f ∈ fs, isWalked imported f = true → totalLabels (passOperations sc f) = 0) :
    (m.performAll (programOperations sc true imported fs)).Alike
      (m'.performAll (programOperations sc false imported fs)) := by
  induction fs generalizing m m' with
  | nil => exact h
  | cons f fs ih =>
    simp only [programOperations, List.flatMap_cons, Memory.performAll_append]
    refine ih ?_ fun f' hf' => hlabels f' (List.mem_cons_of_mem f hf')
    by_cases hwalked : isWalked imported f = true
    · rw [functionOperations_of_walked _ hwalked, functionOperations_of_walked _ hwalked, if_pos rfl,
        if_neg Bool.false_ne_true, Memory.performAll_cons, Memory.performAll_cons,
        Memory.performAll_append]
      refine ((h.perform _).performAll (passOperations sc f)).trans ?_
      exact Memory.alike_twice (inFrame_passOperations sc f) (hlabels f List.mem_cons_self hwalked) _
    · rw [functionOperations_of_not_walked _ hwalked, functionOperations_of_not_walked _ hwalked]
      exact h.performAll _

theorem totalLabels_passOperations (sc : Scene) (f : Function) :
    totalLabels (passOperations sc f) = 0 ↔ ∀ s ∈ f.sites, ¬ sc.GivesResults s := by
  rw [passOperations, Memory.totalLabels_flatMap_eq_zero]
  exact forall₂_congr fun s _ => totalLabels_statementOperations sc _ s

theorem functions_of_program {firstPassOnly : Bool} {d d' : Decompiler} {text : String}
    (h : program sc firstPassOnly imported d = .ok text d') :
    ∃ texts, functions sc firstPassOnly imported 0 sc.functions d = .ok texts d' := by
  unfold program at h
  obtain ⟨texts, _, hfunctions, h⟩ := Run.bind_eq_ok.1 h
  obtain ⟨-, rfl⟩ := Run.pure_eq_ok.1 h
  exact ⟨texts, hfunctions⟩

theorem aligned_of_program {firstPassOnly : Bool} {graphs : List (Option FlowGraph)} {d : Decompiler} {text : String}
    (hgraphs : sc.functions.length ≤ graphs.length)
    (h : program sc firstPassOnly imported (start graphs) = .ok text d) : d.memory.Aligned := by
  obtain ⟨texts, hfunctions⟩ := functions_of_program h
  exact aligned_of_functions hgraphs hfunctions

/-- Both modes name the same variables if and only if no code that is walked calls a known function for
its results. The two runs may start from different graphs of earlier runs. -/
theorem same_names_iff_no_results {graphs graphs' : List (Option FlowGraph)} {d d' : Decompiler}
    {text text' : String} (hgraphs : graphs.length = sc.functions.length)
    (hgraphs' : graphs'.length = sc.functions.length)
    (hfull : program sc false imported (start graphs) = .ok text d)
    (hfirst : program sc true imported (start graphs') = .ok text' d') :
    d.memory.names = d'.memory.names ↔
      ∀ f ∈ sc.functions, (f.isImport = true → imported = true) →
        ∀ s ∈ f.sites, ¬ sc.GivesResults s := by
  obtain ⟨_, hfull⟩ := functions_of_program hfull
  obtain ⟨_, hfirst⟩ := functions_of_program hfirst
  have hd := alike_of_functions hgraphs.ge hfull
  have hd' := alike_of_functions hgraphs'.ge hfirst
  rw [hd.names, hd'.names]
  simp only [← isWalked_eq_true, ← totalLabels_passOperations]
  constructor
  · intro hnames
    have hcount := congrArg (List.countP Memory.isLabelled) hnames
    rw [← Memory.labelled, ← Memory.labelled, Memory.labelled_performAll, Memory.labelled_performAll,
      totalLabels_programOperations] at hcount
    have hzero : totalLabels
        ((sc.functions.filter (isWalked imported)).flatMap (passOperations sc)) = 0 := by omega
    intro f hf hwalked
    exact Memory.totalLabels_flatMap_eq_zero.1 hzero f (List.mem_filter.2 ⟨hf, hwalked⟩)
  · intro hlabels
    exact (alike_of_totalLabels_eq_zero (.refl Memory.empty) hlabels).names

end Modes

def caller : Function where
  name := "caller"
  id := 0
  start := 0
  stop := 2
  sites := [.calling 0 3 "one", .returning 2]
  implicit := []
  explicit := []
  returns := []
  decorators := .arr []
  isImport := false
  entryPoint := true

def one : Function where
  name := "one"
  id := 1
  start := 3
  stop := 5
  sites := [.pushing 3 .fp .imm .op1 (-1) 1 (some 1), .returning 5]
  implicit := []
  explicit := []
  returns := [(.number 0, ⟨"a", .str "felt"⟩)]
  decorators := .arr []
  isImport := false
  entryPoint := false

def callScene : Scene := ⟨[caller, one], ⟨.plain, Field.defaultPrime, []⟩⟩

/-- The names after each mode. In the full mode `one` writes to the cell of its return address. -/
def callNames (firstPassOnly : Bool) : List String :=
  ["v0_callers_function_frame", "v1_return_instruction", "v2_a"] ++
    if firstPassOnly then ["v3_callers_function_frame", "v4_return_instruction", "v5"]
    else ["v3_a", "v4_callers_function_frame", "v5_return_instruction"]

theorem call_run (firstPassOnly : Bool) : ∃ text d,
    program callScene firstPassOnly true (start [none, none]) = .ok text d ∧
      d.memory.names = callNames firstPassOnly := by
  apply exists_run (f := fun d => d.memory.names)
  cases firstPassOnly <;> decide +kernel

theorem names_differ_after_call : ∃ text d text' d',
    program callScene false true (start [none, none]) = .ok text d ∧
    program callScene true true (start [none, none]) = .ok text' d' ∧
    d.memory.names = callNames false ∧ d'.memory.names = callNames true ∧
    callScene.GivesResults (.calling 0 3 "one") ∧ d.memory.names ≠ d'.memory.names := by
  obtain ⟨text, d, hfull, hd⟩ := call_run false
  obtain ⟨text', d', hfirst, hd'⟩ := call_run true
  have hgives : callScene.GivesResults (.calling 0 3 "one") :=
    ⟨rfl, by decide, 1, one, by rfl, by decide⟩
  refine ⟨text, d, text', d', hfull, hfirst, hd, hd', hgives, fun hnames => ?_⟩
  exact (same_names_iff_no_results rfl rfl hfull hfirst).1 hnames caller (by simp [callScene])
    (fun _ => rfl) (.calling 0 3 "one") (by simp [caller]) hgives

end Decompiler

end Cairoscope
