import Cairoscope.Proofs.ApMoves
import Cairoscope.Proofs.TestedCells

/-! The variables that receive the results of a call. They are pushed from the first return value up, and
given their values from the top down, so the variable that is named after a return value is said to hold
the one at the same distance from the other end. -/

namespace Cairoscope

namespace Memory

/-- A look-up below `ap`, where `ap` stands at the end of the memory, finds the cell and appends none. -/
theorem access_below {m : Memory} (hap : m.ap = m.size) {i : Nat} (hi : i < m.size) :
    m.access .ap (-(i + 1 : Nat)) = .ok (m, ⟨false, m.size - 1 - i⟩) := by
  have hposition : m.registerAt .ap + -((i + 1 : Nat) : Int) = (m.size - 1 - i : Nat) := by
    change m.ap + _ = _
    omega
  rw [access_eq hposition, growTo_of_le (by omega), decide_eq_false (by omega)]

end Memory

namespace Decompiler

variable {sc : Scene} {place : Place} {d d' : Decompiler}

/-- `ap` stands at the end of the memory. -/
def AtEnd (d : Decompiler) : Prop := d.memory.ap = d.memory.size

/-- Arguments are looked up below `ap`: no cell is appended. -/
theorem atEnd_of_callArguments {n : Nat} {arguments : List (CallArgument × String)} (hd : d.AtEnd)
    (h : callArguments place n d = .ok arguments d') :
    d'.AtEnd ∧ d'.memory.size = d.memory.size ∧ d'.memory.counter = d.memory.counter := by
  have halike := (performs_callArguments n d arguments d' h).memory
  have hlook : ∀ k, d.memory.performAll (lookBelow k) = d.memory := by
    intro k
    induction k with
    | zero => rfl
    | succ k ih =>
      rw [lookBelow, Memory.performAll_cons, Memory.perform_get, Memory.growTo_of_le, ih]
      change (d.memory.ap + _ + 1).toNat ≤ _
      rw [hd]
      omega
  rw [hlook] at halike
  refine ⟨?_, halike.size_eq, halike.counter⟩
  rw [AtEnd, halike.ap, halike.size_eq]
  exact hd

def resultVariable (callee number : Nat) (name : String) : Variable :=
  { Variable.blank number with label := some name, function := some callee, isResult := true }

/-- The results are pushed in order, on top of what was there. -/
theorem cells_of_pushed {callee : Nat} {names : List String} {u : Unit} (hd : d.AtEnd)
    (h : (names.forM fun name => modify fun d => { d with
      memory := d.memory.push fun v =>
        { v with label := some name, function := some callee, isResult := true } } : Step Unit) d =
      .ok u d') :
    d'.AtEnd ∧ d'.memory.size = d.memory.size + names.length ∧
      (∀ q < d.memory.size, d'.memory.cells[q]? = d.memory.cells[q]?) ∧
      ∀ j name, names[j]? = some name → d'.memory.cells[d.memory.size + j]? =
        some (resultVariable callee (d.memory.counter + j) name) := by
  induction names generalizing d with
  | nil =>
    obtain ⟨-, rfl⟩ := Run.pure_eq_ok.1 h
    exact ⟨hd, rfl, fun _ _ => rfl, by simp⟩
  | cons first names ih =>
    obtain ⟨_, d₁, hpush, h⟩ := Run.bind_eq_ok.1 h
    obtain rfl := Run.modify_eq_ok.1 hpush
    have hpushed := Memory.getElem?_push d.memory fun v =>
      { v with label := some first, function := some callee, isResult := true }
    have hsize := Memory.size_push d.memory fun v =>
      { v with label := some first, function := some callee, isResult := true }
    have hcounter : (d.memory.push fun v =>
      { v with label := some first, function := some callee, isResult := true }).counter =
      d.memory.counter + 1 := rfl
    obtain ⟨hend, hlength, hbelow, hcells⟩ := ih (by
      rw [AtEnd, hsize]
      exact congrArg (· + 1) hd) h
    rw [hsize] at hlength hbelow
    rw [hsize, hcounter] at hcells
    refine ⟨hend, by rw [hlength, List.length_cons]; omega, fun q hq => ?_, fun j name hj => ?_⟩
    · rw [hbelow q (by omega), hpushed, if_neg (by omega)]
    · cases j with
      | zero =>
        obtain rfl : first = name := by simpa using hj
        rw [Nat.add_zero, hbelow _ (by omega), hpushed, if_pos rfl]
        rfl
      | succ j =>
        have hcell := hcells j name (by simpa using hj)
        rwa [Nat.add_assoc, Nat.add_assoc, Nat.add_comm 1 j] at hcell

def Receives (call : CallResult) (v w : Variable) : Prop :=
  w.number = v.number ∧ w.label = v.label ∧ w.value = some (.result call)

/-- The results go to the cells below `ap`, from result `i` at the distance `i` from the top. -/
theorem receives_of_assignResults {callee : Nat} {returns : List String} {arguments : List CallArgument}
    {i : Nat} {names out : List String} (hd : d.AtEnd) (hlength : i + names.length ≤ d.memory.size)
    (h : assignResults place callee returns arguments i names d = .ok out d') :
    (∀ q, d.memory.size - i ≤ q → d'.memory.cells[q]? = d.memory.cells[q]?) ∧
      ∀ t < names.length, ∀ v, d.memory.cells[d.memory.size - 1 - (i + t)]? = some v →
        ∃ w, d'.memory.cells[d.memory.size - 1 - (i + t)]? = some w ∧
          Receives ⟨callee, i + t, returns.getD (i + t) "", arguments, d.calls⟩ v w := by
  induction names generalizing d i out with
  | nil =>
    obtain ⟨-, rfl⟩ := Run.pure_eq_ok.1 h
    exact ⟨fun _ _ => rfl, by simp⟩
  | cons name names ih =>
    rw [List.length_cons] at hlength
    unfold assignResults at h
    rw [Run.bind_of_ok (cell_eq_ok.2 ⟨_, _, Memory.access_below hd (by omega), rfl, rfl⟩),
      Run.bind_of_ok (currentBlock_eq_ok.2 ⟨rfl, rfl⟩), Run.get_bind] at h
    unfold updateVariable at h
    rw [Run.modify_bind] at h
    obtain ⟨text, _, hname, h⟩ := Run.bind_eq_ok.1 h
    obtain ⟨-, rfl⟩ := nameOf_eq_ok.1 hname
    obtain ⟨rest, _, hrest, h⟩ := Run.bind_eq_ok.1 h
    obtain ⟨-, rfl⟩ := Run.pure_eq_ok.1 h
    -- the topmost of the cells is written now, and the rest of the walk stays below it
    set write : Variable → Variable := fun v => { v with
      function := some place.function
      block := ((d.blocksOf place.function)[place.block]?).map (·.id)
      value := some (.result ⟨callee, i, returns.getD i "", arguments, d.calls⟩) }
    have hcell := fun q => Memory.getElem?_update d.memory (d.memory.size - 1 - i) q write
    have hsize : (d.memory.update (d.memory.size - 1 - i) write).size = d.memory.size :=
      Memory.size_update _ _ _
    obtain ⟨habove, hreceive⟩ := ih (i := i + 1)
      (d := { d with memory := d.memory.update (d.memory.size - 1 - i) write })
      (by rw [AtEnd, hsize]; exact hd) (by rw [hsize]; omega) hrest
    rw [hsize] at habove hreceive
    refine ⟨fun q hq => ?_, fun t ht v hv => ?_⟩
    · rw [habove q (by omega), hcell, if_neg (by omega)]
    · cases t with
      | zero =>
        rw [Nat.add_zero] at hv ⊢
        refine ⟨write v, ?_, rfl, rfl, rfl⟩
        rw [habove _ (by omega), hcell, if_pos rfl, hv]
        rfl
      | succ t =>
        have hshift : i + (t + 1) = i + 1 + t := by omega
        rw [hshift] at hv ⊢
        rw [List.length_cons] at ht
        refine hreceive t (by omega) v ?_
        rw [hcell, if_neg (by omega), hv]

/-- The variable that was pushed for the return value `j` of a call, which made the first memory the second:
it has the name of that return value, and its value is the return value `p` of the callee. -/
def ResultHolds (m m' : Memory) (index : Nat) (callee : Function) (j p : Nat) : Prop :=
  ∃ v c name, m'.cells[m.size + j]? = some v ∧ callee.returns.names[j]? = some name ∧
    v.name = Variable.nameOf (m.counter + j) (some name) ∧ v.value = some (.result c) ∧
    c.function = index ∧ c.position = p ∧ callee.returns.names[p]? = some c.returnName

theorem ResultHolds.unique {m m' : Memory} {index : Nat} {callee : Function} {j p p' : Nat}
    (h : ResultHolds m m' index callee j p) (h' : ResultHolds m m' index callee j p') : p = p' := by
  obtain ⟨v, c, -, hv, -, -, hvalue, -, rfl, -⟩ := h
  obtain ⟨v', c', -, hv', -, -, hvalue', -, rfl, -⟩ := h'
  obtain rfl := Option.some.inj (hv.symm.trans hv')
  obtain rfl : c = c' := by simpa using hvalue.symm.trans hvalue'
  rfl

variable {index : Nat} {callee : Function} {text : String}

theorem resultHolds_of_callFunction (hd : d.AtEnd)
    (h : callFunction sc place index callee d = .ok text d') {j : Nat}
    (hj : j < callee.returns.names.length) :
    ResultHolds d.memory d'.memory index callee j (callee.returns.names.length - 1 - j) := by
  generalize hk : callee.returns.names.length = k at hj ⊢
  unfold callFunction at h
  obtain ⟨arguments, d₁, harguments, h⟩ := Run.bind_eq_ok.1 h
  obtain ⟨hd₁, hsize₁, hcounter₁⟩ := atEnd_of_callArguments hd harguments
  dsimp only at h
  obtain ⟨_, d₂, hpushed, h⟩ := Run.bind_eq_ok.1 h
  obtain ⟨hd₂, hsize₂, -, hcells⟩ := cells_of_pushed hd₁ hpushed
  rw [hsize₁, hk] at hsize₂
  have hsome : callee.returns.names.isEmpty = false := by
    rw [List.isEmpty_eq_false_iff, ← List.length_pos_iff]
    omega
  rw [if_neg (by rw [hsome]; decide)] at h
  obtain ⟨out, d₃, hresults, h⟩ := Run.bind_eq_ok.1 h
  obtain ⟨-, hreceives⟩ := receives_of_assignResults hd₂ (by omega) hresults
  obtain ⟨head, _, hline, h⟩ := Run.bind_eq_ok.1 h
  obtain ⟨-, rfl⟩ := line_eq_ok.1 hline
  obtain ⟨_, _, hpure, h⟩ := Run.bind_eq_ok.1 h
  obtain ⟨-, rfl⟩ := Run.pure_eq_ok.1 hpure
  rw [Run.modify_bind] at h
  obtain ⟨-, rfl⟩ := Run.pure_eq_ok.1 h
  -- the cell `j` from the first result is the cell `k - 1 - j` from the last one
  have hname : callee.returns.names[j]? = some (callee.returns.names[j]) := List.getElem?_eq_getElem _
  have hplace : d₂.memory.size - 1 - (0 + (k - 1 - j)) = d.memory.size + j := by omega
  obtain ⟨w, hw, hnumber, hlabel, hvalue⟩ := hreceives (k - 1 - j) (by omega) _
    (by rw [hplace, ← hsize₁]; exact hcells j _ hname)
  rw [hplace] at hw
  refine ⟨w, _, _, hw, hname, ?_, hvalue, rfl, Nat.zero_add _, ?_⟩
  · rw [Variable.name, hnumber, hlabel, hcounter₁]
    rfl
  · dsimp only
    rw [Nat.zero_add, List.getD_eq_getElem?_getD, List.getElem?_eq_getElem (by omega)]
    rfl

/-- A statement that calls a known function is the call of that function. -/
theorem callFunction_of_statement {returns : Nat} {s : Site} {last : Bool} {imm : Int}
    (hopcode : s.instruction.opcode = .call) (himm : s.instruction.imm = some imm)
    (hcallee : sc.calleeAt s = some (index, callee))
    (h : statement sc place returns s last d = .ok text d') :
    ∃ t out, callFunction sc place index callee { d with tabs := t } = .ok out d' := by
  obtain ⟨t, out, hbody⟩ := body_of_statement h
  unfold body at hbody
  simp only [hopcode] at hbody
  unfold call at hbody
  simp only [himm] at hbody
  obtain ⟨offset, _, hsmall, hbody⟩ := Run.bind_eq_ok.1 hbody
  obtain ⟨-, rfl⟩ := Run.ofOutcome_eq_ok.1 hsmall
  rw [Scene.calleeAt] at hcallee
  rw [hcallee] at hbody
  exact ⟨t, out, hbody⟩

/-- A call of a known function from a state with `ap` at the end of the memory. The variable that is named
after the return value `j` of `k` holds the return value `k - 1 - j` and no other, so each holds its own if
and only if there is at most one. -/
theorem results_matched_iff {returns : Nat} {s : Site} {last : Bool} {imm : Int}
    (hopcode : s.instruction.opcode = .call) (himm : s.instruction.imm = some imm)
    (hcallee : sc.calleeAt s = some (index, callee)) (hap : d.memory.ap = d.memory.size)
    (h : statement sc place returns s last d = .ok text d') :
    (∀ j < callee.returns.names.length, ∀ p,
      ResultHolds d.memory d'.memory index callee j p ↔ p = callee.returns.names.length - 1 - j) ∧
    ((∀ j < callee.returns.names.length, ResultHolds d.memory d'.memory index callee j j) ↔
      callee.returns.names.length ≤ 1) := by
  obtain ⟨t, out, hcall⟩ := callFunction_of_statement hopcode himm hcallee h
  have hholds : ∀ j < callee.returns.names.length, ∀ p,
      ResultHolds d.memory d'.memory index callee j p ↔
        p = callee.returns.names.length - 1 - j := by
    intro j hj p
    have hother := resultHolds_of_callFunction (d := { d with tabs := t }) hap hcall hj
    exact ⟨fun hp => hp.unique hother, fun hp => hp ▸ hother⟩
  refine ⟨hholds, fun hall => ?_, fun hone j hj => ?_⟩
  · by_contra htwo
    have := (hholds 0 (by omega) 0).1 (hall 0 (by omega))
    omega
  · exact (hholds j hj j).2 (by omega)

def pairFunction : Function where
  name := "pair"
  id := 0
  start := 0
  stop := 4
  sites := [.pushing 0 .fp .imm .op1 (-1) 1 (some 1), .pushing 2 .fp .imm .op1 (-1) 1 (some 2),
    .returning 4]
  implicit := []
  explicit := []
  returns := [(.number 0, ⟨"a", .str "felt"⟩), (.number 1, ⟨"b", .str "felt"⟩)]
  decorators := .arr []
  isImport := false
  entryPoint := false

def pairScene : Scene := ⟨[pairFunction], ⟨.plain, Field.defaultPrime, []⟩⟩

def inEmptyFrame : Decompiler := { start [] with memory := Memory.empty.enter none [] 0 }

/-- The variable `v2_a` is said to hold `b`, and `v3_b` to hold `a`. -/
theorem pair_results_crossed : ∃ text d,
    statement pairScene ⟨0, 0⟩ 0 (.calling 5 (-5) "pair") false inEmptyFrame = .ok text d ∧
      d.memory.nameOf 2 = "v2_a" ∧ d.memory.nameOf 3 = "v3_b" ∧
      ResultHolds inEmptyFrame.memory d.memory 0 pairFunction 0 1 ∧ ResultHolds inEmptyFrame.memory d.memory 0 pairFunction 1 0 ∧
      ¬ ∀ j < 2, ResultHolds inEmptyFrame.memory d.memory 0 pairFunction j j := by
  have hnames : (after? (statement pairScene ⟨0, 0⟩ 0 (.calling 5 (-5) "pair") false) inEmptyFrame).map
      (fun d => (d.memory.nameOf 2, d.memory.nameOf 3)) = some ("v2_a", "v3_b") := by decide +kernel
  obtain ⟨d, hd, hnames⟩ := Option.map_eq_some_iff.1 hnames
  obtain ⟨text, hrun⟩ := after?_eq_some_iff.1 hd
  obtain ⟨hholds, hmatched⟩ := results_matched_iff rfl rfl rfl rfl hrun
  obtain ⟨ha, hb⟩ := Prod.mk.inj hnames
  exact ⟨text, d, hrun, ha, hb, (hholds 0 (by decide) 1).2 rfl, (hholds 1 (by decide) 0).2 rfl,
    fun hall => absurd (hmatched.1 hall) (by decide)⟩

end Decompiler

end Cairoscope
