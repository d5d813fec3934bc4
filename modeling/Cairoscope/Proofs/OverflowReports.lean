import Cairoscope.Analysis.Overflow
import Cairoscope.Proofs.OperandEdges
import Cairoscope.Proofs.Spreading

/-! Which operations an overflow report names. Of the two variables of an operation the second decides: its first
node has to be tainted. Taint of the first variable alone is not seen. -/

namespace Cairoscope

theorem Session.explored_eq_ok {first imported : Bool} {s s' : Session} {text : String} {d : Decompiler} :
    explored first imported s = .ok (text, d) s' ↔
      Decompiler.program s.scene first imported (.start s.graphs) = .ok text d ∧
        s' = { s with graphs := d.graphs, nextBlock := d.nextBlock } := by
  unfold explored decompiling
  rw [Run.get_bind, Run.onPart_eq_ok]
  constructor
  · rintro ⟨d', h, rfl⟩
    obtain ⟨text', e, hprogram, h⟩ := Run.bind_eq_ok.1 h
    rw [Run.get_bind] at h
    obtain ⟨hpair, rfl⟩ := Run.pure_eq_ok.1 h
    obtain ⟨rfl, rfl⟩ := Prod.mk.inj hpair
    exact ⟨hprogram, rfl⟩
  · rintro ⟨hprogram, rfl⟩
    refine ⟨d, Run.bind_eq_ok.2 ⟨text, d, hprogram, ?_⟩, rfl⟩
    rw [Run.get_bind]
    rfl

namespace DataFlow

variable {g : DataFlow}

theorem keys_withCoefficients {cs : List Float} (h : cs.length = g.nodes.length) :
    (g.withCoefficients cs).keys = g.keys := by
  unfold keys withCoefficients
  apply List.ext_getElem
  · simp [h]
  · intro i h₁ h₂
    simp [VariableNode.key]

/-- Taint changes nothing but the coefficients. -/
theorem keys_taintArguments (g : DataFlow) : g.taintArguments.keys = g.keys := by
  have hlength : g.coefficients.length = g.nodes.length := List.length_map _
  exact keys_withCoefficients (Taint.length_taintAll scale (fun _ => lt_of_childrenOf) hlength g.argumentPlaces)

end DataFlow

namespace Analysis

open DataFlow (unlinked)

structure Operates (m : Memory) (index : Nat) (v : Variable) (left right : List Nat) : Prop where
  cell : v ∈ m.cells
  function : v.function = some index
  operands : ∃ x, v.value = some x ∧ x.variableOperands = [left, right]

def IsNamed (m : Memory) (index : Nat) (ns : List Nat) (n : VariableNode) : Prop :=
  n.function = index ∧ n.name ∈ ns.map m.nameOf

instance (m : Memory) (index : Nat) (ns : List Nat) (n : VariableNode) : Decidable (IsNamed m index ns n) :=
  inferInstanceAs (Decidable (n.function = index ∧ n.name ∈ ns.map m.nameOf))

def firstNamed? (g : DataFlow) (m : Memory) (index : Nat) (ns : List Nat) : Option VariableNode :=
  g.nodes.find? fun n => decide (IsNamed m index ns n)

/-- The operand names a variable of the function that is fully tainted. -/
def FullyTainted (g : DataFlow) (m : Memory) (index : Nat) (ns : List Nat) : Prop :=
  ∃ n ∈ g.nodes, IsNamed m index ns n ∧ (n.coefficient == 1) = true

def Danger.mark (d : Danger) : String := if d = .indirect then " (indirect)" else ""

theorem isNamed_of_firstNamed? {g : DataFlow} {m : Memory} {index : Nat} {ns : List Nat} {n : VariableNode}
    (h : firstNamed? g m index ns = some n) : n ∈ g.nodes ∧ IsNamed m index ns n := by
  unfold firstNamed? at h
  exact ⟨List.mem_of_find?_eq_some h, by simpa using List.find?_some h⟩

section Graph

variable {functions : List Function} {m : Memory} {g : DataFlow} (hm : m.Aligned)
  (hkeys : g.keys = (unlinked functions m).keys) {index : Nat}

include hm hkeys

/-- Numbers and names find the same nodes. -/
theorem firstNamed?_eq (ns : List Nat) :
    (g.nodes.find? fun n => n.function == index && ns.contains n.number) = firstNamed? g m index ns := by
  unfold firstNamed?
  rw [← List.head?_filter, ← List.head?_filter]
  refine congrArg List.head? (List.filter_congr fun n hn => ?_)
  obtain ⟨j, hj⟩ := List.getElem?_of_mem hn
  obtain ⟨w, hw, hnumber, hname, -⟩ := DataFlow.exists_cell_at hkeys hj
  rw [Bool.eq_iff_iff, decide_eq_true_iff]
  unfold IsNamed
  rw [hname, DataFlow.name_mem_iff hm hw, hnumber]
  simp

/-- Only the second variable of an operation matters. -/
theorem suspect?_eq_some_iff {v : Variable} (hv : v ∈ m.cells) (hindex : v.function = some index)
    {name : String} {d : Danger} :
    suspect? g index v = some (name, d) ↔ ∃ left right, Operates m index v left right ∧
      ∃ n, firstNamed? g m index right = some n ∧ danger? n.coefficient = some d ∧ n.name = name := by
  have hoperates : ∀ {left right : List Nat}, Operates m index v left right ↔
      v.value.map Value.variableOperands = some [left, right] := by
    intro left right
    rw [Option.map_eq_some_iff]
    exact ⟨fun h => h.operands, fun h => ⟨hv, hindex, h⟩⟩
  simp only [hoperates]
  unfold suspect?
  cases v.value with
  | none => simp
  | some x =>
    rw [Option.map_some]
    simp only [Option.bind_eq_bind, Option.bind_some]
    rcases x.variableOperands with _ | ⟨left, _ | ⟨right, _ | ⟨third, more⟩⟩⟩
    · simp
    · simp
    · simp only [firstNamed?_eq hm hkeys]
      simp [Option.bind_eq_some_iff]
    · simp

theorem mem_suspects_iff (hcells : g.cells = m.cells) {f : Function} {text : String} {d : Danger} :
    (text, d) ∈ suspects g index f ↔ f.isImport = false ∧ ∃ v left right, Operates m index v left right ∧
      ∃ n, firstNamed? g m index right = some n ∧ danger? n.coefficient = some d ∧
        text = f.name ++ " : " ++ n.name ++ d.mark := by
  unfold suspects
  cases f.isImport with
  | true => simp
  | false =>
    rw [if_neg (by decide), List.mem_filterMap, hcells]
    constructor
    · rintro ⟨v, hv, hshown⟩
      obtain ⟨hcell, hindex⟩ := List.mem_filter.1 hv
      obtain ⟨⟨name, d'⟩, hsuspect, htext⟩ := Option.map_eq_some_iff.1 hshown
      obtain ⟨rfl, rfl⟩ := Prod.mk.inj htext
      obtain ⟨left, right, hoperates, n, hn, hdanger, rfl⟩ :=
        (suspect?_eq_some_iff hm hkeys hcell (beq_iff_eq.1 hindex)).1 hsuspect
      exact ⟨rfl, v, left, right, hoperates, n, hn, hdanger, rfl⟩
    · rintro ⟨-, v, left, right, hoperates, n, hn, hdanger, rfl⟩
      refine ⟨v, List.mem_filter.2 ⟨hoperates.cell, beq_iff_eq.2 hoperates.function⟩,
        Option.map_eq_some_iff.2 ⟨(n.name, d), ?_, rfl⟩⟩
      exact (suspect?_eq_some_iff hm hkeys hoperates.cell hoperates.function).2
        ⟨left, right, hoperates, n, hn, hdanger, rfl⟩

/-- An operand that names one variable names one node. -/
theorem firstNamed?_of_fullyTainted {k : Nat} (h : FullyTainted g m index [k]) :
    ∃ n, firstNamed? g m index [k] = some n ∧ (n.coefficient == 1) = true := by
  have hnumber : ∀ {i : Nat} {n : VariableNode}, g.nodes[i]? = some n → IsNamed m index [k] n → n.number = k := by
    intro i n hi hnamed
    obtain ⟨w, hw, hnumber, hname, -⟩ := DataFlow.exists_cell_at hkeys hi
    have hmem := hnamed.2
    rw [hname, DataFlow.name_mem_iff hm hw] at hmem
    exact hnumber.trans (List.mem_singleton.1 hmem)
  obtain ⟨n, hn, hnamed, hfull⟩ := h
  cases hfirst : firstNamed? g m index [k] with
  | none => exact absurd (decide_eq_true hnamed) (List.find?_eq_none.1 hfirst n hn)
  | some n' =>
    obtain ⟨hn', hnamed'⟩ := isNamed_of_firstNamed? hfirst
    obtain ⟨i, hi⟩ := List.getElem?_of_mem hn
    obtain ⟨j, hj⟩ := List.getElem?_of_mem hn'
    obtain rfl := DataFlow.place_unique hkeys hm hi hj ((hnumber hi hnamed).trans (hnumber hj hnamed').symm)
    obtain rfl := Option.some.inj (hi.symm.trans hj)
    exact ⟨n, rfl, hfull⟩

end Graph

/-- What a report says about a contract whose variables are in the memory and tainted in the graph. -/
structure Reports (functions : List Function) (m : Memory) (g : DataFlow) (r : Report) : Prop where
  detected : r.detected = true ↔ r.findings ≠ []
  /-- A finding is an operation whose second variable is tainted. -/
  findings : ∀ text, text ∈ r.findings ↔ ∃ index f, functions[index]? = some f ∧ f.isImport = false ∧
    ∃ v left right, Operates m index v left right ∧ ∃ n, firstNamed? g m index right = some n ∧
      ∃ d, danger? n.coefficient = some d ∧ text = f.name ++ " : " ++ n.name ++ d.mark
  /-- A function is left out exactly when no second variable of its operations is tainted. -/
  silent : ∀ index f, functions[index]? = some f → f.isImport = false → (suspects g index f = [] ↔
    ∀ v left right, Operates m index v left right → ∀ n, firstNamed? g m index right = some n →
      danger? n.coefficient = none)
  /-- A fully tainted second variable is seen, if it is one and not one of several. -/
  seen : ∀ index f, functions[index]? = some f → f.isImport = false → ∀ v left k,
    Operates m index v left [k] → FullyTainted g m index [k] → r.detected = true ∧
      ∃ n ∈ g.nodes, IsNamed m index [k] n ∧ f.name ++ " : " ++ n.name ∈ r.findings

theorem mem_numbered {s : Session} {index : Nat} {f : Function} :
    (index, f) ∈ s.numbered ↔ s.contract.functions[index]? = some f := by
  unfold Session.numbered
  rw [List.mem_iff_getElem?]
  simp only [List.getElem?_mapIdx, Option.map_eq_some_iff, Prod.mk.injEq]
  constructor
  · rintro ⟨i, f', hf', rfl, rfl⟩
    exact hf'
  · intro hf
    exact ⟨index, f, hf, rfl, rfl⟩

theorem reports_of_suspects {functions : List Function} {m : Memory} {g : DataFlow} {r : Report}
    (hm : m.Aligned) (hkeys : g.keys = (unlinked functions m).keys) (hcells : g.cells = m.cells)
    (hdetected : r.detected = true ↔ r.findings ≠ [])
    (hfindings : ∀ text, text ∈ r.findings ↔
      ∃ index f, functions[index]? = some f ∧ ∃ d, (text, d) ∈ suspects g index f) :
    Reports functions m g r := by
  have hmem : ∀ text, text ∈ r.findings ↔ ∃ index f, functions[index]? = some f ∧ f.isImport = false ∧
      ∃ v left right, Operates m index v left right ∧ ∃ n, firstNamed? g m index right = some n ∧
        ∃ d, danger? n.coefficient = some d ∧ text = f.name ++ " : " ++ n.name ++ d.mark := by
    intro text
    rw [hfindings]
    constructor
    · rintro ⟨index, f, hf, d, hd⟩
      obtain ⟨hcode, v, left, right, hoperates, n, hn, hdanger, htext⟩ :=
        (mem_suspects_iff hm hkeys hcells).1 hd
      exact ⟨index, f, hf, hcode, v, left, right, hoperates, n, hn, d, hdanger, htext⟩
    · rintro ⟨index, f, hf, hcode, v, left, right, hoperates, n, hn, d, hdanger, htext⟩
      exact ⟨index, f, hf, d, (mem_suspects_iff hm hkeys hcells).2
        ⟨hcode, v, left, right, hoperates, n, hn, hdanger, htext⟩⟩
  refine ⟨hdetected, hmem, ?_, ?_⟩
  · intro index f hf hcode
    rw [List.eq_nil_iff_forall_not_mem]
    constructor
    · intro hnone v left right hoperates n hn
      by_contra hdanger
      obtain ⟨d, hd⟩ := Option.ne_none_iff_exists'.1 hdanger
      exact hnone _ ((mem_suspects_iff hm hkeys hcells).2
        ⟨hcode, v, left, right, hoperates, n, hn, hd, rfl⟩)
    · rintro hsafe ⟨text, d⟩ hmem
      obtain ⟨-, v, left, right, hoperates, n, hn, hdanger, -⟩ := (mem_suspects_iff hm hkeys hcells).1 hmem
      rw [hsafe v left right hoperates n hn] at hdanger
      cases hdanger
  · intro index f hf hcode v left k hoperates htainted
    obtain ⟨n, hn, hfull⟩ := firstNamed?_of_fullyTainted hm hkeys htainted
    have hdanger : danger? n.coefficient = some .direct := if_pos hfull
    have hfinding : f.name ++ " : " ++ n.name ∈ r.findings := (hmem _).2
      ⟨index, f, hf, hcode, v, left, [k], hoperates, n, hn, .direct, hdanger, String.append_empty.symm⟩
    obtain ⟨hnode, hnamed⟩ := isNamed_of_firstNamed? hn
    exact ⟨hdetected.2 (List.ne_nil_of_mem hfinding), n, hnode, hnamed, hfinding⟩

/-- When a first pass ends well, so does the search for overflows, and it goes by the second variable of each
operation. -/
theorem overflow_by_second_operand {s s' : Session} {text : String} {d : Decompiler}
    (h : Session.explored true false s = .ok (text, d) s') (a : Profile) :
    ∃ g r, DataFlow.create (.ofMemory s.contract.functions d.memory) = .ok () g ∧
      integerOverflow a s = .ok r s' ∧ Reports s.contract.functions d.memory g.taintArguments r := by
  obtain ⟨hprogram, rfl⟩ := Session.explored_eq_ok.1 h
  obtain ⟨g, hcreate⟩ : ∃ g, DataFlow.create (.ofMemory s.contract.functions d.memory) = .ok () g :=
    DataFlow.exists_create_of_program hprogram
  have hframe := DataFlow.frame_create hcreate
  have hflow : Session.dataFlow false s = .ok (.ofMemory s.contract.functions d.memory)
      { s with graphs := d.graphs, nextBlock := d.nextBlock } :=
    Run.bind_eq_ok.2 ⟨(text, d), _, h, rfl⟩
  refine ⟨g, _, hcreate, Run.bind_eq_ok.2 ⟨_, _, hflow, Run.bind_eq_ok.2 ⟨g, _, ?_, rfl⟩⟩, ?_⟩
  · rw [hcreate]
    rfl
  · refine reports_of_suspects (Decompiler.inOrder_of_program hprogram).aligned
      ((DataFlow.keys_taintArguments g).trans hframe.keys) hframe.cells ?_ fun text => ?_
    · simp
    · dsimp only
      rw [List.mem_map]
      constructor
      · rintro ⟨⟨text', danger⟩, hfound, rfl⟩
        obtain ⟨⟨index, f⟩, he, hmem⟩ := List.mem_flatMap.1 hfound
        exact ⟨index, f, mem_numbered.1 he, danger, hmem⟩
      · rintro ⟨index, f, hf, danger, hmem⟩
        exact ⟨(text, danger), List.mem_flatMap.2 ⟨(index, f), mem_numbered.2 hf, hmem⟩, rfl⟩

def sumFunction (name : String) (start : Nat) (sum : Site) : Function where
  name
  id := start
  start
  stop := start + 3
  sites := [.pushing start .fp .imm .op1 (-1) 1 (some 5), sum, .returning (start + 3)]
  implicit := []
  explicit := [(.number 0, ⟨"x", .str "felt"⟩)]
  returns := []
  decorators := .arr []
  isImport := false
  entryPoint := true

/-- The argument is the first operand in the one function and the second one in the other. -/
def sums : Session := .start ⟨Field.defaultPrime, .arr [], [], [], [], [], [],
  [sumFunction "first" 0 (.pushing 2 .fp .ap .add (-3) (-1) none),
    sumFunction "second" 4 (.pushing 6 .ap .fp .add (-1) (-3) none)], []⟩ .plain

def overflowProfile : Profile :=
  ⟨"Integer overflow", "int_overflow", "Detect direct integer overflow/underflow", .security, .high⟩

/-- The two sums differ in the order of their operands, and one of them is reported. -/
theorem overflow_by_second_operand_sums : ∃ text d s' g r,
    Session.explored true false sums = .ok (text, d) s' ∧
    DataFlow.create (.ofMemory sums.contract.functions d.memory) = .ok () g ∧
    integerOverflow overflowProfile sums = .ok r s' ∧
    Reports sums.contract.functions d.memory g.taintArguments r ∧
    (∃ v, Operates d.memory 0 v [0] [3]) ∧ FullyTainted g.taintArguments d.memory 0 [0] ∧
    (∃ v, Operates d.memory 1 v [8] [5]) ∧ FullyTainted g.taintArguments d.memory 1 [5] ∧
    r.findings = ["second : v5_x"] := by
  have hrun : (EStateM.run' (Session.explored true false) sums).any (fun x =>
      decide ((∃ v ∈ x.2.memory.cells, v.function = some 0 ∧
          v.value = some (.combined (.cells [0]) .addition (.cells [3]))) ∧
        (∃ v ∈ x.2.memory.cells, v.function = some 1 ∧
          v.value = some (.combined (.cells [8]) .addition (.cells [5])))) &&
      (EStateM.run' (DataFlow.create >>= fun _ => get)
        (.ofMemory sums.contract.functions x.2.memory)).any fun g =>
          decide ((∃ n ∈ g.taintArguments.nodes, IsNamed x.2.memory 0 [0] n ∧ (n.coefficient == 1) = true) ∧
            ∃ n ∈ g.taintArguments.nodes, IsNamed x.2.memory 1 [5] n ∧ (n.coefficient == 1) = true)) = true := by
    decide +kernel
  have hfindings : (EStateM.run' (integerOverflow overflowProfile) sums).map (·.findings) =
      some ["second : v5_x"] := by
    decide +kernel
  obtain ⟨⟨text, d⟩, hexplored, hrun⟩ := (Option.any_eq_true _ _).1 hrun
  obtain ⟨s', hexplored⟩ := Run.run'_eq_some.1 hexplored
  obtain ⟨hvalues, htaint⟩ := Bool.and_eq_true_iff.1 hrun
  obtain ⟨⟨v, hv, hindex, hvalue⟩, w, hw, hindex', hvalue'⟩ := of_decide_eq_true hvalues
  obtain ⟨g, r, hcreate, hreport, hreports⟩ := overflow_by_second_operand hexplored overflowProfile
  have hgraph : EStateM.run' (DataFlow.create >>= fun _ => get)
      (.ofMemory sums.contract.functions d.memory) = some g :=
    Run.run'_eq_some.2 ⟨g, Run.bind_eq_ok.2 ⟨(), g, hcreate, rfl⟩⟩
  rw [hgraph] at htaint
  obtain ⟨hfirst, hsecond⟩ := of_decide_eq_true htaint
  rw [Run.run'_eq_some.2 ⟨s', hreport⟩] at hfindings
  exact ⟨text, d, s', g, r, hexplored, hcreate, hreport, hreports, ⟨v, hv, hindex, _, hvalue, rfl⟩, hfirst,
    ⟨w, hw, hindex', _, hvalue', rfl⟩, hsecond, Option.some.inj hfindings⟩

end Analysis

end Cairoscope
