import Cairoscope.Proofs.Meaning
import Cairoscope.Proofs.Traces

/-! Which cell a conditional jump is written to test. It is always counted from `ap`, whichever register
the instruction counts from. -/

namespace Cairoscope

namespace Memory

theorem nameOf_update {f : Variable → Variable} (hf : ∀ v, (f v).name = v.name) (m : Memory)
    (number n : Nat) : (m.update number f).nameOf n = m.nameOf n := by
  unfold update nameOf
  dsimp only
  rw [List.getElem?_modify]
  cases m.cells[n]? with
  | none => rfl
  | some v =>
    rw [Option.map_eq_map, Option.map_some]
    split_ifs
    · exact hf v
    · rfl

/-- The numbers that a look-up can give: one, counted from the start or, below it, from the end. -/
theorem exists_access_iff {m : Memory} {r : Register} {offset : Int} {q : Nat} :
    (∃ m' a, m.access r offset = .ok (m', a) ∧ a.number = q) ↔
      (q : Int) = m.registerAt r + offset ∨
        (m.registerAt r + offset < 0 ∧ (q : Int) = m.registerAt r + offset + m.size) := by
  constructor
  · rintro ⟨m', a, haccess, rfl⟩
    have hnumber := number_of_access haccess
    split_ifs at hnumber with hneg
    · exact .inr ⟨hneg, hnumber⟩
    · exact .inl hnumber
  · rintro (hq | ⟨hneg, hq⟩)
    · exact ⟨_, _, access_eq hq.symm, rfl⟩
    · exact ⟨_, _, access_eq_of_neg hneg hq.symm, rfl⟩

end Memory

namespace Decompiler

variable {sc : Scene} {place : Place} {s : Site} {d d' : Decompiler}

theorem cell_eq_ok {r : Register} {offset : Int} {n : Nat} :
    cell r offset d = .ok n d' ↔ ∃ m a, d.memory.access r offset = .ok (m, a) ∧ a.number = n ∧
      { d with memory := m } = d' := by
  unfold cell
  rw [Run.get_bind, Run.bind_eq_ok]
  constructor
  · rintro ⟨⟨m, a⟩, _, hout, h⟩
    obtain ⟨haccess, rfl⟩ := Run.ofOutcome_eq_ok.1 hout
    obtain ⟨_, _, hset, h⟩ := Run.bind_eq_ok.1 h
    obtain rfl := Run.set_eq_ok.1 hset
    obtain ⟨hnumber, hd⟩ := Run.pure_eq_ok.1 h
    exact ⟨m, a, haccess, hnumber, hd⟩
  · rintro ⟨m, a, haccess, rfl, rfl⟩
    refine ⟨(m, a), d, Run.ofOutcome_eq_ok.2 ⟨haccess, rfl⟩, ?_⟩
    exact Run.bind_eq_ok.2 ⟨⟨⟩, _, Run.set_eq_ok.2 rfl, Run.pure_eq_ok.2 ⟨rfl, rfl⟩⟩

theorem getElem?_blocksOf_withBlock (f : Block → Block) (d : Decompiler) (place : Place) :
    ((d.withBlock place f).blocksOf place.function)[place.block]? =
      ((d.blocksOf place.function)[place.block]?).map f := by
  unfold withBlock withGraph blocksOf
  dsimp only
  rw [List.getElem?_modify_eq]
  cases d.graphs[place.function]? with
  | none => rfl
  | some g =>
    cases g with
    | none => rfl
    | some g => exact List.getElem?_modify_eq f place.block g.blocks

/-- The conditional jump is written as a test of the variable, and its block keeps the variable. -/
def TestsCell (sc : Scene) (place : Place) (s : Site) (d : Decompiler) (n : Nat) : Prop :=
  ∃ text d', nop sc place s d = .ok text d' ∧
    text = lineAt sc d.tabs sc.printer.palette.red "if " ++ "(" ++ d'.memory.nameOf n ++ " == 0) \x7b" ∧
    ((d'.blocksOf place.function)[place.block]?).map (·.condition) = some (some n)

theorem TestsCell.unique {n n' : Nat} (h : TestsCell sc place s d n) (h' : TestsCell sc place s d n') :
    n = n' := by
  obtain ⟨text, e, hrun, -, hcondition⟩ := h
  obtain ⟨text', e', hrun', -, hcondition'⟩ := h'
  obtain ⟨-, rfl⟩ := EStateM.Result.ok.inj (hrun.symm.trans hrun')
  exact Option.some.inj (Option.some.inj (hcondition.symm.trans hcondition'))

theorem nop_of_jnz (hjnz : s.instruction.pcUpdate = .jnz) : nop sc place s = branch sc place s := by
  unfold nop
  simp only [hjnz]

section Jump

variable {imm n : Int} {b : Block}

/-- A branch of which the cell is found is written whole. -/
theorem testsCell_of_access (hjnz : s.instruction.pcUpdate = .jnz) (himm : s.instruction.imm = some imm)
    (hsmall : Field.small imm sc.printer.prime = .ok n)
    (hblock : (d.blocksOf place.function)[place.block]? = some b) {m : Memory} {a : Access}
    (haccess : d.memory.access .ap s.instruction.off0 = .ok (m, a)) :
    TestsCell sc place s d a.number := by
  unfold TestsCell
  rw [nop_of_jnz hjnz]
  unfold branch updateVariable indent
  dsimp only
  rw [Run.bind_of_ok (cell_eq_ok.2 ⟨m, a, haccess, rfl, rfl⟩), Run.modify_bind,
    Run.bind_of_ok (line_eq_ok.2 ⟨rfl, rfl⟩), Run.bind_of_ok (nameOf_eq_ok.2 ⟨rfl, rfl⟩),
    Run.modify_bind, Run.modify_bind, Run.modify_bind]
  simp only [himm]
  rw [Run.bind_of_ok (Run.ofOutcome_eq_ok.2 ⟨hsmall, rfl⟩)]
  have hcondition : ((({ d with memory := m }.withBlock place
      fun b => { b with condition := some a.number }).blocksOf place.function)[place.block]?).map
        (·.condition) = some (some a.number) := by
    rw [getElem?_blocksOf_withBlock]
    change (((d.blocksOf place.function)[place.block]?).map _).map _ = _
    rw [hblock]
    rfl
  have htext := congrArg (fun name =>
    lineAt sc d.tabs sc.printer.palette.red "if " ++ "(" ++ name ++ " == 0) \x7b")
    (Memory.nameOf_update (f := fun v => { v with function := some place.function }) (fun _ => rfl) m
      a.number a.number).symm
  -- the end of the branch that is noted next touches neither the memory nor the graphs
  split_ifs
  · exact ⟨_, _, rfl, htext, hcondition⟩
  · exact ⟨_, _, rfl, htext, hcondition⟩

theorem testsCell_iff (hjnz : s.instruction.pcUpdate = .jnz) (himm : s.instruction.imm = some imm)
    (hsmall : Field.small imm sc.printer.prime = .ok n)
    (hblock : (d.blocksOf place.function)[place.block]? = some b) {q : Nat} :
    TestsCell sc place s d q ↔
      ∃ m a, d.memory.access .ap s.instruction.off0 = .ok (m, a) ∧ a.number = q := by
  constructor
  · intro h
    have ⟨text, d', hrun, _⟩ := h
    rw [nop_of_jnz hjnz] at hrun
    obtain ⟨_, _, hcell, -⟩ := Run.bind_eq_ok.1 hrun
    obtain ⟨m, a, haccess, -, -⟩ := cell_eq_ok.1 hcell
    exact ⟨m, a, haccess, (testsCell_of_access hjnz himm hsmall hblock haccess).unique h⟩
  · rintro ⟨m, a, haccess, rfl⟩
    exact testsCell_of_access hjnz himm hsmall hblock haccess

/-- A conditional jump on a cell that exists is written as a test of the cell with the same offset from
`ap`. That is the cell of the instruction if it counts from `ap`; if it counts from `fp`, it is the same
cell if and only if the registers are equal, or a whole memory apart with the start of the memory between
the two positions. -/
theorem tested_operand_iff (hjnz : s.instruction.pcUpdate = .jnz) (himm : s.instruction.imm = some imm)
    (hsmall : Field.small imm sc.printer.prime = .ok n)
    (hblock : (d.blocksOf place.function)[place.block]? = some b) {m : Memory} {a : Access}
    (hcell : d.memory.access s.instruction.dstRegister s.instruction.off0 = .ok (m, a)) :
    (∀ q, TestsCell sc place s d q ↔
      ∃ m' a', d.memory.access .ap s.instruction.off0 = .ok (m', a') ∧ a'.number = q) ∧
    (s.instruction.dstRegister = .ap → TestsCell sc place s d a.number) ∧
    (s.instruction.dstRegister = .fp →
      (TestsCell sc place s d a.number ↔ d.memory.ap = d.memory.fp ∨
        (d.memory.ap + d.memory.size = d.memory.fp ∧
          d.memory.ap + s.instruction.off0 < 0 ∧ 0 ≤ d.memory.fp + s.instruction.off0) ∨
        (d.memory.fp + d.memory.size = d.memory.ap ∧
          d.memory.fp + s.instruction.off0 < 0 ∧ 0 ≤ d.memory.ap + s.instruction.off0))) := by
  have htests := fun q => testsCell_iff (q := q) hjnz himm hsmall hblock
  refine ⟨htests, fun hap => (htests _).2 ⟨m, a, hap ▸ hcell, rfl⟩, fun hfp => ?_⟩
  have hapAt : d.memory.registerAt .ap = d.memory.ap := rfl
  have hfpAt : d.memory.registerAt .fp = d.memory.fp := rfl
  have hnumber := Memory.number_of_access hcell
  rw [hfp, hfpAt] at hnumber
  rw [htests, Memory.exists_access_iff, hapAt]
  split_ifs at hnumber <;> omega

end Jump

/-- A jump on the only argument of a function, which counts from `fp`. -/
def testingArgument : Site :=
  let jump := Site.jumping 2 .jnz 4
  { jump with instruction := { jump.instruction with off0 := -3, dstRegister := .fp } }

/-- The function has been entered and has pushed one cell. -/
def afterPush : Decompiler :=
  { start [some ⟨"main", [.fresh 0 testingArgument], 0, ⟨"", none, []⟩⟩] with
    memory := (Memory.empty.enter (some 0) ["x"] 0).push id }

def testingScene : Scene := ⟨[], ⟨.plain, Field.defaultPrime, []⟩⟩

/-- The argument is cell 0, and the frame of the caller is tested in its place. -/
theorem tested_operand_of_argument :
    afterPush.memory.access .fp (-3) = .ok (afterPush.memory, ⟨false, 0⟩) ∧
      afterPush.memory.nameOf 0 = "v0_x" ∧ afterPush.memory.nameOf 1 = "v1_callers_function_frame" ∧
      ¬ TestsCell testingScene ⟨0, 0⟩ testingArgument afterPush 0 ∧
      TestsCell testingScene ⟨0, 0⟩ testingArgument afterPush 1 := by
  have hcell : afterPush.memory.access testingArgument.instruction.dstRegister
      testingArgument.instruction.off0 = .ok (afterPush.memory, ⟨false, 0⟩) := by decide
  have hsmall : Field.small 4 testingScene.printer.prime = .ok 4 := by decide
  have htested : (∀ q, TestsCell testingScene ⟨0, 0⟩ testingArgument afterPush q ↔ _) ∧ _ :=
    tested_operand_iff rfl rfl hsmall rfl hcell
  obtain ⟨htests, -, hsame⟩ := htested
  refine ⟨hcell, by decide, by decide, fun h => ?_,
    (htests 1).2 ⟨afterPush.memory, ⟨false, 1⟩, by decide, rfl⟩⟩
  exact absurd ((hsame rfl).1 h) (by decide)

end Decompiler

end Cairoscope
