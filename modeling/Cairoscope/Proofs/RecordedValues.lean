import Cairoscope.Proofs.StraightLine

/-! The values that straight-line code leaves are true: whatever integers stand on the stack, if they
satisfy the equations of the code then they satisfy the recorded values, and each equality has left a
value in its cell. -/

namespace Cairoscope

open Memory

theorem Value.Holds.mono {prime : Int} {deref : Int → Int} {read read' : Nat → Option Int} {x : Int}
    {v : Value} (hread : ∀ n a, read n = some a → read' n = some a)
    (h : v.Holds prime deref read x) : v.Holds prime deref read' x := by
  have heval : ∀ (o : Operand) a, o.eval read = some a → o.eval read' = some a := by
    intro o a ho
    cases o with
    | integer n => exact ho
    | cells ns =>
      match ns, ho with
      | [n], ho => exact hread n a ho
  cases v with
  | integer n => exact h
  | copy ns =>
    obtain ⟨a, ha, hx⟩ := h
    exact ⟨a, heval _ a ha, hx⟩
  | combined l op r =>
    obtain ⟨a, ha, hx⟩ := h
    obtain ⟨b, c, hb, hc, hop⟩ := absolute?_combined.1 ha
    exact ⟨a, absolute?_combined.2 ⟨b, c, heval l b hb, heval r c hc, hop⟩, hx⟩
  | load base offset =>
    obtain ⟨a, ha, hx⟩ := h
    exact ⟨a, heval _ a ha, hx⟩
  | result r => exact h

namespace Decompiler

variable {prime : Int} {c : Contents} {fr : Frame} {i : Instruction} {m m' : Memory}

theorem reads_of_cellAt {stack : Int → Int} {r : Register} {offset : Int} {n : Nat}
    (hr : m.registerAt r = fr.register r) (h : m.CellAt m' r offset n)
    (hp : 0 ≤ fr.register r + offset) :
    m'.reads stack n = some (stack (fr.register r + offset)) := by
  rw [← hr] at hp ⊢
  unfold reads
  rw [if_pos h.lt, h.number hp]

/-- The second operand, when it is in a cell. -/
theorem op1Value_of_cell (himm : i.op1Source ≠ .imm) (hop0 : i.op1Source ≠ .op0) :
    i.op1Value c fr = c.stack (fr.register (op1Register i.op1Source) + i.off2) := by
  unfold Instruction.op1Value
  cases hsource : i.op1Source with
  | imm => exact absurd hsource himm
  | op0 => exact absurd hsource hop0
  | ap => rfl
  | fp => rfl

theorem position_of_op1 (himm : i.op1Source ≠ .imm) (hop0 : i.op1Source ≠ .op0) :
    fr.register (op1Register i.op1Source) + i.off2 ∈ i.positions fr := by
  unfold Instruction.positions
  cases hsource : i.op1Source with
  | imm => exact absurd hsource himm
  | op0 => exact absurd hsource hop0
  | ap => simp [op1Register, Frame.register]
  | fp => simp [op1Register, Frame.register]

theorem position_of_op0 (h : i.res = .op1 → i.op1Source = .op0) :
    fr.register i.op0Register + i.off1 ∈ i.positions fr := by
  unfold Instruction.positions
  rw [if_neg fun hcond => hcond.2 (h hcond.1)]
  simp

/-- A sum or product says what its operator says. -/
theorem satisfied_of_operator {op : Operator} (hop : i.res.operator? = some op)
    (h : i.Satisfied prime c fr) :
    c.stack (i.target fr) ≡ op.apply (i.op0Value c fr) (i.op1Value c fr) [ZMOD prime] := by
  unfold Instruction.Satisfied at h
  cases hres : i.res with
  | op1 => simp [hres, Res.operator?] at hop
  | unconstrained => simp [hres, Res.operator?] at hop
  | add =>
    obtain rfl : Operator.addition = op := by simpa [hres, Res.operator?] using hop
    rw [hres] at h
    exact h
  | mul =>
    obtain rfl : Operator.multiplication = op := by simpa [hres, Res.operator?] using hop
    rw [hres] at h
    exact h

theorem satisfied_of_op1 (hres : i.res = .op1) (h : i.Satisfied prime c fr) :
    c.stack (i.target fr) ≡ i.op1Value c fr [ZMOD prime] := by
  unfold Instruction.Satisfied at h
  rw [hres] at h
  exact h

theorem apply_modEq (op : Operator) (a : Int) {b b' : Int} (h : b ≡ b' [ZMOD prime]) :
    op.apply a b ≡ op.apply a b' [ZMOD prime] := by
  cases op with
  | addition => exact h.add_left a
  | multiplication => exact h.mul_left a

/-- The cell that is assigned is the one that the equality is about. -/
theorem target_of_assigns {mt : Meeting} {dst : Nat} {value : Option Value}
    (h : Assigns prime mt i m m' dst value) (hr : ∀ r, m.registerAt r = fr.register r)
    (htarget : 0 ≤ i.target fr) : (dst : Int) = i.target fr := by
  have hpos : m.registerAt i.dstRegister + i.off0 = i.target fr := by rw [hr]; rfl
  rw [← hpos] at htarget ⊢
  cases h with
  | immediate _ _ hdst _ => exact hdst.number htarget
  | load _ _ hdst _ => exact hdst.number htarget
  | copy _ _ _ hdst _ => exact hdst.number htarget
  | cells _ _ hdst _ _ => exact hdst.number htarget
  | near _ _ hdst _ _ _ => exact hdst.number htarget
  | far _ _ hdst _ => exact hdst.number htarget

theorem isSome_of_assigns {mt : Meeting} {dst : Nat} {value : Option Value}
    (h : Assigns prime mt i m m' dst value)
    (hi : i.res = .op1 ∨ i.op1Source ≠ .imm ∨ (Field.small (i.imm.getD 0) prime).toOption.isSome) :
    value.isSome := by
  cases h with
  | far hop hsource _ hn =>
    rcases hi with hres | himm | hsmall
    · simp [hres, Res.operator?] at hop
    · exact absurd hsource himm
    · simp [hn, Except.toOption] at hsmall
  | immediate => rfl
  | load => rfl
  | copy => rfl
  | cells => rfl
  | near => rfl

/-- What a plain equality assigns is true if its equation is satisfied. -/
theorem holds_of_assigns {dst : Nat} {x : Value}
    (h : Assigns prime nothingMeets i m m' dst (some x)) (hi : i.IsPlain)
    (hr : ∀ r, m.registerAt r = fr.register r) (habove : ∀ p ∈ i.positions fr, 0 ≤ p)
    (hsat : i.Satisfied prime c fr) : x.Holds prime c.deref (m'.reads c.stack) (c.stack dst) := by
  rw [target_of_assigns h hr (habove _ (by simp [Instruction.positions]))]
  have hoperator : ∀ {op}, i.res.operator? = some op → i.res ≠ .op1 := by
    intro op hop hres
    simp [hres, Res.operator?] at hop
  cases h with
  | immediate hres hsource _ hn =>
    refine ⟨_, rfl, (satisfied_of_op1 hres hsat).trans ?_⟩
    simp only [Instruction.op1Value, hsource]
    exact (Field.modEq_of_numeral hn).symm
  | load hres hsource _ hbase =>
    refine ⟨_, reads_of_cellAt (hr _) hbase (habove _ (position_of_op0 fun _ => hsource)), ?_⟩
    have hop1 : i.op1Value c fr = c.deref (i.op0Value c fr + i.off2) := by
      simp only [Instruction.op1Value, hsource]
    exact hop1 ▸ satisfied_of_op1 hres hsat
  | copy hres himm hop0 _ hsrc =>
    refine ⟨_, reads_of_cellAt (hr _) hsrc (habove _ (position_of_op1 himm hop0)), ?_⟩
    rw [← op1Value_of_cell himm hop0]
    exact satisfied_of_op1 hres hsat
  | cells hop himm _ hleft hright =>
    -- what stands at an address is not an operand of a sum or product
    have hop0 : i.op1Source ≠ .op0 := fun hsource => hoperator hop (hi.op0 hsource)
    refine ⟨_, Value.absolute?_combined.2 ⟨_, _,
      reads_of_cellAt (hr _) hleft (habove _ (position_of_op0 fun h => absurd h (hoperator hop))),
      reads_of_cellAt (hr _) hright (habove _ (position_of_op1 himm hop0)), rfl⟩, ?_⟩
    rw [← op1Value_of_cell himm hop0]
    exact satisfied_of_operator hop hsat
  | near hop hsource _ hleft hns hn =>
    obtain rfl : _ = nothingMeets.pick _ := hns.resolve_right fun h => absurd h.2 (by decide)
    refine ⟨_, Value.absolute?_combined.2 ⟨_, _,
      reads_of_cellAt (hr _) hleft (habove _ (position_of_op0 fun h => absurd h (hoperator hop))),
      rfl, rfl⟩, ?_⟩
    refine (satisfied_of_operator hop hsat).trans (apply_modEq _ _ ?_)
    simp only [Instruction.op1Value, hsource]
    exact (Field.modEq_of_small hn).symm

/-- `R` holds with the registers where the memory has them, and the code to come is plain and stays
above. -/
structure Follows (R : Frame → List Site → Memory → Prop) (fr : Frame) (rest : List Site)
    (m : Memory) : Prop where
  registers : rest ≠ [] → ∀ r, m.registerAt r = fr.register r
  plain : ∀ s ∈ rest, s.instruction.opcode = .assertEq → s.instruction.IsPlain
  above : StaysAbove fr rest
  holds : R fr rest m

def Tracked (R : Frame → List Site → Memory → Prop) (rest : List Site) (m : Memory) : Prop :=
  ∃ fr, Follows R fr rest m

/-- A plain equality moves the registers as the machine does. -/
theorem registerAt_moveAp {sc : Scene} {n : Int} (hi : i.IsPlain)
    (hr : ∀ r, m.registerAt r = fr.register r) (h : apStep sc i = .ok n) (r : Register) :
    (m.moveAp (max 0 n)).registerAt r = (fr.after i).register r := by
  have hap : m.ap = fr.ap := hr .ap
  have hfp : m.fp = fr.fp := hr .fp
  unfold apStep at h
  unfold Frame.after
  rcases hi.ap with hmove | hmove
  · rw [hmove] at h ⊢
    obtain rfl := Except.ok.inj h
    cases r with
    | ap => exact (Int.add_zero _).trans hap
    | fp => exact hfp
  · rw [hmove] at h ⊢
    obtain rfl := Except.ok.inj h
    cases r with
    | ap => exact congrArg (· + 1) hap
    | fp => exact hfp

theorem kept_tracked {sc : Scene} {R : Frame → List Site → Memory → Prop}
    (hplain : ∀ {fr s rest m m' dst value}, s.instruction.IsPlain →
      (∀ r, m.registerAt r = fr.register r) → (∀ p ∈ s.instruction.positions fr, 0 ≤ p) →
      Records sc.printer.prime nothingMeets s.instruction m m' dst value → R fr (s :: rest) m →
      R (fr.after s.instruction) rest m')
    (hap : ∀ {fr rest m n}, R fr rest m → R fr rest (m.moveAp n))
    (hret : ∀ {fr s m m'}, s.instruction.opcode = .ret → m.Grows (fun _ _ => False) m' →
      R fr [s] m → R (fr.after s.instruction) [] m') : Kept sc (Tracked R) := by
  constructor
  · rintro s rest m m' dst value n hi ⟨fr, h⟩ hrecords hstep
    have hm := h.registers (by simp)
    have hr : ∀ r, m'.registerAt r = fr.register r := fun r => by rw [hrecords.registers, hm]
    have his := h.plain s (by simp) hi.opcode
    refine ⟨fr.after s.instruction, fun _ => registerAt_moveAp his hr hstep, fun t ht => ?_,
      h.above.2, hap (hplain his hm (h.above.1 hi.opcode) hrecords h.holds)⟩
    exact h.plain t (by simp [ht])
  · rintro s m m' hs ⟨fr, h⟩ hgrows
    exact ⟨fr.after s.instruction, fun hne => absurd rfl hne, fun t ht => (by cases ht), h.above.2,
      hret hs hgrows h.holds⟩

/-- All values that the memory has are true of the contents. -/
structure Sound (prime : Int) (c : Contents) (m : Memory) : Prop where
  aligned : m.Aligned
  holds : ∀ (q : Nat) (v : Variable) (x : Value), m.cells[q]? = some v → v.value = some x →
    x.Holds prime c.deref (m.reads c.stack) (c.stack q)

theorem reads_mono (hsize : m.size ≤ m'.size) {stack : Int → Int} {n : Nat} {a : Int}
    (h : m.reads stack n = some a) : m'.reads stack n = some a := by
  unfold reads at h ⊢
  split_ifs at h with hn
  rw [if_pos (Nat.lt_of_lt_of_le hn hsize)]
  exact h

theorem Sound.grows {new : Nat → Value → Prop} (h : Sound prime c m) (hgrows : m.Grows new m')
    (hnew : ∀ q x, new q x → x.Holds prime c.deref (m'.reads c.stack) (c.stack q)) :
    Sound prime c m' := by
  refine ⟨hgrows.aligned h.aligned, fun q v x hv hx => ?_⟩
  rcases hgrows.value q v x hv hx with ⟨w, hw, hwx⟩ | hfresh
  · exact (h.holds q w x hw hwx).mono fun _ _ => reads_mono hgrows.size_le
  · exact hnew q x hfresh

theorem kept_sound (sc : Scene) (c : Contents) : Kept sc (Tracked fun fr rest m =>
    Sound sc.printer.prime c m ∧ Equations sc.printer.prime c fr rest) := by
  apply kept_tracked
  · rintro fr s rest m m' dst value hi hr habove hrecords ⟨hsound, hsat, hrest⟩
    refine ⟨hsound.grows hrecords.grows ?_, hrest⟩
    rintro q x ⟨rfl, rfl⟩
    exact holds_of_assigns hrecords.assigns hi hr habove (hsat hi.opcode)
  · rintro fr rest m n ⟨hsound, hrest⟩
    exact ⟨⟨aligned_moveAp hsound.aligned n, hsound.holds⟩, hrest⟩
  · rintro fr s m m' hs hgrows ⟨hsound, -, hrest⟩
    exact ⟨hsound.grows hgrows fun _ _ hf => hf.elim, hrest⟩

/-- The cell at a position has a value. -/
def HasValueAt (m : Memory) (p : Int) : Prop :=
  ∃ (q : Nat) (v : Variable) (x : Value), (q : Int) = p ∧ m.cells[q]? = some v ∧ v.value = some x

theorem HasValueAt.grows {new : Nat → Value → Prop} {p : Int} (h : HasValueAt m p)
    (hgrows : m.Grows new m') : HasValueAt m' p := by
  obtain ⟨q, v, x, hq, hv, hx⟩ := h
  obtain ⟨w, hw, hwx⟩ := hgrows.kept q v x hv hx
  exact ⟨q, w, x, hq, hw, hwx⟩

theorem kept_hasValueAt (sc : Scene) (all : List Int) : Kept sc (Tracked fun fr rest m =>
    ∀ p ∈ all, p ∈ assigned sc.printer.prime fr rest ∨ HasValueAt m p) := by
  apply kept_tracked
  · intro fr s rest m m' dst value hi hr habove hrecords h p hp
    rcases h p hp with hlater | hnow
    · rcases List.mem_append.1 hlater with hhere | hlater
      · right
        split_ifs at hhere with hgives
        · obtain rfl := List.mem_singleton.1 hhere
          obtain ⟨v, x, hv, hx⟩ := hrecords.defined (isSome_of_assigns hrecords.assigns hgives.2)
          have htarget := habove (s.instruction.target fr) (by simp [Instruction.positions])
          exact ⟨dst, v, x, target_of_assigns hrecords.assigns hr htarget, hv, hx⟩
        · cases hhere
      · exact Or.inl hlater
    · exact Or.inr (hnow.grows hrecords.grows)
  · intro fr rest m n h
    exact h
  · intro fr s m m' hs hgrows h p hp
    rcases h p hp with hlater | hnow
    · simp [assigned, hs] at hlater
    · exact Or.inr (hnow.grows hgrows)

theorem function_of_program {sc : Scene} {f : Function} {d d' : Decompiler} {text : String}
    (hf : sc.functions = [f]) (h : program sc true true d = .ok text d') :
    ∃ out, function sc true true 0 f d = .ok out d' := by
  unfold program at h
  rw [hf] at h
  obtain ⟨texts, _, hfunctions, h⟩ := Run.bind_eq_ok.1 h
  obtain ⟨-, rfl⟩ := Run.pure_eq_ok.1 h
  obtain ⟨out, _, hfunction, h⟩ := Run.bind_eq_ok.1 hfunctions
  obtain ⟨rest, _, hrest, h⟩ := Run.bind_eq_ok.1 h
  obtain ⟨-, rfl⟩ := Run.pure_eq_ok.1 hrest
  obtain ⟨-, rfl⟩ := Run.pure_eq_ok.1 h
  exact ⟨out, hfunction⟩

theorem straightLine_of_plain {f : Function} (h : f.IsLineOf Instruction.IsPlain) :
    f.StraightLine ∧ ∀ s ∈ f.sites, s.instruction.opcode = .assertEq → s.instruction.IsPlain := by
  obtain ⟨front, last, hsplit, hplain, hret⟩ := h
  refine ⟨⟨front, last, hsplit, fun s hs => (hplain s hs).toIsEquality, hret⟩, fun s hs hopcode => ?_⟩
  rw [hsplit] at hs
  rcases List.mem_append.1 hs with hs | hs
  · exact hplain s hs
  · rw [List.mem_singleton.1 hs, hret] at hopcode
    cases hopcode

/-- The frame of the first function of a decompilation. -/
theorem tracked_enter {R : Frame → List Site → Memory → Prop} {f : Function}
    (graph : Option FlowGraph) (hline : f.IsLineOf Instruction.IsPlain)
    (habove : StaysAbove (.entry f) f.sites)
    (h : R (.entry f) f.sites (Memory.empty.enter (some 0) f.parameterNames 0)) :
    Tracked R f.sites ((start [graph]).memory.enter (some 0) f.parameterNames
      (start [graph]).nextBlock) := by
  refine ⟨.entry f, fun _ r => ?_, (straightLine_of_plain hline).2, habove, h⟩
  rw [registerAt_enter]
  change (0 : Int) + _ + 2 = _
  cases r with
  | ap => exact congrArg (· + 2) (Int.zero_add _)
  | fp => exact congrArg (· + 2) (Int.zero_add _)

/-- After a first pass over plain straight-line code, each equality has left a value in its cell, and
the recorded values are true of all contents that satisfy the equations of the code. -/
theorem recorded_values_hold {sc : Scene} {f : Function} {graph : Option FlowGraph} {text : String}
    {d : Decompiler} (hf : sc.functions = [f]) (hline : f.IsLineOf Instruction.IsPlain)
    (habove : StaysAbove (.entry f) f.sites)
    (hrun : program sc true true (start [graph]) = .ok text d) :
    (∀ c : Contents, Equations sc.printer.prime c (.entry f) f.sites →
      ∀ (q : Nat) (v : Variable) (x : Value), d.memory.cells[q]? = some v → v.value = some x →
        x.Holds sc.printer.prime c.deref (d.memory.readsNamed c.stack) (c.stack q)) ∧
      ∀ p ∈ assigned sc.printer.prime (.entry f) f.sites, HasValueAt d.memory p := by
  obtain ⟨out, hfunction⟩ := function_of_program hf hrun
  have hstraight := (straightLine_of_plain hline).1
  have henter := grows_enter (fun _ _ => False) Memory.empty (some 0) f.parameterNames 0
  constructor
  · intro c hsat q v x hv hx
    have hsound : Sound sc.printer.prime c
        (Memory.empty.enter (some 0) f.parameterNames 0) := by
      refine Sound.grows (m := Memory.empty) ⟨aligned_empty, fun q v x hv hx => ?_⟩ henter
        fun _ _ hf => hf.elim
      cases hv
    obtain ⟨⟨fr, hend⟩, -⟩ := of_straightLine (kept_sound sc c) hstraight rfl
      (tracked_enter graph hline habove ⟨hsound, hsat⟩) hfunction
    rw [readsNamed_eq hend.holds.1.aligned]
    exact hend.holds.1.holds q v x hv hx
  · intro p hp
    obtain ⟨⟨fr, hend⟩, -⟩ := of_straightLine
      (kept_hasValueAt sc (assigned sc.printer.prime (.entry f) f.sites)) hstraight rfl
      (tracked_enter graph hline habove fun p hp => Or.inl hp) hfunction
    exact (hend.holds p hp).resolve_left (by simp [start, assigned])

/-- A function of `x` with an equality of each shape. -/
def everyShape : Function where
  name := "shapes"
  id := 0
  start := 0
  stop := 7
  sites := [.pushing 0 .fp .imm .op1 (-1) 1 (some 90), .pushing 2 .fp .fp .op1 (-1) (-3) none,
    .pushing 3 .ap .ap .mul (-1) (-2) none, .pushing 4 .ap .imm .add (-1) 1 (some 100),
    .pushing 6 .fp .op0 .op1 (-3) 2 none, .returning 7]
  implicit := []
  explicit := [(.number 0, ⟨"x", .str "felt"⟩)]
  returns := []
  decorators := .arr []
  isImport := false
  entryPoint := true

def shapesScene : Scene := ⟨[everyShape], ⟨.plain, 97, []⟩⟩

def shapesContents : Contents where
  stack p := [5, 0, 0, 90, 5, 62, 65, 11].getD p.toNat 0
  deref a := if a = 7 then 11 else 0

theorem recorded_values_hold_shapes :
    everyShape.IsLineOf Instruction.IsPlain ∧ StaysAbove (.entry everyShape) everyShape.sites ∧
      ∃ text d, program shapesScene true true (start [none]) = .ok text d ∧
        d.memory.cells.map (·.value) = [none, none, none, some (.integer (-7)), some (.copy [0]),
          some (.combined (.cells [4]) .multiplication (.cells [3])),
          some (.combined (.cells [5]) .addition (.integer 3)), some (.load [0] 2)] ∧
        Equations 97 shapesContents (.entry everyShape) everyShape.sites ∧
        (∀ (q : Nat) (v : Variable) (x : Value), d.memory.cells[q]? = some v → v.value = some x →
          x.Holds 97 shapesContents.deref (d.memory.readsNamed shapesContents.stack)
            (shapesContents.stack q)) ∧
        ∀ p ∈ assigned 97 (.entry everyShape) everyShape.sites, HasValueAt d.memory p := by
  have hline : everyShape.IsLineOf Instruction.IsPlain :=
    ⟨everyShape.sites.take 5, .returning 7, rfl, by decide +kernel, rfl⟩
  have habove : StaysAbove (.entry everyShape) everyShape.sites := by decide +kernel
  obtain ⟨text, d, hrun, hvalues⟩ := exists_run (x := program shapesScene true true) (d := start [none])
    (f := fun d => d.memory.cells.map (·.value)) (b := [none, none, none, some (.integer (-7)), some (.copy [0]),
      some (.combined (.cells [4]) .multiplication (.cells [3])),
      some (.combined (.cells [5]) .addition (.integer 3)), some (.load [0] 2)]) (by decide +kernel)
  have hsat : Equations 97 shapesContents (.entry everyShape) everyShape.sites := by decide +kernel
  obtain ⟨hholds, hassigned⟩ := recorded_values_hold rfl hline habove hrun
  exact ⟨hline, habove, text, d, hrun, hvalues, hsat, hholds shapesContents hsat, hassigned⟩

end Decompiler

end Cairoscope
