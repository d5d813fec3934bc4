import Cairoscope.Proofs.Steps

/-! Equalities. Each of the five shapes of an equality gives its cell one value, made from the cells at
its offsets; whatever shape it has, it only adds cells and that value to the memory. -/

namespace Cairoscope

namespace Decompiler

variable {sc : Scene} {place : Place} {d d' : Decompiler}

/-- The variables that an operand in a cell stands for: all that meet, if its own is one of them. -/
def Meeting.pick (m : Meeting) (n : Nat) : List Nat :=
  if m.numbers.contains n then m.numbers else [n]

theorem pick_of_source {m : Meeting} {n : Nat} {src : Source} (h : m.source n d = .ok src d') :
    src.numbers = m.pick n ∧ d = d' := by
  unfold Meeting.source at h
  unfold Meeting.pick
  split at h
  · rename_i hin
    obtain ⟨rfl, rfl⟩ := Run.pure_eq_ok.1 h
    rw [if_pos hin]
    exact ⟨rfl, rfl⟩
  · rename_i hin
    obtain ⟨s, _, hname, h⟩ := Run.bind_eq_ok.1 h
    obtain ⟨-, rfl⟩ := nameOf_eq_ok.1 hname
    obtain ⟨rfl, rfl⟩ := Run.pure_eq_ok.1 h
    rw [if_neg hin]
    exact ⟨rfl, rfl⟩

theorem pick_of_immediateSource {m : Meeting} {asserted : Bool} {n : Nat} {src : Source}
    (h : immediateSource place m asserted n d = .ok src d') :
    (src.numbers = m.pick n ∨ (src.numbers = m.numbers ∧ 1 < m.numbers.length)) ∧ d = d' := by
  unfold immediateSource at h
  unfold Meeting.pick
  split at h
  · rename_i hin
    obtain ⟨rfl, rfl⟩ := Run.pure_eq_ok.1 h
    rw [if_pos hin]
    exact ⟨Or.inl rfl, rfl⟩
  · rename_i hin
    rw [Run.get_bind] at h
    obtain ⟨p, _, hp, h⟩ := Run.bind_eq_ok.1 h
    obtain ⟨-, rfl⟩ := hasParents_eq_ok.1 hp
    split at h
    · rename_i hearly
      obtain ⟨rfl, rfl⟩ := Run.pure_eq_ok.1 h
      simp only [Bool.and_eq_true, decide_eq_true_eq] at hearly
      exact ⟨Or.inr ⟨rfl, hearly.2⟩, rfl⟩
    · obtain ⟨s, _, hname, h⟩ := Run.bind_eq_ok.1 h
      obtain ⟨-, rfl⟩ := nameOf_eq_ok.1 hname
      obtain ⟨rfl, rfl⟩ := Run.pure_eq_ok.1 h
      rw [if_neg hin]
      exact ⟨Or.inl rfl, rfl⟩

end Decompiler

def Res.operator? : Res → Option Operator
  | .add => some .addition
  | .mul => some .multiplication
  | _ => none

namespace Decompiler

theorem operator_of_text {r : Res} {op : String} (h : Site.operatorText r = .ok op) :
    r.operator? = some (operatorOf op) := by
  cases r with
  | add => obtain rfl : "+" = op := by simpa [Site.operatorText] using h
           rfl
  | mul => obtain rfl : "*" = op := by simpa [Site.operatorText] using h
           rfl
  | op1 => simp [Site.operatorText] at h
  | unconstrained => simp [Site.operatorText] at h

/-- The value that an equality gives its cell, by the shape of the equality. A sum or product with an
immediate far from zero gives none. -/
inductive Assigns (prime : Int) (mt : Meeting) (i : Instruction) (m m' : Memory) :
    Nat → Option Value → Prop
  | immediate {dst : Nat} {n : Field.Numeral} (hres : i.res = .op1) (hsource : i.op1Source = .imm)
      (hdst : m.CellAt m' i.dstRegister i.off0 dst)
      (hn : Field.numeral (i.imm.getD 0) prime = .ok n) :
      Assigns prime mt i m m' dst (some (.integer n.value))
  | load {dst base : Nat} (hres : i.res = .op1) (hsource : i.op1Source = .op0)
      (hdst : m.CellAt m' i.dstRegister i.off0 dst) (hbase : m.CellAt m' i.op0Register i.off1 base) :
      Assigns prime mt i m m' dst (some (.load (mt.pick base) i.off2))
  | copy {dst src : Nat} (hres : i.res = .op1) (himm : i.op1Source ≠ .imm)
      (hop0 : i.op1Source ≠ .op0) (hdst : m.CellAt m' i.dstRegister i.off0 dst)
      (hsrc : m.CellAt m' (op1Register i.op1Source) i.off2 src) :
      Assigns prime mt i m m' dst (some (.copy (mt.pick src)))
  | cells {dst left right : Nat} {op : Operator} (hop : i.res.operator? = some op)
      (himm : i.op1Source ≠ .imm) (hdst : m.CellAt m' i.dstRegister i.off0 dst)
      (hleft : m.CellAt m' i.op0Register i.off1 left)
      (hright : m.CellAt m' (op1Register i.op1Source) i.off2 right) :
      Assigns prime mt i m m' dst
        (some (.combined (.cells (mt.pick left)) op (.cells (mt.pick right))))
  | near {dst left : Nat} {ns : List Nat} {op : Operator} {n : Int}
      (hop : i.res.operator? = some op) (hsource : i.op1Source = .imm)
      (hdst : m.CellAt m' i.dstRegister i.off0 dst) (hleft : m.CellAt m' i.op0Register i.off1 left)
      (hns : ns = mt.pick left ∨ (ns = mt.numbers ∧ 1 < mt.numbers.length))
      (hn : Field.small (i.imm.getD 0) prime = .ok n) :
      Assigns prime mt i m m' dst (some (.combined (.cells ns) op (.integer n)))
  | far {dst : Nat} {op : Operator} {e : Fault} (hop : i.res.operator? = some op)
      (hsource : i.op1Source = .imm) (hdst : m.CellAt m' i.dstRegister i.off0 dst)
      (hn : Field.small (i.imm.getD 0) prime = .error e) :
      Assigns prime mt i m m' dst none

theorem Assigns.mono {prime : Int} {mt : Meeting} {i : Instruction} {m m' m'' : Memory} {dst : Nat}
    {value : Option Value} (h : Assigns prime mt i m m' dst value) (hle : m'.size ≤ m''.size) :
    Assigns prime mt i m m'' dst value := by
  cases h with
  | immediate hres hsource hdst hn => exact .immediate hres hsource (hdst.mono rfl hle) hn
  | load hres hsource hdst hbase => exact .load hres hsource (hdst.mono rfl hle) (hbase.mono rfl hle)
  | copy hres himm hop0 hdst hsrc =>
    exact .copy hres himm hop0 (hdst.mono rfl hle) (hsrc.mono rfl hle)
  | cells hop himm hdst hleft hright =>
    exact .cells hop himm (hdst.mono rfl hle) (hleft.mono rfl hle) (hright.mono rfl hle)
  | near hop hsource hdst hleft hns hn =>
    exact .near hop hsource (hdst.mono rfl hle) (hleft.mono rfl hle) hns hn
  | far hop hsource hdst hn => exact .far hop hsource (hdst.mono rfl hle) hn

/-- What an equality does to the memory: it grows by the assigned value. -/
structure Records (prime : Int) (mt : Meeting) (i : Instruction) (m m' : Memory) (dst : Nat)
    (value : Option Value) : Prop where
  assigns : Assigns prime mt i m m' dst value
  grows : m.Grows (fun q x => q = dst ∧ value = some x) m'
  registers : ∀ r, m'.registerAt r = m.registerAt r
  defined : value.isSome → ∃ v x, m'.cells[dst]? = some v ∧ v.value = some x

/-- What an equality does to the state: nothing but the memory and two counts changes. -/
structure Assigned (prime : Int) (mt : Meeting) (i : Instruction) (d d' : Decompiler) (dst : Nat)
    (value : Option Value) : Prop where
  records : Records prime mt i d.memory d'.memory dst value
  rest : ∃ m n as, d' = { d with memory := m, newInBlock := n, assertions := as }

/-- Cells are reached first, then the value is defined. -/
theorem assigned_of_define {prime : Int} {mt : Meeting} {i : Instruction} {m : Memory} {dst : Nat}
    {x : Value} {u : Unit} (hwidens : d.memory.Widens m) (hdst : dst < m.size)
    (hassigns : ∀ m', m.size ≤ m'.size → Assigns prime mt i d.memory m' dst (some x))
    (h : define dst x { d with memory := m } = .ok u d') :
    Assigned prime mt i d d' dst (some x) := by
  obtain ⟨m', hgrows, hregisters, hdefined, rfl⟩ := grows_of_define hdst h
  refine ⟨⟨hassigns m' hgrows.size_le, ?_, fun r => ?_, fun _ => hdefined⟩, m', _, _, rfl⟩
  · refine (hwidens.grows.mono fun _ _ hf => hf.elim).trans (hgrows.mono ?_)
    rintro q y ⟨rfl, rfl⟩
    exact ⟨rfl, rfl⟩
  · exact (hregisters r).trans (hwidens.registers r)

theorem Assigned.counted {prime : Int} {mt : Meeting} {i : Instruction} {dst : Nat}
    {value : Option Value} (h : Assigned prime mt i d d' dst value) (n : Nat)
    (as : List Assertion) :
    Assigned prime mt i d { d' with newInBlock := n, assertions := as } dst value := by
  obtain ⟨m, k, bs, rfl⟩ := h.rest
  exact ⟨h.records, m, n, as, rfl⟩

/-- To say which function and block a variable belongs to changes no value. -/
theorem Assigned.placed {prime : Int} {mt : Meeting} {i : Instruction} {dst : Nat}
    {value : Option Value} {f : Variable → Variable} (h : Assigned prime mt i d d' dst value)
    (hnumber : ∀ v, (f v).number = v.number) (hvalue : ∀ v, (f v).value = v.value) :
    Assigned prime mt i d { d' with memory := d'.memory.update dst f } dst value := by
  have hgrows : ∀ new, d'.memory.Grows new (d'.memory.update dst f) := fun _ =>
    Memory.Grows.update_of_value_eq hnumber hvalue
  have hr := h.records
  refine ⟨⟨hr.assigns.mono (hgrows fun _ _ => True).size_le, hr.grows.trans (hgrows _), fun r => ?_,
    fun hsome => ?_⟩, ?_⟩
  · rw [← hr.registers]
    cases r with
    | ap => rfl
    | fp => rfl
  · obtain ⟨v, x, hv, hx⟩ := hr.defined hsome
    obtain ⟨w, hw, hwx⟩ := (hgrows fun _ _ => True).kept dst v x hv hx
    exact ⟨w, x, hw, hwx⟩
  · obtain ⟨m, n, as, rfl⟩ := h.rest
    exact ⟨_, n, as, rfl⟩

/-- Every shape starts with its cell and the mark for it. -/
theorem cellAt_of_marked {α : Type} {r : Register} {offset : Int} {f : Nat → String → Step α} {a : α}
    (h : (cell r offset >>= fun k => assertMark k >>= f k) d = .ok a d') :
    ∃ k mark m, d.memory.Widens m ∧ d.memory.CellAt m r offset k ∧
      f k mark { d with memory := m } = .ok a d' := by
  obtain ⟨k, _, hcell, h⟩ := Run.bind_eq_ok.1 h
  obtain ⟨m, hwidens, hdst, rfl⟩ := cellAt_of_cell hcell
  obtain ⟨mark, _, hmark, h⟩ := Run.bind_eq_ok.1 h
  obtain rfl := eq_of_assertMark hmark
  exact ⟨k, mark, m, hwidens, hdst, h⟩

/-- Three of the shapes end by writing their line. -/
theorem eq_of_written {colour : String} {f : String → String} {k dst : Nat} {text : String}
    (h : (nameOf k >>= fun name => line sc colour (f name) >>= fun out => pure (k, out)) d =
      .ok (dst, text) d') : k = dst ∧ d = d' := by
  obtain ⟨name, _, hname, h⟩ := Run.bind_eq_ok.1 h
  obtain ⟨-, rfl⟩ := nameOf_eq_ok.1 hname
  obtain ⟨out, _, hline, h⟩ := Run.bind_eq_ok.1 h
  obtain ⟨-, rfl⟩ := line_eq_ok.1 hline
  obtain ⟨hpair, rfl⟩ := Run.pure_eq_ok.1 h
  exact ⟨(Prod.mk.inj hpair).1, rfl⟩

theorem assigned_of_assignImmediate {mt : Meeting} {i : Instruction} {dst : Nat} {text : String}
    (hres : i.res = .op1) (hsource : i.op1Source = .imm)
    (h : assignImmediate sc i d = .ok (dst, text) d') :
    ∃ value, Assigned sc.printer.prime mt i d d' dst value := by
  unfold assignImmediate at h
  obtain ⟨reading, _, hreading, h⟩ := Run.bind_eq_ok.1 h
  obtain ⟨-, rfl⟩ := Run.ofOutcome_eq_ok.1 hreading
  obtain ⟨n, _, hnumeral, h⟩ := Run.bind_eq_ok.1 h
  obtain ⟨hn, rfl⟩ := Run.ofOutcome_eq_ok.1 hnumeral
  obtain ⟨k, mark, m, hwidens, hdst, h⟩ := cellAt_of_marked h
  obtain ⟨_, d₁, hdefine, h⟩ := Run.bind_eq_ok.1 h
  have hassigned : Assigned sc.printer.prime mt i d d₁ k (some (.integer n.value)) :=
    assigned_of_define hwidens hdst.lt
      (fun m' hle => .immediate hres hsource (hdst.mono rfl hle) hn) hdefine
  obtain ⟨name, _, hname, h⟩ := Run.bind_eq_ok.1 h
  obtain ⟨-, rfl⟩ := nameOf_eq_ok.1 hname
  obtain ⟨out, _, hline, h⟩ := Run.bind_eq_ok.1 h
  obtain ⟨-, rfl⟩ := line_eq_ok.1 hline
  split at h
  · obtain ⟨_, _, hmodify, h⟩ := Run.bind_eq_ok.1 h
    obtain rfl := Run.modify_eq_ok.1 hmodify
    obtain ⟨hpair, rfl⟩ := Run.pure_eq_ok.1 h
    obtain ⟨rfl, -⟩ := Prod.mk.inj hpair
    exact ⟨_, hassigned.counted d₁.newInBlock _⟩
  · obtain ⟨hpair, rfl⟩ := Run.pure_eq_ok.1 h
    obtain ⟨rfl, -⟩ := Prod.mk.inj hpair
    exact ⟨_, hassigned⟩

theorem assigned_of_assignLoad {mt : Meeting} {i : Instruction} {dst : Nat} {text : String}
    (hres : i.res = .op1) (hsource : i.op1Source = .op0)
    (h : assignLoad sc mt i d = .ok (dst, text) d') :
    ∃ value, Assigned sc.printer.prime mt i d d' dst value := by
  unfold assignLoad at h
  obtain ⟨k, mark, m, hwidens, hdst, h⟩ := cellAt_of_marked h
  obtain ⟨b, _, hcell, h⟩ := Run.bind_eq_ok.1 h
  obtain ⟨m', hwidens', hbase, rfl⟩ := cellAt_of_cell hcell
  obtain ⟨base, _, hsrc, h⟩ := Run.bind_eq_ok.1 h
  obtain ⟨hnumbers, rfl⟩ := pick_of_source hsrc
  rw [hnumbers] at h
  obtain ⟨_, d₁, hdefine, h⟩ := Run.bind_eq_ok.1 h
  have hle := hwidens'.grows.size_le
  have hassigned : Assigned sc.printer.prime mt i d d₁ k (some (.load (mt.pick b) i.off2)) := by
    refine assigned_of_define (hwidens.trans hwidens') (Nat.lt_of_lt_of_le hdst.lt hle) ?_ hdefine
    intro m'' hle'
    exact .load hres hsource (hdst.mono rfl (Nat.le_trans hle hle'))
      (hbase.mono (hwidens.registers _) hle')
  obtain ⟨rfl, rfl⟩ := eq_of_written h
  exact ⟨_, hassigned⟩

theorem assigned_of_assignCopy {mt : Meeting} {i : Instruction} {dst : Nat} {text : String}
    (hres : i.res = .op1) (himm : i.op1Source ≠ .imm) (hop0 : i.op1Source ≠ .op0)
    (h : assignCopy sc mt i d = .ok (dst, text) d') :
    ∃ value, Assigned sc.printer.prime mt i d d' dst value := by
  unfold assignCopy at h
  obtain ⟨k, mark, m, hwidens, hdst, h⟩ := cellAt_of_marked h
  obtain ⟨b, _, hcell, h⟩ := Run.bind_eq_ok.1 h
  obtain ⟨m', hwidens', hfrom, rfl⟩ := cellAt_of_cell hcell
  obtain ⟨src, _, hsrc, h⟩ := Run.bind_eq_ok.1 h
  obtain ⟨hnumbers, rfl⟩ := pick_of_source hsrc
  rw [hnumbers] at h
  obtain ⟨_, d₁, hdefine, h⟩ := Run.bind_eq_ok.1 h
  have hle := hwidens'.grows.size_le
  have hassigned : Assigned sc.printer.prime mt i d d₁ k (some (.copy (mt.pick b))) := by
    refine assigned_of_define (hwidens.trans hwidens') (Nat.lt_of_lt_of_le hdst.lt hle) ?_ hdefine
    intro m'' hle'
    exact .copy hres himm hop0 (hdst.mono rfl (Nat.le_trans hle hle'))
      (hfrom.mono (hwidens.registers _) hle')
  obtain ⟨rfl, rfl⟩ := eq_of_written h
  exact ⟨_, hassigned⟩

theorem assigned_of_assignCells {mt : Meeting} {i : Instruction} {op : String} {dst : Nat}
    {text : String} (hop : Site.operatorText i.res = .ok op) (himm : i.op1Source ≠ .imm)
    (h : assignCells sc mt op i d = .ok (dst, text) d') :
    ∃ value, Assigned sc.printer.prime mt i d d' dst value := by
  unfold assignCells at h
  obtain ⟨k, mark, m, hwidens, hdst, h⟩ := cellAt_of_marked h
  obtain ⟨b, _, hcell, h⟩ := Run.bind_eq_ok.1 h
  obtain ⟨m₁, hwidens₁, hleft, rfl⟩ := cellAt_of_cell hcell
  obtain ⟨left, _, hsrc, h⟩ := Run.bind_eq_ok.1 h
  obtain ⟨hlnumbers, rfl⟩ := pick_of_source hsrc
  obtain ⟨c, _, hcell, h⟩ := Run.bind_eq_ok.1 h
  obtain ⟨m₂, hwidens₂, hright, rfl⟩ := cellAt_of_cell hcell
  obtain ⟨right, _, hsrc, h⟩ := Run.bind_eq_ok.1 h
  obtain ⟨hrnumbers, rfl⟩ := pick_of_source hsrc
  rw [hlnumbers, hrnumbers] at h
  obtain ⟨_, d₁, hdefine, h⟩ := Run.bind_eq_ok.1 h
  have hle₁ := hwidens₁.grows.size_le
  have hle₂ := hwidens₂.grows.size_le
  have hassigned : Assigned sc.printer.prime mt i d d₁ k
      (some (.combined (.cells (mt.pick b)) (operatorOf op) (.cells (mt.pick c)))) := by
    refine assigned_of_define ((hwidens.trans hwidens₁).trans hwidens₂)
      (Nat.lt_of_lt_of_le hdst.lt (Nat.le_trans hle₁ hle₂)) ?_ hdefine
    intro m' hle
    exact .cells (operator_of_text hop) himm
      (hdst.mono rfl (Nat.le_trans (Nat.le_trans hle₁ hle₂) hle))
      (hleft.mono (hwidens.registers _) (Nat.le_trans hle₂ hle))
      (hright.mono ((hwidens.trans hwidens₁).registers _) hle)
  obtain ⟨rfl, rfl⟩ := eq_of_written h
  exact ⟨_, hassigned⟩

theorem assigned_of_assignCellImmediate {mt : Meeting} {i : Instruction} {op : String} {dst : Nat}
    {text : String} (hop : Site.operatorText i.res = .ok op) (hsource : i.op1Source = .imm)
    (h : assignCellImmediate sc place mt op i d = .ok (dst, text) d') :
    ∃ value, Assigned sc.printer.prime mt i d d' dst value := by
  unfold assignCellImmediate at h
  obtain ⟨k, mark, m, hwidens, hdst, h⟩ := cellAt_of_marked h
  obtain ⟨b, _, hcell, h⟩ := Run.bind_eq_ok.1 h
  obtain ⟨m', hwidens', hleft, rfl⟩ := cellAt_of_cell hcell
  obtain ⟨left, _, hsrc, h⟩ := Run.bind_eq_ok.1 h
  obtain ⟨hnumbers, rfl⟩ := pick_of_immediateSource hsrc
  have hle := hwidens'.grows.size_le
  -- whether or not a value is given, the line is written and the sum is counted
  have hend : ∀ {e e' : Decompiler} {f : String → String}, (nameOf k >>= fun name =>
      line sc sc.printer.palette.green (f name) >>= fun out =>
        (modify fun d => { d with newInBlock := d.newInBlock + 1 }) >>= fun _ => pure (k, out)) e =
      .ok (dst, text) e' → k = dst ∧ { e with newInBlock := e.newInBlock + 1 } = e' := by
    intro e e' f h
    obtain ⟨name, _, hname, h⟩ := Run.bind_eq_ok.1 h
    obtain ⟨-, rfl⟩ := nameOf_eq_ok.1 hname
    obtain ⟨out, _, hline, h⟩ := Run.bind_eq_ok.1 h
    obtain ⟨-, rfl⟩ := line_eq_ok.1 hline
    obtain ⟨_, _, hmodify, h⟩ := Run.bind_eq_ok.1 h
    obtain rfl := Run.modify_eq_ok.1 hmodify
    obtain ⟨hpair, rfl⟩ := Run.pure_eq_ok.1 h
    exact ⟨(Prod.mk.inj hpair).1, rfl⟩
  cases hn : Field.small (i.imm.getD 0) sc.printer.prime with
  | ok n =>
    simp only [hn] at h
    obtain ⟨_, d₁, hdefine, h⟩ := Run.bind_eq_ok.1 h
    have hassigned : Assigned sc.printer.prime mt i d d₁ k
        (some (.combined (.cells left.numbers) (operatorOf op) (.integer n))) := by
      refine assigned_of_define (hwidens.trans hwidens') (Nat.lt_of_lt_of_le hdst.lt hle) ?_ hdefine
      intro m'' hle'
      exact .near (operator_of_text hop) hsource (hdst.mono rfl (Nat.le_trans hle hle'))
        (hleft.mono (hwidens.registers _) hle') hnumbers hn
    obtain ⟨rfl, rfl⟩ := hend h
    exact ⟨_, hassigned.counted _ d₁.assertions⟩
  | error e =>
    simp only [hn] at h
    obtain ⟨rfl, rfl⟩ := hend h
    refine ⟨none, ⟨.far (operator_of_text hop) hsource (hdst.mono rfl hle) hn, ?_,
      (hwidens.trans hwidens').registers, fun h => by simp at h⟩, m', _, _, rfl⟩
    exact (hwidens.trans hwidens').grows.mono fun _ _ hf => hf.elim

theorem assigned_of_assign {mt : Meeting} {i : Instruction} {dst : Nat} {text : String}
    (h : assign sc place mt i d = .ok (dst, text) d') :
    ∃ value, Assigned sc.printer.prime mt i d d' dst value := by
  unfold assign at h
  split at h
  · rename_i hres
    cases hsource : i.op1Source with
    | imm => simp only [hsource] at h; exact assigned_of_assignImmediate hres hsource h
    | op0 => simp only [hsource] at h; exact assigned_of_assignLoad hres hsource h
    | ap =>
      simp only [hsource] at h
      exact assigned_of_assignCopy hres (by simp [hsource]) (by simp [hsource]) h
    | fp =>
      simp only [hsource] at h
      exact assigned_of_assignCopy hres (by simp [hsource]) (by simp [hsource]) h
  · obtain ⟨op, _, htext, h⟩ := Run.bind_eq_ok.1 h
    obtain ⟨hop, rfl⟩ := Run.ofOutcome_eq_ok.1 htext
    cases hsource : i.op1Source with
    | imm => simp only [hsource] at h; exact assigned_of_assignCellImmediate hop hsource h
    | op0 => simp only [hsource] at h; exact assigned_of_assignCells hop (by simp [hsource]) h
    | ap => simp only [hsource] at h; exact assigned_of_assignCells hop (by simp [hsource]) h
    | fp => simp only [hsource] at h; exact assigned_of_assignCells hop (by simp [hsource]) h

/-- An equality makes one assignment, whatever its shape. -/
theorem assigned_of_assertEq {mt : Meeting} {i : Instruction} {text : String}
    (hm : meeting place d = .ok mt d) (h : assertEq sc place i d = .ok text d') :
    ∃ dst value, Assigned sc.printer.prime mt i d d' dst value := by
  unfold assertEq at h
  obtain ⟨mt', d₀, hm', h⟩ := Run.bind_eq_ok.1 h
  obtain ⟨rfl, rfl⟩ : mt = mt' ∧ d = d₀ := by simpa [hm] using hm'
  obtain ⟨⟨dst, out⟩, d₁, hassign, h⟩ := Run.bind_eq_ok.1 h
  obtain ⟨value, hassigned⟩ := assigned_of_assign hassign
  obtain ⟨b, _, hb, h⟩ := Run.bind_eq_ok.1 h
  obtain ⟨-, rfl⟩ := currentBlock_eq_ok.1 hb
  obtain ⟨_, _, hupdate, h⟩ := Run.bind_eq_ok.1 h
  obtain rfl := updateVariable_eq_ok.1 hupdate
  obtain ⟨-, rfl⟩ := Run.pure_eq_ok.1 h
  exact ⟨dst, value, hassigned.placed (fun _ => rfl) fun _ => rfl⟩

end Decompiler

end Cairoscope
