import Cairoscope.Contract.Basic
import Cairoscope.Field
import Cairoscope.Memory.Basic
import Cairoscope.Proofs.Cells
import Mathlib.Data.Int.ModEq

/-! What recorded values and equalities mean. A value is read with integers for the variables, an
equality with integers for the cells of the stack; both hold modulo the prime. -/

namespace Cairoscope

/-- One variable is read; of several it is not known which is meant. -/
def Operand.eval (read : Nat → Option Int) : Operand → Option Int
  | .integer n => some n
  | .cells [n] => read n
  | .cells _ => none

def Operator.apply : Operator → Int → Int → Int
  | .addition, a, b => a + b
  | .multiplication, a, b => a * b

namespace Value

/-- The integer that a value is. Loads and results of calls are none. -/
def absolute? (read : Nat → Option Int) : Value → Option Int
  | integer n => some n
  | copy ns => Operand.eval read (.cells ns)
  | combined l op r => do return op.apply (← l.eval read) (← r.eval read)
  | load _ _ => none
  | result _ => none

theorem absolute?_combined {read : Nat → Option Int} {l r : Operand} {op : Operator} {a : Int} :
    (combined l op r).absolute? read = some a ↔
      ∃ b c, l.eval read = some b ∧ r.eval read = some c ∧ op.apply b c = a := by
  cases hl : l.eval read with
  | none => simp [absolute?, hl]
  | some b =>
    cases hr : r.eval read with
    | none => simp [absolute?, hl, hr]
    | some c => simp [absolute?, hl, hr]

/-- `x` is what the value says, where `deref` is what stands at an address. -/
def Holds (prime : Int) (deref : Int → Int) (read : Nat → Option Int) (x : Int) : Value → Prop
  | load base offset =>
    ∃ a, Operand.eval read (.cells base) = some a ∧ x ≡ deref (a + offset) [ZMOD prime]
  | v => ∃ a, v.absolute? read = some a ∧ x ≡ a [ZMOD prime]

end Value

/-- The integers on the stack, by position, and what stands in memory at an address. -/
structure Contents where
  stack : Int → Int
  deref : Int → Int

structure Frame where
  ap : Int
  fp : Int

namespace Frame

def register (fr : Frame) : Register → Int
  | .ap => fr.ap
  | .fp => fr.fp

/-- Below the frame of a function are its arguments, the frame of the caller and the return address. -/
def entry (f : Function) : Frame := ⟨f.parameterNames.length + 2, f.parameterNames.length + 2⟩

def after (fr : Frame) (i : Instruction) : Frame :=
  if i.apUpdate = .add1 then { fr with ap := fr.ap + 1 } else fr

end Frame

namespace Instruction

variable (prime : Int) (c : Contents) (fr : Frame) (i : Instruction)

def target : Int := fr.register i.dstRegister + i.off0

def op0Value : Int := c.stack (fr.register i.op0Register + i.off1)

def op1Value : Int :=
  match i.op1Source with
  | .imm => i.imm.getD 0
  | .ap => c.stack (fr.ap + i.off2)
  | .fp => c.stack (fr.fp + i.off2)
  | .op0 => c.deref (i.op0Value c fr + i.off2)

def Satisfied : Prop :=
  match i.res with
  | .op1 => c.stack (i.target fr) ≡ i.op1Value c fr [ZMOD prime]
  | .add => c.stack (i.target fr) ≡ i.op0Value c fr + i.op1Value c fr [ZMOD prime]
  | .mul => c.stack (i.target fr) ≡ i.op0Value c fr * i.op1Value c fr [ZMOD prime]
  | .unconstrained => True

/-- The positions of the cells that an equality uses. -/
def positions : List Int :=
  i.target fr ::
    ((if i.res = .op1 ∧ i.op1Source ≠ .op0 then [] else [fr.register i.op0Register + i.off1]) ++
      match i.op1Source with
      | .ap => [fr.ap + i.off2]
      | .fp => [fr.fp + i.off2]
      | _ => [])

/-- An equality that goes on to the next instruction. -/
structure IsEquality : Prop where
  opcode : i.opcode = .assertEq
  pc : i.pcUpdate = .regular

/-- It moves `ap` by one at most, and what stands at an address is not added or multiplied. -/
structure IsPlain : Prop extends i.IsEquality where
  ap : i.apUpdate = .regular ∨ i.apUpdate = .add1
  op0 : i.op1Source = .op0 → i.res = .op1

instance : Decidable (i.Satisfied prime c fr) := by
  unfold Satisfied
  split <;> infer_instance

instance : Decidable i.IsEquality :=
  decidable_of_iff (i.opcode = .assertEq ∧ i.pcUpdate = .regular)
    ⟨fun h => ⟨h.1, h.2⟩, fun h => ⟨h.opcode, h.pc⟩⟩

instance : Decidable i.IsPlain :=
  decidable_of_iff (i.IsEquality ∧ (i.apUpdate = .regular ∨ i.apUpdate = .add1) ∧
      (i.op1Source = .op0 → i.res = .op1))
    ⟨fun h => ⟨h.1, h.2.1, h.2.2⟩, fun h => ⟨h.toIsEquality, h.ap, h.op0⟩⟩

end Instruction

def Equations (prime : Int) (c : Contents) : Frame → List Site → Prop
  | _, [] => True
  | fr, s :: rest =>
    (s.instruction.opcode = .assertEq → s.instruction.Satisfied prime c fr) ∧
      Equations prime c (fr.after s.instruction) rest

instance decidableEquations (prime : Int) (c : Contents) :
    (fr : Frame) → (sites : List Site) → Decidable (Equations prime c fr sites)
  | _, [] => isTrue trivial
  | fr, s :: rest =>
    have := decidableEquations prime c (fr.after s.instruction) rest
    inferInstanceAs (Decidable (_ ∧ _))

/-- The code uses no cell below the first argument. -/
def StaysAbove : Frame → List Site → Prop
  | _, [] => True
  | fr, s :: rest =>
    (s.instruction.opcode = .assertEq → ∀ p ∈ s.instruction.positions fr, 0 ≤ p) ∧
      StaysAbove (fr.after s.instruction) rest

instance decidableStaysAbove : (fr : Frame) → (sites : List Site) → Decidable (StaysAbove fr sites)
  | _, [] => isTrue trivial
  | fr, s :: rest =>
    have := decidableStaysAbove (fr.after s.instruction) rest
    inferInstanceAs (Decidable (_ ∧ _))

/-- The cells that get a value: those of all equalities, unless an immediate that is added or
multiplied is far from zero. -/
def assigned (prime : Int) : Frame → List Site → List Int
  | _, [] => []
  | fr, s :: rest =>
    let i := s.instruction
    (if i.opcode = .assertEq ∧ (i.res = .op1 ∨ i.op1Source ≠ .imm ∨
        (Field.small (i.imm.getD 0) prime).toOption.isSome) then [i.target fr] else []) ++
      assigned prime (fr.after i) rest

/-- Instructions that `P` holds of, then a return. -/
def Function.IsLineOf (P : Instruction → Prop) (f : Function) : Prop :=
  ∃ front last, f.sites = front ++ [last] ∧ (∀ s ∈ front, P s.instruction) ∧
    last.instruction.opcode = .ret

def Function.StraightLine (f : Function) : Prop := f.IsLineOf Instruction.IsEquality

/-- `[ap] = …; ap++`. -/
def Site.pushing (offset : Nat) (op0 : Register) (source : Op1Source) (res : Res) (off1 off2 : Int)
    (imm : Option Int) : Site where
  offset
  instruction := ⟨0, off1, off2, 0, imm, .ap, op0, source, res, .regular, .add1, .regular, .assertEq⟩
  callTarget := 0
  callee := none
  reference := none
  hint := none

/-- A jump by an immediate that tests the cell below `ap`, if it is conditional. -/
def Site.jumping (offset : Nat) (pcUpdate : PcUpdate) (imm : Int) : Site where
  offset
  instruction := ⟨-1, -1, 1, 0, some imm, .ap, .fp, .imm, .op1, pcUpdate, .regular, .regular, .nop⟩
  callTarget := 0
  callee := none
  reference := none
  hint := none

def Site.calling (offset : Nat) (imm : Int) (callee : String) : Site where
  offset
  instruction := ⟨0, 1, 1, 0, some imm, .ap, .ap, .imm, .op1, .jumpRel, .add2, .apPlus2, .call⟩
  callTarget := offset + imm
  callee := some callee
  reference := none
  hint := none

/-- `[r + off] = imm`, and `ap` stays. -/
def Site.setting (offset : Nat) (r : Register) (off imm : Int) : Site where
  offset
  instruction := ⟨off, -1, 1, 0, some imm, r, .fp, .imm, .op1, .regular, .regular, .regular, .assertEq⟩
  callTarget := 0
  callee := none
  reference := none
  hint := none

def Site.returning (offset : Nat) : Site where
  offset
  instruction := ⟨-2, -1, -1, 0, none, .fp, .fp, .fp, .op1, .jump, .regular, .dst, .ret⟩
  callTarget := 0
  callee := none
  reference := none
  hint := none

theorem eq_of_modEq {prime a b : Int} (h : a ≡ b [ZMOD prime]) (ha : 0 ≤ a ∧ a < prime)
    (hb : 0 ≤ b ∧ b < prime) : a = b := by
  have hmod : a % prime = b % prime := h
  rw [Int.emod_eq_of_lt ha.1 ha.2, Int.emod_eq_of_lt hb.1 hb.2] at hmod
  exact hmod

namespace Field

theorem modEq_of_centered {val prime n : Int} (h : centered val prime = .ok n) :
    n ≡ val [ZMOD prime] := by
  unfold centered at h
  split_ifs at h with hzero
  obtain rfl := Except.ok.inj h
  rw [Int.modEq_iff_dvd, Int.fmod_def]
  exact ⟨(val + prime.fdiv 2).fdiv prime, by omega⟩

theorem modEq_of_numeral {val prime : Int} {n : Numeral} (h : numeral val prime = .ok n) :
    n.value ≡ val [ZMOD prime] := by
  unfold numeral at h
  obtain ⟨k, hk, h⟩ := Outcome.bind_eq_ok.1 h
  split_ifs at h
  · obtain rfl := Outcome.pure_eq_ok.1 h
    exact modEq_of_centered hk
  · obtain rfl := Outcome.pure_eq_ok.1 h
    exact modEq_of_centered hk
  · obtain rfl := Outcome.pure_eq_ok.1 h
    exact Int.ModEq.refl _

theorem modEq_of_small {val prime n : Int} (h : small val prime = .ok n) :
    n ≡ val [ZMOD prime] := by
  unfold small at h
  obtain ⟨k, hk, h⟩ := Outcome.bind_eq_ok.1 h
  cases k with
  | decimal m =>
    obtain rfl := Except.ok.inj h
    exact modEq_of_numeral hk
  | hex m => cases h

end Field

end Cairoscope
