import Cairoscope.Fault
import Cairoscope.Instruction.Basic

/-! Decoding instruction words. Words are unbounded integers in two's complement; only the lowest
63 bits have a meaning. -/

namespace Cairoscope.Instruction

/-- Bit `k` of the word in two's complement. -/
def bit (word : Int) (k : Nat) : Bool := (word >>> k) % 2 = 1

/-- The 16 bits from bit `k` on, shifted down by half their range. -/
def offsetAt (word : Int) (k : Nat) : Int := (word >>> k) % 0x10000 - 0x8000

/-- Flag `i` of the word: the flags stand above the three offsets. -/
def flag (word : Int) (i : Nat) : Bool := bit word (48 + i)

def op1SourceOf : Bool → Bool → Bool → Outcome Op1Source
  | true, false, false => .ok .imm
  | false, true, false => .ok .ap
  | false, false, true => .ok .fp
  | false, false, false => .ok .op0
  | a, b, c => .error (.badFlags [a, b, c])

def pcUpdateOf : Bool → Bool → Bool → Outcome PcUpdate
  | true, false, false => .ok .jump
  | false, true, false => .ok .jumpRel
  | false, false, true => .ok .jnz
  | false, false, false => .ok .regular
  | a, b, c => .error (.badFlags [a, b, c])

/-- Without an operation a conditional jump leaves its result open. -/
def resOf (pc : PcUpdate) : Bool → Bool → Outcome Res
  | true, false => .ok .add
  | false, true => .ok .mul
  | false, false => .ok (if pc = .jnz then .unconstrained else .op1)
  | a, b => .error (.badFlags [a, b])

def apUpdateOf : Bool → Bool → Outcome ApUpdate
  | true, false => .ok .add
  | false, true => .ok .add1
  | false, false => .ok .regular
  | a, b => .error (.badFlags [a, b])

def opcodeOf : Bool → Bool → Bool → Outcome Opcode
  | true, false, false => .ok .call
  | false, true, false => .ok .ret
  | false, false, true => .ok .assertEq
  | false, false, false => .ok .nop
  | a, b, c => .error (.badFlags [a, b, c])

def fpUpdateOf : Opcode → FpUpdate
  | .call => .apPlus2
  | .ret => .dst
  | _ => .regular

/-- The immediate is kept only by an instruction that reads one. -/
def immediateFor (source : Op1Source) (imm : Option Int) : Outcome (Option Int) :=
  if source = .imm then
    match imm with
    | some n => .ok (some n)
    | none => .error .immediateMissing
  else .ok none

/-- Decodes a word. The checks come in the order operand, immediate, program counter, result,
`ap` and opcode, and the first that fails decides the fault. -/
def decode (word : Int) (imm : Option Int) : Outcome Instruction := do
  let f := flag word
  let source ← op1SourceOf (f 2) (f 4) (f 3)
  let imm ← immediateFor source imm
  let pc ← pcUpdateOf (f 7) (f 8) (f 9)
  let res ← resOf pc (f 5) (f 6)
  if pc = .jnz ∧ res ≠ .unconstrained then throw .jumpResult
  let ap ← apUpdateOf (f 10) (f 11)
  let opcode ← opcodeOf (f 12) (f 13) (f 14)
  if opcode = .call ∧ ap ≠ .regular then throw .callApUpdate
  return {
    off0 := offsetAt word 0
    off1 := offsetAt word 16
    off2 := offsetAt word 32
    off3 := word.toNat
    imm := imm
    dstRegister := if f 0 then .fp else .ap
    op0Register := if f 1 then .fp else .ap
    op1Source := source
    res := res
    pcUpdate := pc
    apUpdate := if opcode = .call then .add2 else ap
    fpUpdate := fpUpdateOf opcode
    opcode := opcode }

/-- Faults after which the sweep reads the next word as an immediate and decodes again. -/
def needsRetry : Fault → Bool
  | .immediateMissing => true
  | .jumpResult => true
  | .callApUpdate => true
  | _ => false

/-- Decodes the instruction that starts a list of words: without an immediate first, then with the
next word as one. Gives the instruction and the words after it. -/
def decodeNext (word : Int) (rest : List Int) : Outcome (Instruction × List Int) :=
  match decode word none with
  | .ok i => .ok (i, rest)
  | .error e =>
    if needsRetry e then
      match rest with
      | [] => .error .outOfRange
      | imm :: rest => do
        let i ← decode word (some imm)
        return (i, rest)
    else .error e

end Cairoscope.Instruction
