/-! Instructions of the machine. A word holds three offsets and fifteen flags; the flags say where
operands are found, what is asserted, and how the registers move. -/

namespace Cairoscope

inductive Register
  | ap
  | fp
  deriving DecidableEq, Repr

inductive Op1Source
  | imm
  | ap
  | fp
  | op0
  deriving DecidableEq, Repr

inductive Res
  | op1
  | add
  | mul
  | unconstrained
  deriving DecidableEq, Repr

inductive PcUpdate
  | regular
  | jump
  | jumpRel
  | jnz
  deriving DecidableEq, Repr

inductive ApUpdate
  | regular
  | add
  | add1
  | add2
  deriving DecidableEq, Repr

inductive FpUpdate
  | regular
  | apPlus2
  | dst
  deriving DecidableEq, Repr

inductive Opcode
  | nop
  | assertEq
  | call
  | ret
  deriving DecidableEq, Repr

structure Instruction where
  off0 : Int
  off1 : Int
  off2 : Int
  /-- The whole word, when it is not negative. -/
  off3 : Nat
  imm : Option Int
  dstRegister : Register
  op0Register : Register
  op1Source : Op1Source
  res : Res
  pcUpdate : PcUpdate
  apUpdate : ApUpdate
  fpUpdate : FpUpdate
  opcode : Opcode
  deriving DecidableEq, Repr

def Register.name : Register → String
  | ap => "AP"
  | fp => "FP"

def Op1Source.name : Op1Source → String
  | imm => "IMM"
  | ap => "AP"
  | fp => "FP"
  | op0 => "OP0"

def Res.name : Res → String
  | op1 => "OP1"
  | add => "ADD"
  | mul => "MUL"
  | unconstrained => "UNCONSTRAINED"

def PcUpdate.name : PcUpdate → String
  | regular => "REGULAR"
  | jump => "JUMP"
  | jumpRel => "JUMP_REL"
  | jnz => "JNZ"

def ApUpdate.name : ApUpdate → String
  | regular => "REGULAR"
  | add => "ADD"
  | add1 => "ADD1"
  | add2 => "ADD2"

def FpUpdate.name : FpUpdate → String
  | regular => "REGULAR"
  | apPlus2 => "AP_PLUS2"
  | dst => "DST"

def Opcode.name : Opcode → String
  | nop => "NOP"
  | assertEq => "ASSERT_EQ"
  | call => "CALL"
  | ret => "RET"

namespace Instruction

def size (i : Instruction) : Nat := if i.imm.isSome then 2 else 1

def immText (i : Instruction) : String :=
  match i.imm with
  | some n => toString n
  | none => "None"

/-- The fields by name, in the order of the listing. -/
def fields (i : Instruction) : List (String × String) :=
  [("off0", toString i.off0), ("off1", toString i.off1), ("off2", toString i.off2),
   ("off3", toString i.off3), ("imm", i.immText),
   ("dst_register", "Register." ++ i.dstRegister.name),
   ("op0_register", "Register." ++ i.op0Register.name),
   ("op1_addr", "Op1Addr." ++ i.op1Source.name), ("res", "Res." ++ i.res.name),
   ("pc_update", "PcUpdate." ++ i.pcUpdate.name), ("ap_update", "ApUpdate." ++ i.apUpdate.name),
   ("fp_update", "FpUpdate." ++ i.fpUpdate.name), ("opcode", "Opcode." ++ i.opcode.name)]

def isDirectCall (i : Instruction) : Bool := i.opcode = .call && i.imm.isSome

def isIndirectCall (i : Instruction) : Bool := i.opcode = .call && i.imm.isNone

def isAbsoluteCall (i : Instruction) : Bool := i.opcode = .call && i.pcUpdate = .jump

def isReturn (i : Instruction) : Bool := i.opcode = .ret

end Instruction

end Cairoscope
