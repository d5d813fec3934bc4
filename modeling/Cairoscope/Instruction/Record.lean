import Cairoscope.Fault
import Cairoscope.Instruction.Basic
import Cairoscope.Json.Access
import Cairoscope.Text.Split

/-! Instructions as records in text, such as `Instruction(off0=0, .., imm=None, .., opcode=<Opcode.RET: 3>)`.
The fields are read back from the text, and from the fields the words in which an instruction is printed. -/

namespace Cairoscope.Instruction

/-- An entry of a record: a number or `None`, or a member of an enumeration with its number there. -/
inductive Entry
  | plain (key value : String)
  | member (key kind name : String) (number : Nat)

namespace Entry

def key : Entry → String
  | plain key _ => key
  | member key _ _ _ => key

def shown : Entry → String
  | plain _ value => value
  | member _ kind name number => "<" ++ kind ++ "." ++ name ++ ": " ++ toString number ++ ">"

def text (e : Entry) : String := e.key ++ "=" ++ e.shown

end Entry

/-- The members of each enumeration are numbered in their order. -/
def entries (i : Instruction) : List Entry :=
  [.plain "off0" (Text.decimal i.off0), .plain "off1" (Text.decimal i.off1),
   .plain "off2" (Text.decimal i.off2), .plain "off3" (Text.decimal i.off3), .plain "imm" i.immText,
   .member "dst_register" "Register" i.dstRegister.name i.dstRegister.ctorIdx,
   .member "op0_register" "Register" i.op0Register.name i.op0Register.ctorIdx,
   .member "op1_addr" "Op1Addr" i.op1Source.name i.op1Source.ctorIdx,
   .member "res" "Res" i.res.name i.res.ctorIdx,
   .member "pc_update" "PcUpdate" i.pcUpdate.name i.pcUpdate.ctorIdx,
   .member "ap_update" "ApUpdate" i.apUpdate.name i.apUpdate.ctorIdx,
   .member "fp_update" "FpUpdate" i.fpUpdate.name i.fpUpdate.ctorIdx,
   .member "opcode" "Opcode" i.opcode.name i.opcode.ctorIdx]

def record (i : Instruction) : String :=
  "Instruction(" ++ String.intercalate ", " (i.entries.map Entry.text) ++ ")"

/-- What stands before the first closing bracket, if that is on the same line. -/
def upToClose : List Char → Option (List Char)
  | [] => none
  | c :: rest =>
    if c = ')' then some []
    else if c = '\n' then none
    else (upToClose rest).map (c :: ·)

/-- What stands in the first brackets that are closed on their line. -/
def inBrackets : List Char → Option (List Char)
  | [] => none
  | c :: rest => if c = '(' then (upToClose rest).or (inBrackets rest) else inBrackets rest

def isPlainKey (key : String) : Bool :=
  Json.isInfix "imm".toList key.toList || Json.isInfix "off".toList key.toList

/-- Reads `key=value`. Of a member of an enumeration the first character goes, and its number. -/
def readField (piece : String) : Outcome (String × String) :=
  match Text.split '=' piece with
  | key :: value :: _ =>
    let key := Text.trim key
    if isPlainKey key then .ok (key, Text.trim value)
    else
      let member := (Text.pieces ':' value.toList).headD []
      .ok (key, Text.trim (String.ofList (member.drop 1)))
  | _ => .error .outOfRange

def readFields (record : String) : Outcome (List (String × String)) :=
  match inBrackets record.toList with
  | some inner => do
    let fields ← (Text.split ',' (String.ofList inner)).mapM readField
    return assocOfPairs fields
  | none => .error .noSuchOperation

/-- The words in which an instruction is printed. -/
structure Wording where
  offDest : String
  off1 : String
  off2 : String
  off3 : String
  imm : Option String
  dstRegister : String
  op0Register : String
  op1Addr : String
  res : String
  pcUpdate : String
  apUpdate : String
  fpUpdate : String
  opcode : String
  deriving DecidableEq, Repr

/-- An offset with its sign, and nothing for zero. -/
def offsetWord (fields : List (String × String)) (key : String) : Outcome String :=
  match fields.lookup key with
  | none => .error .wrongKind
  | some value =>
    match value.toList.head? with
    | none => .error .outOfRange
    | some c =>
      let signed := if c = '-' then value else "+" ++ value
      match Text.readInt? 10 signed with
      | some n => .ok (if n = 0 then "" else signed)
      | none => .error .badNumber

def memberWord (fields : List (String × String)) (key kind : String) : Outcome String :=
  match fields.lookup key with
  | none => .error .noSuchOperation
  | some value =>
    match (Text.splitAt (kind ++ ".") value)[1]? with
    | some name => .ok name
    | none => .error .outOfRange

def wording (fields : List (String × String)) : Outcome Wording := do
  return {
    offDest := ← offsetWord fields "off0"
    off1 := ← offsetWord fields "off1"
    off2 := ← offsetWord fields "off2"
    off3 := ← offsetWord fields "off3"
    imm := fields.lookup "imm"
    dstRegister := ← memberWord fields "dst_register" "Register"
    op0Register := ← memberWord fields "op0_register" "Register"
    op1Addr := ← memberWord fields "op1_addr" "Op1Addr"
    res := ← memberWord fields "res" "Res"
    pcUpdate := ← memberWord fields "pc_update" "PcUpdate"
    apUpdate := ← memberWord fields "ap_update" "ApUpdate"
    fpUpdate := ← memberWord fields "fp_update" "FpUpdate"
    opcode := ← memberWord fields "opcode" "Opcode" }

def readOffset? (word : String) : Option Int :=
  if word = "" then some 0 else Text.readInt? 10 word

end Cairoscope.Instruction
