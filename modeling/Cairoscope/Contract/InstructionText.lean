import Cairoscope.Contract.Basic
import Cairoscope.Text.Palette

/-! Instructions as lines of a disassembly. Each piece of a line is padded to twenty columns. -/

namespace Cairoscope

/-- What the text of an instruction depends on beside its place. -/
structure Printer where
  palette : Palette
  prime : Int
  labels : List (String × String)

def Contract.printer (c : Contract) (palette : Palette) : Printer := ⟨palette, c.prime, c.labels⟩

namespace Printer

def column : Nat := 20

def piece (p : Printer) (colour data : String) : String :=
  colour ++ data ++ p.palette.reset ++ String.ofList (List.replicate (column - data.length) ' ')

def labelAt? (p : Printer) (offset : Int) : Option String := p.labels.lookup (Text.decimal offset)

end Printer

namespace Site

def cell (register : String) (offset : Int) : String :=
  "[" ++ register ++ Text.signedOffset offset ++ "]"

def operatorText : Res → Outcome String
  | .add => .ok "+"
  | .mul => .ok "*"
  | r => .error (.noOperator r.name)

def assertEqText (p : Printer) (s : Site) : Outcome String := do
  let i := s.instruction
  let head := p.piece p.palette.green i.opcode.name
  let dst := cell i.dstRegister.name i.off0 ++ ", "
  let op0 := cell i.op0Register.name i.off1
  let op1 := cell i.op1Source.name i.off2
  if i.res = .op1 then
    match i.op1Source with
    | .imm =>
      let imm := i.imm.getD 0
      let body := p.piece "" (dst ++ (← Field.text imm p.prime))
      let reading ← Field.reading imm p.prime
      let note := if reading = "" then "" else p.piece p.palette.cyan ("# " ++ reading)
      return head ++ body ++ note
    | .op0 => return head ++ p.piece "" (dst ++ "[" ++ op0 ++ Text.signedOffset i.off2 ++ "]")
    | _ => return head ++ p.piece "" (dst ++ op1)
  else
    let op ← operatorText i.res
    match i.op1Source with
    | .imm => return head ++
        p.piece "" (dst ++ op0 ++ " " ++ op ++ " " ++ (← Field.text (i.imm.getD 0) p.prime))
    | _ => return head ++ p.piece "" (dst ++ op0 ++ " " ++ op ++ " " ++ op1)

/-- How far an addition moves `ap`, as text. -/
def apStep (p : Printer) (i : Instruction) : Outcome String :=
  match i.apUpdate with
  | .add => match i.imm with
    | some imm => do return Text.decimal (← Field.small imm p.prime)
    | none => .error .badNumber
  | .add1 => .ok "1"
  | .add2 => .ok "2"
  | .regular => .ok ""

def nopText (p : Printer) (s : Site) : Outcome String := do
  let i := s.instruction
  match i.imm with
  | some imm =>
    if i.pcUpdate = .regular then return p.piece p.palette.red i.opcode.name
    let numeral ← Field.numeral imm p.prime
    let target := (← numeral.small) + s.offset
    let place := (p.labelAt? target).getD (Text.decimal target)
    return p.piece p.palette.red i.pcUpdate.name ++ p.piece p.palette.blue numeral.text ++
      p.piece p.palette.cyan ("# JMP " ++ place)
  | none =>
    if s.hint.isNone && i.off3 != 0 then
      return p.piece p.palette.blue ("dw " ++ toString i.off3)
    else return p.piece p.palette.red i.opcode.name

def callText (p : Printer) (s : Site) : Outcome String := do
  let i := s.instruction
  let head := p.piece p.palette.red i.opcode.name
  let kind := if i.isAbsoluteCall then "abs" else "rel"
  match i.imm with
  | some imm =>
    let target := s.offset + (← Field.small imm p.prime)
    match s.callee with
    | some name =>
      return head ++ p.piece p.palette.cyan (Text.decimal target) ++
        p.piece p.palette.cyan ("# " ++ name)
    | none =>
      let note := match p.labelAt? target with
        | some label => p.piece p.palette.cyan ("# " ++ label)
        | none => ""
      return head ++ p.piece p.palette.beige (kind ++ " (" ++ Text.decimal target ++ ")") ++ note
  | none => return head ++ p.piece p.palette.beige (kind ++ " " ++ cell i.op1Source.name i.off2)

def offsetText (p : Printer) (s : Site) : String :=
  p.piece p.palette.header ("\noffset " ++ toString s.offset ++ ":")

/-- The second line of an equality that moves `ap`. -/
def apLine (p : Printer) (s : Site) : Outcome String := do
  if s.instruction.apUpdate = .regular then return ""
  let step ← apStep p s.instruction
  return offsetText p s ++ p.piece p.palette.yellow "ADD" ++ p.piece "" ("AP, " ++ step)

/-- The text of an instruction: its label, its offset, what it does and its hint. -/
def text (p : Printer) (s : Site) : Outcome String := do
  let label := match p.labelAt? s.offset with
    | some name => p.piece p.palette.green ("\nLABEL : " ++ name)
    | none => ""
  let body ← match s.instruction.opcode with
    | .assertEq => do pure ((← assertEqText p s) ++ (← apLine p s))
    | .nop => nopText p s
    | .call => callText p s
    | .ret => pure (p.piece p.palette.red s.instruction.opcode.name)
  let hint := match s.hint with
    | some h => if h.isPresent then p.piece p.palette.beige (" # " ++ h.display) else ""
    | none => ""
  return label ++ offsetText p s ++ body ++ hint

end Site

end Cairoscope
