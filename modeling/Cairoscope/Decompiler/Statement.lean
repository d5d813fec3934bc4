import Cairoscope.Decompiler.State

/-! Statements: what each instruction does to the state, and the text it is decompiled to. -/

namespace Cairoscope.Decompiler

/-- The variables that meet where an equality stands, and how they are written. In the second pass
these are all variables that meet at a phi block. Before the first sum of a block they are those of
the blocks before it, written as the last of them. -/
structure Meeting where
  numbers : List Nat
  text : String

def meeting (place : Place) : Step Meeting := do
  let d ← get
  let isPhi := ((← currentBlock place).map (·.isPhi)).getD false
  if isPhi && !d.firstPass then
    let numbers ← mergedAt place
    return ⟨numbers, phiText (← namesOf numbers)⟩
  else if d.newInBlock == 0 && (← hasParents place) then
    let numbers ← mergedAt place
    return ⟨numbers, ((← namesOf numbers).getLast?).getD ""⟩
  else return ⟨[], ""⟩

/-- An operand in a cell: the variables that meet there, or the one in the cell. -/
structure Source where
  numbers : List Nat
  text : String

def Meeting.source (m : Meeting) (number : Nat) : Step Source := do
  if m.numbers.contains number then return ⟨m.numbers, m.text⟩
  else return ⟨[number], ← nameOf number⟩

def op1Register : Op1Source → Register
  | .ap => .ap
  | _ => .fp

/-- `assert ` before an equality whose cell has a value. -/
def assertMark (number : Nat) : Step String := do
  return if ← hasValue number then "assert " else ""

/-- `v = 5`, with the number as text or hexadecimal in a comment. -/
def assignImmediate (sc : Scene) (i : Instruction) : Step (Nat × String) := do
  let imm := i.imm.getD 0
  let prime := sc.printer.prime
  let reading ← Run.ofOutcome (Field.reading imm prime)
  let numeral ← Run.ofOutcome (Field.numeral imm prime)
  let comment := if reading = "" then numeral.text else reading
  let dst ← cell i.dstRegister i.off0
  let mark ← assertMark dst
  define dst (.integer numeral.value)
  let text ← line sc sc.printer.palette.green
    (mark ++ (← nameOf dst) ++ " = " ++ numeral.text)
  let note := lineAt sc 1 sc.printer.palette.cyan ("// " ++ comment)
  if mark ≠ "" then
    modify fun d => { d with assertions := d.assertions ++ [⟨dst, numeral⟩] }
  return (dst, text ++ note)

/-- The offset of a load; zero is not written. -/
def loadOffset (offset : Int) : String :=
  if offset = 0 then ""
  else (if offset < 0 then " - " else " + ") ++ Text.decimal offset

/-- `v = [w + 2]`. -/
def assignLoad (sc : Scene) (m : Meeting) (i : Instruction) : Step (Nat × String) := do
  let dst ← cell i.dstRegister i.off0
  let mark ← assertMark dst
  let base ← m.source (← cell i.op0Register i.off1)
  define dst (.load base.numbers i.off2)
  let equal := if mark = "" then " = " else " == "
  let text ← line sc sc.printer.palette.green
    (mark ++ (← nameOf dst) ++ equal ++ "[" ++ base.text ++ loadOffset i.off2 ++ "]")
  return (dst, text)

/-- `v = w`. -/
def assignCopy (sc : Scene) (m : Meeting) (i : Instruction) : Step (Nat × String) := do
  let dst ← cell i.dstRegister i.off0
  let mark ← assertMark dst
  let source ← m.source (← cell (op1Register i.op1Source) i.off2)
  define dst (.copy source.numbers)
  let text ← line sc sc.printer.palette.green (mark ++ (← nameOf dst) ++ " = " ++ source.text)
  return (dst, text)

def operatorOf (op : String) : Operator := if op = "+" then .addition else .multiplication

/-- `v = w + u`. -/
def assignCells (sc : Scene) (m : Meeting) (op : String) (i : Instruction) :
    Step (Nat × String) := do
  let dst ← cell i.dstRegister i.off0
  let mark ← assertMark dst
  let left ← m.source (← cell i.op0Register i.off1)
  let right ← m.source (← cell (op1Register i.op1Source) i.off2)
  define dst (.combined (.cells left.numbers) (operatorOf op) (.cells right.numbers))
  let text ← line sc sc.printer.palette.green
    (mark ++ (← nameOf dst) ++ " = " ++ left.text ++ " " ++ op ++ " " ++ right.text)
  return (dst, text)

/-- The operand of a sum or product with an immediate. Before the first of them in a block several
variables that meet count, whether or not the cell is one of them. -/
def immediateSource (place : Place) (m : Meeting) (asserted : Bool) (number : Nat) :
    Step Source := do
  if m.numbers.contains number then return ⟨m.numbers, m.text⟩
  let early := (← get).newInBlock == 0 && (← hasParents place) && !asserted
  if early && decide (1 < m.numbers.length) then return ⟨m.numbers, m.text⟩
  return ⟨[number], ← nameOf number⟩

/-- A sum with a negative number is written as a difference. -/
def signedTerm (op : String) (n : Int) : String :=
  if n < 0 ∧ op = "+" then "- " ++ Text.decimal (-n) else op ++ " " ++ Text.decimal n

/-- `v = w + 5`. An immediate far from zero is written as it stands, and gives no value. -/
def assignCellImmediate (sc : Scene) (place : Place) (m : Meeting) (op : String) (i : Instruction) :
    Step (Nat × String) := do
  let imm := i.imm.getD 0
  let dst ← cell i.dstRegister i.off0
  let mark ← assertMark dst
  let small := Field.small imm sc.printer.prime
  let left ← immediateSource place m (mark ≠ "") (← cell i.op0Register i.off1)
  let term := match small with
    | .ok n => signedTerm op n
    | .error _ => op ++ " " ++ Text.decimal imm
  match small with
  | .ok n => define dst (.combined (.cells left.numbers) (operatorOf op) (.integer n))
  | .error _ => pure ()
  let text ← line sc sc.printer.palette.green
    (mark ++ (← nameOf dst) ++ " = " ++ left.text ++ " " ++ term)
  modify fun d => { d with newInBlock := d.newInBlock + 1 }
  return (dst, text)

/-- Assigns the cell of an equality, by the shape of what it equals. -/
def assign (sc : Scene) (place : Place) (m : Meeting) (i : Instruction) : Step (Nat × String) :=
  if i.res = .op1 then
    match i.op1Source with
    | .imm => assignImmediate sc i
    | .op0 => assignLoad sc m i
    | _ => assignCopy sc m i
  else do
    let op ← Run.ofOutcome (Site.operatorText i.res)
    match i.op1Source with
    | .imm => assignCellImmediate sc place m op i
    | _ => assignCells sc m op i

/-- An equality. Its cell now belongs to the function and block. -/
def assertEq (sc : Scene) (place : Place) (i : Instruction) : Step String := do
  let (dst, text) ← assign sc place (← meeting place) i
  let blockId := (← currentBlock place).map (·.id)
  updateVariable dst fun v => { v with function := some place.function, block := blockId }
  return text

def apStep (sc : Scene) (i : Instruction) : Outcome Int :=
  match i.apUpdate with
  | .regular => .ok 0
  | .add1 => .ok 1
  | .add2 => .ok 2
  | .add => match i.imm with
    | some imm => Field.small imm sc.printer.prime
    | none => .error .badNumber

/-- How many instructions of the function are one or two words before `target` and no relative
jump: then the branch has no `else`. -/
def plainBefore (sc : Scene) (place : Place) (target : Int) : Nat :=
  match sc.functions[place.function]? with
  | some f => (f.sites.filter fun s =>
      ((s.offset : Int) == target - 2 || (s.offset : Int) == target - 1) &&
        s.instruction.pcUpdate ≠ .jumpRel).length
  | none => 0

/-- A conditional jump opens a branch that is taken when the tested variable is zero. -/
def branch (sc : Scene) (place : Place) (s : Site) : Step String := do
  let i := s.instruction
  let tested ← cell .ap i.off0
  modify fun d => d.withBlock place fun b => { b with condition := some tested }
  let head ← line sc sc.printer.palette.red "if "
  let text := head ++ "(" ++ (← nameOf tested) ++ " == 0) \x7b"
  updateVariable tested fun v => { v with function := some place.function }
  indent 1
  modify fun d => { d with openIfs := d.openIfs + 1 }
  match i.imm with
  | none => throw .badNumber
  | some imm =>
    let target := (← Run.ofOutcome (Field.small imm sc.printer.prime)) + s.offset
    let plain := plainBefore sc place target
    if plain ≠ 0 then
      modify fun d => { d with ifEnd := some target, openIfs := d.openIfs - plain }
    return text

/-- A relative jump closes the open branch with an `else`, if there is one. -/
def relativeJump (sc : Scene) (imm : Int) (s : Site) : Step String := do
  if (← get).openIfs ≠ 0 then
    indent (-1)
    let text ← line sc sc.printer.palette.red "else:"
    indent 1
    let target := (← Run.ofOutcome (Field.small imm sc.printer.prime)) + s.offset
    modify fun d => { d with elseEnds := d.elseEnds ++ [target], openIfs := d.openIfs - 1 }
    return text
  else line sc "" ("jmp rel " ++ Text.decimal imm)

def nop (sc : Scene) (place : Place) (s : Site) : Step String := do
  let i := s.instruction
  match i.pcUpdate, i.imm with
  | .jnz, _ => branch sc place s
  | .jumpRel, some imm => relativeJump sc imm s
  | .regular, none =>
    if s.hint.isNone && i.off3 != 0 then
      line sc sc.printer.palette.blue ("dw " ++ toString i.off3)
    else return ""
  | _, _ => return ""

/-- The arguments of a call, from the deepest cell up: in the second pass a phi block passes the
variables that meet at it. -/
def callArguments (place : Place) : Nat → Step (List (CallArgument × String))
  | 0 => return []
  | n + 1 => do
    let isPhi := ((← currentBlock place).map (·.isPhi)).getD false
    let numbers ← if isPhi && !(← get).firstPass then mergedAt place else pure []
    let number ← cell .ap (-(n + 1 : Nat))
    let argument ← if numbers.contains number then
        do pure (CallArgument.merged numbers, phiText (← namesOf numbers))
      else do pure (CallArgument.single number, ← nameOf number)
    return argument :: (← callArguments place n)

/-- Gives the results of a call to the cells below `ap`: the topmost cell is result 0. -/
def assignResults (place : Place) (callee : Nat) (returns : List String)
    (arguments : List CallArgument) : Nat → List String → Step (List String)
  | _, [] => return []
  | i, _ :: rest => do
    let number ← cell .ap (-(i + 1 : Nat))
    let blockId := (← currentBlock place).map (·.id)
    let callNumber := (← get).calls
    updateVariable number fun v => { v with
      function := some place.function
      block := blockId
      value := some (.result ⟨callee, i, returns.getD i "", arguments, callNumber⟩) }
    return (← nameOf number) :: (← assignResults place callee returns arguments (i + 1) rest)

/-- A call of a known function: its results are pushed, and named in a `let`. -/
def callFunction (sc : Scene) (place : Place) (calleeIndex : Nat) (callee : Function) :
    Step String := do
  let arguments ← callArguments place callee.explicit.length
  let argumentText := "(" ++ String.intercalate ", " (arguments.map (·.2)) ++ ")"
  let returns := callee.returns.names
  returns.forM fun name => modify fun d => { d with
    memory := d.memory.push fun v =>
      { v with label := some name, function := some calleeIndex, isResult := true } }
  let red := sc.printer.palette.red
  let text ← if returns.isEmpty then
      do pure ((← line sc red callee.shortName) ++ argumentText)
    else do
      let names ← assignResults place calleeIndex returns (arguments.map (·.1)) 0 returns
      let head ← line sc sc.printer.palette.green
        ("let (" ++ String.intercalate ", " names ++ ") = ")
      pure (head ++ lineAt sc 0 red callee.shortName ++ argumentText)
  modify fun d => { d with calls := d.calls + 1 }
  return text

def call (sc : Scene) (place : Place) (s : Site) : Step String := do
  let i := s.instruction
  let kind := if i.isAbsoluteCall then "call abs" else "call rel"
  match i.imm with
  | none => line sc "" (kind ++ " " ++ Site.cell i.op1Source.name i.off2)
  | some imm =>
    let offset ← Run.ofOutcome (Field.small imm sc.printer.prime)
    let callee := s.callee.bind fun name => do
      let index ← sc.functions.findIdx? fun f => f.name == name
      return (index, ← sc.functions[index]?)
    match callee with
    | some (index, f) => callFunction sc place index f
    | none =>
      let text ← line sc sc.printer.palette.red (kind ++ " (" ++ Text.decimal offset ++ ")")
      match sc.printer.labelAt? offset with
      | some label => return text ++ (← line sc sc.printer.palette.cyan ("// " ++ label))
      | none => return text

/-- The returned cells, from the deepest up. -/
def returnNames : Nat → Step (List String)
  | 0 => return []
  | n + 1 => do
    let number ← cell .ap (-(n + 1 : Nat))
    updateVariable number fun v => { v with isReturned := true }
    return (← nameOf number) :: (← returnNames n)

/-- `ret`, or `return` with the returned cells. -/
def returnText (sc : Scene) (returns : Nat) : Step String := do
  let red := sc.printer.palette.red
  if returns = 0 then return (← line sc red "ret") ++ "\n"
  else
    let head ← line sc red "return"
    return head ++ "(" ++ String.intercalate ", " (← returnNames returns) ++ ")\n"

/-- A return; the last one closes the function. -/
def ret (sc : Scene) (returns : Nat) (last : Bool) : Step String := do
  let text ← returnText sc returns
  if last then
    modify fun d => { d with tabs := 0 }
    return text ++ (← line sc sc.printer.palette.reset "\x7d")
  else return text

def hintText (sc : Scene) (hint : Json) : Step String :=
  match hint with
  | .str code => do
    let head ← line sc "" "%\x7b "
    indent 1
    let lines ← (Text.split '\n' code).mapM fun l => line sc "" l
    indent (-1)
    let tail ← line sc "" "%\x7d "
    return String.join ((head :: lines ++ [tail]).map (· ++ "\n"))
  | _ => throw .noSuchOperation

def labelLine (sc : Scene) (offset : Nat) : Step String :=
  match sc.printer.labelAt? offset with
  | some name => line sc sc.printer.palette.green ("\nLABEL : " ++ name ++ "\n")
  | none => return ""

def hintLines (sc : Scene) (hint : Option Json) : Step String :=
  match hint with
  | some h => if h.isPresent then hintText sc h else return ""
  | none => return ""

/-- What an instruction says, by its opcode. An equality then moves `ap`, but never back. -/
def body (sc : Scene) (place : Place) (returns : Nat) (s : Site) (last : Bool) : Step String :=
  match s.instruction.opcode with
  | .assertEq => do
    let text ← assertEq sc place s.instruction
    let n ← Run.ofOutcome (apStep sc s.instruction)
    modify fun d => { d with memory := d.memory.moveAp (max 0 n) }
    return text
  | .nop => nop sc place s
  | .call => call sc place s
  | .ret => ret sc returns last

/-- One instruction: its label, its hint and its statement. -/
def statement (sc : Scene) (place : Place) (returns : Nat) (s : Site) (last : Bool) :
    Step String := do
  let label ← labelLine sc s.offset
  let hint ← hintLines sc s.hint
  return label ++ hint ++ (← body sc place returns s last)

end Cairoscope.Decompiler
