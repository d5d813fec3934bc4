import Cairoscope.Analysis.Report
import Cairoscope.Session

/-! The values of variables, written as assignments. -/

namespace Cairoscope.Analysis

/-- A name as it is written in a value: one that an argument of the function has gets the number of
the function in front. -/
def writtenName (f : Function) (name : String) : String :=
  if f.argumentNames.contains name then "f" ++ toString f.id ++ "_" ++ name else name

def operandText (m : Memory) (f : Function) : Operand → String
  | .integer n => writtenName f (Text.decimal n)
  | .cells [n] => writtenName f (m.nameOf n)
  | .cells ns => Decompiler.phiText (ns.map fun n => writtenName f (m.nameOf n))

def operatorText : Operator → String
  | .addition => " + "
  | .multiplication => " * "

def valueText (m : Memory) (f : Function) : Value → String
  | .integer n => operandText m f (.integer n)
  | .copy ns => operandText m f (.cells ns)
  | .combined l op r => operandText m f l ++ operatorText op ++ operandText m f r
  | .load base offset =>
    "[" ++ operandText m f (.cells base) ++ operatorText .addition ++
      operandText m f (.integer offset) ++ "]"
  | .result _ => ""

/-- The name of the variable at a position that counts from the end when it is negative. -/
def nameAt (m : Memory) (position : Int) : Outcome String :=
  let p := if position < 0 then position + m.size else position
  if p < 0 then .error .outOfRange
  else match m.cells[p.toNat]? with
    | some v => .ok v.name
    | none => .error .outOfRange

/-- A call with the variables that stand right below its results. -/
def callText (functions : List Function) (m : Memory) (v : Variable) (c : CallResult) :
    Outcome String := do
  match functions[c.function]? with
  | none => return ""
  | some callee =>
    let stop : Int := (v.number : Int) + 1 - ((callee.returns.length : Int) - c.position)
    let start := stop - callee.explicit.length
    let names ← (List.range callee.explicit.length).mapM fun (i : Nat) => nameAt m (start + i)
    return callee.shortName ++ "(" ++ String.intercalate ", " names ++ ")[" ++
      toString c.position ++ "]"

/-- The assignment to a variable. A value outside all functions is a fault. -/
def assignmentText (functions : List Function) (m : Memory) (v : Variable) :
    Outcome (Option String) :=
  match v.value with
  | none => return none
  | some (.result c) => do return some (v.name ++ " = " ++ (← callText functions m v c))
  | some value =>
    match v.function.bind fun i => functions[i]? with
    | some f => return some (v.name ++ " = " ++ valueText m f value)
    | none => .error .noSuchOperation

def assignments (a : Profile) : Session.Work Report := do
  let (_, d) ← Session.explored true true
  let functions := (← get).contract.functions
  let texts ← Run.ofOutcome (d.memory.cells.mapM (assignmentText functions d.memory))
  return a.report true (texts.filterMap id)

end Cairoscope.Analysis
