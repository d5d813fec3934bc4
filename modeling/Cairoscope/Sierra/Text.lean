import Cairoscope.Sierra.Program
import Cairoscope.Text.Palette

/-! Parts of a Sierra program as text. It is always coloured. -/

namespace Cairoscope.Sierra

def palette : Palette := .coloured

def bold : String := "\x1b[1m"

def magenta : String := "\x1b[35m"

def inColour (colour text : String) : String := colour ++ text ++ palette.reset

def TypeEntry.text (t : TypeEntry) : String :=
  inColour palette.yellow ("type " ++ t.id ++ " ") ++
    match t.longId with
    | some long => if long = t.id then "" else "(" ++ long ++ ")"
    | none => ""

def Libfunc.text (l : Libfunc) : String :=
  inColour palette.blue ("libfunc " ++ l.id ++ " ") ++
    if l.id = l.name then "" else "(" ++ l.name ++ ")"

def Program.typeOf? (p : Program) (name : String) : Option String := do
  let v ← p.vars.find? fun v => v.name == name
  v.type

def typedName (name type : String) : String :=
  inColour palette.header name ++ ": " ++ inColour palette.yellow type

def Program.parameterText (p : Program) (name : String) : Outcome String :=
  match p.typeOf? name with
  | some type => .ok (typedName name type)
  | none => .error .noSuchOperation

def Program.prototype (p : Program) (f : Function) : Outcome String := do
  let parameters ← f.parameters.mapM p.parameterText
  let returns := f.returns.map (inColour palette.yellow)
  return "func " ++ inColour bold f.id ++ " (" ++ joinWith parameters ++ ") -> (" ++
    joinWith returns ++ ")"

/-- The line for a statement that is no jump. -/
def Action.line? : Action → Option String
  | give vars => some (inColour palette.red "return" ++ " (" ++ joinWith vars ++ ")")
  | assign libfunc arguments results =>
    let call := inColour palette.blue libfunc.id ++ "(" ++ joinWith arguments ++ ")"
    some (if results.isEmpty then call else joinWith results ++ " = " ++ call)
  | jump .. => none

end Cairoscope.Sierra
