import Cairoscope.Contract.Basic

/-! Prototypes of functions. -/

namespace Cairoscope.Function

/-- The members of a layout as `name : type`. A comma follows each one whose offset is not the last
number below the length of the list. -/
def membersText (layout : Artifact.Layout) : Outcome String := do
  let parts ← layout.mapM fun e => do
    let type ← e.2.type.text
    let offset ← e.1.toInt
    let comma := if offset = (layout.length : Int) - 1 then "" else ", "
    return e.2.name ++ " : " ++ type ++ comma
  return String.join parts

def decoratorsText (f : Function) : Outcome String := do
  let parts := (← f.decorators.elements).map fun d => "@" ++ d.display ++ " "
  return String.join parts

def prototype (f : Function) : Outcome String := do
  let decorators ← f.decoratorsText
  let implicit ← membersText f.implicit
  let explicit ← membersText f.explicit
  let returns ← membersText f.returns
  let arrow := if f.returns.isEmpty then "" else " -> (" ++ returns ++ ")"
  return decorators ++ "func " ++ f.name ++ "\x7b" ++ implicit ++ "\x7d(" ++ explicit ++ ")" ++ arrow

end Cairoscope.Function
