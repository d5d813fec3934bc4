import Cairoscope.Json.Access
import Cairoscope.Symbolic.Request
import Cairoscope.Yaml.Reader

/-! Settings of a symbolic execution, read from a file. -/

namespace Cairoscope.Symbolic

/-- The parts of a settings file. They are not checked further, so each may be any value. -/
structure Settings where
  function : Json
  constraints : Json
  values : Json
  solves : Json

namespace Settings

/-- A member that may be left out. -/
def optional (v : Json) (name : String) : Outcome Json := do
  if ← v.mentions name then v.field name else return .arr []

/-- The settings in a document. The function and what to solve for have to be there. -/
def ofDocument (v : Json) : Outcome Settings := do
  let function ← v.field "function"
  let constraints ← optional v "constraints"
  let values ← optional v "variables"
  return ⟨function, constraints, values, ← v.field "solves"⟩

def read (text : String) : Outcome Settings :=
  match Yaml.read? text with
  | some v => ofDocument v
  | none => .error .grammar

def texts (v : Json) : Outcome (List String) := do (← v.elements).mapM Json.text

/-- What is asked for. A part has to be a list of texts by the time it is used. -/
def request (s : Settings) : Outcome Request := do
  let comparisons ← readAll comparisonAt (← texts s.constraints)
  let values ← readAll valueAt (← texts s.values)
  return ⟨comparisons, values, ← readAll nameAt (← texts s.solves)⟩

end Settings

end Cairoscope.Symbolic
