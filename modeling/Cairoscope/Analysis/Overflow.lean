import Cairoscope.Analysis.Report
import Cairoscope.Session

/-! Operations on tainted operands, which can leave the range of integers. Arguments are tainted, and
what is computed from them is tainted less. -/

namespace Cairoscope.Analysis

inductive Danger
  | direct
  | indirect
  deriving DecidableEq, Repr

/-- Full taint is direct danger; what a single step leaves of it is indirect danger. -/
def danger? (coefficient : Float) : Option Danger :=
  if coefficient == 1 then some .direct
  else if coefficient >= 0.7 then some .indirect
  else none

/-- An operation with two variables, of which the second is tainted. -/
def suspect? (g : DataFlow) (function : Nat) (v : Variable) : Option (String × Danger) := do
  let value ← v.value
  match value.variableOperands with
  | [_, second] =>
    let n ← g.nodes.find? fun n => n.function == function && second.contains n.number
    let d ← danger? n.coefficient
    return (n.name, d)
  | _ => none

def suspects (g : DataFlow) (index : Nat) (f : Function) : List (String × Danger) :=
  if f.isImport then []
  else (g.cells.filter fun v => v.function == some index).filterMap fun v =>
    (suspect? g index v).map fun (name, d) =>
      (f.name ++ " : " ++ name ++ (if d = .indirect then " (indirect)" else ""), d)

/-- Lists the places. An indirect one lowers the impact. -/
def integerOverflow (a : Profile) : Session.Work Report := do
  let g ← Session.dataFlow false
  let g ← Run.ofOutcome (match DataFlow.create g with
    | .ok _ g => .ok g
    | .error e _ => .error e)
  let g := g.taintArguments
  let found := (← get).numbered.flatMap fun e => suspects g e.1 e.2
  let impact := if found.any fun e => e.2 = .indirect then .medium else a.impact
  return ⟨!found.isEmpty, none, impact, found.map (·.1)⟩

end Cairoscope.Analysis
