import Cairoscope.Analysis.Report
import Cairoscope.Contract.Basic

/-! Names that are not in snake case. -/

namespace Cairoscope.Analysis

def isSnakeLetter (c : Char) : Bool :=
  (decide ('a' ≤ c) && decide (c ≤ 'z')) || (decide ('0' ≤ c) && decide (c ≤ '9')) || c = '_'

/-- Small letters, digits and underscores; one line end may follow. -/
def isSnakeCase (s : String) : Bool :=
  match s.toList.reverse with
  | '\n' :: rest => rest.all isSnakeLetter
  | cs => cs.all isSnakeLetter

def functionNaming (a : Profile) (functions : List Function) : Report :=
  let bad := (functions.map (·.shortName)).filter fun n => !isSnakeCase n
  a.report (!bad.isEmpty) (bad.map fun n => n ++ " function name needs to be in snake case")

def badArguments (f : Function) : List String :=
  (f.explicit.names ++ f.implicit.names).filter fun n => !isSnakeCase n

def variableNaming (a : Profile) (functions : List Function) : Report :=
  let findings := (functions.filter fun f => !f.isImport).flatMap fun f =>
    (badArguments f).map fun n =>
      n ++ " argument name (" ++ f.shortName ++ " function) needs to be in snake case"
  a.report (!findings.isEmpty) findings

end Cairoscope.Analysis
