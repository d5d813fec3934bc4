import Cairoscope.Analysis.Report
import Cairoscope.Session

/-! Test cases that cover the paths of each function. -/

namespace Cairoscope.Analysis

def caseText (p : Palette) (index : Nat) (c : Symbolic.TestCase) : String :=
  let values := c.map fun e => p.cyan ++ e.1 ++ colourEnd ++ ": " ++ Text.decimal e.2
  "\n    " ++ p.header ++ "Path " ++ toString index ++ colourEnd ++ " : " ++
    String.intercalate ", " values

def casesText (p : Palette) (f : Function) (cases : List Symbolic.TestCase) : String :=
  f.name ++ String.join (cases.mapIdx (caseText p))

/-- The test cases of all functions that are not imported and have any. -/
def testCases (a : Profile) (p : Palette) (solver : Symbolic.Solver) : Session.Work Report := do
  let (_, d) ← Session.explored true true
  let own := (← get).numbered.filter fun e => !e.2.isImport
  let found ← own.mapM fun e => do
    let cases ← Run.ofOutcome (Symbolic.testCases solver ⟨d.memory, e.1, d.blocksOf e.1⟩)
    return (e.2, cases)
  let texts := (found.filter fun e => !e.2.isEmpty).map fun e => casesText p e.1 e.2
  return a.report (!texts.isEmpty) texts

end Cairoscope.Analysis
