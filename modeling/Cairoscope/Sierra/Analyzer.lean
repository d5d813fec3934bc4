import Cairoscope.Analysis.Report
import Cairoscope.Sierra.Text

/-! The analyzers for Sierra programs. -/

namespace Cairoscope.Sierra

inductive Analyzer
  | functions
  | statistics
  deriving DecidableEq, Repr

namespace Analyzer

def all : List Analyzer := [functions, statistics]

def profile : Analyzer → Analysis.Profile
  | functions =>
    ⟨"Functions", "functions", "Retrieve informations about the contract's functions", .analytics,
     .informational⟩
  | statistics =>
    ⟨"Statistics", "statistics", "General statistics about the contract", .analytics,
     .informational⟩

def run (p : Program) (a : Analyzer) : Outcome Analysis.Report :=
  match a with
  | functions => do
    let prototypes ← p.functions.mapM p.prototype
    return a.profile.report (!p.functions.isEmpty) prototypes
  | statistics =>
    .ok (a.profile.report true
      ["functions : " ++ toString p.functions.length, "libfuncs : " ++ toString p.libfuncs.length,
       "types : " ++ toString p.types.length])

end Analyzer

end Cairoscope.Sierra
