import Cairoscope.Analysis.Assignments
import Cairoscope.Analysis.Coverage
import Cairoscope.Analysis.Inventory
import Cairoscope.Analysis.Naming
import Cairoscope.Analysis.Overflow
import Cairoscope.Analysis.Token

/-! The analyzers for contracts. -/

namespace Cairoscope.Analysis

inductive Analyzer
  | erc20
  | erc721
  | strings
  | testCases
  | functions
  | statistics
  | assignments
  | integerOverflow
  | functionNaming
  | variableNaming
  deriving DecidableEq, Repr

namespace Analyzer

/-- All analyzers, in the order in which they run. -/
def all : List Analyzer :=
  [erc20, erc721, strings, testCases, functions, statistics, assignments, integerOverflow,
   functionNaming, variableNaming]

def profile : Analyzer → Profile
  | erc20 => ⟨"ERC20", "erc20", "Detect if a contract is an ERC20 Token", .analytics, .informational⟩
  | erc721 =>
    ⟨"ERC721", "erc721", "Detect if a contract is an ERC721 Token", .analytics, .informational⟩
  | strings => ⟨"Strings", "strings", "Detect strings inside a contract", .analytics, .informational⟩
  | testCases =>
    ⟨"Tests cases generator", "tests",
     "Automatically generate test cases for each function of the contract", .analytics,
     .informational⟩
  | functions =>
    ⟨"Functions", "functions", "Retrieve informations about the contract's functions", .analytics,
     .informational⟩
  | statistics =>
    ⟨"Statistics", "statistics", "General statistics about the contract", .analytics,
     .informational⟩
  | assignments =>
    ⟨"Assignations", "assignations", "List of variables assignations", .optimization,
     .informational⟩
  | integerOverflow =>
    ⟨"Integer overflow", "int_overflow", "Detect direct integer overflow/underflow", .security,
     .high⟩
  | functionNaming =>
    ⟨"Function naming", "function_naming", "Detect functions names that are not in snake case",
     .security, .informational⟩
  | variableNaming =>
    ⟨"Variable naming", "variable_naming", "Detect variables names that are not in snake case",
     .security, .informational⟩

def run (p : Palette) (solver : Symbolic.Solver) (a : Analyzer) : Session.Work Report := do
  let c := (← get).contract
  let profile := a.profile
  match a with
  | erc20 => return tokenReport profile Analysis.erc20 c.functions
  | erc721 => return tokenReport profile Analysis.erc721 c.functions
  | strings => Run.ofOutcome (Analysis.strings profile c)
  | testCases => Analysis.testCases profile p solver
  | functions => functionList profile p
  | statistics => Run.ofOutcome (Analysis.statistics profile c)
  | assignments => Analysis.assignments profile
  | integerOverflow => Analysis.integerOverflow profile
  | functionNaming => return Analysis.functionNaming profile c.functions
  | variableNaming => return Analysis.variableNaming profile c.functions

end Analyzer

end Cairoscope.Analysis
