import Cairoscope.Decompiler.State
import Cairoscope.FlowGraph.Path
import Cairoscope.Symbolic.Request

/-! Symbolic execution of a function. Each path gives a problem: the values of the variables on it, what
the request adds, and, for test cases, the outcome of each branch. -/

namespace Cairoscope.Symbolic

/-- A function with the memory and the blocks that a first pass has left. -/
structure Subject where
  memory : Memory
  function : Nat
  blocks : List Block

namespace Subject

def numbered? (s : Subject) (name : String) : Option Nat :=
  (s.memory.cells.find? fun v => v.name == name).map (·.number)

def arguments (s : Subject) : List Variable :=
  s.memory.cells.filter fun v => v.function == some s.function && v.isArgument

def defined (s : Subject) (path : FlowGraph.Path) : List Variable :=
  (FlowGraph.blocksOn s.blocks path).flatMap fun b => b.allocated.filterMap fun n => s.memory.cells[n]?

end Subject

/-- The left operand: a candidate on the path, else the first one. -/
def leftTerm (onPath : List Nat) : Operand → Outcome Term
  | .integer n => .ok (.integer n)
  | .cells candidates =>
    match (candidates.find? onPath.contains).or candidates.head? with
    | some n => .ok (.unknown n)
    | none => .error .outOfRange

/-- The right operand: its first candidate. -/
def rightTerm : Operand → Outcome Term
  | .integer n => .ok (.integer n)
  | .cells (n :: _) => .ok (.unknown n)
  | .cells [] => .error .outOfRange

def operation : Operator → Term → Term → Term
  | .addition => .add
  | .multiplication => .mul

/-- The equation that a value stands for. Loads and results of calls have none, and neither has a copy
of which no candidate is on the path. -/
def equation (onPath : List Nat) (v : Variable) : Outcome (Option Formula) :=
  let equals (t : Term) : Formula := ⟨.equal, .unknown v.number, t⟩
  match v.value with
  | some (.integer n) => .ok (some (equals (.integer n)))
  | some (.copy candidates) =>
    .ok ((candidates.find? onPath.contains).map fun n => equals (.unknown n))
  | some (.combined l op r) => do
    return some (equals (operation op (← leftTerm onPath l) (← rightTerm r)))
  | _ => .ok none

def equations (vs : List Variable) : Outcome Problem := do
  let onPath := vs.map (·.number)
  return (← vs.mapM (equation onPath)).filterMap id

/-- The assertions that the program makes; one that is not written in decimal is refused. -/
def assertionFormulas (assertions : List Assertion) : Outcome Problem :=
  assertions.mapM fun a => do
    return ⟨.equal, .unknown a.number, .integer (← a.value.small)⟩

/-- A value of the request; it has to be for a variable that exists. -/
def valueFormula (s : Subject) (value : String × Int) : Outcome Formula :=
  match s.numbered? value.1 with
  | some n => .ok ⟨.equal, .unknown n, .integer value.2⟩
  | none => .error .outOfRange

/-- A comparison of the request; one with a variable that does not exist is left out. -/
def comparisonFormula (s : Subject) (c : Comparison) : Option Formula := do
  let left ← s.numbered? c.name
  let right ← match c.bound with
    | .integer n => some (Term.integer n)
    | .named name => (s.numbered? name).map Term.unknown
  return ⟨c.relation, .unknown left, right⟩

/-- The variables of a path that the request does not fix, arguments first. -/
def openVariables (s : Subject) (r : Request) (path : FlowGraph.Path) : List Variable :=
  (s.arguments ++ s.defined path).filter fun v => !(r.values.map (·.1)).contains v.name

/-- The problem of a path. A path on which a compared variable does not occur has none. -/
def requestProblem (s : Subject) (r : Request) (assertions : List Assertion)
    (path : FlowGraph.Path) : Outcome (Option Problem) :=
  let vs := openVariables s r path
  let names := vs.map (·.name)
  if r.comparisons.all fun c => names.contains c.name then do
    let values ← equations vs
    let asserted ← assertionFormulas assertions
    let fixed ← r.values.mapM (valueFormula s)
    return some (values ++ asserted ++ fixed ++ r.comparisons.filterMap (comparisonFormula s))
  else .ok none

/-- What a block with two edges asks for when it is on a path. A path that does not arrive at the first
target exactly once asks for zero; one that does, but not at the second, asks for another value. -/
def branchFormula (onPath : List Block) (b : Block) : Option Formula :=
  match b.targets, b.condition with
  | [first, second], some c =>
    let arrivals (t : Int) : Nat := onPath.countP fun d => (d.start : Int) == t
    if arrivals first ≠ 1 then some ⟨.equal, .unknown c, .integer 0⟩
    else if arrivals second ≠ 1 then some ⟨.distinct, .unknown c, .integer 0⟩
    else none
  | _, _ => none

def branchFormulas (onPath : List Block) : Problem := onPath.filterMap (branchFormula onPath)

/-- The problem of a path with the outcome of each of its branches. -/
def branchProblem (s : Subject) (path : FlowGraph.Path) : Outcome Problem := do
  return (← equations (s.arguments ++ s.defined path)) ++
    branchFormulas (FlowGraph.blocksOn s.blocks path)

def requestProblems (s : Subject) (r : Request) (assertions : List Assertion) :
    Outcome (List Problem) := do
  let paths ← FlowGraph.paths s.blocks
  return (← paths.mapM (requestProblem s r assertions)).filterMap id

def branchProblems (s : Subject) : Outcome (List Problem) := do
  (← FlowGraph.paths s.blocks).mapM (branchProblem s)

def firstModel (solver : Solver) (s : Subject) (r : Request) (assertions : List Assertion) :
    List FlowGraph.Path → Outcome (Option Model)
  | [] => .ok none
  | path :: rest => do
    match ← requestProblem s r assertions path with
    | some p =>
      match solver p with
      | some m => return some m
      | none => firstModel solver s r assertions rest
    | none => firstModel solver s r assertions rest

/-- Names with their values, in the order of the names. -/
def byName (pairs : List (String × Int)) : List (String × Int) :=
  pairs.mergeSort fun a b => decide (a.1 ≤ b.1)

/-- The integers of a model under the names of their variables. -/
def namedValues (s : Subject) (m : Model) : List (String × Int) :=
  assocOfPairs (m.map fun e => (s.memory.nameOf e.1, e.2))

/-- The values of the unknowns that are asked for, along the first path that has a model. -/
def solutions (solver : Solver) (s : Subject) (r : Request) (assertions : List Assertion) :
    Outcome (List (String × Int)) := do
  let m ← firstModel solver s r assertions (← FlowGraph.paths s.blocks)
  return byName ((namedValues s (m.getD [])).filter fun e => r.solves.contains e.1)

abbrev TestCase := List (String × Int)

/-- 0 for each of the names that has no value. -/
def withZeros (names : List String) (values : List (String × Int)) : List (String × Int) :=
  names.foldl (fun values name =>
    if (values.map (·.1)).contains name then values else assocSet name 0 values) values

/-- What a model and 0 give the arguments. -/
def testCase (s : Subject) (m : Model) : TestCase :=
  let names := s.arguments.map (·.name)
  byName ((withZeros names (namedValues s m)).filter fun e => names.contains e.1)

/-- A test case for each path that has a model; each case once, and none without arguments. -/
def testCases (solver : Solver) (s : Subject) : Outcome (List TestCase) := do
  let models := (← branchProblems s).filterMap solver
  return ((models.map (testCase s)).filter fun c => !c.isEmpty).eraseDups

end Cairoscope.Symbolic
