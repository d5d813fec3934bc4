import Cairoscope.Contract.Basic
import Cairoscope.DataFlow.Taint
import Cairoscope.Memory.Basic

/-! Data-flow graphs: nodes for the variables of a contract, for constants and for calls, and an edge
from each operand to the variable it defines. -/

namespace Cairoscope

structure VariableNode where
  number : Nat
  name : String
  label : String
  function : Nat
  isArgument : Bool
  isReturned : Bool
  coefficient : Float
  /-- Nodes by their place in the graph. -/
  parents : List Nat
  children : List Nat

structure ConstantNode where
  value : Int
  label : String
  /-- The variable that the constant helps to define. -/
  variableName : String
  function : Nat

structure CallNode where
  label : String
  function : Nat
  arguments : List String
  returns : List String

inductive DataSource
  | node (place : Nat)
  | constant (place : Nat)
  deriving DecidableEq, Repr

structure DataEdge where
  source : DataSource
  target : Nat
  function : Nat

structure DataFlow where
  functions : List Function
  cells : List Variable
  nodes : List VariableNode
  constants : List ConstantNode
  calls : List CallNode
  edges : List DataEdge

namespace DataFlow

abbrev Build := Run DataFlow

def ofMemory (functions : List Function) (m : Memory) : DataFlow :=
  ⟨functions, m.cells, [], [], [], []⟩

def argumentNames (g : DataFlow) : List String :=
  g.cells.flatMap fun v =>
    match v.function.bind fun i => g.functions[i]? with
    | some f => f.argumentNames
    | none => []

/-- A variable with the name of an argument is shown with the number of its function. -/
def labelFor (g : DataFlow) (function : Nat) (name : String) : String :=
  if g.argumentNames.contains name then "f" ++ toString function ++ "_" ++ name else name

def nodesOf (g : DataFlow) : List VariableNode :=
  g.cells.filterMap fun v => do
    let i ← v.function
    let f ← g.functions[i]?
    if f.isImport then none
    else some ⟨v.number, v.name, g.labelFor i v.name, i, v.isArgument, v.isReturned, 0, [], []⟩

def callLabel (g : DataFlow) (c : CallResult) : String :=
  ((g.functions[c.function]?).map (·.name)).getD "" ++ " (" ++ toString c.callNumber ++ ")"

def callsOf (g : DataFlow) : List CallNode :=
  g.cells.filterMap fun v =>
    match v.value with
    | some (.result c) => do
      let callee ← g.functions[c.function]?
      return ⟨g.callLabel c, v.function.getD 0, callee.explicit.names, callee.returns.names⟩
    | _ => none

/-- The places of the nodes of a function that stand for one of the variables. -/
def placesOf (g : DataFlow) (function : Option Nat) (numbers : List Nat) : List Nat :=
  (List.range g.nodes.length).filter fun i =>
    match g.nodes[i]? with
    | some n => some n.function == function && numbers.contains n.number
    | none => false

def connect (g : DataFlow) (source target function : Nat) : DataFlow :=
  { g with
    nodes := (g.nodes.modify source fun n => { n with children := n.children ++ [target] }).modify
      target fun n => { n with parents := n.parents ++ [source] }
    edges := g.edges ++ [⟨.node source, target, function⟩] }

/-- A new constant with an edge to the variable that it helps to define. -/
def addConstant (g : DataFlow) (v : Variable) (target function : Nat) (value : Int) : DataFlow :=
  let place := g.constants.length
  { g with
    constants := g.constants ++
      [⟨value, Text.decimal value ++ "_" ++ toString place, v.name, function⟩]
    edges := g.edges ++ [⟨.constant place, target, function⟩] }

def integersOf (value : Value) : List Int :=
  value.operands.filterMap fun
    | .integer n => some n
    | .cells _ => none

/-- The edges to one variable: from the variables of its value, then from the constants. A variable
without a node is a fault. -/
def addEdges (v : Variable) (value : Value) : Build Unit := do
  let g ← get
  match g.placesOf v.function [v.number] with
  | [] => throw .outOfRange
  | target :: _ =>
    let function := v.function.getD 0
    let sources := value.variableOperands.flatMap (g.placesOf v.function)
    modify fun g => sources.foldl (fun g source => g.connect source target function) g
    modify fun g => (integersOf value).foldl (fun g n => g.addConstant v target function n) g

def create : Build Unit := do
  modify fun g => { g with nodes := g.nodes ++ g.nodesOf }
  modify fun g => { g with calls := g.calls ++ g.callsOf }
  (← get).cells.forM fun v =>
    match v.value with
    | none => pure ()
    | some (.result _) => pure ()
    | some value => addEdges v value

def childrenOf (g : DataFlow) (place : Nat) : List Nat :=
  ((g.nodes[place]?).map (·.children)).getD []

/-- A child keeps seven tenths of its parent's taint. -/
def scale : Taint.Scale Float := ⟨1.0, fun c => 0.7 * c⟩

def withCoefficients (g : DataFlow) (cs : List Float) : DataFlow :=
  { g with nodes := g.nodes.zipWith (fun n c => { n with coefficient := c }) cs }

def coefficients (g : DataFlow) : List Float := g.nodes.map (·.coefficient)

def taintNode (g : DataFlow) (place : Nat) : DataFlow :=
  g.withCoefficients (Taint.taintFrom scale g.childrenOf g.coefficients place).coefficients

def argumentPlaces (g : DataFlow) : List Nat :=
  (List.range g.nodes.length).filter fun i => ((g.nodes[i]?).map (·.isArgument)).getD false

def taintArguments (g : DataFlow) : DataFlow :=
  g.withCoefficients (Taint.taintAll scale g.childrenOf g.coefficients g.argumentPlaces)

def clean (g : DataFlow) : DataFlow :=
  { g with nodes := g.nodes.map fun n => { n with coefficient := 0 } }

def taintNamed (g : DataFlow) (name : String) : Outcome DataFlow :=
  match g.nodes.findIdx? fun n => n.name == name with
  | some place => .ok (g.taintNode place)
  | none => .error .outOfRange

end DataFlow

end Cairoscope
