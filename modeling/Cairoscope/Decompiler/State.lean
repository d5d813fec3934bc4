import Cairoscope.Contract.Prototype
import Cairoscope.FlowGraph.Build
import Cairoscope.FlowGraph.Merge
import Cairoscope.Memory.Basic

/-! The state of a decompilation, and the steps on it that the statements share. -/

namespace Cairoscope

/-- What a decompilation reads: the functions of the contract, and how instructions are printed. -/
structure Scene where
  functions : List Function
  printer : Printer

/-- An equality that was met when its cell already had a value. -/
structure Assertion where
  number : Nat
  value : Field.Numeral
  deriving DecidableEq, Repr

structure Decompiler where
  memory : Memory
  /-- The flow graph of each function, once it has been built. -/
  graphs : List (Option FlowGraph)
  nextBlock : Nat
  /-- Depth of indentation. -/
  tabs : Int
  /-- Offsets at which an `else` branch ends. -/
  elseEnds : List Int
  openIfs : Int
  ifEnd : Option Int
  firstPass : Bool
  /-- How many sums or products with an immediate the block has had. -/
  newInBlock : Nat
  assertions : List Assertion
  calls : Nat

structure Place where
  function : Nat
  block : Nat

namespace Decompiler

/-- Starts with an empty memory and counts blocks from 0. Graphs are kept. -/
def start (graphs : List (Option FlowGraph)) : Decompiler where
  memory := .empty
  graphs := graphs
  nextBlock := 0
  tabs := 1
  elseEnds := []
  openIfs := 0
  ifEnd := none
  firstPass := true
  newInBlock := 0
  assertions := []
  calls := 0

abbrev Step := Run Decompiler

def blocksOf (d : Decompiler) (function : Nat) : List Block :=
  match d.graphs[function]? with
  | some (some g) => g.blocks
  | _ => []

def withGraph (d : Decompiler) (function : Nat) (f : FlowGraph → FlowGraph) : Decompiler :=
  { d with graphs := d.graphs.modify function (Option.map f) }

def withBlock (d : Decompiler) (place : Place) (f : Block → Block) : Decompiler :=
  d.withGraph place.function fun g => { g with blocks := g.blocks.modify place.block f }

def cell (r : Register) (offset : Int) : Step Nat := do
  let d ← get
  let (memory, a) ← Run.ofOutcome (d.memory.access r offset)
  set { d with memory }
  return a.number

def nameOf (number : Nat) : Step String := do return (← get).memory.nameOf number

def updateVariable (number : Nat) (f : Variable → Variable) : Step Unit :=
  modify fun d => { d with memory := d.memory.update number f }

def hasValue (number : Nat) : Step Bool := do
  return match (← get).memory.cells[number]? with
    | some v => v.value.isSome
    | none => false

/-- Gives a variable its value, unless it has one. -/
def define (number : Nat) (value : Value) : Step Unit :=
  updateVariable number fun v => if v.value.isSome then v else { v with value := some value }

def currentBlock (place : Place) : Step (Option Block) := do
  return ((← get).blocksOf place.function)[place.block]?

def mergedAt (place : Place) : Step (List Nat) := do
  let blocks := (← get).blocksOf place.function
  match blocks[place.block]? with
  | some b => Run.ofOutcome (FlowGraph.merged blocks b)
  | none => return []

def hasParents (place : Place) : Step Bool := do
  let blocks := (← get).blocksOf place.function
  return match blocks[place.block]? with
    | some b => !(FlowGraph.parentsAmong blocks b).isEmpty
    | none => false

def namesOf (numbers : List Nat) : Step (List String) := do
  let m := (← get).memory
  return numbers.map m.nameOf

/-- Several variables of which one is meant. -/
def phiText (names : List String) : String := "Φ(" ++ String.intercalate ", " names ++ ")"

/-- Four spaces for each level. -/
def indentation (tabs : Int) : String := String.ofList (List.replicate (4 * tabs.toNat) ' ')

def lineAt (sc : Scene) (tabs : Int) (colour data : String) : String :=
  colour ++ indentation tabs ++ data ++ sc.printer.palette.reset

def line (sc : Scene) (colour data : String) : Step String := do
  return lineAt sc (← get).tabs colour data

def indent (n : Int) : Step Unit := modify fun d => { d with tabs := d.tabs + n }

end Decompiler

end Cairoscope
