import Cairoscope.CallGraph
import Cairoscope.Contract.Disassembly
import Cairoscope.DataFlow.Drawing
import Cairoscope.Decompiler.Program
import Cairoscope.FlowGraph.Complexity
import Cairoscope.Symbolic.Execution

/-! Work on a loaded contract. A session keeps the flow graphs and the call graph that have been
built, and the number of the next block. -/

namespace Cairoscope

structure Session where
  contract : Contract
  palette : Palette
  /-- The flow graph of each function, once it has been built. -/
  graphs : List (Option FlowGraph)
  nextBlock : Nat
  /-- The call graph, with the name and format it was first drawn with. -/
  callGraph : Option (Dot.Digraph × String)

namespace Session

abbrev Work := Run Session

def start (contract : Contract) (palette : Palette) : Session :=
  ⟨contract, palette, contract.functions.map fun _ => none, 0, none⟩

def printer (s : Session) : Printer := s.contract.printer s.palette

def scene (s : Session) : Scene := ⟨s.contract.functions, s.printer⟩

def buildGraph (index : Nat) (f : Function) : Work FlowGraph := do
  let g ← Run.onPart (·.nextBlock) (fun n s => { s with nextBlock := n })
    (FlowGraph.build (← get).printer f.name f.sites)
  modify fun s => { s with graphs := s.graphs.set index (some g) }
  return g

def graph (index : Nat) (f : Function) : Work FlowGraph := do
  match (← get).graphs[index]? with
  | some (some g) => return g
  | _ => buildGraph index f

def numbered (s : Session) : List (Nat × Function) :=
  s.contract.functions.mapIdx fun i f => (i, f)

def allGraphs : Work (List FlowGraph) := do
  (← get).numbered.mapM fun p => graph p.1 p.2

/-- The complexity of each function. A function whose graph cannot be built has a fault instead. -/
def complexities : Work (List (Outcome Int)) := do
  (← get).numbered.mapM fun p => do
    try
      let g ← graph p.1 p.2
      return FlowGraph.complexity g
    catch e => return .error e

/-- Runs a new decompiler on the functions of the contract. The graphs it builds stay, and blocks
go on counting where it stops. -/
def decompiling {α : Type} (step : Scene → Decompiler.Step α) : Work (α × Decompiler) := do
  let s ← get
  Run.onPart (fun s => Decompiler.start s.graphs)
    (fun d s => { s with graphs := d.graphs, nextBlock := d.nextBlock })
    (do return (← step s.scene, ← get))

/-- The code of the contract. Builtins and structures have to be printable too. -/
def decompiled : Work String := do
  let s ← get
  let _ ← Run.ofOutcome (s.contract.builtinsText s.palette)
  let _ ← Run.ofOutcome (s.contract.structsText s.palette true)
  return (← decompiling fun sc => Decompiler.program sc false true).1

def explored (firstPassOnly imported : Bool) : Work (String × Decompiler) :=
  decompiling fun sc => Decompiler.program sc firstPassOnly imported

/-- A data-flow graph on the variables of a first pass; it has no nodes yet. -/
def dataFlow (imported : Bool) : Work DataFlow := do
  let (_, d) ← explored true imported
  return DataFlow.ofMemory (← get).contract.functions d.memory

/-- What a symbolic execution of the first function with this name works on, and the assertions of
the contract. -/
def subject (name : String) : Work (Symbolic.Subject × List Assertion) := do
  let (_, d) ← explored true true
  match (← get).contract.functions.findIdx? fun f => f.name == name with
  | some i => return (⟨d.memory, i, d.blocksOf i⟩, d.assertions)
  | none => throw .outOfRange

/-- What is drawn, and what is printed beside. -/
structure Picture where
  drawings : List Dot.Drawing
  text : String

def flowAttributes : Dot.Attributes :=
  [("overlap", "scale"), ("fontname", CallGraph.font), ("fontsize", "20"), ("layout", "dot"),
   ("newrank", "true")]

def flowNodeAttributes : Dot.Attributes :=
  [("style", "filled, solid"), ("shape", "rect, plaintext"), ("color", "gray95"),
   ("fontname", CallGraph.font)]

def flowPicture (name folder format : String) (view : Bool) (graphs : List FlowGraph) : Picture :=
  let g : Dot.Digraph := {
    name, comment := none, isStrict := false
    graphAttributes := flowAttributes
    nodeAttributes := flowNodeAttributes
    edgeAttributes := CallGraph.edgeAttributes
    items := []
    clusters := graphs.map (·.drawing) }
  ⟨[⟨name, folder, view, format, g.source⟩], ""⟩

/-- Draws the flow graphs of all functions, or of the one that is asked for by name or offset. -/
def drawFlow (name folder format : String) (view : Bool) (function offset : Option String) :
    Work Picture := do
  let s ← get
  if function.isNone && offset.isNone then
    let graphs ← s.numbered.mapM fun p => buildGraph p.1 p.2
    return flowPicture name folder format view graphs
  let chosen := s.numbered.find? fun p => match function, offset with
    | some n, _ => p.2.name == n
    | none, some o => toString p.2.start == o
    | none, none => false
  match chosen with
  | some (i, f) => return flowPicture name folder format view [← buildGraph i f]
  | none => return ⟨[], "Error : Function does not exist.\n"⟩

/-- Draws the call graph. It is built once and keeps the name and format of that time. -/
def drawCalls (name folder format : String) (view : Bool) : Work Picture := do
  let s ← get
  let (g, format) ← match s.callGraph with
    | some kept => pure kept
    | none => do
      let g ← Run.ofOutcome (CallGraph.build s.contract.functions name)
      modify fun s => { s with callGraph := some (g, format) }
      pure (g, format)
  return ⟨[⟨g.name, folder, view, format, g.source⟩], ""⟩

end Session

end Cairoscope
