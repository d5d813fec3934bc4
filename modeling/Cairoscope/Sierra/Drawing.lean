import Cairoscope.Dot
import Cairoscope.Sierra.Blocks

/-! Drawings of Sierra programs: flow graphs of functions and the call graph. -/

namespace Cairoscope.Sierra

def font : String := "Helvetica,Arial,sans-serif"

def edgeAttributes : Dot.Attributes :=
  [("arrowsize", "0.5"), ("fontname", font), ("labeldistance", "3"),
   ("labelfontcolor", "#00000080"), ("penwidth", "2")]

def flowNodeAttributes : Dot.Attributes :=
  [("style", "filled, solid"), ("shape", "rect, plaintext"), ("color", "#9E9E9E"),
   ("fillcolor", "#F5F5F5"), ("fontname", font), ("margin", "0.2")]

def flowAttributes : Dot.Attributes :=
  [("overlap", "scale"), ("fontname", font), ("fontsize", "20"), ("layout", "dot"),
   ("newrank", "true")]

def edgeColour : EdgeKind → String
  | .conditionalTrue => "#8BC34A"
  | .conditionalFalse => "#C62828"
  | .unconditional => "#0D47A1"
  | .fallthrough => "#212121"

def blockName (offset : Int) : String := "bb_" ++ Text.decimal offset

/-- A block and its edges; an edge to no block is not drawn. -/
def blockItems (blocks : List Block) (b : Block) : List Dot.Item :=
  let label := String.join (b.statements.map fun s => toString s.offset ++ " : " ++ s.raw ++ "\\l")
  let drawn := b.edges.filter fun e => blocks.any fun c => (c.start : Int) == e.target
  .node (blockName b.start) (some label) [("shape", "rectangle")] ::
    drawn.map fun e =>
      .edge (blockName b.start) (blockName e.target) none [("color", edgeColour e.kind)]

def functionCluster (f : Function) : Dot.Cluster :=
  let name := "cluster_" ++ f.id
  ⟨name, some name, .setting [("label", name)] :: f.blocks.flatMap (blockItems f.blocks)⟩

def Program.flowDigraph (p : Program) : Dot.Digraph where
  name := "cfg"
  comment := none
  isStrict := false
  graphAttributes := flowAttributes
  nodeAttributes := flowNodeAttributes
  edgeAttributes := edgeAttributes
  items := []
  clusters := p.functions.map functionCluster

def callNodeAttributes : Dot.Attributes :=
  [("style", "filled"), ("shape", "rect, plaintext"), ("pencolor", "#00000044"), ("fontname", font)]

def callAttributes : Dot.Attributes :=
  [("fontname", font), ("fontsize", "20"), ("layout", "dot"), ("rankdir", "LR"),
   ("newrank", "true")]

/-- The text up to the last closing angle bracket, if something stands before it. -/
def upToLastAngle (cs : List Char) : Option String :=
  match (cs.reverse.dropWhile (· ≠ '>')).drop 1 with
  | [] => none
  | rest => some (String.ofList rest.reverse)

/-- The function that a library function calls, read off a text such as `function_call<user@f>`. -/
def calledFunction? (text : String) : Option String := do
  let rest ← Reader.after? "function_call".toList text.toList
  let rest := (Reader.after? "::".toList rest).getD rest
  upToLastAngle (← Reader.after? "<user@".toList rest)

/-- A colon would end the name of a node, so another sign stands for it. -/
def nodeName (name : String) : String := String.ofList (name.toList.map fun c =>
  if c = ':' then '𐫵' else c)

def functionNode (name : String) : Dot.Item :=
  .node (nodeName name) none [("shape", "rectangle"), ("fillcolor", "#95D2B3")]

def calleeItem (l : Libfunc) : Outcome (String × Dot.Item) :=
  match calledFunction? l.id with
  | some _ =>
    match calledFunction? l.name with
    | some name => .ok (nodeName name, functionNode name)
    | none => .error .noSuchOperation
  | none => .ok (nodeName l.name, .node (nodeName l.name) none
      [("shape", "ellipse"), ("fillcolor", "#E86356")])

/-- The library function that a statement counts for: its own, or that of the assignment before it. -/
def countedFor (last : Option Libfunc) (s : Statement) : Option Libfunc :=
  match s.action with
  | .assign libfunc _ _ => some libfunc
  | _ => last

/-- The items for the statements of a function, and the last library function. A statement before any
assignment is a fault. -/
def callItems (source : String) :
    Option Libfunc → List Statement → Outcome (List Dot.Item × Option Libfunc)
  | last, [] => .ok ([], last)
  | last, s :: rest => do
    match countedFor last s with
    | none => .error .unset
    | some l =>
      let (callee, node) ← calleeItem l
      let (items, last) ← callItems source (some l) rest
      return (node :: .edge source callee none [] :: items, last)

def callerItems : Option Libfunc → List Function → Outcome (List Dot.Item)
  | _, [] => .ok []
  | last, f :: rest => do
    let (items, last) ← callItems (nodeName f.id) last f.statements
    return functionNode f.id :: items ++ (← callerItems last rest)

def Program.callDigraph (p : Program) : Outcome Dot.Digraph := do
  return {
    name := "Call-Flow Graph", comment := none, isStrict := true
    graphAttributes := callAttributes, nodeAttributes := callNodeAttributes
    edgeAttributes := edgeAttributes
    items := ← callerItems none p.functions, clusters := [] }

/-- A graph with the file it goes to; it is shown at once. -/
def drawing (g : Dot.Digraph) (folder format : String) : Dot.Drawing :=
  ⟨g.name, folder, true, format, g.source⟩

end Cairoscope.Sierra
