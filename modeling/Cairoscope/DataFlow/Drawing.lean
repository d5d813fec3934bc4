import Cairoscope.DataFlow.Colour
import Cairoscope.DataFlow.Graph
import Cairoscope.Dot

/-! Drawing a data-flow graph: one cluster for each function. Clusters come in the order of their
text. -/

namespace Cairoscope.DataFlow

def font : String := "Helvetica, Arial, sans-serif"

def functionName (g : DataFlow) (i : Nat) : String := ((g.functions[i]?).map (·.name)).getD ""

def drawnNames (g : DataFlow) : List String :=
  (g.nodes.map fun n => g.functionName n.function).eraseDups

/-- An item with the name of the cluster it goes to. -/
abbrev Placed := String × Dot.Item

/-- Puts an item in the cluster of a function; a function without nodes has none. -/
def inCluster (g : DataFlow) (function : Nat) (item : Dot.Item) : Outcome Placed :=
  let name := g.functionName function
  if g.drawnNames.contains name then .ok (name, item) else .error .outOfRange

/-- The edges into a call, each labelled with a parameter of the callee. -/
def argumentItems (g : DataFlow) (c : CallResult) (label : String) : List Dot.Item :=
  let parameters := ((g.functions[c.function]?).map (·.parameterNames)).getD []
  (c.arguments.zip parameters).filterMap fun (argument, parameter) =>
    match argument with
    | .single number => do
      let n ← g.nodes.find? fun n => n.number == number
      return .edge n.name label (some parameter) [("fontname", font)]
    | .merged _ => none

/-- The edges out of and into a call for one of its results. -/
def callItems (g : DataFlow) (v : Variable) (c : CallResult) : Outcome (List Placed) := do
  let function := v.function.getD 0
  let label := g.callLabel c
  (.edge label v.name none [] :: g.argumentItems c label).mapM (g.inCluster function)

def nodeItem (g : DataFlow) (n : VariableNode) : Outcome Placed := do
  g.inCluster n.function (.node (g.labelFor n.function n.name) none
    [("style", "filled"), ("fillcolor", ← Taint.colour n.coefficient), ("fontname", font)])

def constantItem (g : DataFlow) (n : ConstantNode) : Outcome Placed :=
  g.inCluster n.function (.node n.label (some (Text.decimal n.value))
    [("style", "filled"), ("fillcolor", "lightblue"), ("fontname", font)])

def callItem (g : DataFlow) (n : CallNode) : Outcome Placed :=
  g.inCluster n.function (.node n.label (some n.label)
    [("style", "filled"), ("fillcolor", "lightyellow"), ("shape", "box")])

def sourceOf (g : DataFlow) : DataSource → Option (String × Nat)
  | .node i => (g.nodes[i]?).map fun n => (n.label, n.function)
  | .constant i => (g.constants[i]?).map fun n => (n.label, n.function)

/-- An edge of the graph. An edge from a node to itself and one between functions are not drawn. -/
def edgeItem (g : DataFlow) (e : DataEdge) : Outcome (List Placed) := do
  match g.sourceOf e.source, g.nodes[e.target]? with
  | some (label, function), some target =>
    if e.source = .node e.target ∨ function ≠ target.function then return []
    else return [← g.inCluster e.function (.edge label target.label none [("fontname", font)])]
  | _, _ => return []

def items (g : DataFlow) : Outcome (List Placed) := do
  let calls ← g.cells.mapM fun v =>
    match v.value with
    | some (.result c) => g.callItems v c
    | _ => pure []
  let nodes ← g.nodes.mapM g.nodeItem
  let constants ← g.constants.mapM g.constantItem
  let callNodes ← g.calls.mapM g.callItem
  let edges ← g.edges.mapM g.edgeItem
  return calls.flatten ++ nodes ++ constants ++ callNodes ++ edges.flatten

def clusterOf (items : List Placed) (name : String) : Dot.Cluster :=
  ⟨"cluster_" ++ name, none,
    .setting [("label", name)] :: .setting [("bgcolor", "lightgrey")] ::
      (items.filter fun p => p.1 == name).map (·.2)⟩

def digraph (g : DataFlow) : Outcome Dot.Digraph := do
  let items ← g.items
  let clusters := g.drawnNames.map (clusterOf items)
  return {
    name := "DataFlow Graph", comment := none, isStrict := true
    graphAttributes := [], nodeAttributes := [], edgeAttributes := []
    items := [.setting [("fontname", font), ("fontsize", "20")]]
    clusters := clusters.mergeSort fun a b => decide (a.text ≤ b.text) }

end Cairoscope.DataFlow
