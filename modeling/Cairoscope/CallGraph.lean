import Cairoscope.Contract.Basic
import Cairoscope.Dot

/-! Call graphs: a node for each function, and an edge for each pair of caller and callee, labelled
with the number of calls when there are several. -/

namespace Cairoscope.CallGraph

def font : String := "Helvetica,Arial,sans-serif"

def graphAttributes : Dot.Attributes :=
  [("fontname", font), ("fontsize", "20"), ("layout", "dot"), ("rankdir", "LR"), ("newrank", "true")]

def nodeAttributes : Dot.Attributes :=
  [("style", "filled"), ("shape", "rect, plaintext"), ("pencolor", "#00000044"), ("fontname", font)]

def edgeAttributes : Dot.Attributes :=
  [("arrowsize", "0.5"), ("fontname", font), ("labeldistance", "3"),
   ("labelfontcolor", "#00000080"), ("penwidth", "2")]

def decoratorColour? : String → Option String
  | "constructor" => some "violet"
  | "l1_handler" => some "lightskyblue"
  | "external" => some "lightgreen"
  | "view" => some "orange"
  | "raw_input" => some "salmon"
  | "raw_output" => some "tomato"
  | "known_ap_change" => some "yellow"
  | _ => none

structure NodeStyle where
  shape : String
  style : String
  fill : String

/-- The look of a node. An entry point has a shape of its own; of the colours for imports and
decorators the last one counts. -/
def nodeStyle (f : Function) : Outcome NodeStyle := do
  let base : NodeStyle := if f.entryPoint then ⟨"doubleoctagon", "filled", "white"⟩
    else ⟨"oval", "solid", "white"⟩
  let base := if f.isImport then { base with style := "filled", fill := "lightcoral" } else base
  return (← f.decorators.elements).foldl (fun st d =>
    match d with
    | .str name => match decoratorColour? name with
      | some colour => { st with style := "filled", fill := colour }
      | none => st
    | _ => st) base

def nodeLabel (f : Function) : String :=
  let calls := if f.sites.any fun s => s.instruction.isIndirectCall then " **" else ""
  let decorators := match f.decorators with
    | .arr [] => ""
    | d => "\\l" ++ d.display
  f.name ++ calls ++ decorators

def nodeOf (f : Function) : Outcome Dot.Item := do
  let st ← nodeStyle f
  return .node (toString f.start) (some (nodeLabel f))
    [("shape", st.shape), ("style", st.style), ("color", ""), ("fillcolor", st.fill)]

/-- The calls that reach a function: start of the caller and target, in code order. -/
def calls (functions : List Function) : List (Nat × Int) :=
  functions.flatMap fun f => f.sites.filterMap fun s =>
    if s.instruction.isDirectCall && s.callee.isSome then some (f.start, s.callTarget) else none

/-- The pairs that differ from `p`. -/
def without (p : Nat × Int) (pairs : List (Nat × Int)) : List (Nat × Int) :=
  pairs.filter fun q => q != p

/-- Takes the first pair with how often it occurs, and goes on with the pairs that differ from it. -/
def tally : List (Nat × Int) → List ((Nat × Int) × Nat)
  | [] => []
  | p :: rest => (p, (p :: rest).count p) :: tally (without p rest)
termination_by pairs => pairs.length
decreasing_by exact Nat.lt_succ_of_le (List.length_filter_le _ _)

def edgeOf (e : (Nat × Int) × Nat) : Dot.Item :=
  .edge (toString e.1.1) (Text.decimal e.1.2) (if 1 < e.2 then some (toString e.2) else none) []

def build (functions : List Function) (name : String) : Outcome Dot.Digraph := do
  let nodes ← functions.mapM nodeOf
  return {
    name, comment := some "Call flow graph", isStrict := false
    graphAttributes, nodeAttributes, edgeAttributes
    items := nodes ++ (tally (calls functions)).map edgeOf
    clusters := [] }

end Cairoscope.CallGraph
