import Cairoscope.Components
import Cairoscope.FlowGraph.Basic

/-! Cyclomatic complexity: edges less blocks, and twice the number of vertices of the block graph. -/

namespace Cairoscope.FlowGraph

def blockAt? (blocks : List Block) (offset : Int) : Option Nat :=
  blocks.findIdx? fun b => (b.start : Int) == offset

/-- The block graph by positions. Edges that lead out of the function are left out. -/
def adjacency (blocks : List Block) : List (List Int) :=
  blocks.map fun b => b.targets.filterMap fun t => (blockAt? blocks t).map fun i => (i : Int)

def complexity (g : FlowGraph) : Outcome Int := do
  let edges := g.blocks.flatMap (·.edges)
  let roots ← Components.roots (adjacency g.blocks)
  return (edges.length : Int) - g.blocks.length + 2 * roots.length

end Cairoscope.FlowGraph
