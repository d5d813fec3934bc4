import Cairoscope.FlowGraph.Basic

/-! The variables that meet at a block: the last variable of each block on the way back, passing
through blocks that define none. -/

namespace Cairoscope.FlowGraph

/-- Searches back level by level. The search is endless exactly when it can go round in blocks without
variables; then some level beyond the number of blocks is not empty. -/
def mergedFrom (blocks : List Block) : Nat → List Block → Option (List Nat)
  | _, [] => some []
  | 0, _ => none
  | fuel + 1, level => do
    let found := level.filterMap fun b => b.allocated.getLast?
    let next := (level.filter fun b => b.allocated.isEmpty).flatMap (parentsAmong blocks)
    return found ++ (← mergedFrom blocks fuel next)

def merged (blocks : List Block) (b : Block) : Outcome (List Nat) :=
  match mergedFrom blocks (blocks.length + 1) (parentsAmong blocks b) with
  | some ns => .ok ns
  | none => .error .endless

end Cairoscope.FlowGraph
