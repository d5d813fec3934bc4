import Cairoscope.FlowGraph.Basic

/-! Paths through a flow graph: from a block without parents, along the edges, to a block without
children. Blocks are given by their places. -/

namespace Cairoscope.FlowGraph

abbrev Path := List Nat

/-- The places of the blocks that an edge of a block leads to, in order and each once. -/
def next (blocks : List Block) (i : Nat) : List Nat :=
  match blocks[i]? with
  | some b => (List.range blocks.length).filter fun j =>
      match blocks[j]? with
      | some c => b.targets.contains (c.start : Int)
      | none => false
  | none => []

/-- The places of the blocks that no edge leads to. -/
def entries (blocks : List Block) : List Nat :=
  (List.range blocks.length).filter fun i =>
    match blocks[i]? with
    | some b => (parentsAmong blocks b).isEmpty
    | none => false

/-- The places that a path can go on to. -/
def onward (blocks : List Block) (path : Path) : List Nat :=
  match path.getLast? with
  | some i => next blocks i
  | none => []

/-- A path goes on to all places that it can go on to; if there are none, it stays. -/
def prolong (blocks : List Block) (path : Path) : List Path :=
  match onward blocks path with
  | [] => [path]
  | js => js.map fun j => path ++ [j]

/-- One round of the search. -/
def prolongAll (blocks : List Block) (ps : List Path) : List Path := ps.flatMap (prolong blocks)

/-- Rounds up to one that changes nothing, `fuel` at most. -/
def settle (blocks : List Block) : Nat → List Path → Outcome (List Path)
  | 0, _ => .error .endless
  | fuel + 1, ps =>
    let longer := prolongAll blocks ps
    if longer = ps then .ok ps else settle blocks fuel longer

/-- The paths of one block each. -/
def openings (blocks : List Block) : List Path := (entries blocks).map fun i => [i]

/-- All paths. A path of more blocks than there are goes in a circle, and is then prolonged for ever. -/
def paths (blocks : List Block) : Outcome (List Path) :=
  settle blocks (blocks.length + 1) (openings blocks)

def blocksOn (blocks : List Block) (path : Path) : List Block := path.filterMap fun i => blocks[i]?

end Cairoscope.FlowGraph
