import Cairoscope.Contract.InstructionText
import Cairoscope.Dot
import Cairoscope.FlowGraph.Edge

/-! Control-flow graphs of functions: blocks of instructions and the edges between them. -/

namespace Cairoscope

structure Block where
  id : Nat
  start : Nat
  /-- The offset of the block that follows. -/
  stop : Option Nat
  sites : List Site
  edges : List Edge
  isPhi : Bool
  /-- The variables defined in the block, by their place in memory. -/
  allocated : List Nat
  /-- The variable that decides a conditional jump of the block. -/
  condition : Option Nat

namespace Block

def fresh (id : Nat) (s : Site) : Block := ⟨id, s.offset, none, [], [], false, [], none⟩

def name (b : Block) : String := "bb_" ++ toString b.start

def targets (b : Block) : List Int := b.edges.map (·.target)

end Block

structure FlowGraph where
  function : String
  blocks : List Block
  /-- How many instructions have been replaced by their decompiled lines. -/
  rendered : Nat
  drawing : Dot.Cluster

namespace FlowGraph

/-- The blocks with an edge to a block, once for each edge. -/
def parentsAmong (blocks : List Block) (b : Block) : List Block :=
  blocks.flatMap fun p => (p.targets.filter fun t => t == (b.start : Int)).map fun _ => p

/-- The blocks that an edge of a block leads to, each once. -/
def childrenAmong (blocks : List Block) (b : Block) : List Block :=
  blocks.filter fun c => b.targets.contains (c.start : Int)

def parents (g : FlowGraph) (b : Block) : List Block := parentsAmong g.blocks b

def children (g : FlowGraph) (b : Block) : List Block := childrenAmong g.blocks b

end FlowGraph

end Cairoscope
