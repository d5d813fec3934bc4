import Cairoscope.FlowGraph.Basic
import Cairoscope.Text.Blank
import Cairoscope.Text.Split

/-! Building the control-flow graph of a function from its instructions. A block starts at offset 0,
at the target of a jump, and after a conditional jump. -/

namespace Cairoscope.FlowGraph

/-- The offsets at which an instruction makes a block start. Calls and returns make none. -/
def leadersOf (s : Site) : List Int :=
  let i := s.instruction
  if i.opcode = .call ∨ i.opcode = .ret then []
  else match i.imm, i.pcUpdate with
    | some imm, .jump => [s.offset + imm]
    | some imm, .jumpRel => [s.offset + imm]
    | some imm, .jnz => [s.offset + imm, s.offset + 2]
    | _, _ => []

def leaders (sites : List Site) : List Int := 0 :: sites.flatMap leadersOf

structure Cut where
  /-- Blocks that are complete. -/
  done : List Block
  current : Block
  /-- The target of the last unconditional jump. -/
  jumpTarget : Option Int
  /-- The number of the next block. -/
  nextId : Nat

/-- The edges that leave after an instruction, and the last jump target. An instruction before a
leader falls through to the target of the last jump. -/
def edgesAfter (starts : List Int) (jumpTarget : Option Int) (s : Site) (next : Option Site) :
    List Edge × Option Int :=
  let i := s.instruction
  let target : Int := s.offset + i.imm.getD 0
  if i.isReturn then ([], jumpTarget)
  else if i.pcUpdate = .jumpRel ∧ i.opcode ≠ .call then
    ([⟨s.offset, target, .unconditional⟩], some target)
  else if i.pcUpdate = .jnz then
    ([⟨s.offset, s.offset + 2, .conditionalTrue⟩, ⟨s.offset, target, .conditionalFalse⟩], jumpTarget)
  else match next, jumpTarget with
    | some n, some t =>
      if starts.contains (n.offset : Int) then ([⟨s.offset, t, .fallthrough⟩], jumpTarget)
      else ([], jumpTarget)
    | _, _ => ([], jumpTarget)

/-- One instruction of the walk. `first` says that no block is open yet. -/
def cutStep (starts : List Int) (first : Bool) (c : Cut) (s : Site) (next : Option Site) : Cut :=
  let leads := starts.contains (s.offset : Int)
  let done := if leads then c.done ++ [{ c.current with stop := some s.offset }] else c.done
  let opened := leads || first
  let current := if opened then Block.fresh c.nextId s else c.current
  let (edges, jumpTarget) := edgesAfter starts c.jumpTarget s next
  { done
    current := { current with sites := current.sites ++ [s], edges := current.edges ++ edges }
    jumpTarget
    nextId := if opened then c.nextId + 1 else c.nextId }

def cutAll (starts : List Int) : Bool → Cut → List Site → Cut
  | _, c, [] => c
  | first, c, s :: rest => cutAll starts false (cutStep starts first c s rest.head?) rest

def cut (nextId : Nat) (sites : List Site) : Outcome (List Block × Nat) :=
  match sites with
  | [] => .error .outOfRange
  | s :: _ =>
    let c := cutAll (leaders sites) true ⟨[], Block.fresh nextId s, none, nextId + 1⟩ sites
    .ok (c.done ++ [c.current], c.nextId)

/-- A block other than the first is a phi block when two edges lead to it. -/
def markPhi (blocks : List Block) : List Block :=
  blocks.mapIdx fun i b => { b with isPhi := decide (0 < i) && decide (2 ≤ (parentsAmong blocks b).length) }

def EdgeKind.colour : EdgeKind → String
  | .conditionalTrue => "green"
  | .conditionalFalse => "red"
  | .unconditional => "blue"
  | .fallthrough => "black"

def nodeText (p : Printer) (s : Site) : Outcome String := do
  return Text.squeeze (Text.replaceChar '\n' "\\l" (← s.text p))

/-- A block as a node, and its edges to blocks of the function. -/
def blockItems (p : Printer) (blocks : List Block) (b : Block) : Outcome (List Dot.Item) := do
  let label := String.join (← b.sites.mapM (nodeText p)) ++ "\\l"
  let edges := b.edges.filter fun e => blocks.any fun c => (c.start : Int) == e.target
  return .node b.name (some label) [("shape", "square")] ::
    edges.map fun e => .edge b.name ("bb_" ++ Text.decimal e.target) none
      [("color", EdgeKind.colour e.kind)]

def draw (p : Printer) (function : String) (blocks : List Block) : Outcome Dot.Cluster := do
  let name := "CFG " ++ function
  let items ← blocks.mapM (blockItems p blocks)
  return ⟨"cluster_" ++ name, some name, .setting [("label", name)] :: items.flatten⟩

/-- Builds the graph of a function. The state is the number of the next block, which moves on even
if the graph cannot be drawn. -/
def build (p : Printer) (function : String) (sites : List Site) : Run Nat FlowGraph := do
  let (blocks, nextId) ← Run.ofOutcome (cut (← get) sites)
  set nextId
  let drawing ← Run.ofOutcome (draw p function blocks)
  return ⟨function, markPhi blocks, 0, drawing⟩

/-- The blocks with their sizes, edges and instructions, as text. A graph whose instructions have been
replaced has nothing to print. -/
def listing (p : Printer) (g : FlowGraph) : Outcome String := do
  if g.rendered ≠ 0 then throw .noSuchOperation
  let texts ← g.blocks.mapM fun b => do
    let code ← b.sites.mapM fun s => do return (← s.text p) ++ "\n"
    let edges := String.intercalate ", " (b.edges.map fun _ => "<Edge>")
    return "-- BB ('" ++ b.name ++ "', " ++ toString b.sites.length ++ ") [" ++ edges ++ "] --\n" ++
      String.join code
  return String.join texts

end Cairoscope.FlowGraph
