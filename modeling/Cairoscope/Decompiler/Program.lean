import Cairoscope.Decompiler.Statement

/-! Decompilation of a whole contract. Each function is walked twice: the first pass finds the
variables, the second writes the code. -/

namespace Cairoscope.Decompiler

def buildGraph (sc : Scene) (index : Nat) (f : Function) : Step Unit := do
  let g ← Run.onPart (·.nextBlock) (fun n d => { d with nextBlock := n })
    (FlowGraph.build sc.printer f.name f.sites)
  modify fun d => { d with graphs := d.graphs.set index (some g) }

/-- Enters a function: its arguments and frame are the next variables. -/
def enter (index : Nat) (f : Function) : Step Unit :=
  modify fun d => { d with
    memory := d.memory.enter (some index) f.parameterNames d.nextBlock
    nextBlock := d.nextBlock + 1 }

/-- The first pass over a block; its variables are those created on the way. -/
def scanBlock (sc : Scene) (f : Function) (place : Place) (b : Block) : Step Unit := do
  modify fun d => { d with newInBlock := 0 }
  let before := (← get).memory.size
  b.sites.forM fun s => do
    let _ ← statement sc place f.returns.length s false
  modify fun d => d.withBlock place fun b =>
    { b with allocated := (List.range (d.memory.size - before)).map (before + ·) }

/-- The braces that close before the instruction at `offset`. -/
def closings (sc : Scene) (offset : Nat) : Step String := do
  let brace : Step String := do
    indent (-1)
    return (← line sc sc.printer.palette.reset "\x7d") ++ "\n"
  let ifText ← if (← get).ifEnd = some (offset : Int) then do
      modify fun d => { d with ifEnd := none }
      brace
    else pure ""
  let ends := (← get).elseEnds.filter (· == (offset : Int))
  return ifText ++ String.join (← ends.mapM fun _ => brace)

/-- The second pass over one instruction. `count` is its number in the function, from 1. -/
def writeSite (sc : Scene) (f : Function) (place : Place) (count : Nat) (s : Site) :
    Step String := do
  let braces ← closings sc s.offset
  let text ← statement sc place f.returns.length s (count == f.sites.length)
  modify fun d => d.withGraph place.function fun g => { g with rendered := g.rendered + 1 }
  return braces ++ text ++ (if Text.trim text = "" then "" else "\n")

/-- The second pass over the instructions of a block, the first of which has number `count`. -/
def writeSites (sc : Scene) (f : Function) (place : Place) : Nat → List Site → Step String
  | _, [] => return ""
  | count, s :: rest => do
    let text ← writeSite sc f place count s
    return text ++ (← writeSites sc f place (count + 1) rest)

def writeBlocks (sc : Scene) (f : Function) (function : Nat) :
    Nat → Nat → List Block → Step String
  | _, _, [] => return ""
  | count, block, b :: rest => do
    modify fun d => { d with newInBlock := 0 }
    let text ← writeSites sc f ⟨function, block⟩ count b.sites
    return text ++ (← writeBlocks sc f function (count + b.sites.length) (block + 1) rest)

/-- Goes back to the start of the function, and forgets all values but no variable. -/
def rewind (ap fp : Int) : Step Unit :=
  modify fun d => { d with
    memory := { d.memory.forget with ap, fp }
    tabs := 1
    elseEnds := []
    openIfs := 0
    ifEnd := none
    firstPass := false }

def heading (sc : Scene) (f : Function) : Step String := do
  let p := sc.printer.palette
  let number ← line sc p.cyan ("// Function " ++ toString f.id)
  let prototype ← line sc p.blue (← Run.ofOutcome f.prototype)
  let brace ← line sc p.reset "\x7b"
  return number ++ "\n" ++ prototype ++ brace ++ "\n"

def scanBlocks (sc : Scene) (f : Function) (function : Nat) : Nat → List Block → Step Unit
  | _, [] => return ()
  | block, b :: rest => do
    scanBlock sc f ⟨function, block⟩ b
    scanBlocks sc f function (block + 1) rest

/-- One function. An imported function is only entered unless `imported` asks for its code. -/
def function (sc : Scene) (firstPassOnly imported : Bool) (index : Nat) (f : Function) :
    Step String := do
  modify fun d => { d with tabs := 0 }
  enter index f
  if f.isImport && !imported then return ""
  let ap := (← get).memory.ap
  let fp := (← get).memory.fp
  buildGraph sc index f
  let head ← heading sc f
  indent 1
  let blocks := (← get).blocksOf index
  scanBlocks sc f index 0 blocks
  if firstPassOnly then return head
  rewind ap fp
  let body ← writeBlocks sc f index 1 0 blocks
  return head ++ body ++ "\n"

def functions (sc : Scene) (firstPassOnly imported : Bool) :
    Nat → List Function → Step (List String)
  | _, [] => return []
  | index, f :: rest => do
    let text ← function sc firstPassOnly imported index f
    return text :: (← functions sc firstPassOnly imported (index + 1) rest)

def program (sc : Scene) (firstPassOnly imported : Bool) : Step String := do
  return Text.trim (String.join (← functions sc firstPassOnly imported 0 sc.functions))

end Cairoscope.Decompiler
