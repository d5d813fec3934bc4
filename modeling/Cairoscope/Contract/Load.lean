import Cairoscope.Contract.Basic
import Cairoscope.Json.Reader

/-! Loading a contract from its artifact. -/

namespace Cairoscope.Contract

open Artifact (Placed Group Signature)

def callTarget (prime : Int) (p : Placed) : Outcome Int :=
  if p.instruction.isDirectCall then do
    return p.offset + (← Field.small (p.instruction.imm.getD 0) prime)
  else .ok 0

def siteOf (prime : Int) (references : List (String × String)) (hints : List (String × Json))
    (p : Placed) : Outcome Site := do
  let target ← callTarget prime p
  return {
    offset := p.offset
    instruction := p.instruction
    callTarget := target
    callee := none
    reference := references.lookup (toString p.offset)
    hint := match hints.lookup (toString p.offset) with
      | some .null => none
      | h => h }

def functionOf (prime : Int) (references : List (String × String)) (hints : List (String × Json))
    (id : Nat) (g : Group) : Outcome Function := do
  let sites ← g.code.mapM (siteOf prime references hints)
  let offsets := g.code.map (·.offset)
  return {
    name := g.name
    id := id
    start := offsets.headD 0
    stop := offsets.getLastD 0
    sites := sites
    implicit := (g.signature.map (·.implicit)).getD []
    explicit := (g.signature.map (·.explicit)).getD []
    returns := (g.signature.map (·.returns)).getD []
    decorators := (g.signature.bind (·.decorators)).getD (.obj [])
    isImport := !g.name.toList.take 2 == ['_', '_']
    entryPoint := (g.signature.map (·.entryPoint)).getD true }

def functionsOf (prime : Int) (references : List (String × String)) (hints : List (String × Json)) :
    Nat → List Group → Outcome (List Function)
  | _, [] => .ok []
  | id, g :: gs => do
    let f ← functionOf prime references hints id g
    return f :: (← functionsOf prime references hints (id + 1) gs)

/-- Names the function that each direct call reaches. -/
def resolveCalls (functions : List Function) : List Function :=
  functions.map fun f => { f with
    sites := f.sites.map fun s =>
      if s.instruction.isDirectCall then
        { s with callee := (functions.find? fun g => (g.start : Int) == s.callTarget).map (·.name) }
      else s }

/-- Reads an artifact. The parts are read in a fixed order, and the first fault counts. -/
def ofArtifact (doc : Json) : Outcome Contract := do
  match doc with
  | .null => throw .emptyDocument
  | .str "" => throw .emptyDocument
  | _ => pure ()
  let k ← Artifact.kind doc
  let groups ← Artifact.listing k doc
  let builtins ← Artifact.builtins k doc
  let structs ← Artifact.structs k doc
  let events ← Artifact.events k doc
  let references ← Artifact.references k doc
  let hints ← Artifact.hints k doc
  let prime ← Artifact.prime k doc
  let labels ← Artifact.labels k doc
  let functions ← functionsOf prime references hints 0 groups
  return {
    prime, builtins, structs, events, references, hints, labels
    functions := resolveCalls functions
    groups }

def ofText (text : String) : Outcome Contract :=
  match Json.parse? text with
  | some doc => ofArtifact doc
  | none => .error .notJson

end Cairoscope.Contract
