import Cairoscope.Field
import Cairoscope.Json.Access

/-! Artifacts: the documents that compilers and networks give out for a contract. There are three
kinds, which keep code, identifiers and modulus in different places. -/

namespace Cairoscope.Artifact

inductive Kind
  /-- A compiled program. -/
  | cairo
  /-- A compiled contract, with its program inside. -/
  | starknet
  /-- Deployed code without identifiers. -/
  | code
  deriving DecidableEq, Repr

namespace Kind

def name : Kind → String
  | cairo => "cairo"
  | starknet => "starknet"
  | code => "get_code"

def ofName? (s : String) : Option Kind :=
  [cairo, starknet, code].find? fun k => k.name == s

end Kind

/-- The kind of a document: it is told by which of three names the document mentions first. -/
def kind (doc : Json) : Outcome Kind := do
  if ← doc.mentions "data" then return .cairo
  else if ← doc.mentions "program" then return .starknet
  else if ← doc.mentions "bytecode" then return .code
  else throw .unknownArtifact

def bytecode (k : Kind) (doc : Json) : Outcome (List Int) := do
  let words ← match k with
    | .cairo => doc.field "data"
    | .starknet => do (← doc.field "program").field "data"
    | .code => doc.field "bytecode"
  (← words.elements).mapM Json.hexNumber

def prime (k : Kind) (doc : Json) : Outcome Int :=
  match k with
  | .cairo => do (← doc.field "prime").hexNumber
  | .starknet => do (← (← doc.field "program").field "prime").hexNumber
  | .code => .ok Field.defaultPrime

def builtins (k : Kind) (doc : Json) : Outcome Json :=
  match k with
  | .cairo => doc.field "builtins"
  | .starknet => do (← doc.field "program").field "builtins"
  | .code => .ok (.arr [])

/-- A table that stands in the document itself, or else in its program. -/
def table (doc : Json) (name : String) : Outcome Json := do
  if ← doc.mentions name then doc.field name
  else (← doc.field "program").field name

/-- The identifiers with their descriptions, in document order. -/
def identifiers (doc : Json) : Outcome Json.Members := do
  (← table doc "identifiers").members

end Cairoscope.Artifact
