import Cairoscope.Artifact.Signature
import Cairoscope.Instruction.Decode

/-! The listing of an artifact: its code swept from the first word to the last, and cut at the
offsets where functions start. -/

namespace Cairoscope.Artifact

/-- An instruction at its place in the code. -/
structure Placed where
  offset : Nat
  word : Int
  instruction : Instruction
  /-- The function that starts here. -/
  opens : Option String
  deriving Repr

/-- Decodes the words from `offset` on. Code before the first function belongs to none, which is a
fault. -/
def sweepFrom (startAt : Nat → Option String) (inside : Bool) (offset : Nat) :
    List Int → Nat → Outcome (List Placed)
  | [], _ => .ok []
  | _ :: _, 0 => .ok []
  | word :: rest, fuel + 1 => do
    let opens := startAt offset
    let (instruction, rest) ← Instruction.decodeNext word rest
    if !inside && opens.isNone then throw (.missingField "")
    let more ← sweepFrom startAt true (offset + instruction.size) rest fuel
    return ⟨offset, word, instruction, opens⟩ :: more

def sweep (startAt : Nat → Option String) (words : List Int) : Outcome (List Placed) :=
  sweepFrom startAt false 0 words words.length

structure Group where
  name : String
  signature : Option Signature
  code : List Placed

/-- Adds an instruction to the last group, or opens the next one with it. -/
def placeIn (signatures : List (String × Signature)) (groups : List Group) (p : Placed) :
    List Group :=
  match p.opens with
  | some name => groups ++ [⟨name, signatures.lookup name, [p]⟩]
  | none => match groups.getLast? with
    | some g => groups.dropLast ++ [{ g with code := g.code ++ [p] }]
    | none => []

def groupsOf (signatures : List (String × Signature)) (code : List Placed) : List Group :=
  code.foldl (placeIn signatures) []

def listing (k : Kind) (doc : Json) : Outcome (List Group) := do
  let words ← bytecode k doc
  let decls ← declarations k doc
  let code ← sweep (fun offset => decls.starts.lookup (toString offset)) words
  return groupsOf decls.signatures code

/-- A layout as a document. `keyText` gives the names of the entries. -/
def layoutDocument (keyText : Key → String) (layout : Layout) : Json :=
  .obj (layout.map fun e => (keyText e.1, .obj [(e.2.name, e.2.type)]))

def signatureDocument (keyText : Key → String) (s : Signature) : Json :=
  .obj ([("implicitargs", layoutDocument keyText s.implicit),
      ("args", layoutDocument keyText s.explicit),
      ("return", layoutDocument keyText s.returns)] ++
    (match s.decorators with
      | some d => [("decorators", d)]
      | none => []) ++
    [("entry_point", .bool s.entryPoint)])

def placedDocument (p : Placed) : Json :=
  .obj [(Text.hexadecimal p.word, .obj (p.instruction.fields.map fun f => (f.1, .str f.2)))]

def groupDocument (keyText : Key → String) (g : Group) : Json :=
  .obj [("data", match g.signature with
      | some s => signatureDocument keyText s
      | none => .obj []),
    ("instruction", .obj (g.code.map fun p => (toString p.offset, placedDocument p)))]

def listingDocument (keyText : Key → String) (groups : List Group) : Json :=
  .obj (groups.map fun g => (g.name, groupDocument keyText g))

end Cairoscope.Artifact
