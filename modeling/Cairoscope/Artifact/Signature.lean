import Cairoscope.Artifact.Basic
import Cairoscope.Json.Key
import Cairoscope.Text.Split

/-! Declared functions and their signatures. Arguments and return values are tables from member
offset to name and type, by increasing offset. -/

namespace Cairoscope.Artifact

structure Member where
  name : String
  type : Json
  deriving Inhabited

abbrev Layout := List (Key × Member)

structure Signature where
  implicit : Layout
  explicit : Layout
  returns : Layout
  decorators : Option Json
  entryPoint : Bool

/-- Members as they are met, each offset once. -/
def memberTable (members : Json) : Outcome Layout := do
  let names ← members.elements
  names.foldlM (fun acc name => do
    let m ← members.item name
    let key ← Key.ofJson (← m.field "offset")
    let type ← m.field "cairo_type"
    return assocSet key ⟨name.display, type⟩ acc) []

/-- The named values of a return type such as `(a : felt, b : felt)`, numbered from 0. Values
without a name are passed over. -/
def namedReturns (type : String) : List Member :=
  let parts := Text.split ',' (Text.without (fun c => c = '(' || c = ')') type)
  parts.filterMap fun part =>
    match Text.split ':' part with
    | name :: type :: _ =>
      some ⟨Text.without (· = ' ') name, .str (Text.without (· = ' ') type)⟩
    | _ => none

/-- Sets the members from offset `i` on. -/
def setFrom (i : Nat) : List Member → Layout → Layout
  | [], acc => acc
  | m :: ms, acc => setFrom (i + 1) ms (assocSet (.number i) m acc)

/-- The layout that the identifier `name` describes. Return values may also be given by a type. -/
def layoutOf (ids : Json.Members) (name : String) (isReturn : Bool) : Outcome Layout :=
  match ids.lookup name with
  | none => .ok []
  | some v => do
    let fromMembers ← if ← v.mentions "members" then memberTable (← v.field "members") else pure []
    let byType ← if isReturn then v.mentions "cairo_type" else pure false
    if byType then
      match ← v.field "cairo_type" with
      | .str type => Key.sorted (setFrom 0 (namedReturns type) fromMembers)
      | _ => throw .noSuchOperation
    else Key.sorted fromMembers

def entryOffsets (doc : Json) : Outcome (List String) := do
  let byType ← if ← doc.mentions "entry_points_by_type" then doc.field "entry_points_by_type"
    else pure .null
  if byType.isPresent then
    let lists ← (← byType.members).mapM fun m => do
      (← m.2.elements).mapM fun entry => do
        return Text.decimal (← (← entry.field "offset").hexNumber)
    return lists.flatten
  else return []

def decoratorsOf (ids : Json.Members) (name : String) : Outcome (Option Json) :=
  match ids.lookup name with
  | none => .ok none
  | some v => do
    if ← v.mentions "decorators" then return some (← v.field "decorators") else return none

def signatureOf (ids : Json.Members) (entries : List String) (offset name : String) :
    Outcome Signature := do
  let implicit ← layoutOf ids (name ++ ".ImplicitArgs") false
  let explicit ← layoutOf ids (name ++ ".Args") false
  let returns ← layoutOf ids (name ++ ".Return") true
  let decorators ← decoratorsOf ids name
  return {
    implicit, explicit, returns, decorators
    entryPoint := entries.contains offset || name == "__main__.main" }

/-- The functions of an artifact: names by start offset, and signatures by name. -/
structure Declarations where
  starts : List (String × String)
  signatures : List (String × Signature)

/-- The offset of each function, as text. Of two functions at one offset the last is kept. -/
def functionStarts (ids : Json.Members) : Outcome (List (String × String)) :=
  ids.foldlM (fun acc m => do
    if (← m.2.field "type").isText "function" then
      return assocSet (← m.2.field "pc").display m.1 acc
    else return acc) []

def declarations (k : Kind) (doc : Json) : Outcome Declarations :=
  match k with
  | .code => .ok ⟨[("0", "unknown_function")], []⟩
  | _ => do
    let idsTable ← table doc "identifiers"
    let entryTable := entryOffsets doc
    let ids ← idsTable.members
    let starts ← functionStarts ids
    let entries ← entryTable
    let signatures ← starts.mapM fun s => do return (s.2, ← signatureOf ids entries s.1 s.2)
    return ⟨starts, signatures⟩

end Cairoscope.Artifact
