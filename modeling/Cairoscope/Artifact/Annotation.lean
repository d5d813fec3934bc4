import Cairoscope.Artifact.Signature

/-! What an artifact says about its code beside the functions: structures, events, hints,
references and labels. -/

namespace Cairoscope.Artifact

/-- A list sorted by its texts, by code point. -/
def sortByText {α : Type} (entries : List (String × α)) : List (String × α) :=
  entries.mergeSort fun p q => decide (p.1 ≤ q.1)

def structs (k : Kind) (doc : Json) : Outcome (List (String × Layout)) :=
  match k with
  | .code => .ok []
  | _ => do
    (← identifiers doc).foldlM (fun acc m => do
      if (← m.2.field "type").isText "struct" then
        let layout ← Key.sorted (← memberTable (← m.2.field "members"))
        return assocSet m.1 layout acc
      else return acc) []

/-- The data of each event by its name. Only contracts have events. -/
def events (k : Kind) (doc : Json) : Outcome (List (Key × Json)) :=
  match k with
  | .starknet => do
    (← (← doc.field "abi").elements).foldlM (fun acc entry => do
      if (← entry.field "type").isText "event" then
        let data ← entry.field "data"
        let name ← Key.ofJson (← entry.field "name")
        return assocSet name data acc
      else return acc) []
  | _ => .ok []

/-- The code of the hint at each offset. Of several hints at one offset the last is kept. -/
def hints (k : Kind) (doc : Json) : Outcome (List (String × Json)) :=
  match k with
  | .code => .ok []
  | _ => do
    let found ← (← (← table doc "hints").members).foldlM (fun acc m => do
      (← m.2.elements).foldlM (fun acc hint => do
        if ← hint.mentions "code" then return assocSet m.1 (← hint.field "code") acc
        else return acc) acc) []
    return sortByText found

/-- The value of the reference at each offset, as text. -/
def references (k : Kind) (doc : Json) : Outcome (List (String × String)) :=
  match k with
  | .code => .ok []
  | _ => do
    let found ← (← identifiers doc).foldlM (fun acc m => do
      if (← m.2.field "type").isText "reference" then
        (← (← m.2.field "references").elements).foldlM (fun acc r => do
          let value ← r.field "value"
          let pc ← r.field "pc"
          return assocSet pc.display value.display acc) acc
      else return acc) []
    return sortByText found

/-- The label at each offset, without the path in front of its name. -/
def labels (k : Kind) (doc : Json) : Outcome (List (String × String)) :=
  match k with
  | .code => .ok []
  | _ => do
    let found ← (← identifiers doc).foldlM (fun acc m => do
      if (← m.2.field "type").isText "label" then
        return assocSet (← m.2.field "pc").display (Text.lastPart '.' m.1) acc
      else return acc) []
    return sortByText found

end Cairoscope.Artifact
