import Cairoscope.Text.LineEnd
import Cairoscope.Text.Split
import Cairoscope.Yaml.Scalar

/-! Reading YAML documents made of block mappings, block lists and values on one line. Nesting shows in
the indentation; a list may be indented like the key it belongs to. -/

namespace Cairoscope.Yaml

structure Line where
  indent : Nat
  /-- What follows the indentation. -/
  text : List Char

/-- The lines that are neither blank nor comments nor marks of a document. -/
def linesOf (text : String) : List Line :=
  (Text.pieces '\n' (Text.unifyLineEnds text.toList)).filterMap fun cs =>
    let body := dropSpaces cs
    match body with
    | [] => none
    | '#' :: _ => none
    | _ => if cs = "---".toList ∨ cs = "...".toList then none
      else some ⟨cs.length - body.length, body⟩

/-- The text after the dash of a list item, with the dash and blanks counted. -/
def listItem? (l : Line) : Option Line :=
  match l.text with
  | ['-'] => some ⟨l.indent + 1, []⟩
  | '-' :: c :: rest =>
    if isSpace c then
      let body := dropSpaces rest
      some ⟨l.indent + (l.text.length - body.length), body⟩
    else none
  | _ => none

/-- The value part after a colon; the colon ends the line or has a blank after it. -/
def afterColon? : List Char → Option (List Char)
  | [':'] => some []
  | ':' :: c :: rest => if isSpace c then some (dropSpaces rest) else none
  | _ => none

def plainKey? (acc : List Char) : List Char → Option (String × List Char)
  | [] => none
  | c :: rest =>
    match afterColon? (c :: rest) with
    | some value => some (String.ofList (dropLastSpaces acc.reverse), value)
    | none => if c = '#' && acc.head?.all isSpace then none else plainKey? (c :: acc) rest

def member? (l : Line) : Option (String × List Char) :=
  match quoted? l.text with
  | some (key, rest) => (afterColon? (dropSpaces rest)).map fun value => (key, value)
  | none => plainKey? [] l.text

def isEmptyValue : List Char → Bool
  | [] => true
  | c :: _ => c = '#'

/-- A plain value goes on over lines that are indented more than its key. -/
def folded (indent : Nat) (value : List Char) : List Line → List Char × List Line
  | [] => (value, [])
  | l :: rest =>
    if indent < l.indent then folded indent (value ++ [' '] ++ l.text) rest else (value, l :: rest)

/-- A block whose first line is given: a list, a mapping, or a scalar. -/
def block : Nat → List Line → Option (Json × List Line)
  | 0, _ => none
  | _, [] => some (.null, [])
  | fuel + 1, l :: rest =>
    match listItem? l with
    | some item => do
      let (value, rest) ← match item.text, rest with
        | [], next :: _ => if l.indent < next.indent then block fuel rest else some (.null, rest)
        | [], [] => some (.null, [])
        | _, _ => block fuel (item :: rest)
      match rest with
      | next :: _ =>
        if next.indent = l.indent && (listItem? next).isSome then do
          match ← block fuel rest with
          | (.arr items, rest) => return (.arr (value :: items), rest)
          | _ => none
        else return (.arr [value], rest)
      | [] => return (.arr [value], [])
    | none =>
      match member? l with
      | some (key, text) => do
        let (value, rest) ← if isEmptyValue text then
            match rest with
            | next :: _ =>
              if l.indent < next.indent || (l.indent = next.indent && (listItem? next).isSome) then
                block fuel rest
              else some (.null, rest)
            | [] => some (.null, [])
          else
            let (text, rest) := folded l.indent text rest
            (inlineValue text).map fun v => (v, rest)
        match rest with
        | next :: _ =>
          if next.indent = l.indent && (member? next).isSome && (listItem? next).isNone then do
            match ← block fuel rest with
            | (.obj members, rest) => return (.obj ((key, value) :: members), rest)
            | _ => none
          else return (.obj [(key, value)], rest)
        | [] => return (.obj [(key, value)], [])
      | none =>
        let (text, rest) := folded l.indent l.text rest
        (inlineValue text).map fun v => (v, rest)

/-- The value of a document. A key that is repeated keeps its first place and its last value. -/
def read? (text : String) : Option Json := do
  let (value, rest) ← block (text.length + 2) (linesOf text)
  match value, rest with
  | .obj members, [] => return .obj (assocOfPairs members)
  | v, [] => return v
  | _, _ => none

end Cairoscope.Yaml
