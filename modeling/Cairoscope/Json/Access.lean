import Cairoscope.Fault
import Cairoscope.Json.Basic
import Cairoscope.Text.Numeral

/-! Looking into a document of unknown shape. Each function says with a fault why a value does not
have what is asked of it. -/

namespace Cairoscope.Json

def field (v : Json) (name : String) : Outcome Json :=
  match v with
  | obj members => match members.lookup name with
    | some w => .ok w
    | none => .error (.missingField name)
  | _ => .error .wrongKind

/-- Whether `part` occurs in `whole`, one character after the other. -/
def isInfix (part : List Char) : List Char → Bool
  | [] => part.isEmpty
  | c :: rest => part.isPrefixOf (c :: rest) || isInfix part rest

/-- Whether an object has the member, a list the text as an item, a text the text inside it. -/
def mentions (v : Json) (name : String) : Outcome Bool :=
  match v with
  | obj members => .ok (members.any fun m => m.1 == name)
  | arr items => .ok (items.any (isText name))
  | str s => .ok (isInfix name.toList s.toList)
  | _ => .error .wrongKind

/-- What a walk through the value meets: items, names of members, characters. -/
def elements : Json → Outcome (List Json)
  | arr items => .ok items
  | obj members => .ok (members.map fun m => str m.1)
  | str s => .ok (s.toList.map fun c => str c.toString)
  | _ => .error .wrongKind

def members : Json → Outcome Members
  | obj ms => .ok ms
  | _ => .error .noSuchOperation

def size (v : Json) : Outcome Nat := (elements v).map List.length

def text : Json → Outcome String
  | str s => .ok s
  | _ => .error .wrongKind

def hexNumber : Json → Outcome Int
  | str s => match Text.readInt? 16 s with
    | some n => .ok n
    | none => .error .badNumber
  | _ => .error .wrongKind

/-- The item of a list at a position that counts from the end when it is negative. -/
def listItem (items : List Json) (i : Int) : Outcome Json :=
  let position := if i < 0 then i + items.length else i
  if position < 0 then .error .outOfRange
  else match items[position.toNat]? with
    | some v => .ok v
    | none => .error .outOfRange

/-- Looks `key` up in a list by position or in an object by name. -/
def item (v key : Json) : Outcome Json :=
  match v, key with
  | arr items, num i => listItem items i
  | arr items, bool b => listItem items (if b then 1 else 0)
  | obj _, str name => field v name
  | _, _ => .error .wrongKind

end Cairoscope.Json
