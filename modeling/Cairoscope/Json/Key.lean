import Cairoscope.Json.Access
import Cairoscope.Json.Display

/-! Values that can name an entry of a table: texts, numbers, truth values and null. A truth value
names the same entry as 0 or 1. -/

namespace Cairoscope

inductive Key
  | text (s : String)
  | number (n : Int)
  | flag (b : Bool)
  | nothing
  deriving DecidableEq, Repr

namespace Key

def ofJson : Json → Outcome Key
  | .str s => .ok (text s)
  | .num n => .ok (number n)
  | .bool b => .ok (flag b)
  | .null => .ok nothing
  | _ => .error .wrongKind

def toJson : Key → Json
  | text s => .str s
  | number n => .num n
  | flag b => .bool b
  | nothing => .null

def entry : Key → Key
  | flag b => number (if b then 1 else 0)
  | k => k

instance : BEq Key := ⟨fun a b => decide (a.entry = b.entry)⟩

def display (k : Key) : String := k.toJson.display

def memberName : Key → String
  | text s => s
  | number n => toString n
  | flag b => if b then "true" else "false"
  | nothing => "null"

/-- Numbers are ordered among themselves, and so are texts. -/
def le? (a b : Key) : Option Bool :=
  match a.entry, b.entry with
  | text s, text t => some (decide (s ≤ t))
  | number m, number n => some (decide (m ≤ n))
  | _, _ => none

/-- An integer, given as one or written in base 10. -/
def toInt : Key → Outcome Int
  | text s => match Text.readInt? 10 s with
    | some n => .ok n
    | none => .error .badNumber
  | number n => .ok n
  | flag b => .ok (if b then 1 else 0)
  | nothing => .error .wrongKind

/-- Table entries by increasing key. Fails when two keys cannot be compared. -/
def sorted {α : Type} (entries : List (Key × α)) : Outcome (List (Key × α)) :=
  if entries.length ≤ 1 then .ok entries
  else if entries.all fun p => entries.all fun q => (le? p.1 q.1).isSome then
    .ok (entries.mergeSort fun p q => (le? p.1 q.1).getD false)
  else .error .wrongKind

end Key

end Cairoscope
