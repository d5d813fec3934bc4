import Cairoscope.Json.Basic
import Cairoscope.Text.Printable

/-! The short text of a value, as it stands in labels and listings: a text is shown as it is, and
inside a list or object it is quoted. -/

namespace Cairoscope.Json

def hexText (width n : Nat) : List Char :=
  let ds := Nat.toDigits 16 n
  List.replicate (width - ds.length) '0' ++ ds

/-- A character inside quotes. Characters that cannot be shown are given by number. -/
def shownChar (mark c : Char) : List Char :=
  if c = mark ∨ c = '\\' then ['\\', c]
  else if c = '\n' then ['\\', 'n']
  else if c = '\r' then ['\\', 'r']
  else if c = '\t' then ['\\', 't']
  else if Text.isPrintable c then [c]
  else if c.toNat < 0x100 then '\\' :: 'x' :: hexText 2 c.toNat
  else if c.toNat < 0x10000 then '\\' :: 'u' :: hexText 4 c.toNat
  else '\\' :: 'U' :: hexText 8 c.toNat

/-- Single quotes, or double ones around a text that has a single quote and no double one. -/
def quoteMark (cs : List Char) : Char :=
  if cs.contains '\x27' && !cs.contains '\x22' then '\x22' else '\x27'

def quoted (s : String) : String :=
  let mark := quoteMark s.toList
  String.ofList (mark :: s.toList.flatMap (shownChar mark) ++ [mark])

mutual

def inner : Json → String
  | null => "None"
  | bool b => if b then "True" else "False"
  | num n => toString n
  | real literal => literal
  | str s => quoted s
  | arr items => "[" ++ String.intercalate ", " (innerItems items) ++ "]"
  | obj members => "\x7b" ++ String.intercalate ", " (innerMembers members) ++ "\x7d"

def innerItems : List Json → List String
  | [] => []
  | v :: vs => inner v :: innerItems vs

def innerMembers : List (String × Json) → List String
  | [] => []
  | (k, v) :: ms => (quoted k ++ ": " ++ inner v) :: innerMembers ms

end

def display : Json → String
  | str s => s
  | v => inner v

end Cairoscope.Json
