import Cairoscope.Json.Basic

/-! Writing JSON text in ASCII: on one line, or with one member or item a line. -/

namespace Cairoscope.Json

def hexDigit (n : Nat) : Char := Nat.digitChar (n % 16)

def unitEscape (n : Nat) : List Char :=
  ['\\', 'u', hexDigit (n / 4096), hexDigit (n / 256), hexDigit (n / 16), hexDigit n]

/-- Characters other than printable ASCII are written as one or two UTF-16 units. -/
def escapeChar (c : Char) : List Char :=
  if c = '\x22' then ['\\', '\x22']
  else if c = '\\' then ['\\', '\\']
  else if c = '\n' then ['\\', 'n']
  else if c = '\r' then ['\\', 'r']
  else if c = '\t' then ['\\', 't']
  else if c = '\x0c' then ['\\', 'f']
  else if c = '\x08' then ['\\', 'b']
  else if 32 ≤ c.toNat ∧ c.toNat < 127 then [c]
  else if c.toNat < 0x10000 then unitEscape c.toNat
  else unitEscape (0xd800 + (c.toNat - 0x10000) / 0x400) ++ unitEscape (0xdc00 + c.toNat % 0x400)

def quote (s : String) : String :=
  "\x22" ++ String.ofList (s.toList.flatMap escapeChar) ++ "\x22"

def scalarText : Json → String
  | null => "null"
  | bool b => if b then "true" else "false"
  | num n => toString n
  | real literal => literal
  | str s => quote s
  | _ => ""

/-- How values are laid out: on one line, or indented by `step` for each level. -/
inductive Layout
  | line
  | indented (step : Nat)

namespace Layout

/-- What stands before an item at this depth, and before the closing bracket of its list. -/
def lineBreak (depth : Nat) : Layout → String
  | line => ""
  | indented step => "\n" ++ String.ofList (List.replicate (step * depth) ' ')

def comma : Layout → String
  | line => ", "
  | indented _ => ","

end Layout

/-- Texts between brackets, each on a line of its own where the layout has lines. -/
def Layout.enclose (layout : Layout) (depth : Nat) (opening closing : String) :
    List String → String
  | [] => opening ++ closing
  | texts =>
    opening ++ layout.lineBreak (depth + 1) ++
      String.intercalate (layout.comma ++ layout.lineBreak (depth + 1)) texts ++
      layout.lineBreak depth ++ closing

mutual

def write (layout : Layout) (depth : Nat) : Json → String
  | arr items => layout.enclose depth "[" "]" (itemTexts layout (depth + 1) items)
  | obj members => layout.enclose depth "\x7b" "\x7d" (memberTexts layout (depth + 1) members)
  | scalar => scalarText scalar

def itemTexts (layout : Layout) (depth : Nat) : List Json → List String
  | [] => []
  | v :: vs => write layout depth v :: itemTexts layout depth vs

def memberTexts (layout : Layout) (depth : Nat) : List (String × Json) → List String
  | [] => []
  | (k, v) :: ms => (quote k ++ ": " ++ write layout depth v) :: memberTexts layout depth ms

end

def oneLine (v : Json) : String := write .line 0 v

def indented (step : Nat) (v : Json) : String := write (.indented step) 0 v

end Cairoscope.Json
