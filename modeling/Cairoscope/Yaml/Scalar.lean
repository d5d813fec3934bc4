import Cairoscope.Json.Reader

/-! Scalars of YAML: plain ones, which may stand for a number, a truth value or nothing, and quoted
ones, which are text. -/

namespace Cairoscope.Yaml

def isSpace (c : Char) : Bool := c = ' ' || c = '\t'

def dropSpaces (cs : List Char) : List Char := cs.dropWhile isSpace

def dropLastSpaces (cs : List Char) : List Char := (cs.reverse.dropWhile isSpace).reverse

/-- Digits of a base with underscores, which do not count. The first character has to be a digit. -/
def digits? (base : Nat) (cs : List Char) : Option Nat :=
  match cs with
  | [] => none
  | _ => cs.foldl (fun acc c => do
      let n ← acc
      if c = '_' then return n
      let d ← Json.hexValue? c
      if d < base then return n * base + d else none) (some 0)

/-- One or two digits below sixty. -/
def sixtieth? (cs : List Char) : Option Nat := do
  let n ← digits? 10 cs
  if cs.length ≤ 2 ∧ '_' ∉ cs ∧ n < 60 then return n else none

/-- Groups of digits between colons, each worth sixty of the next. -/
def sixties? (cs : List Char) : Option Nat :=
  match cs.splitOn ':' with
  | first :: rest => rest.foldl (fun acc part => do
      return (← acc) * 60 + (← sixtieth? part)) (digits? 10 first)
  | [] => none

def unsigned? : List Char → Option Nat
  | '0' :: 'b' :: rest => digits? 2 rest
  | '0' :: 'x' :: rest => digits? 16 rest
  | ['0'] => some 0
  | '0' :: rest => digits? 8 rest
  | '_' :: _ => none
  | cs => if cs.contains ':' then sixties? cs else digits? 10 cs

def integer? : List Char → Option Int
  | '-' :: rest => (unsigned? rest).map fun n => -(n : Int)
  | '+' :: rest => (unsigned? rest).map fun n => (n : Int)
  | cs => (unsigned? cs).map fun n => (n : Int)

def isFigure (c : Char) : Bool := decide ('0' ≤ c) && decide (c ≤ '9')

/-- Digits, a point and digits. -/
def isDecimal (cs : List Char) : Bool :=
  let body := match cs with
    | '-' :: rest => rest
    | cs => cs
  match body.dropWhile isFigure with
  | '.' :: rest => !(body.takeWhile isFigure).isEmpty && !rest.isEmpty && rest.all isFigure
  | _ => false

def nothings : List String := ["", "~", "null", "Null", "NULL"]

def truths : List String := ["yes", "Yes", "YES", "true", "True", "TRUE", "on", "On", "ON"]

def falsehoods : List String := ["no", "No", "NO", "false", "False", "FALSE", "off", "Off", "OFF"]

def plainValue (cs : List Char) : Json :=
  let text := String.ofList cs
  if nothings.contains text then .null
  else if truths.contains text then .bool true
  else if falsehoods.contains text then .bool false
  else match integer? cs with
    | some n => .num n
    | none => if isDecimal cs then .real text else .str text

/-- The rest of a text in single quotes; a quote inside is written twice. -/
def singleQuoted (acc : List Char) : List Char → Option (String × List Char)
  | [] => none
  | '\'' :: '\'' :: rest => singleQuoted ('\'' :: acc) rest
  | c :: rest =>
    if c = '\'' then some (String.ofList acc.reverse, rest) else singleQuoted (c :: acc) rest

def escape? : Char → Option Char
  | '0' => some '\x00'
  | 'a' => some '\x07'
  | 'b' => some '\x08'
  | 't' => some '\t'
  | '\t' => some '\t'
  | 'n' => some '\n'
  | 'v' => some '\x0b'
  | 'f' => some '\x0c'
  | 'r' => some '\r'
  | 'e' => some '\x1b'
  | ' ' => some ' '
  | '\x22' => some '\x22'
  | '/' => some '/'
  | '\\' => some '\\'
  | 'N' => some '\u0085'
  | '_' => some '\u00a0'
  | 'L' => some '\u2028'
  | 'P' => some '\u2029'
  | _ => none

/-- How many hexadecimal digits follow an escape. -/
def escapeWidth? : Char → Option Nat
  | 'x' => some 2
  | 'u' => some 4
  | 'U' => some 8
  | _ => none

/-- The rest of a text in double quotes. `fuel` counts characters. -/
def doubleQuoted (acc : List Char) : List Char → Nat → Option (String × List Char)
  | _, 0 => none
  | [], _ => none
  | '\x22' :: rest, _ => some (String.ofList acc.reverse, rest)
  | '\\' :: c :: rest, fuel + 1 =>
    match escapeWidth? c with
    | some width => do
      let n ← digits? 16 (rest.take width)
      doubleQuoted (Char.ofNat n :: acc) (rest.drop width) fuel
    | none => do doubleQuoted ((← escape? c) :: acc) rest fuel
  | c :: rest, fuel + 1 => doubleQuoted (c :: acc) rest fuel

def quoted? : List Char → Option (String × List Char)
  | '\'' :: rest => singleQuoted [] rest
  | '\x22' :: rest => doubleQuoted [] rest (rest.length + 1)
  | _ => none

def plain (marks : List Char) (acc : List Char) : List Char → List Char × List Char
  | [] => (dropLastSpaces acc.reverse, [])
  | c :: rest =>
    if marks.contains c then (dropLastSpaces acc.reverse, c :: rest)
    else if c = '#' && acc.head?.all isSpace then (dropLastSpaces acc.reverse, [])
    else plain marks (c :: acc) rest

def flowItems : Nat → List Char → Option (List Json × List Char)
  | 0, _ => none
  | fuel + 1, cs =>
    match dropSpaces cs with
    | ']' :: rest => some ([], rest)
    | cs => do
      let (item, rest) ← match cs with
        | '[' :: rest => (flowItems fuel rest).map fun (items, rest) => (Json.arr items, rest)
        | cs => match quoted? cs with
          | some (s, rest) => some (Json.str s, rest)
          | none =>
            let (text, rest) := plain [',', ']'] [] cs
            some (plainValue text, rest)
      match dropSpaces rest with
      | ',' :: rest => do
        let (items, rest) ← flowItems fuel rest
        return (item :: items, rest)
      | ']' :: rest => return ([item], rest)
      | _ => none

def inlineValue (cs : List Char) : Option Json :=
  match cs with
  | '[' :: rest => (flowItems (cs.length + 1) rest).map fun p => .arr p.1
  | _ => match quoted? cs with
    | some (s, _) => some (.str s)
    | none => some (plainValue (plain [] [] cs).1)

end Cairoscope.Yaml
