import Cairoscope.Json.Basic

/-! Reading JSON text. Blanks are space, tab and line ends; control characters may not stand in a
string; `NaN`, `Infinity` and `-Infinity` are read as numbers. -/

namespace Cairoscope.Json

def isSpace (c : Char) : Bool := c = ' ' || c = '\t' || c = '\n' || c = '\r'

def skipSpace (cs : List Char) : List Char := cs.dropWhile isSpace

def hexValue? (c : Char) : Option Nat :=
  if '0' ≤ c ∧ c ≤ '9' then some (c.toNat - 48)
  else if 'a' ≤ c ∧ c ≤ 'f' then some (c.toNat - 87)
  else if 'A' ≤ c ∧ c ≤ 'F' then some (c.toNat - 55)
  else none

def fourHex? : List Char → Option (Nat × List Char)
  | a :: b :: c :: d :: rest => do
    let a ← hexValue? a
    let b ← hexValue? b
    let c ← hexValue? c
    let d ← hexValue? d
    return (((a * 16 + b) * 16 + c) * 16 + d, rest)
  | _ => none

/-- The character of a unit, joined with the low half that follows a high one. A half that stands
alone reads as the replacement character. -/
def unitChar (unit : Nat) (rest : List Char) : Char × List Char :=
  if 0xd800 ≤ unit ∧ unit < 0xdc00 then
    match rest with
    | '\\' :: 'u' :: low =>
      match fourHex? low with
      | some (second, rest') =>
        if 0xdc00 ≤ second ∧ second < 0xe000 then
          (Char.ofNat (0x10000 + (unit - 0xd800) * 0x400 + (second - 0xdc00)), rest')
        else (Char.ofNat 0xfffd, rest)
      | none => (Char.ofNat 0xfffd, rest)
    | _ => (Char.ofNat 0xfffd, rest)
  else if 0xdc00 ≤ unit ∧ unit < 0xe000 then (Char.ofNat 0xfffd, rest)
  else (Char.ofNat unit, rest)

def escaped? : Char → Option Char
  | '\x22' => some '\x22'
  | '\\' => some '\\'
  | '/' => some '/'
  | 'b' => some '\x08'
  | 'f' => some '\x0c'
  | 'n' => some '\n'
  | 'r' => some '\r'
  | 't' => some '\t'
  | _ => none

/-- The rest of a string after its opening quote, as far as its closing one. -/
def stringBody (acc : List Char) : List Char → Nat → Option (String × List Char)
  | _, 0 => none
  | [], _ => none
  | '\x22' :: rest, _ => some (String.ofList acc.reverse, rest)
  | '\\' :: 'u' :: rest, fuel + 1 => do
    let (unit, rest) ← fourHex? rest
    let (c, rest) := unitChar unit rest
    stringBody (c :: acc) rest fuel
  | '\\' :: c :: rest, fuel + 1 => do
    let c ← escaped? c
    stringBody (c :: acc) rest fuel
  | c :: rest, fuel + 1 =>
    if c.toNat < 32 then none else stringBody (c :: acc) rest fuel

def takeDigits (cs : List Char) : List Char × List Char :=
  (cs.takeWhile Char.isDigit, cs.dropWhile Char.isDigit)

def natOfDigits (ds : List Char) : Nat := ds.foldl (fun n c => n * 10 + (c.toNat - 48)) 0

def fractionPart (cs : List Char) : List Char × List Char :=
  match cs with
  | '.' :: rest =>
    let (ds, rest') := takeDigits rest
    if ds.isEmpty then ([], cs) else ('.' :: ds, rest')
  | _ => ([], cs)

def exponentPart (cs : List Char) : List Char × List Char :=
  match cs with
  | e :: rest =>
    if e = 'e' ∨ e = 'E' then
      let (sign, body) := match rest with
        | '+' :: r => (['+'], r)
        | '-' :: r => (['-'], r)
        | r => ([], r)
      let (ds, rest') := takeDigits body
      if ds.isEmpty then ([], cs) else (e :: sign ++ ds, rest')
    else ([], cs)
  | [] => ([], cs)

def unsignedNumber? (negative : Bool) (cs : List Char) : Option (Json × List Char) :=
  let (ds, rest) := match cs with
    | '0' :: rest => (['0'], rest)
    | _ => takeDigits cs
  if ds.isEmpty then none
  else
    let (fraction, rest) := fractionPart rest
    let (exponent, rest) := exponentPart rest
    if fraction.isEmpty && exponent.isEmpty then
      let n : Int := natOfDigits ds
      some (num (if negative then -n else n), rest)
    else
      let sign := if negative then ['-'] else []
      some (real (String.ofList (sign ++ ds ++ fraction ++ exponent)), rest)

def word? : List Char → Option (Json × List Char)
  | 'n' :: 'u' :: 'l' :: 'l' :: rest => some (null, rest)
  | 't' :: 'r' :: 'u' :: 'e' :: rest => some (bool true, rest)
  | 'f' :: 'a' :: 'l' :: 's' :: 'e' :: rest => some (bool false, rest)
  | 'N' :: 'a' :: 'N' :: rest => some (real "NaN", rest)
  | 'I' :: 'n' :: 'f' :: 'i' :: 'n' :: 'i' :: 't' :: 'y' :: rest => some (real "Infinity", rest)
  | '-' :: 'I' :: 'n' :: 'f' :: 'i' :: 'n' :: 'i' :: 't' :: 'y' :: rest =>
    some (real "-Infinity", rest)
  | _ => none

mutual

def value? : List Char → Nat → Option (Json × List Char)
  | _, 0 => none
  | '\x22' :: rest, fuel + 1 => do
    let (s, rest) ← stringBody [] rest fuel
    return (str s, rest)
  | '[' :: rest, fuel + 1 =>
    match skipSpace rest with
    | ']' :: rest => some (arr [], rest)
    | rest => do
      let (items, rest) ← items? rest fuel
      return (arr items, rest)
  | '\x7b' :: rest, fuel + 1 =>
    match skipSpace rest with
    | '\x7d' :: rest => some (obj [], rest)
    | rest => do
      let (members, rest) ← members? rest fuel
      return (obj (assocOfPairs members), rest)
  | cs, _ + 1 =>
    match word? cs with
    | some r => some r
    | none => match cs with
      | '-' :: rest => unsignedNumber? true rest
      | _ => unsignedNumber? false cs

/-- Values divided by commas, as far as the closing bracket. -/
def items? : List Char → Nat → Option (List Json × List Char)
  | _, 0 => none
  | cs, fuel + 1 => do
    let (v, rest) ← value? cs fuel
    match skipSpace rest with
    | ',' :: rest =>
      let (vs, rest) ← items? (skipSpace rest) fuel
      return (v :: vs, rest)
    | ']' :: rest => return ([v], rest)
    | _ => none

/-- Members divided by commas, as far as the closing brace. -/
def members? : List Char → Nat → Option (List (String × Json) × List Char)
  | '\x22' :: rest, fuel + 1 => do
    let (k, rest) ← stringBody [] rest fuel
    match skipSpace rest with
    | ':' :: rest =>
      let (v, rest) ← value? (skipSpace rest) fuel
      match skipSpace rest with
      | ',' :: rest =>
        let (ms, rest) ← members? (skipSpace rest) fuel
        return ((k, v) :: ms, rest)
      | '\x7d' :: rest => return ([(k, v)], rest)
      | _ => none
    | _ => none
  | _, _ => none

end

def parse? (s : String) : Option Json :=
  let cs := s.toList
  match value? (skipSpace cs) (2 * cs.length + 2) with
  | some (v, rest) => if (skipSpace rest).isEmpty then some v else none
  | none => none

end Cairoscope.Json
