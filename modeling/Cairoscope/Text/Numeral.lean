import Cairoscope.Text.Blank
import Cairoscope.Text.Digit

/-! Integers as text: decimal and `0x` hexadecimal writing, and reading in base 10 or 16 with
digits of any script, a sign, blanks around and single underscores between digits. -/

namespace Cairoscope.Text

def decimal (n : Int) : String := toString n

def hexDigits (n : Nat) : List Char := Nat.toDigits 16 n

/-- Hexadecimal with the sign in front of `0x`. -/
def hexadecimal (n : Int) : String :=
  (if n < 0 then "-0x" else "0x") ++ String.ofList (hexDigits n.natAbs)

/-- Decimal with the sign always written, and nothing for zero. -/
def signedOffset (n : Int) : String :=
  if n = 0 then "" else if n < 0 then decimal n else "+" ++ decimal n

/-- A blank of any script as a space, and a digit of any script as a Latin one. The separators
U+001C to U+001F stay: they may not stand around a number. -/
def plainForm (c : Char) : Char :=
  if c.toNat < 127 then c
  else if isBlank c then ' '
  else match digitValue? c with
    | some d => Nat.digitChar d
    | none => c

/-- The value of a Latin digit; letters count from ten. -/
def digitIn? (base : Nat) (c : Char) : Option Nat :=
  let v :=
    if 'a' ≤ c ∧ c ≤ 'f' then some (c.toNat - 'a'.toNat + 10)
    else if 'A' ≤ c ∧ c ≤ 'F' then some (c.toNat - 'A'.toNat + 10)
    else if '0' ≤ c ∧ c ≤ '9' then some (c.toNat - '0'.toNat)
    else none
  v.filter (· < base)

def isNumberBlank (c : Char) : Bool :=
  c = ' ' || (decide (9 ≤ c.toNat) && decide (c.toNat ≤ 13))

/-- Digits with single underscores between them. `value` is what has been read, and `fresh` says
that a digit has to follow. -/
def digitsFrom (base value : Nat) (fresh : Bool) : List Char → Option Nat
  | [] => if fresh then none else some value
  | c :: rest =>
    if c = '_' then if fresh then none else digitsFrom base value true rest
    else match digitIn? base c with
      | some d => digitsFrom base (value * base + d) false rest
      | none => none

/-- Drops the mark of base 16, with one underscore after it. -/
def dropBaseMark : List Char → List Char
  | '0' :: 'x' :: '_' :: rest => rest
  | '0' :: 'X' :: '_' :: rest => rest
  | '0' :: 'x' :: rest => rest
  | '0' :: 'X' :: rest => rest
  | cs => cs

def splitSign : List Char → Bool × List Char
  | '-' :: rest => (true, rest)
  | '+' :: rest => (false, rest)
  | cs => (false, cs)

/-- Reads an integer in base 10 or 16; base 16 may have its mark. -/
def readInt? (base : Nat) (s : String) : Option Int :=
  let plain := s.toList.map plainForm
  let inner := ((plain.dropWhile isNumberBlank).reverse.dropWhile isNumberBlank).reverse
  let (negative, body) := splitSign inner
  let digits := if base = 16 then dropBaseMark body else body
  (digitsFrom base 0 true digits).map fun n => if negative then -(n : Int) else n

end Cairoscope.Text
