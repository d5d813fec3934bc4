import Cairoscope.Fault
import Cairoscope.Text.Numeral
import Cairoscope.Text.Printable
import Cairoscope.Text.Utf8

/-! Field elements as text. An element near zero is written in decimal with its sign, one that is
farther away in hexadecimal, and one that is far from zero on both sides as it stands. -/

namespace Cairoscope.Field

/-- The modulus of the field when an artifact does not give one: 2^251 + 17 * 2^192 + 1. -/
def defaultPrime : Int := 0x800000000000011000000000000000000000000000000000000000000000001

/-- Elements nearer to zero than this are written in decimal. -/
def decimalBound : Nat := 1 <<< 40

/-- Elements nearer to zero than this are written with their sign. -/
def signedBound : Nat := 1 <<< 100

inductive Numeral
  | decimal (n : Int)
  | hex (n : Int)
  deriving DecidableEq, Repr

namespace Numeral

def value : Numeral → Int
  | decimal n => n
  | hex n => n

def text : Numeral → String
  | decimal n => Text.decimal n
  | hex n => Text.hexadecimal n

def small : Numeral → Outcome Int
  | decimal n => .ok n
  | hex _ => .error .badNumber

end Numeral

/-- The representative of `val` modulo `prime` that is nearest to zero. -/
def centered (val prime : Int) : Outcome Int :=
  if prime = 0 then .error .zeroModulus
  else .ok ((val + prime.fdiv 2).fmod prime - prime.fdiv 2)

def numeral (val prime : Int) : Outcome Numeral := do
  let n ← centered val prime
  if n.natAbs < decimalBound then return .decimal n
  else if n.natAbs < signedBound then return .hex n
  else return .hex val

def text (val prime : Int) : Outcome String := do
  return (← numeral val prime).text

/-- The element as a small signed number; an element far from zero is refused. -/
def small (val prime : Int) : Outcome Int := do
  (← numeral val prime).small

/-- The bytes that a run of hexadecimal digits spells, two digits a byte. -/
def bytesOfHex : List Char → Option (List Nat)
  | [] => some []
  | a :: b :: rest => do
    let a ← Text.digitIn? 16 a
    let b ← Text.digitIn? 16 b
    let bytes ← bytesOfHex rest
    return (a * 16 + b) :: bytes
  | _ => none

/-- The text whose bytes are the digits of a small positive element. -/
def string? (n : Int) : Option String :=
  if n < 0 then none
  else do
    let bytes ← bytesOfHex (Text.hexDigits n.natAbs)
    let cs ← Text.Utf8.decode? bytes
    return String.ofList cs

/-- `string?` if it can be shown. -/
def printable? (n : Int) : Option String :=
  (string? n).filter fun s => s.toList.all Text.isPrintable

/-- What the element says when read as text: the text itself, else its digits in hexadecimal, and
nothing for an element that is far from zero. -/
def reading (val prime : Int) : Outcome String := do
  match ← numeral val prime with
  | .decimal n => return (printable? n).getD (Text.hexadecimal n)
  | .hex _ => return ""

end Cairoscope.Field
