import Cairoscope.Fault

/-! Colours for coefficients, from white for 0 to red for 1. -/

namespace Cairoscope.Taint

/-- The integer part of a double, exactly. -/
def integerPart (x : Float) : Outcome Int :=
  let bits := x.toBits.toNat
  let exponent := (bits >>> 52) % 2048
  let fraction := bits % (1 <<< 52)
  if exponent = 2047 then .error (if fraction = 0 then .infinite else .badNumber)
  else
    let significand := if exponent = 0 then fraction else fraction + (1 <<< 52)
    let magnitude : Nat := if 1075 ≤ exponent then significand <<< (exponent - 1075)
      else significand >>> (1075 - exponent)
    .ok (if bits >>> 63 = 1 then -(magnitude : Int) else (magnitude : Int))

/-- Two hexadecimal digits at least, the sign counted. -/
def twoDigits (n : Int) : String :=
  let ds := Nat.toDigits 16 n.natAbs
  if n < 0 then String.ofList ('-' :: ds)
  else String.ofList (List.replicate (2 - ds.length) '0' ++ ds)

/-- Red at full strength; green and blue fade as the coefficient grows. -/
def colour (coefficient : Float) : Outcome String := do
  let red ← integerPart (1.0 * 255)
  let other ← integerPart ((1 - (0.0 + coefficient)) * 255)
  return "#" ++ twoDigits red ++ twoDigits other ++ twoDigits other

end Cairoscope.Taint
