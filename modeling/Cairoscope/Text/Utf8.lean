/-! Reading UTF-8. Overlong forms, surrogates and numbers above U+10FFFF are refused. -/

namespace Cairoscope.Text.Utf8

def isContinuation (b : Nat) : Bool := decide (0x80 ≤ b) && decide (b < 0xc0)

/-- The character with this number, unless it is a surrogate, too large or below `least`. -/
def scalar? (least n : Nat) : Option Char :=
  if n < least then none
  else if h : n.isValidChar then some (Char.ofNatAux n h) else none

def decode? : List Nat → Option (List Char)
  | [] => some []
  | a :: rest =>
    if a < 0x80 then do
      let c ← scalar? 0 a
      let cs ← decode? rest
      return c :: cs
    else match rest with
      | b :: rest =>
        if 0xc0 ≤ a ∧ a < 0xe0 ∧ isContinuation b then do
          let c ← scalar? 0x80 ((a - 0xc0) * 64 + (b - 0x80))
          let cs ← decode? rest
          return c :: cs
        else match rest with
          | d :: rest =>
            if 0xe0 ≤ a ∧ a < 0xf0 ∧ isContinuation b ∧ isContinuation d then do
              let c ← scalar? 0x800 ((a - 0xe0) * 4096 + (b - 0x80) * 64 + (d - 0x80))
              let cs ← decode? rest
              return c :: cs
            else match rest with
              | e :: rest =>
                if 0xf0 ≤ a ∧ a < 0xf8 ∧ isContinuation b ∧ isContinuation d ∧ isContinuation e then do
                  let c ← scalar? 0x10000
                    ((a - 0xf0) * 262144 + (b - 0x80) * 4096 + (d - 0x80) * 64 + (e - 0x80))
                  let cs ← decode? rest
                  return c :: cs
                else none
              | [] => none
          | [] => none
      | [] => none

end Cairoscope.Text.Utf8
