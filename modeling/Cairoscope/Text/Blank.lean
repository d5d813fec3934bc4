import Cairoscope.Text.Ranges

/-! Blank characters: the spaces, tabs, line and paragraph ends of Unicode, and the four
separators U+001C to U+001F. -/

namespace Cairoscope.Text

def blankRanges : List (Nat × Nat) :=
  [(0x9, 0xd), (0x1c, 0x20), (0x85, 0x85), (0xa0, 0xa0), (0x1680, 0x1680), (0x2000, 0x200a),
   (0x2028, 0x2029), (0x202f, 0x202f), (0x205f, 0x205f), (0x3000, 0x3000)]

def isBlank (c : Char) : Bool := inRanges blankRanges c.toNat

/-- Core's blank characters are blank. -/
theorem isBlank_of_isWhitespace {c : Char} (h : c.isWhitespace = true) : isBlank c = true := by
  simp only [Char.isWhitespace, Bool.or_eq_true, decide_eq_true_eq] at h
  rcases h with ((h | h) | h) | h <;> subst h <;> decide

def trim (s : String) : String :=
  String.ofList ((s.toList.dropWhile isBlank).reverse.dropWhile isBlank).reverse

/-- Drops blanks that follow a blank, and writes the others as a space. `inside` says whether
the character before was a blank. -/
def squeezeFrom (inside : Bool) : List Char → List Char
  | [] => []
  | c :: rest =>
    if isBlank c then
      if inside then squeezeFrom true rest else ' ' :: squeezeFrom true rest
    else c :: squeezeFrom false rest

/-- Each run of blanks becomes one space. -/
def squeeze (s : String) : String := String.ofList (squeezeFrom false s.toList)

end Cairoscope.Text
