/-! Line ends. -/

namespace Cairoscope.Text

/-- Each of the three ways to end a line as a line feed. -/
def unifyLineEnds : List Char → List Char
  | [] => []
  | '\r' :: '\n' :: rest => '\n' :: unifyLineEnds rest
  | c :: rest => (if c = '\r' then '\n' else c) :: unifyLineEnds rest

end Cairoscope.Text
