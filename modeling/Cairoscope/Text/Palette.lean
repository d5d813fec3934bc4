/-! Colours of the terminal, as the sequences that switch them on. -/

namespace Cairoscope

structure Palette where
  header : String
  blue : String
  cyan : String
  green : String
  yellow : String
  red : String
  reset : String
  beige : String
  deriving Repr

namespace Palette

def plain : Palette := ⟨"", "", "", "", "", "", "", ""⟩

def coloured : Palette where
  header := "\x1b[95m"
  blue := "\x1b[94m"
  cyan := "\x1b[96m"
  green := "\x1b[92m"
  yellow := "\x1b[93m"
  red := "\x1b[91m"
  reset := "\x1b[0m"
  beige := "\x1b[36m"

def of (colour : Bool) : Palette := if colour then coloured else plain

end Palette

end Cairoscope
