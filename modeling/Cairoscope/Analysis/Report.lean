import Cairoscope.Text.Palette

/-! Reports of analyzers. -/

namespace Cairoscope.Analysis

inductive Category
  | analytics
  | optimization
  | security
  deriving DecidableEq, Repr

inductive Impact
  | informational
  | low
  | medium
  | high
  deriving DecidableEq, Repr

namespace Category

def all : List Category := [analytics, optimization, security]

def title : Category → String
  | analytics => "Analytics"
  | optimization => "Optimization"
  | security => "Security"

/-- The word that selects the category on a command line. -/
def argument : Category → String
  | analytics => "analytics"
  | optimization => "optimization"
  | security => "security"

def colour (p : Palette) : Category → String
  | analytics => p.green
  | optimization => p.cyan
  | security => p.red

end Category

namespace Impact

def title : Impact → String
  | informational => "Informational"
  | low => "Low"
  | medium => "Medium"
  | high => "High"

def colour (p : Palette) : Impact → String
  | informational => p.cyan
  | low => p.green
  | medium => p.yellow
  | high => p.red

end Impact

/-- What an analyzer is, apart from what it finds. -/
structure Profile where
  title : String
  /-- The word that selects the analyzer on a command line. -/
  argument : String
  help : String
  category : Category
  impact : Impact

structure Report where
  detected : Bool
  /-- Whether the contract as a whole counts as detected; some analyzers only list places. -/
  verdict : Option Bool
  impact : Impact
  findings : List String

/-- The end of a colour, which is written even where no colour was switched on. -/
def colourEnd : String := Palette.coloured.reset

/-- One line of help; it is always coloured. -/
def Profile.helpText (a : Profile) : String :=
  "[" ++ a.category.title ++ "] " ++ a.category.colour .coloured ++ a.title ++ colourEnd ++
    " <" ++ a.argument ++ "> - " ++ a.help ++ "\n"

/-- A title line and a line for each finding. A report without detection has no text, and only
security reports show their impact. -/
def Report.text (p : Palette) (a : Profile) (r : Report) : String :=
  if r.detected then
    let impact := match a.category with
      | .security => "(" ++ r.impact.colour p ++ r.impact.title ++ colourEnd ++ ")"
      | _ => ""
    let title := "[" ++ a.category.colour p ++ a.category.title ++ colourEnd ++ "] " ++ a.title ++
      " " ++ impact ++ "\n"
    title ++ String.join (r.findings.map fun f => "  -  " ++ f ++ "\n")
  else ""

/-- A report of the usual kind: detection is the verdict. -/
def Profile.report (a : Profile) (detected : Bool) (findings : List String) : Report :=
  ⟨detected, some detected, a.impact, findings⟩

end Cairoscope.Analysis
