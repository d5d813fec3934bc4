import Cairoscope.Analysis.Report
import Cairoscope.CommandLine.Arguments
import Cairoscope.Dot
import Cairoscope.Fault

/-! What a command line tool works on, and what both tools print in the same way. -/

namespace Cairoscope.CommandLine

structure Console where
  printed : String
  drawings : List Dot.Drawing
  /-- The files with their contents. -/
  files : List (String × String)

abbrev Job := Run Console

inductive Ending
  | returned (status : Option Int)
  | stopped (status : Int)
  deriving DecidableEq, Repr

namespace Console

def start (files : List (String × String)) : Console := ⟨"", [], files⟩

def isFile (c : Console) (name : String) : Bool := c.files.any fun f => f.1 == name

def print (text : String) : Job Unit := modify fun c => { c with printed := c.printed ++ text }

def printLine (text : String) : Job Unit := print (text ++ "\n")

def draw (drawings : List Dot.Drawing) : Job Unit :=
  modify fun c => { c with drawings := c.drawings ++ drawings }

def contents (name : String) : Job String := do return ((← get).files.lookup name).getD ""

def write (name text : String) : Job Unit :=
  modify fun c => { c with files := (name, text) :: c.files.filter fun f => f.1 != name }

end Console

/-- Carries out what was read; help and wrong arguments end the tool. -/
def carryOut (r : Reading) (job : Given → Job Ending) : Job Ending := do
  r.given.opened.forM fun name => Console.write name ""
  match r.verdict with
  | .understood => job r.given
  | .help => return .stopped 0
  | .wrong => return .stopped 2

def drawingFormats : List String := ["pdf", "png", "svg"]

/-- The words that select analyzers: their own, or those of whole categories. -/
def selectors (profiles : List Analysis.Profile) : List String :=
  profiles.map (·.argument) ++ Analysis.Category.all.map (·.argument)

def select {α : Type} (profile : α → Analysis.Profile) (all : List α) (words : List String) : List α :=
  if words.isEmpty then all
  else words.flatMap fun w =>
    match all.find? fun a => (profile a).argument == w with
    | some a => [a]
    | none => all.filter fun a => (profile a).category.argument == w

def helpTexts (profiles : List Analysis.Profile) (names : List String) : String :=
  let chosen := if names.isEmpty then profiles
    else names.filterMap fun n => profiles.find? fun p => p.argument == n
  String.join (chosen.map (·.helpText))

/-- Runs analyzers one after the other and counts those with a verdict. -/
def analyze {σ α : Type} (print : String → Run σ Unit) (palette : Palette)
    (profile : α → Analysis.Profile) (run : α → Run σ Analysis.Report) (chosen : List α) :
    Run σ Unit := do
  let verdicts ← chosen.mapM fun a => do
    let report ← run a
    let detected := report.verdict == some true
    print (report.text palette (profile a) ++ (if detected then "\n" else ""))
    return detected
  let several := decide (chosen.length > 1)
  print ("[+] " ++ toString chosen.length ++ " analyzer" ++ (if several then "s were" else " was") ++
    " run (" ++ toString (verdicts.count true) ++ " detected)\n")

end Cairoscope.CommandLine
