import Cairoscope.Analysis.Analyzer
import Cairoscope.CommandLine.Console
import Cairoscope.Contract.Load
import Cairoscope.Json.Display
import Cairoscope.Session
import Cairoscope.Symbolic.Settings

/-! The tool for contracts. It does whatever is asked for, one thing after the other: a dump, code, graphs,
and then a symbolic execution or an analysis. -/

namespace Cairoscope.CommandLine.ContractTool

def profiles : List Analysis.Profile := Analysis.Analyzer.all.map (·.profile)

def usage : Usage where
  takesFile := true
  switches := [
    helpSwitch,
    ⟨["-v", "--version"], .flag, .help⟩,
    ⟨["-vvv", "-verbose", "--verbose"], .flag, .text⟩,
    ⟨["-call", "--call"], .flag, .text⟩,
    ⟨["-cfg", "--cfg"], .flag, .text⟩,
    ⟨["-dfg", "--dfg"], .flag, .text⟩,
    ⟨["-taint", "--taint"], .flag, .text⟩,
    ⟨["-view"], .flag, .text⟩,
    ⟨["-output_cfg_folder"], .one, .text⟩,
    ⟨["-output_callgraph_folder"], .one, .text⟩,
    ⟨["-output_dfg_folder"], .one, .text⟩,
    ⟨["-format", "--format"], .optional, .oneOf drawingFormats⟩,
    ⟨["-function", "--function"], .one, .text⟩,
    ⟨["-b", "-disas", "--disassembly"], .flag, .text⟩,
    ⟨["-d", "-decomp", "--decompile"], .flag, .text⟩,
    ⟨["-color", "--color"], .flag, .text⟩,
    ⟨["-o", "--output"], .one, .output⟩,
    ⟨["-a", "-analyze", "--analyzers"], .any, .oneOf (selectors profiles)⟩,
    ⟨["--analyzers-help"], .any, .oneOf (profiles.map (·.argument))⟩,
    ⟨["--symbolic"], .flag, .text⟩,
    ⟨["-config"], .one, .input⟩,
    ⟨["-assertions"], .flag, .text⟩,
    ⟨["-constraints"], .many, .text⟩,
    ⟨["-variables"], .many, .text⟩,
    ⟨["-solves"], .many, .text⟩]

/-- The file name up to its first point, without folders. -/
def baseName (path : String) : String :=
  let file := (path.toList.reverse.takeWhile (· ≠ '/')).reverse
  String.ofList (file.takeWhile (· ≠ '.'))

structure Desk where
  session : Session
  console : Console

abbrev Task := Run Desk

def session {α : Type} (w : Session.Work α) : Task α :=
  Run.onPart Desk.session (fun s d => { d with session := s }) w

def console {α : Type} (j : Job α) : Task α :=
  Run.onPart Desk.console (fun c d => { d with console := c }) j

/-- Sets up a desk for a contract; only what is on the console is kept. -/
def atDesk {α : Type} (s : Session) (t : Task α) : Job α := fun c =>
  match t ⟨s, c⟩ with
  | .ok a d => .ok a d.console
  | .error e d => .error e d.console

/-- Prints a text of the contract. The file for it, if there is one, gets the text without colours. -/
def printCode (g : Given) (text : Session.Work String) : Task Unit := do
  let code ← session text
  console (Console.printLine code)
  match g.value? "-o" with
  | none => pure ()
  | some file =>
    let plain := Session.start (← get).session.contract .plain
    match text plain with
    | .ok code _ => console (Console.write file code)
    | .error e _ => throw e

def disassembled : Session.Work String := do
  let s ← get
  Run.ofOutcome (s.contract.disassembly s.palette none none)

def codeTask (g : Given) : Task Unit :=
  if g.has "-a" then pure ()
  else if g.has "-d" then printCode g Session.decompiled
  else if g.has "-b" then printCode g disassembled
  else pure ()

def formatOf (g : Given) : String := (g.value? "-format").getD "pdf"

def present (p : Session.Picture) : Task Unit := console do
  Console.draw p.drawings
  Console.print p.text

def callTask (g : Given) (name : String) : Task Unit := do
  let folder := (g.value? "-output_callgraph_folder").getD "output-callgraph"
  present (← session (Session.drawCalls name folder (formatOf g) (g.has "-view")))

/-- Draws flow graphs, which have no colours: a coloured contract is taken afresh and stays so. -/
def flowTask (g : Given) (name : String) : Task Unit := do
  if g.has "-color" then
    modify fun d => { d with session := Session.start d.session.contract .plain }
  let folder := (g.value? "-output_cfg_folder").getD "output-cfg"
  present (← session
    (Session.drawFlow name folder (formatOf g) (g.has "-view") (g.value? "-function") none))

def dataFlowTask (g : Given) : Task Unit := do
  let graph ← session (Session.dataFlow false)
  match DataFlow.create graph with
  | .error e _ => throw e
  | .ok _ graph =>
    let graph := if g.has "-taint" then graph.taintArguments else graph
    let digraph ← Run.ofOutcome graph.digraph
    let folder := (g.value? "-output_dfg_folder").getD "output-dfg"
    console (Console.draw [⟨digraph.name, folder, g.has "-view", formatOf g, digraph.source⟩])

/-- What is asked of the symbolic execution on the command line, or what is missing. -/
def settingsOf (g : Given) (functions : List String) : Except String Symbolic.Settings :=
  let list (name : String) : List String := (g.values? name).getD []
  match g.value? "-function" with
  | none => .error ("Symbolic execution: You need to set the -function flag e.g. -function __main__.main" ++
      "\n\nPossible values:\n\t" ++ String.intercalate "\n\t" functions)
  | some function =>
    if (list "-solves").isEmpty then
      .error "Symbolic execution: You need to set the -solve flag, e.g. -solves v1 v2 v3"
    else if (list "-constraints").isEmpty && !g.has "-assertions" then
      .error "Symbolic execution: You need to set the -constraints flag e.g. - constraints v1==0 v2==0"
    else
      let texts (name : String) : Json := .arr ((list name).map .str)
      .ok ⟨.str function, texts "-constraints", texts "-variables", texts "-solves"⟩

def solveTask (solver : Symbolic.Solver) (g : Given) (settings : Symbolic.Settings) : Task Int := do
  let (_, d) ← session (Session.explored true true)
  let found := (← get).session.contract.functions.findIdx? fun f => settings.function.isText f.name
  match found with
  | none =>
    console (Console.printLine
      ("Symbolic execution: Function " ++ settings.function.display ++ " doesn't exist"))
    return 1
  | some i =>
    let request ← Run.ofOutcome settings.request
    let assertions := if g.has "-assertions" then d.assertions else []
    let values ← Run.ofOutcome
      (Symbolic.solutions solver ⟨d.memory, i, d.blocksOf i⟩ request assertions)
    console (Console.print (if values.isEmpty then "No solution\n"
      else String.join (values.map fun v => v.1 ++ ": " ++ Text.decimal v.2 ++ "\n")))
    return 0

/-- A file with settings goes before the command line; one that cannot be used ends the tool quietly. -/
def symbolicTask (solver : Symbolic.Solver) (g : Given) : Task Int := do
  match g.value? "-config" with
  | some file =>
    match Symbolic.Settings.read (← console (Console.contents file)) with
    | .ok settings => solveTask solver g settings
    | .error _ => return 1
  | none =>
    match settingsOf g ((← get).session.contract.functions.map (·.name)) with
    | .ok settings => solveTask solver g settings
    | .error missing =>
      console (Console.printLine missing)
      return 1

def analysisTask (solver : Symbolic.Solver) (g : Given) (words : List String) : Task Unit := do
  let palette := Palette.of (g.has "-color")
  let chosen := select Analysis.Analyzer.profile Analysis.Analyzer.all words
  analyze (fun t => console (Console.print t)) palette Analysis.Analyzer.profile
    (fun a => session (a.run palette solver)) chosen

/-- All that is asked for, in a fixed order. -/
def tasks (solver : Symbolic.Solver) (g : Given) (name : String) : Task Int := do
  if g.has "-vvv" then
    console (Console.print (← get).session.contract.dump)
  codeTask g
  if g.has "-call" then callTask g name
  if g.has "-cfg" then flowTask g name
  if g.has "-dfg" then dataFlowTask g
  if g.has "--symbolic" then symbolicTask solver g
  else
    match g.values? "-a" with
    | none => pure ()
    | some words => analysisTask solver g words
    return 0

def job (solver : Symbolic.Solver) (g : Given) : Job Ending := do
  match g.values? "--analyzers-help" with
  | some names =>
    Console.print (helpTexts profiles names)
    return .returned (some 0)
  | none =>
    let path := g.file.getD ""
    let contract ← Run.ofOutcome (Contract.ofText (← Console.contents path))
    let start := Session.start contract (Palette.of (g.has "-color"))
    return .returned (some (← atDesk start (tasks solver g (baseName path))))

def run (solver : Symbolic.Solver) (arguments : List String) : Job Ending := do
  match command false arguments with
  | .error .help => return .stopped 0
  | .error _ => return .stopped 2
  | .ok (word, rest, stray) =>
    if word = "local" then
      let r := usage.read (← get).isFile rest
      let verdict := if stray && r.verdict = .understood then .wrong else r.verdict
      carryOut ⟨r.given, verdict⟩ (job solver)
    else return .stopped 2

end Cairoscope.CommandLine.ContractTool
