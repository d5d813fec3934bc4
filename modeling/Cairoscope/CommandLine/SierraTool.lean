import Cairoscope.CommandLine.Console
import Cairoscope.Sierra.Analyzer
import Cairoscope.Sierra.Decompiler
import Cairoscope.Sierra.Drawing

/-! The tool for Sierra programs. It does one thing: a flow graph, a call graph, code, or analysis. -/

namespace Cairoscope.CommandLine.SierraTool

def profiles : List Analysis.Profile := Sierra.Analyzer.all.map (·.profile)

def usage : Usage where
  takesFile := false
  switches := [
    helpSwitch,
    ⟨["-f", "--file"], .one, .input⟩,
    ⟨["--decompile", "-d"], .flag, .text⟩,
    ⟨["--format"], .optional, .oneOf drawingFormats⟩,
    ⟨["--cfg"], .flag, .text⟩,
    ⟨["-output_cfg_folder"], .one, .text⟩,
    ⟨["--call"], .flag, .text⟩,
    ⟨["-output_callgraph_folder"], .one, .text⟩,
    ⟨["-a", "-analyze", "--analyzers"], .any, .oneOf (selectors profiles)⟩,
    ⟨["--analyzers-help"], .any, .oneOf (profiles.map (·.argument))⟩]

/-- Draws a graph. The switch for the format has to have a value if it is given. -/
def drawTo (g : Given) (folder : String) (digraph : Dot.Digraph) : Job Unit :=
  match (g.values? "--format").getD ["pdf"] with
  | format :: _ => Console.draw [Sierra.drawing digraph folder format]
  | [] => throw .noFormat

def inspect (g : Given) (p : Sierra.Program) : Job Unit := do
  if g.has "--cfg" then
    drawTo g ((g.value? "-output_cfg_folder").getD "output-cfg") p.flowDigraph
  else if g.has "--call" then
    let digraph ← Run.ofOutcome p.callDigraph
    drawTo g ((g.value? "-output_callgraph_folder").getD "output-callgraph") digraph
  else if g.has "--decompile" then
    match p.decompiled .start with
    | .ok code _ => Console.printLine code
    | .error e _ => throw e
  else match g.values? "-a" with
    | none => pure ()
    | some words =>
      let chosen := select Sierra.Analyzer.profile Sierra.Analyzer.all words
      analyze Console.print .coloured Sierra.Analyzer.profile (fun a => Run.ofOutcome (a.run p)) chosen

def job (g : Given) : Job Ending := do
  match g.values? "--analyzers-help", g.value? "-f" with
  | some names, _ =>
    Console.print (helpTexts profiles names)
    return .returned (if names.isEmpty then none else some 0)
  | none, none =>
    Console.printLine "You need to specify a sierra file path using the -f flag"
    return .returned none
  | none, some path =>
    match Sierra.Program.load (← Console.contents path) .empty with
    | .ok _ p => inspect g p
    | .error _ _ => Console.printLine (path ++ " is not a valid sierra file")
    return .returned none

def run (arguments : List String) : Job Ending := do
  carryOut (usage.read (← get).isFile arguments) job

end Cairoscope.CommandLine.SierraTool
