import Cairoscope.CommandLine.ContractTool
import Cairoscope.CommandLine.SierraTool
import Cairoscope.Symbolic.Search

/-! The command line. The word `sierra` in front selects the tool for Sierra programs; all else goes to the
tool for contracts. Drawings are written as DOT files. -/

namespace Cairoscope.CommandLine

def fileNames (arguments : List String) : List String :=
  arguments.flatMap fun a =>
    [a, String.ofList (a.toList.drop 2), String.ofList ((a.toList.dropWhile (· ≠ '=')).drop 1)]

def readFiles (names : List String) : IO (List (String × String)) :=
  names.filterMapM fun (name : String) => do
    try
      let text ← IO.FS.readFile name
      return some (name, text)
    catch _ => return none

def deliver (before after : Console) : IO Unit := do
  IO.print after.printed
  for (name, text) in after.files do
    if before.files.lookup name != some text then IO.FS.writeFile name text
  for d in after.drawings do
    IO.FS.createDirAll d.folder
    IO.FS.writeFile (d.folder ++ "/" ++ d.name ++ ".gv") d.source

def toolFor : List String → Job Ending
  | "sierra" :: rest => SierraTool.run rest
  | arguments => ContractTool.run Symbolic.solve arguments

def status : Ending → UInt32
  | .returned s => UInt32.ofNat (s.getD 0).toNat
  | .stopped s => UInt32.ofNat s.toNat

end Cairoscope.CommandLine

open Cairoscope CommandLine in
def main (arguments : List String) : IO UInt32 := do
  let before := Console.start (← readFiles (fileNames arguments))
  match toolFor arguments before with
  | .ok ending after =>
    deliver before after
    return status ending
  | .error e after =>
    deliver before after
    IO.eprintln (e.message.getD "The contract cannot be handled.")
    return 1
