import Cairoscope.Analysis.Report
import Cairoscope.Session

/-! What a contract consists of: its strings, its functions, and how many parts it has. -/

namespace Cairoscope.Analysis

/-- The immediate of an instruction that reads as text. -/
def siteString? (prime : Int) (s : Site) : Outcome (Option String) :=
  match s.instruction.res, s.instruction.op1Source, s.instruction.imm with
  | .op1, .imm, some n => do
    match ← Field.numeral n prime with
    | .decimal m => return Field.printable? m
    | .hex _ => return none
  | _, _, _ => return none

def strings (a : Profile) (c : Contract) : Outcome Report := do
  let found ← (c.functions.flatMap (·.sites)).mapM (siteString? c.prime)
  let texts := found.filterMap id
  return a.report (!texts.isEmpty) texts

/-- The name as it is listed: without the path, if that is the main module. -/
def listedName (name : String) : String :=
  match Text.split '.' name with
  | ["__main__", short] => short
  | _ => name

def sendsMessage (s : Site) : Bool :=
  s.instruction.isDirectCall &&
    match s.callee with
    | some name => Text.lastPart '.' name == "send_message_to_l1"
    | none => false

def functionEntry (p : Palette) (index : Nat) (f : Function) : Session.Work String := do
  let decorators ← Run.ofOutcome f.decorators.elements
  let name := "(" ++ toString f.id ++ ") " ++ p.header ++ listedName f.name ++ p.reset
  let sends := String.join ((f.sites.filter sendsMessage).map fun _ =>
    p.cyan ++ " -> L1" ++ p.reset)
  let receives := if decorators.any (Json.isText "l1_handler") then
    p.yellow ++ " <- L1" ++ p.reset else ""
  let entry := if f.entryPoint then p.red ++ " (entry point)" ++ p.reset else ""
  let listed ← if decorators.isEmpty then pure "" else do
    let texts ← Run.ofOutcome (decorators.mapM Json.text)
    pure ("\n\t- decorators : " ++ String.intercalate ", " texts)
  let complexity ← Run.ofOutcome (← Session.graph index f).complexity
  return name ++ sends ++ receives ++ entry ++ listed ++
    "\n\t- cyclomatic complexity : " ++ Text.decimal complexity ++
    "\n\t- instructions : " ++ toString f.sites.length

def functionList (a : Profile) (p : Palette) : Session.Work Report := do
  let own := (← get).numbered.filter fun e => !e.2.isImport
  let entries ← own.mapM fun e => functionEntry p e.1 e.2
  return a.report (!own.isEmpty) entries

def statistics (a : Profile) (c : Contract) : Outcome Report := do
  let builtins ← c.builtins.size
  let calls := (c.functions.flatMap (·.sites)).countP fun s => s.instruction.opcode == .call
  return a.report true
    ["functions : " ++ toString c.functions.length, "builtins : " ++ toString builtins,
     "structs : " ++ toString c.structs.length, "calls : " ++ toString calls]

end Cairoscope.Analysis
