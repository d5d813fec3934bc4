import Cairoscope.Contract.InstructionText
import Cairoscope.Contract.Prototype
import Cairoscope.Json.Writer

/-! Disassemblies: builtins, structures and events of a contract, and its functions one after the
other. -/

namespace Cairoscope

namespace Function

def disassembly (p : Printer) (f : Function) : Outcome String := do
  let prototype ← f.prototype
  let code ← f.sites.mapM (Site.text p)
  return "\n" ++ p.palette.cyan ++ "// Function " ++ toString f.id ++ p.palette.reset ++
    "\n" ++ p.palette.blue ++ prototype ++ p.palette.reset ++ "\n" ++ String.join code

end Function

namespace Contract

/-- The names of the builtins in one line; an empty list has no line. -/
def builtinsText (c : Contract) (palette : Palette) : Outcome String :=
  match c.builtins with
  | .arr [] => .ok ""
  | v => do
    let names ← (← v.elements).mapM Json.text
    return "\n%builtins " ++ palette.red ++ String.intercalate " " names ++ palette.reset

def structText (palette : Palette) (name : String) (layout : Artifact.Layout) : Outcome String := do
  let members ← layout.mapM fun e => do
    let type ← e.2.type.text
    return "\tmember " ++ palette.green ++ e.2.name ++ palette.reset ++
      " : " ++ palette.yellow ++ type ++ palette.reset ++ "\n"
  return "struct " ++ palette.beige ++ name ++ palette.reset ++ ":\n" ++
    String.join members ++ "end\n\n"

def structsText (c : Contract) (palette : Palette) (nonEmpty : Bool) : Outcome String := do
  let shown := c.structs.filter fun s => !(nonEmpty && s.2.isEmpty)
  return String.join (← shown.mapM fun s => structText palette s.1 s.2)

def eventText (palette : Palette) (name : Key) (data : Json) : Outcome String := do
  let name ← name.toJson.text
  let fields ← (← data.elements).mapM fun d => do
    let fieldName ← (← d.field "name").text
    let type ← (← d.field "type").text
    return "\t    " ++ palette.green ++ fieldName ++ palette.reset ++
      "   : " ++ palette.yellow ++ type ++ palette.reset ++ "\n"
  return "\n\t event: " ++ palette.beige ++ name ++ palette.reset ++ "\n" ++ String.join fields

def eventsText (c : Contract) (palette : Palette) : Outcome String := do
  return String.join (← c.events.mapM fun e => eventText palette e.1 e.2)

def rule : String := String.ofList (List.replicate 75 '_') ++ "\n"

def preamble (c : Contract) (palette : Palette) : Outcome String := do
  let builtins ← if c.builtins.isPresent then
      do pure (rule ++ (← c.builtinsText palette) ++ "\n")
    else pure ""
  let structs ← if c.structs.isEmpty then pure ""
    else do pure (rule ++ (← c.structsText palette false) ++ "\n")
  let events ← if c.events.isEmpty then pure ""
    else do pure (rule ++ (← c.eventsText palette) ++ "\n")
  return builtins ++ structs ++ events ++ rule

/-- The function that a request by name, or else by offset, is about. -/
def requested? (c : Contract) (name offset : Option String) : Option Function :=
  match name, offset with
  | some n, _ => c.functionNamed? n
  | none, some o => c.functionAt? o
  | none, none => none

/-- The disassembly of all functions. A request for one function that exists finds no text to
show, and one for a function that does not exist is refused. -/
def disassembly (c : Contract) (palette : Palette) (name offset : Option String) :
    Outcome String := do
  let preamble ← c.preamble palette
  if c.functions.isEmpty then return preamble
  if name.isNone && offset.isNone then
    let texts ← c.functions.mapM fun f => f.disassembly (c.printer palette)
    return preamble ++ String.join (texts.map (· ++ "\n"))
  match c.requested? name offset with
  | some _ => throw .unset
  | none => throw .noSuchFunction

def dump (c : Contract) : String :=
  "\n " ++ (Artifact.listingDocument Key.memberName c.groups).indented 3 ++ "\n"

end Contract

end Cairoscope
