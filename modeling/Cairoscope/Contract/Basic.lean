import Cairoscope.Artifact.Annotation
import Cairoscope.Artifact.Listing

/-! Loaded contracts: functions with their code, and what the artifact says about them. -/

namespace Cairoscope

/-- An instruction of a function, with what is known about its place. -/
structure Site where
  offset : Nat
  instruction : Instruction
  /-- Where a direct call goes; 0 for any other instruction. -/
  callTarget : Int
  /-- The function that a direct call reaches. -/
  callee : Option String
  reference : Option String
  hint : Option Json

structure Function where
  name : String
  id : Nat
  /-- The offsets of the first and the last instruction. -/
  start : Nat
  stop : Nat
  sites : List Site
  implicit : Artifact.Layout
  explicit : Artifact.Layout
  returns : Artifact.Layout
  decorators : Json
  isImport : Bool
  entryPoint : Bool

structure Contract where
  prime : Int
  builtins : Json
  structs : List (String × Artifact.Layout)
  events : List (Key × Json)
  references : List (String × String)
  hints : List (String × Json)
  labels : List (String × String)
  functions : List Function
  groups : List Artifact.Group

def Artifact.Layout.names (l : Artifact.Layout) : List String := l.map fun e => e.2.name

namespace Function

def argumentNames (f : Function) : List String :=
  f.returns.names ++ f.implicit.names ++ f.explicit.names

/-- The arguments that a caller puts on the stack. -/
def parameterNames (f : Function) : List String := f.implicit.names ++ f.explicit.names

def shortName (f : Function) : String := Text.lastPart '.' f.name

end Function

namespace Contract

def functionNamed? (c : Contract) (name : String) : Option Function :=
  c.functions.find? fun f => f.name == name

def functionAt? (c : Contract) (offset : String) : Option Function :=
  c.functions.find? fun f => toString f.start == offset

end Contract

end Cairoscope
