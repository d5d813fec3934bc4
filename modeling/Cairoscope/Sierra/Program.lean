import Cairoscope.Fault
import Cairoscope.FlowGraph.Edge
import Cairoscope.Sierra.Nesting
import Cairoscope.Sierra.Reader

/-! Sierra programs. Several sources can be loaded one after the other into one program. Statements take
their offsets from one counter, which goes on. A variable is known by its name. -/

namespace Cairoscope.Sierra

structure TypeEntry where
  id : String
  longId : Option String
  deriving DecidableEq, Repr

structure Libfunc where
  id : String
  name : String
  deriving DecidableEq, Repr

structure Variable where
  name : String
  /-- The type it was declared with, if it was declared. -/
  type : Option String
  deriving DecidableEq, Repr

inductive Action
  | give (vars : List String)
  | assign (libfunc : Libfunc) (arguments results : List String)
  /-- A jump. Two edges make a condition; the second one leads to the statement after `second`. -/
  | jump (libfunc : String) (parameters : List String) (first : Int) (second : Option Int)
      (isFallthrough : Bool)
  deriving DecidableEq, Repr

structure Statement where
  offset : Nat
  raw : String
  action : Action
  deriving DecidableEq, Repr

structure Block where
  start : Nat
  statements : List Statement
  edges : List Edge
  deriving DecidableEq, Repr

structure Function where
  id : String
  start : Int
  stop : Option Int
  parameters : List String
  returns : List String
  statements : List Statement
  blocks : List Block
  deriving DecidableEq, Repr

structure Program where
  types : List TypeEntry
  libfuncs : List Libfunc
  vars : List Variable
  statements : List Statement
  functions : List Function
  /-- The offset of the next statement. -/
  nextOffset : Nat
  deriving DecidableEq, Repr

namespace Program

def empty : Program := ⟨[], [], [], [], [], 0⟩

abbrev Load := Run Program

def addType (d : Declaration) : Load Unit :=
  modify fun p => { p with types := p.types ++ [⟨d.id.text, some d.long.text⟩] }

/-- A library function goes by the innermost identifier of its declaration. -/
def addLibfunc (d : Declaration) : Load Unit :=
  modify fun p => { p with libfuncs := p.libfuncs ++ [⟨d.innermostLibfunc.text, d.long.text⟩] }

def needType (id : String) : Load Unit :=
  modify fun p =>
    if p.types.any fun t => t.id == id then p else { p with types := p.types ++ [⟨id, none⟩] }

/-- Makes sure that a variable is known. One that is known keeps its type. -/
def needVariable (name : String) (type : Option String) : Load Unit :=
  modify fun p =>
    if p.vars.any fun v => v.name == name then p
    else { p with vars := p.vars ++ [⟨name, type⟩] }

/-- A parameter has the innermost type of its declaration. -/
def addParam (q : Param) : Load String := do
  let name := q.var.text
  let type := (q.type.innermost .type).text
  needType type
  needVariable name (some type)
  return name

/-- The types of the return values: all that are named but for the first, innermost ones first. -/
def returnTypes (ids : List Ident) : List String := ((families .type ids).drop 1).map Ident.text

def addFunction (d : FunctionDeclaration) : Load Unit := do
  let parameters ← d.params.mapM addParam
  let returns := returnTypes d.returns
  returns.forM needType
  modify fun p => { p with functions := p.functions ++
    [⟨d.id.text, d.start, none, parameters, returns, [], []⟩] }

/-- The numbers of the numbered variables; labels are passed over. -/
def numberedNames (vars : List VarId) : List String :=
  (vars.filterMap VarId.number?).map Text.decimal

def needAll (names : List String) : Load (List String) := do
  names.forM fun n => needVariable n none
  return names

def libfuncOf (id : String) : Load Libfunc := do
  match (← get).libfuncs.find? fun l => l.id == id with
  | some l => return l
  | none => throw .outOfRange

/-- The variable lists of a jump: those of the branches first, then its arguments. -/
def jumpLists (arguments : List VarId) (branches : List Branch) : List (List VarId) :=
  branches.map (·.results) ++ [arguments]

/-- The third variable list, which is the list of arguments when there are two branches. -/
def jumpParameters (arguments : List VarId) (branches : List Branch) : Load (List String) :=
  match (jumpLists arguments branches)[2]? with
  | some vars => needAll (vars.map VarId.text)
  | none => throw .outOfRange

/-- What a jump does when one of its branches goes on with the next statement. -/
def fallthroughJump (libfunc : String) (arguments : List VarId) (branches : List Branch)
    (targets : List Int) (offset : Nat) : Load Action :=
  match targets with
  | first :: _ => do
    let parameters ← jumpParameters arguments branches
    return .jump libfunc parameters first (some offset) true
  | [] => throw .outOfRange

/-- What a jump does when each branch has its own target. -/
def plainJump (libfunc : String) (arguments : List VarId) (branches : List Branch)
    (targets : List Int) : Load Action :=
  match targets with
  | [] => throw .outOfRange
  | [target] => return .jump libfunc [] target none false
  | first :: second :: _ => do
    let parameters ← jumpParameters arguments branches
    return .jump libfunc parameters first (some (second - 1)) false

def actionOf (offset : Nat) : Command → Load Action
  | .give vars => do return .give (← needAll (numberedNames vars))
  | .invoke id arguments results => do
    let libfunc ← libfuncOf (id.innermost .libfunc).text
    let arguments ← needAll (numberedNames arguments)
    let results ← needAll (numberedNames results)
    return .assign libfunc arguments results
  | .jump id arguments branches =>
    let libfunc := (id.innermost .libfunc).text
    let targets := branches.filterMap fun b => b.target.index?
    if branches.any fun b => b.target = .next then
      fallthroughJump libfunc arguments branches targets offset
    else plainJump libfunc arguments branches targets

def addStatement (c : Command) : Load Unit := do
  let offset := (← get).nextOffset
  let action ← actionOf offset c
  modify fun p => { p with
    statements := p.statements ++ [⟨offset, c.text, action⟩]
    nextOffset := p.nextOffset + 1 }

end Program

end Cairoscope.Sierra
