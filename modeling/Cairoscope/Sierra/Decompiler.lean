import Cairoscope.Sierra.Text

/-! Sierra programs written with conditions. The branches of a condition are nested in it, and each block
is written once. A condition can lead back to itself, so nesting ends at some depth. -/

namespace Cairoscope.Sierra

/-- What a decompilation has written so far: blocks by function and place. -/
structure Progress where
  printed : List (Nat × Nat)
  tabs : Int
  deriving DecidableEq, Repr

def Progress.start : Progress := ⟨[], 1⟩

abbrev Writing := Run Progress

def tabsText (n : Int) : String := String.ofList (List.replicate n.toNat '\t')

def indentBy (n : Int) : Writing Unit := modify fun w => { w with tabs := w.tabs + n }

def conditionLine (tabs : Int) (libfunc : String) (parameters : List String) : String :=
  tabsText tabs ++ "if (" ++ libfunc ++ "(" ++ joinWith parameters ++ ") == 0) " ++
    inColour palette.green "\x7b" ++ "\n"

def statementLine (tabs : Int) (edges : Nat) (s : Statement) : String :=
  match s.action with
  | .jump libfunc parameters _ _ _ => if edges = 2 then conditionLine tabs libfunc parameters else ""
  | action => tabsText tabs ++ action.line?.getD "" ++ "\n"

/-- A statement that is no jump. -/
def Statement.isPlain (s : Statement) : Bool :=
  match s.action with
  | .jump .. => false
  | _ => true

/-- The statements of a block, if they have not been written yet. On the last level, where `levels`
more are left to be 0, there is no room for plain statements: a block with any counts as written, and
gives what `full` says. -/
def blockText (full : Writing (Option String)) (function place levels : Nat) (b : Block) :
    Writing (Option String) := do
  if (← get).printed.contains (function, place) then return some ""
  modify fun w => { w with printed := w.printed ++ [(function, place)] }
  if levels = 0 ∧ b.statements.any Statement.isPlain then full
  else
    let tabs := (← get).tabs
    return some (String.join (b.statements.map (statementLine tabs b.edges.length)))

def placeOf? (blocks : List Block) (offset : Int) : Option Nat :=
  blocks.findIdx? fun b => (b.start : Int) == offset

def elseLine (tabs : Int) : String :=
  tabsText tabs ++ inColour palette.green "\x7d" ++ " else " ++ inColour palette.green "\x7b\n"

def closingLine (tabs : Int) : String := inColour palette.green (tabsText tabs ++ "\x7d\n")

/-- The first branch of a condition; `nested` writes a block with all behind it. -/
def firstArm (blocks : List Block) (nested : Nat → Writing (Option String)) (target : Int) :
    Writing String := do
  indentBy 1
  let inner ← match placeOf? blocks target with
    | some i => nested i
    | none => pure none
  indentBy (-1)
  return inner.getD ""

/-- The second branch. One that is missing or has been written is not written again, but the tabs go
back as after one that has. -/
def secondArm (function : Nat) (blocks : List Block) (nested : Nat → Writing (Option String))
    (target : Int) : Writing String := do
  let w ← get
  let inner ← match (placeOf? blocks target).filter fun i => !w.printed.contains (function, i) with
    | some i => do
      indentBy 1
      pure (elseLine w.tabs ++ (← nested i).getD "")
    | none => pure ""
  indentBy (-1)
  return inner

/-- A condition with its end; nothing stays nothing. -/
def closed (text : String) (tabs : Int) : String := if text = "" then "" else text ++ closingLine tabs

/-- Writes the part behind an edge after `text`. -/
def edgeText (function : Nat) (blocks : List Block) (nested : Nat → Writing (Option String))
    (text : String) (e : Edge) : Writing String := do
  match e.kind with
  | .conditionalTrue => return text ++ (← firstArm blocks nested e.target)
  | .conditionalFalse =>
    let alternative ← secondArm function blocks nested e.target
    return closed (text ++ alternative) (← get).tabs
  | _ => return text

/-- A block with all that is nested in it, on at most so many levels; `full` says what happens where
there is no room. -/
def nestedText (full : Writing (Option String)) (function : Nat) (blocks : List Block) :
    Nat → Nat → Writing (Option String)
  | 0, _ => full
  | levels + 1, place => do
    match blocks[place]? with
    | none => return none
    | some b =>
      match ← blockText full function place levels b with
      | none => return none
      | some text =>
        let nested := nestedText full function blocks levels
        return some (← b.edges.foldlM (edgeText function blocks nested) text)

def outermostText (full : Writing (Option String)) (limit function : Nat) (blocks : List Block)
    (place : Nat) : Writing String := do
  modify fun w => { w with tabs := 1 }
  return (← nestedText full function blocks limit place).getD ""

/-- The body of a function. Each block is written with what is nested in it, as far as that has not been
written yet. -/
def bodyText (full : Writing (Option String)) (limit function : Nat) (blocks : List Block) :
    Writing String := do
  return String.join (← (List.range blocks.length).mapM (outermostText full limit function blocks))

def functionText (index : Nat) (prototype body : String) : String :=
  magenta ++ "// Function " ++ toString (index + 1) ++ "\n" ++ palette.reset ++
    prototype ++ "\n" ++ inColour palette.green "\x7b" ++ "\n" ++ body ++
    inColour palette.green "\x7d"

namespace Program

def declarationsText (p : Program) : String :=
  String.join (p.types.map fun t => t.text ++ "\n") ++ "\n" ++
    String.join (p.libfuncs.map fun l => l.text ++ "\n") ++ "\n"

def functionWritten (p : Program) (full : Writing (Option String)) (limit : Nat) (f : Function × Nat) :
    Writing String := do
  let prototype ← Run.ofOutcome (p.prototype f.1)
  return functionText f.2 prototype (← bodyText full limit f.2 f.1.blocks)

def written (p : Program) (full : Writing (Option String)) (limit : Nat) : Writing String := do
  let functions ← p.functions.zipIdx.mapM (p.functionWritten full limit)
  return p.declarationsText ++ String.intercalate "\n\n" functions

end Program

/-- How many levels of nesting are written. -/
def nestingLimit : Nat := 989

/-- The whole program. What is nested too deep is left out. -/
def Program.decompiled (p : Program) : Writing String := p.written (pure none) nestingLimit

end Cairoscope.Sierra
