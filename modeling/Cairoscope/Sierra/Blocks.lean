import Cairoscope.Sierra.Program

/-! Basic blocks of Sierra functions, and the loading of a source. -/

namespace Cairoscope.Sierra

/-- The offsets at which a block starts: that of the function, and around each jump. -/
def blockStarts (f : Function) : List Int :=
  f.start :: f.statements.flatMap fun s =>
    match s.action with
    | .jump _ _ first _ _ => [(s.offset : Int) + 1, first]
    | _ => []

def endsBlock (s : Statement) : Bool :=
  match s.action with
  | .assign .. => false
  | _ => true

/-- The edges after a statement; `next` is the statement that follows in the function. -/
def edgesAfter (starts : List Int) (s : Statement) (next : Option Statement) : List Edge :=
  match s.action, next with
  | .jump _ _ first (some second) _, _ =>
    [⟨s.offset, first, .conditionalTrue⟩, ⟨s.offset, second + 1, .conditionalFalse⟩]
  | .jump _ _ first none _, _ => [⟨s.offset, first, .unconditional⟩]
  | .give _, _ => []
  | .assign .., some n =>
    if starts.contains (n.offset : Int) then [⟨s.offset, (s.offset : Int) + 1, .fallthrough⟩] else []
  | .assign .., none => []

/-- The block that is being filled, and whether the next statement opens a new one. -/
structure Cursor where
  finished : List Block
  current : Block
  isFull : Bool

def Block.opened (s : Statement) : Block := ⟨s.offset, [], []⟩

def Block.extend (b : Block) (starts : List Int) (s : Statement) (next : Option Statement) : Block :=
  { b with statements := b.statements ++ [s], edges := b.edges ++ edgesAfter starts s next }

/-- Adds a statement. A statement at which a block starts finishes the block before it; a block that
is full and not finished so is dropped. -/
def Cursor.step (starts : List Int) (c : Cursor) (s : Statement) (next : Option Statement) : Cursor :=
  let isStart := starts.contains (s.offset : Int)
  let finished := if isStart then c.finished ++ [c.current] else c.finished
  let current := if isStart || c.isFull then Block.opened s else c.current
  ⟨finished, current.extend starts s next, endsBlock s⟩

def Cursor.walk (starts : List Int) : Cursor → List Statement → Cursor
  | c, [] => c
  | c, s :: rest => (c.step starts s rest.head?).walk starts rest

def blocksOf (f : Function) : Outcome (List Block) :=
  match f.statements with
  | [] => .error .outOfRange
  | first :: rest =>
    let c := Cursor.walk (blockStarts f) ⟨[], .opened first, true⟩ (first :: rest)
    .ok (c.finished ++ [c.current])

namespace Program

/-- Each function goes up to the start of the next one, the last one to the end. -/
def withStops (functions : List Function) (size : Nat) : List Function :=
  functions.mapIdx fun i f =>
    { f with stop := some (((functions[i + 1]?).map (·.start)).getD size) }

def withStatements (statements : List Statement) (f : Function) : Function :=
  { f with statements := statements.filter fun s =>
      decide (f.start ≤ s.offset) && (f.stop.any fun stop => decide ((s.offset : Int) < stop)) }

def addBlocks (index : Nat) : Load Unit := do
  match (← get).functions[index]? with
  | some f =>
    let blocks ← Run.ofOutcome (blocksOf f)
    modify fun p => { p with functions := p.functions.set index { f with blocks := f.blocks ++ blocks } }
  | none => pure ()

/-- Gives each function its statements and blocks; there has to be a function. -/
def arrange : Load Unit := do
  let p ← get
  if p.functions.isEmpty then throw .outOfRange
  modify fun p => { p with
    functions := (withStops p.functions p.statements.length).map (withStatements p.statements) }
  (List.range p.functions.length).forM addBlocks

/-- Adds a source to the program. What was handled before a fault stays. -/
def load (text : String) : Load Unit := do
  match Source.read? text with
  | none => throw .grammar
  | some s =>
    s.types.forM addType
    s.libfuncs.forM addLibfunc
    s.functions.forM addFunction
    s.commands.forM addStatement
    arrange

end Program

end Cairoscope.Sierra
