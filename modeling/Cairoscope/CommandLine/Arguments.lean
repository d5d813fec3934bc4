import Cairoscope.Text.Digit

/-! Arguments of a command line: switches, their values, and a file. A switch may be shortened as long
as only one begins that way, a value may be attached to it, and switches of one letter that take no
value may be joined. -/

namespace Cairoscope.CommandLine

inductive Arity
  | flag
  | one
  | optional
  | any
  | many
  deriving DecidableEq, Repr

inductive Use
  | text
  | oneOf (words : List String)
  /-- A file to read, which has to be there. -/
  | input
  /-- A file to write, which is emptied at once. -/
  | output
  /-- A request for help, which ends the reading. -/
  | help
  deriving DecidableEq, Repr

structure Switch where
  /-- The first name stands for the switch. -/
  names : List String
  arity : Arity
  use : Use
  deriving DecidableEq, Repr

/-- What a tool accepts: switches, and possibly a file to read. -/
structure Usage where
  switches : List Switch
  takesFile : Bool

inductive Token
  | operand (text : String)
  | switch (s : Switch) (name : String) (attached : Option String)
  | unknown
  /-- Two dashes, after which there are no switches. -/
  | divider
  deriving DecidableEq, Repr

/-- What was given: values by switch in the order of the arguments, and the file. -/
structure Given where
  values : List (String × List String)
  file : Option String
  /-- The files that were opened for writing. -/
  opened : List String
  /-- Whether there was an argument of no use. -/
  hasStray : Bool
  deriving DecidableEq, Repr

inductive Verdict
  | understood
  | help
  | wrong
  deriving DecidableEq, Repr

structure Reading where
  given : Given
  verdict : Verdict
  deriving DecidableEq, Repr

/-- How many of the operands that follow a switch are its values; nothing if there are too few. -/
def Arity.taken? (a : Arity) (following : Nat) : Option Nat :=
  match a with
  | flag => some 0
  | one => if following = 0 then none else some 1
  | optional => some (min following 1)
  | any => some following
  | many => if following = 0 then none else some following

def Token.isOperand : Token → Bool
  | operand _ => true
  | _ => false

def Token.text : Token → String
  | operand t => t
  | _ => ""

namespace Usage

def named? (u : Usage) (name : String) : Option Switch :=
  u.switches.find? fun s => s.names.contains name

def names (u : Usage) : List (String × Switch) :=
  u.switches.flatMap fun s => s.names.map fun n => (n, s)

/-- The text before and after the first equals sign. -/
def cutEquals? (cs : List Char) : Option (String × String) :=
  match cs.dropWhile (· ≠ '=') with
  | [] => none
  | _ :: rest => some (String.ofList (cs.takeWhile (· ≠ '=')), String.ofList rest)

def begins (text name : String) : Bool := text.toList.isPrefixOf name.toList

def candidates (u : Usage) (text : String) : List Token :=
  match text.toList with
  | '-' :: '-' :: _ =>
    let (head, attached) := match cutEquals? text.toList with
      | some (head, tail) => (head, some tail)
      | none => (text, none)
    u.names.filterMap fun (n, s) => if begins head n then some (.switch s n attached) else none
  | '-' :: c :: rest =>
    u.names.filterMap fun (n, s) =>
      if n = String.ofList ['-', c] then some (.switch s n (some (String.ofList rest)))
      else if begins text n then some (.switch s n none)
      else none
  | _ => []

def isFigures (cs : List Char) : Bool := !cs.isEmpty && cs.all Text.isDigit

/-- A minus sign and a decimal number. -/
def isNegative : List Char → Bool
  | '-' :: rest =>
    match rest.dropWhile (· ≠ '.') with
    | [] => isFigures rest
    | _ :: fraction => isFigures fraction && (rest.takeWhile (· ≠ '.')).all Text.isDigit
  | _ => false

/-- What a text that is no name of a switch is; nothing if it can mean two. -/
def shortened? (u : Usage) (text : String) : Option Token :=
  let attached := (cutEquals? text.toList).bind fun (head, tail) =>
    (u.named? head).map fun s => Token.switch s head (some tail)
  match attached, u.candidates text with
  | some t, _ => some t
  | none, [t] => some t
  | none, [] =>
    some (if isNegative text.toList || text.toList.contains ' ' then .operand text else .unknown)
  | none, _ => none

/-- What an argument is; nothing if it can mean two switches. -/
def token? (u : Usage) (text : String) : Option Token :=
  if text.toList.head? = some '-' then
    match u.named? text with
    | some s => some (.switch s text none)
    | none => if text = "-" then some (.operand text) else u.shortened? text
  else some (.operand text)

def tokens? (u : Usage) : List String → Option (List Token)
  | [] => some []
  | a :: rest =>
    if a = "--" then some (.divider :: rest.map .operand)
    else do return (← u.token? a) :: (← tokens? u rest)

/-- Switches of one letter that are joined: those that take no value, the last one, and its value if
there is text left for it. -/
def chain? (u : Usage) (s : Switch) : List Char → Option (List Switch × Switch × Option String)
  | [] => if s.arity = .flag then none else some ([], s, some "")
  | c :: rest =>
    if s.arity = .flag then do
      let next ← u.named? (String.ofList ['-', c])
      if rest.isEmpty then return ([s], next, none)
      let (flags, last, value) ← chain? u next rest
      return (s :: flags, last, value)
    else some ([], s, some (String.ofList (c :: rest)))

/-- The switches that an argument stands for. Only after a single dash are they joined. -/
def apart? (u : Usage) (s : Switch) (name : String) (attached : Option String) :
    Option (List Switch × Switch × Option String) :=
  match attached with
  | none => some ([], s, none)
  | some t =>
    if s.arity = .flag ∧ begins "--" name then none else u.chain? s t.toList

end Usage

namespace Given

def empty : Given := ⟨[], none, [], false⟩

/-- Notes a switch with its values, if they are what it asks for. -/
def note? (isFile : String → Bool) (g : Given) (s : Switch) (values : List String) : Option Given :=
  let noted := { g with values := g.values ++ [(s.names.headD "", values)] }
  match s.use with
  | .oneOf words => if values.all words.contains then some noted else none
  | .input => if values.all fun f => isFile f || g.opened.contains f then some noted else none
  | .output => some { noted with opened := noted.opened ++ values }
  | .text | .help => some noted

/-- Notes switches in turn, up to one that ends the reading. -/
def noteAll (isFile : String → Bool) : List (Switch × List String) → Given → Given × Option Verdict
  | [], g => (g, none)
  | (s, values) :: rest, g =>
    if s.use = .help then (g, some .help)
    else match g.note? isFile s values with
      | some g => noteAll isFile rest g
      | none => (g, some .wrong)

def has (g : Given) (name : String) : Bool := g.values.any fun e => e.1 == name

def values? (g : Given) (name : String) : Option (List String) :=
  (g.values.reverse.find? fun e => e.1 == name).map (·.2)

def value? (g : Given) (name : String) : Option String := (g.values? name).bind List.head?

end Given

/-- A divider that comes right after the file belongs to it. -/
def skipDivider : List Token → List Token
  | .divider :: rest => rest
  | tokens => tokens

theorem length_skipDivider (tokens : List Token) : (skipDivider tokens).length ≤ tokens.length := by
  unfold skipDivider
  split <;> simp

namespace Usage

/-- Takes the arguments in order. Strays are reported at the end, all else that is wrong at once. -/
def take (u : Usage) (isFile : String → Bool) : List Token → Given → Reading
  | [], g => ⟨g, if g.hasStray || (u.takesFile && g.file.isNone) then .wrong else .understood⟩
  | .unknown :: rest, g => take u isFile rest { g with hasStray := true }
  | .divider :: rest, g =>
    let useful := u.takesFile && g.file.isNone && !rest.isEmpty
    take u isFile rest { g with hasStray := g.hasStray || !useful }
  | .operand t :: rest, g =>
    if u.takesFile && g.file.isNone then
      if isFile t || g.opened.contains t then
        take u isFile (skipDivider rest) { g with file := some t }
      else ⟨g, .wrong⟩
    else take u isFile rest { g with hasStray := true }
  | .switch s name attached :: rest, g =>
    let following := (rest.takeWhile Token.isOperand).map Token.text
    let parts := do
      let (flags, last, value) ← u.apart? s name attached
      let count ← match value with
        | some _ => some 0
        | none => last.arity.taken? following.length
      let values := match value with
        | some v => [v]
        | none => following.take count
      return (flags.map (fun f => (f, [])) ++ [(last, values)], count)
    match parts with
    | none => ⟨g, .wrong⟩
    | some (noted, count) =>
      match g.noteAll isFile noted with
      | (g, some verdict) => ⟨g, verdict⟩
      | (g, none) => take u isFile (rest.drop count) g
termination_by tokens => tokens.length
decreasing_by
  all_goals simp only [List.length_cons, List.length_drop]
  all_goals have := length_skipDivider rest
  all_goals omega

def read (u : Usage) (isFile : String → Bool) (arguments : List String) : Reading :=
  match u.tokens? arguments with
  | some tokens => u.take isFile tokens Given.empty
  | none => ⟨Given.empty, .wrong⟩

end Usage

def helpSwitch : Switch := ⟨["-h", "--help"], .flag, .help⟩

/-- The word that selects a tool, the arguments after it, and whether there was a stray one before. -/
def command (stray : Bool) : List String → Except Verdict (String × List String × Bool)
  | [] => .error .wrong
  | a :: rest =>
    let u : Usage := ⟨[helpSwitch], false⟩
    if a = "--" then .error .wrong
    else match u.token? a with
      | some (.operand t) => .ok (t, rest, stray)
      | some (.switch s name attached) =>
        .error (if (u.apart? s name attached).isSome then .help else .wrong)
      | some _ => command true rest
      | none => .error .wrong

end Cairoscope.CommandLine
