import Cairoscope.Sierra.Syntax
import Cairoscope.Text.LineEnd

/-! Reading Sierra. Blanks and comments may stand between any two words; a comment is two slashes and at
least one more character of the line. A list is separated by a comma and one space. -/

namespace Cairoscope.Sierra

/-- A reader takes what it reads from the front of a text, or fails. -/
abbrev Reader := StateT (List Char) Option

namespace Reader

def isSpace (c : Char) : Bool :=
  c = ' ' || c = '\t' || c = '\n' || c = '\r' || c = '\x0c'

def startsComment : List Char → Bool
  | '/' :: '/' :: c :: _ => c ≠ '\n' && c ≠ '\r'
  | _ => false

def skip (inComment : Bool) : List Char → List Char
  | [] => []
  | c :: rest =>
    if inComment then skip (c ≠ '\n' && c ≠ '\r') rest
    else if isSpace c then skip false rest
    else if startsComment (c :: rest) then skip true rest
    else c :: rest

def after? : List Char → List Char → Option (List Char)
  | [], cs => some cs
  | _ :: _, [] => none
  | p :: ps, c :: cs => if p = c then after? ps cs else none

/-- Exactly this text; a word may follow without a blank. -/
def mark (s : String) : Reader Unit := fun cs =>
  (after? s.toList (skip false cs)).map fun rest => ((), rest)

def isLabelStart (c : Char) : Bool :=
  (decide ('a' ≤ c) && decide (c ≤ 'z')) || (decide ('A' ≤ c) && decide (c ≤ 'Z')) || c = '_'

def isFigure (c : Char) : Bool := decide ('0' ≤ c) && decide (c ≤ '9')

/-- A letter or underscore, then letters, underscores and digits. -/
def label : Reader String := fun cs =>
  match skip false cs with
  | c :: rest =>
    if isLabelStart c then
      let more := fun d => isLabelStart d || isFigure d
      some (String.ofList (c :: rest.takeWhile more), rest.dropWhile more)
    else none
  | [] => none

/-- Digits that start with no zero. -/
def positive (cs : List Char) : Option (Nat × List Char) :=
  match cs with
  | '0' :: _ => none
  | _ =>
    match cs.takeWhile isFigure with
    | [] => none
    | ds => some (ds.foldl (fun n d => 10 * n + (d.toNat - '0'.toNat)) 0, cs.dropWhile isFigure)

/-- Zero, or digits that start with no zero, perhaps after a minus sign. -/
def integer : Reader Int := fun cs =>
  match skip false cs with
  | '0' :: rest => some (0, rest)
  | '-' :: rest => (positive rest).map fun (n, rest) => (-(n : Int), rest)
  | cs => (positive cs).map fun (n, rest) => ((n : Int), rest)

/-- As many as can be read, `limit` at most. -/
def many {α : Type} (item : Reader α) : Nat → Reader (List α)
  | 0 => pure []
  | limit + 1 => (do return (← item) :: (← many item limit)) <|> pure []

/-- One or more, separated. -/
def listed {α : Type} (limit : Nat) (item : Reader α) : Reader (List α) := do
  let first ← item
  return first :: (← many (do mark ", "; item) limit)

/-- Any number, separated. -/
def listing {α : Type} (limit : Nat) (item : Reader α) : Reader (List α) :=
  listed limit item <|> pure []

def path (limit : Nat) : Reader (List String) := do
  let first ← label
  return first :: (← many (do mark "::"; label) limit)

def bracketed : Reader Int := do
  mark "["
  let n ← integer
  mark "]"
  return n

def argument (ident : Reader Ident) : Reader Argument :=
  (do mark "user@"; return .function (← ident)) <|>
  (do mark "ut@"; return .userType (← ident)) <|>
  (do mark "lib@"; return .libfunc (← ident)) <|>
  (do mark "()"; return .unit) <|>
  (do return .integer (← integer)) <|>
  (do return .type (← ident))

def enclosed (limit : Nat) (ident : Reader Ident) (opening : List String) (b : Brackets)
    (closing : String) : Reader (Brackets × List Argument) := do
  opening.forM mark
  let arguments ← listed limit (argument ident)
  mark closing
  return (b, arguments)

/-- An identifier with at most `limit` levels of arguments, each with at most as many items. -/
def ident : Nat → Reader Ident
  | 0 => failure
  | limit + 1 =>
    (do return .number (← bracketed)) <|>
    (do
      let p ← path limit
      let inner := ident limit
      (do
        let (b, arguments) ← enclosed limit inner ["::", "<("] .tuple ")>" <|>
          enclosed limit inner ["::", "<"] .path ">" <|> enclosed limit inner ["<"] .angle ">"
        return .applied p b arguments) <|> return .label p)

def generic (limit : Nat) : Reader Generic :=
  (do return .number (← bracketed)) <|> (do return .label (← path limit))

def longId (limit : Nat) : Reader LongId := do
  let g ← generic limit
  (do
    mark "<"
    let arguments ← listing limit (argument (ident limit))
    mark ">"
    return ⟨g, some arguments⟩) <|> return ⟨g, none⟩

def declaration (keyword : String) (limit : Nat) : Reader Declaration := do
  mark keyword
  let id ← ident limit
  mark "="
  let long ← longId limit
  mark ";"
  return ⟨id, long⟩

def var : Reader VarId := (do return .number (← bracketed)) <|> (do return .label (← label))

def vars (limit : Nat) : Reader (List VarId) := do
  mark "("
  let vs ← listing limit var
  mark ")"
  return vs

def target : Reader Target :=
  (do mark "fallthrough"; return .next) <|> (do return .statement (← integer))

def branch (limit : Nat) : Reader Branch := do
  let t ← target
  return ⟨t, ← vars limit⟩

def invocation (limit : Nat) : Reader Command := do
  let libfunc ← ident limit
  let arguments ← vars limit
  (do
    mark "->"
    let results ← vars limit
    mark ";"
    return .invoke libfunc arguments results) <|>
  (do
    mark "\x7b"
    let branches ← many (branch limit) limit
    mark "\x7d"
    mark ";"
    return .jump libfunc arguments branches)

def command (limit : Nat) : Reader Command :=
  (do
    mark "return"
    let vs ← vars limit
    mark ";"
    return .give vs) <|> invocation limit

def param (limit : Nat) : Reader Param := do
  let v ← var
  mark ":"
  return ⟨v, ← ident limit⟩

def function (limit : Nat) : Reader FunctionDeclaration := do
  let id ← ident limit
  mark "@"
  let start ← integer
  mark "("
  let params ← listing limit (param limit)
  mark ")"
  mark "->"
  mark "("
  let returns ← listing limit (ident limit)
  mark ")"
  mark ";"
  return ⟨id, start, params, returns⟩

def ending : Reader Unit := fun cs =>
  match skip false cs with
  | [] => some ((), [])
  | _ => none

def source (limit : Nat) : Reader Source := do
  let types ← many (declaration "type" limit) limit
  let libfuncs ← many (declaration "libfunc" limit) limit
  let commands ← many (command limit) limit
  let functions ← many (function limit) limit
  ending
  return ⟨types, libfuncs, commands, functions⟩

end Reader

/-- Reads a source. No list in it is longer, and no nesting deeper, than the text. -/
def Source.read? (text : String) : Option Source :=
  let cs := Text.unifyLineEnds text.toList
  ((Reader.source (cs.length + 1)).run cs).map (·.1)

end Cairoscope.Sierra
