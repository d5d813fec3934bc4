import Cairoscope.Fault
import Cairoscope.Symbolic.Problem
import Cairoscope.Text.Word

/-! What is asked of a symbolic execution, read from text: comparisons such as `v3>=v4`, values such as
`v0_x=7`, and names of unknowns. The first place in a text that has the form counts; the rest is ignored. -/

namespace Cairoscope.Symbolic

inductive Bound
  | integer (n : Int)
  | named (name : String)
  deriving DecidableEq, Repr

structure Comparison where
  name : String
  relation : Relation
  bound : Bound
  deriving DecidableEq, Repr

structure Request where
  comparisons : List Comparison
  values : List (String × Int)
  solves : List String
  deriving DecidableEq, Repr

-- A form reads what stands at the start of a text, and gives it with the text after it.

/-- The letter `v` and one to four digits. -/
def numbered : List Char → Option (List Char × List Char)
  | 'v' :: rest =>
    let digits := (rest.takeWhile Text.isDigit).take 4
    if digits.isEmpty then none else some ('v' :: digits, rest.drop digits.length)
  | _ => none

/-- An underscore and a word, if they are there. -/
def label : List Char → List Char × List Char
  | '_' :: rest =>
    match rest.takeWhile Text.isWord with
    | [] => ([], '_' :: rest)
    | word => ('_' :: word, rest.dropWhile Text.isWord)
  | cs => ([], cs)

def nameAt (cs : List Char) : Option (String × List Char) := do
  let (head, rest) ← numbered cs
  let (tail, rest) := label rest
  return (String.ofList (head ++ tail), rest)

def relationAt : List Char → Option (Relation × List Char)
  | '=' :: '=' :: rest => some (.equal, rest)
  | '!' :: '=' :: rest => some (.distinct, rest)
  | '>' :: '=' :: rest => some (.atLeast, rest)
  | '>' :: rest => some (.greater, rest)
  | '<' :: '=' :: rest => some (.atMost, rest)
  | '<' :: rest => some (.less, rest)
  | _ => none

def numberAt (cs : List Char) : Option (Int × List Char) :=
  match cs.takeWhile Text.isDigit with
  | [] => none
  | digits =>
    let n := digits.foldl (fun n c => 10 * n + (Text.digitValue? c).getD 0) 0
    some ((n : Int), cs.dropWhile Text.isDigit)

def boundAt (cs : List Char) : Option (Bound × List Char) :=
  match numberAt cs with
  | some (n, rest) => some (.integer n, rest)
  | none => (numbered cs).map fun (name, rest) => (.named (String.ofList name), rest)

def comparisonAt (cs : List Char) : Option (Comparison × List Char) := do
  let (name, rest) ← nameAt cs
  let (relation, rest) ← relationAt rest
  let (bound, rest) ← boundAt rest
  return (⟨name, relation, bound⟩, rest)

def valueAt (cs : List Char) : Option ((String × Int) × List Char) := do
  let (name, rest) ← nameAt cs
  match rest with
  | '=' :: rest => do
    let (n, rest) ← numberAt rest
    return ((name, n), rest)
  | _ => none

def firstMatch {α : Type} (form : List Char → Option (α × List Char)) : List Char → Option α
  | [] => none
  | c :: rest =>
    match form (c :: rest) with
    | some (a, _) => some a
    | none => firstMatch form rest

def readAll {α : Type} (form : List Char → Option (α × List Char)) (texts : List String) : Outcome (List α) :=
  texts.mapM fun t =>
    match firstMatch form t.toList with
    | some a => .ok a
    | none => .error .outOfRange

/-- Reads a request; a text in which its form is not found is a fault. -/
def Request.read (comparisons values solves : List String) : Outcome Request := do
  return ⟨← readAll comparisonAt comparisons, ← readAll valueAt values, ← readAll nameAt solves⟩

end Cairoscope.Symbolic
