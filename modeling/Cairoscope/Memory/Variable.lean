/-! Variables in static single assignment form. Each cell of memory is one variable, which is named
by its number and, for arguments and results, by a label. Values refer to other variables by their
numbers. -/

namespace Cairoscope

inductive Operator
  | addition
  | multiplication
  deriving DecidableEq, Repr

inductive Operand
  /-- One variable, or several of which one is meant. -/
  | cells (numbers : List Nat)
  | integer (n : Int)
  deriving DecidableEq, Repr

/-- An argument of a call: the variable in the cell, or the variables that meet in it. -/
inductive CallArgument
  | single (number : Nat)
  | merged (numbers : List Nat)
  deriving DecidableEq, Repr

def CallArgument.numbers : CallArgument → List Nat
  | single n => [n]
  | merged ns => ns

structure CallResult where
  /-- The called function, by its place in the contract. -/
  function : Nat
  position : Nat
  returnName : String
  arguments : List CallArgument
  /-- How many calls were made before this one. -/
  callNumber : Nat
  deriving DecidableEq, Repr

inductive Value
  | integer (n : Int)
  /-- A copy of a variable. -/
  | copy (numbers : List Nat)
  /-- The sum or product of two operands. -/
  | combined (left : Operand) (op : Operator) (right : Operand)
  /-- What stands in memory at a variable plus an offset. -/
  | load (base : List Nat) (offset : Int)
  | result (call : CallResult)
  deriving DecidableEq, Repr

namespace Value

/-- The operands of a value, in order; a call has none. -/
def operands : Value → List Operand
  | integer n => [.integer n]
  | copy ns => [.cells ns]
  | combined l _ r => [l, r]
  | load base offset => [.cells base, .integer offset]
  | result _ => []

def variableOperands (v : Value) : List (List Nat) :=
  v.operands.filterMap fun
    | .cells ns => some ns
    | .integer _ => none

end Value

structure Variable where
  number : Nat
  label : Option String
  /-- The function that the variable belongs to, by its place in the contract. -/
  function : Option Nat
  block : Option Nat
  isResult : Bool
  isArgument : Bool
  isReturned : Bool
  value : Option Value
  deriving DecidableEq, Repr

namespace Variable

def nameOf (number : Nat) : Option String → String
  | some label => "v" ++ toString number ++ "_" ++ label
  | none => "v" ++ toString number

def name (v : Variable) : String := nameOf v.number v.label

def blank (number : Nat) : Variable := ⟨number, none, none, none, false, false, false, none⟩

end Variable

end Cairoscope
