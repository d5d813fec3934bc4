import Cairoscope.Fault
import Cairoscope.Instruction.Basic
import Cairoscope.Memory.Variable

/-! The memory of a decompilation: one variable a cell, and the positions of `ap` and `fp`. Access to
a cell past the end creates the cells up to it. Variables are numbered by a counter of their own, in
the order in which they are made. -/

namespace Cairoscope

structure Memory where
  cells : List Variable
  ap : Int
  fp : Int
  /-- The number of the next variable. -/
  counter : Nat
  deriving DecidableEq, Repr

/-- A cell that was looked up, and whether it was created for it. -/
structure Access where
  isNew : Bool
  number : Nat
  deriving DecidableEq, Repr

namespace Memory

def empty : Memory := ⟨[], 0, 0, 0⟩

def size (m : Memory) : Nat := m.cells.length

/-- Appends a variable; `f` fills in what is known about it. -/
def allocate (m : Memory) (f : Variable → Variable) : Memory :=
  { m with cells := m.cells ++ [f (Variable.blank m.counter)], counter := m.counter + 1 }

/-- Appends nameless variables, one after the other. -/
def pad (m : Memory) : Nat → Memory
  | 0 => m
  | k + 1 => (m.allocate id).pad k

def growTo (m : Memory) (n : Nat) : Memory := m.pad (n - m.size)

def registerAt (m : Memory) : Register → Int
  | .ap => m.ap
  | .fp => m.fp

/-- The cell at a position. A negative position counts from the end. -/
def reach (m : Memory) (position : Int) : Outcome (Memory × Access) :=
  if position < 0 then
    let p := position + m.size
    if p < 0 then .error .outOfRange else .ok (m, ⟨false, p.toNat⟩)
  else
    let p := position.toNat
    if p < m.size then .ok (m, ⟨false, p⟩) else .ok (m.growTo (p + 1), ⟨true, p⟩)

def access (m : Memory) (r : Register) (offset : Int) : Outcome (Memory × Access) :=
  m.reach (m.registerAt r + offset)

def moveAp (m : Memory) (n : Int) : Memory := { m with ap := m.ap + n }

def moveFp (m : Memory) (n : Int) : Memory := { m with fp := m.fp + n }

def update (m : Memory) (number : Nat) (f : Variable → Variable) : Memory :=
  { m with cells := m.cells.modify number f }

def nameOf (m : Memory) (number : Nat) : String :=
  match m.cells[number]? with
  | some v => v.name
  | none => Variable.nameOf number none

def push (m : Memory) (f : Variable → Variable) : Memory := (m.allocate f).moveAp 1

/-- Enters a function: its arguments, the frame of the caller and the return address are pushed,
and the frame starts after them. -/
def enter (m : Memory) (function : Option Nat) (arguments : List String) (block : Nat) : Memory :=
  let m := arguments.foldl (fun m name => m.push fun v =>
    { v with label := some name, function, block := some block, isArgument := true }) m
  let m := m.push fun v => { v with label := some "callers_function_frame", block := some block }
  let m := m.push fun v => { v with label := some "return_instruction", block := some block }
  { m with fp := m.ap }

def forget (m : Memory) : Memory := { m with cells := m.cells.map fun v => { v with value := none } }

end Memory

end Cairoscope
