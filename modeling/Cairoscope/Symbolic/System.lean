import Cairoscope.Symbolic.Polynomial
import Cairoscope.Symbolic.Problem

/-! Systems of polynomial constraints. -/

namespace Cairoscope.Symbolic

inductive Demand
  | zero
  | nonzero
  | nonnegative
  deriving DecidableEq, Repr

structure Constraint where
  demand : Demand
  poly : Polynomial

abbrev System := List Constraint

def Term.toPolynomial : Term → Polynomial
  | unknown x => .unknown x
  | integer n => .constant n
  | sum a b => a.toPolynomial.add b.toPolynomial
  | product a b => a.toPolynomial.mul b.toPolynomial

def Formula.toConstraint (f : Formula) : Constraint :=
  let l := f.left.toPolynomial
  let r := f.right.toPolynomial
  let one := Polynomial.constant 1
  match f.relation with
  | .equal => ⟨.zero, l.sub r⟩
  | .distinct => ⟨.nonzero, l.sub r⟩
  | .less => ⟨.nonnegative, (r.sub l).sub one⟩
  | .atMost => ⟨.nonnegative, r.sub l⟩
  | .greater => ⟨.nonnegative, (l.sub r).sub one⟩
  | .atLeast => ⟨.nonnegative, l.sub r⟩

def Demand.allows : Demand → Int → Bool
  | zero, n => n = 0
  | nonzero, n => n ≠ 0
  | nonnegative, n => 0 ≤ n

namespace Constraint

/-- A constraint without unknowns is true or false. -/
def decided? (c : Constraint) : Option Bool :=
  if c.poly.isConstant then some (c.demand.allows c.poly.rest) else none

/-- An equation whose coefficients have a common divisor that its constant term lacks. -/
def isImpossible (c : Constraint) : Bool :=
  c.demand = .zero && decide (c.poly.content ≠ 0) && decide (c.poly.rest % c.poly.content ≠ 0)

/-- Divides an equation by the common divisor of its coefficients. -/
def reduced (c : Constraint) : Constraint :=
  if c.demand = .zero && decide (1 < c.poly.content) then
    { c with poly := c.poly.map fun t => (t.1, t.2 / c.poly.content) }
  else c

def substitute (c : Constraint) (x : Nat) (e : Polynomial) : Constraint :=
  { c with poly := c.poly.substitute x e }

def mentions (x : Nat) (c : Constraint) : Bool := c.poly.unknowns.contains x

/-- An unknown with coefficient 1 or -1 that stands alone in an equation, with what it is equal to. -/
def solvedFor? (c : Constraint) (usable : Nat → Bool) : Option (Nat × Polynomial) :=
  if c.demand = .zero then
    c.poly.findSome? fun t =>
      match t with
      | ([x], k) =>
        let others := c.poly.filter fun s => s.1 ≠ [x]
        if k.natAbs = 1 && usable x && !(Polynomial.unknowns others).contains x then
          some (x, Polynomial.scale (-k) others)
        else none
      | _ => none
  else none

end Constraint

namespace System

/-- Drops what holds anyway; nothing if a constraint cannot hold. -/
def reduce? (cs : System) : Option System :=
  cs.foldr (fun c acc => do
    let rest ← acc
    match c.decided? with
    | some true => some rest
    | some false => none
    | none => if c.isImpossible then none else some (c.reduced :: rest)) (some [])

def substitute (cs : System) (x : Nat) (e : Polynomial) : System := cs.map (·.substitute x e)

def unknowns (cs : System) : List Nat := (cs.flatMap fun c => c.poly.unknowns).eraseDups

/-- How many constraints mention an unknown. -/
def uses (cs : System) (x : Nat) : Nat := cs.countP (·.mentions x)

end System

end Cairoscope.Symbolic
