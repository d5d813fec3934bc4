/-! Polynomials with integer coefficients in numbered unknowns. -/

namespace Cairoscope.Symbolic

/-- A product of unknowns, in increasing order and with repetition. -/
abbrev Monomial := List Nat

/-- A sum of monomials with coefficients. Monomials are distinct, and no coefficient is zero. -/
abbrev Polynomial := List (Monomial × Int)

namespace Monomial

def insert (x : Nat) : Monomial → Monomial
  | [] => [x]
  | y :: rest => if x ≤ y then x :: y :: rest else y :: insert x rest

def mul (a b : Monomial) : Monomial := a.foldr insert b

end Monomial

namespace Polynomial

def constant (n : Int) : Polynomial := if n = 0 then [] else [([], n)]

def unknown (x : Nat) : Polynomial := [([x], 1)]

def addTerm (mono : Monomial) (c : Int) : Polynomial → Polynomial
  | [] => if c = 0 then [] else [(mono, c)]
  | (n, d) :: rest =>
    if n = mono then if c + d = 0 then rest else (n, c + d) :: rest
    else (n, d) :: addTerm mono c rest

def add (p q : Polynomial) : Polynomial := p.foldl (fun acc t => addTerm t.1 t.2 acc) q

def scale (c : Int) (p : Polynomial) : Polynomial :=
  if c = 0 then [] else p.map fun t => (t.1, c * t.2)

def mul (p q : Polynomial) : Polynomial :=
  p.foldl (fun acc s => q.foldl (fun acc t => addTerm (s.1.mul t.1) (s.2 * t.2) acc) acc) []

def sub (p q : Polynomial) : Polynomial := add p (scale (-1) q)

def unknowns (p : Polynomial) : List Nat := (p.flatMap (·.1)).eraseDups

def coefficient (p : Polynomial) (mono : Monomial) : Int := (p.lookup mono).getD 0

def rest (p : Polynomial) : Int := p.coefficient []

def isConstant (p : Polynomial) : Bool := p.all fun t => t.1.isEmpty

def isLinear (p : Polynomial) : Bool := p.all fun t => t.1.length ≤ 1

def substitute (p : Polynomial) (x : Nat) (e : Polynomial) : Polynomial :=
  if p.unknowns.contains x then
    p.foldl (fun acc t =>
      add (t.1.foldr (fun y q => mul (if y = x then e else unknown y) q) (constant t.2)) acc) []
  else p

def eval (m : Nat → Int) (p : Polynomial) : Int :=
  p.foldl (fun acc t => acc + t.2 * t.1.foldl (fun v x => v * m x) 1) 0

/-- The greatest common divisor of the coefficients other than the constant term. -/
def content (p : Polynomial) : Nat :=
  p.foldl (fun g t => if t.1.isEmpty then g else Nat.gcd g t.2.natAbs) 0

/-- If `p` has one unknown only: the unknown, and the coefficients from the constant term up. -/
def univariate? (p : Polynomial) : Option (Nat × List Int) :=
  match p.unknowns with
  | [x] =>
    let degree := p.foldl (fun d t => max d t.1.length) 0
    some (x, (List.range (degree + 1)).map fun i => p.coefficient (List.replicate i x))
  | _ => none

end Polynomial

end Cairoscope.Symbolic
