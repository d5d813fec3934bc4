/-! Where a polynomial in one unknown changes its sign. Between two neighbouring roots of its derivative a
polynomial is monotone, so bisection finds what lies there. Coefficients start with the constant
term. -/

namespace Cairoscope.Symbolic.Roots

def eval (cs : List Int) (x : Int) : Int := cs.foldr (fun c acc => c + x * acc) 0

def derivative (cs : List Int) : List Int := (cs.mapIdx fun i c => (i : Int) * c).drop 1

/-- Every real root is smaller than this in absolute value. -/
def bound (cs : List Int) : Int := 1 + (cs.map Int.natAbs).foldl max 0

/-- Where the sign changes between `low` and `high`: the last integer with the sign of `low`, if it
changes once there. Each step halves the distance. -/
def bisect (cs : List Int) : Nat → Int → Int → Int
  | 0, low, _ => low
  | n + 1, low, high =>
    let middle := (low + high) / 2
    if (eval cs middle).sign = (eval cs low).sign then bisect cs n middle high
    else bisect cs n low middle

/-- Integers next to the sign changes between neighbouring marks. -/
def between (cs : List Int) : List Int → List Int
  | a :: b :: rest =>
    let found := if (eval cs a).sign = (eval cs b).sign then []
      else [bisect cs ((b - a).natAbs.log2 + 1) a b]
    found ++ between cs (b :: rest)
  | _ => []

/-- Integers next to the real roots: each root is at most one above one of them. -/
def near : Nat → List Int → List Int
  | 0, _ => []
  | degree + 1, cs =>
    let turns := near degree (derivative cs)
    let b := bound cs
    let marks := (-b :: b :: turns.flatMap fun t => [t, t + 1]).mergeSort
    (turns ++ between cs marks).eraseDups

def integerRoots (cs : List Int) : List Int :=
  let points := (near (cs.length - 1) cs).flatMap fun t => [t - 1, t, t + 1]
  points.eraseDups.filter fun x => eval cs x = 0

end Cairoscope.Symbolic.Roots
