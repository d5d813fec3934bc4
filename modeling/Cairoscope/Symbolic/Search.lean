import Cairoscope.Symbolic.Projection

/-! Search for integer solutions of polynomial systems. Equations are solved for an unknown where that
loses no solution; otherwise sample values are tried. Main statement: a model that is found
satisfies the problem. -/

namespace Cairoscope.Symbolic

abbrev Definition := Nat × Polynomial

namespace System

/-- An equation solved for an unknown, best for one that nothing else mentions. -/
def elimination? (cs : System) : Option Definition :=
  (cs.findSome? fun c => c.solvedFor? fun x => cs.uses x == 1).or
    (cs.findSome? fun c => c.solvedFor? fun _ => true)

def smallest (p : Polynomial) : Option (Nat × Int) :=
  p.foldl (fun best t =>
    match t, best with
    | ([x], k), none => some (x, k)
    | ([x], k), some (y, j) => if k.natAbs < j.natAbs then some (x, k) else some (y, j)
    | _, best => best) none

/-- A linear equation in which each coefficient exceeds 1: a new unknown takes up the quotients by
the smallest coefficient, and the remainders stay. -/
def division? (cs : System) (fresh : Nat) : Option Definition :=
  cs.findSome? fun c =>
    if c.demand = .zero && c.poly.isLinear then do
      let (x, a) ← smallest c.poly
      let quotients := c.poly.filterMap fun t =>
        if t.1 = [x] ∨ t.2 / a = 0 then none else some (t.1, t.2 / a)
      return (x, (Polynomial.unknown fresh).sub quotients)
    else none

/-- An equation in one unknown leaves its integer roots. -/
def rootChoices? (cs : System) : Option (List Definition) :=
  cs.findSome? fun c =>
    if c.demand = .zero then
      (c.poly.univariate?).map fun (x, coefficients) =>
        (Roots.integerRoots coefficients).map fun r => (x, .constant r)
    else none

/-- Values next to which a constraint on the unknown alone changes, and 0. -/
def landmarks (cs : System) (x : Nat) : List Int :=
  let alone := cs.flatMap fun c =>
    match c.poly.univariate? with
    | some (y, coefficients) => if y = x then Roots.near (coefficients.length - 1) coefficients else []
    | none => []
  let (low, high) := cs.bounds x
  0 :: (low.toList ++ high.toList ++ alone)

/-- Integers up to a distance from one of the marks, nearest to zero first. -/
def around (marks : List Int) (distance : Nat) : List Int :=
  let points := marks.flatMap fun t =>
    (List.range (2 * distance + 1)).map fun (i : Nat) => t - (distance : Int) + (i : Int)
  points.eraseDups.mergeSort fun a b => decide (a.natAbs ≤ b.natAbs)

/-- Values worth trying for an unknown: those between its bounds that are near a landmark. -/
def samples (cs : System) (x : Nat) : List Int :=
  let (low, high) := cs.bounds x
  (around (cs.landmarks x) (cs.length + 4)).filter fun v =>
    (low.all fun l => decide (l ≤ v)) && (high.all fun h => decide (v ≤ h))

/-- The unknown to try values for: one that a constraint determines alone, else the first. -/
def pivot? (cs : System) : Option Nat :=
  (cs.findSome? fun c => (c.poly.univariate?).map (·.1)).or cs.unknowns.head?

/-- What to substitute next, in the order of trial. Some choice leads to a solution if a
substitution of those that are exact applies and there is a solution. -/
def choices (cs : System) (fresh : Nat) : List Definition :=
  match cs.elimination? with
  | some d => [d]
  | none =>
    match cs.division? fresh with
    | some d => [d]
    | none =>
      match cs.rootChoices? with
      | some ds => ds
      | none =>
        match cs.pivot? with
        | some x => (cs.samples x).map fun v => (x, .constant v)
        | none => []

/-- Tries choices in order. `budget` counts the systems that may still be looked at. -/
def firstOf (attempt : Definition → Nat → Option (List Definition) × Nat) :
    List Definition → Nat → Option (List Definition) × Nat
  | [], budget => (none, budget)
  | d :: rest, budget =>
    match attempt d budget with
    | (some ds, budget) => (some (d :: ds), budget)
    | (none, budget) => firstOf attempt rest budget

/-- Definitions that solve a system, earlier ones in terms of later ones. -/
def search : Nat → Nat → System → Nat → Option (List Definition) × Nat
  | 0, _, _, budget => (none, budget)
  | _, _, _, 0 => (none, 0)
  | depth + 1, fresh, cs, budget + 1 =>
    match cs.reduce? with
    | none => (none, budget)
    | some [] => (some [], budget)
    | some cs =>
      firstOf (fun d budget => search depth (fresh + 1) (cs.substitute d.1 d.2) budget)
        (cs.choices fresh) budget

end System

/-- The values that definitions give, with 0 for what they leave open. -/
def valuesOf (ds : List Definition) : Model :=
  ds.foldr (fun d m =>
    let m := d.2.unknowns.foldl (fun m x => if (m.lookup x).isSome then m else (x, 0) :: m) m
    (d.1, d.2.eval (Model.value m)) :: m) []

/-- How many systems a search looks at before it gives up. -/
def searchBudget : Nat := 20000

def Problem.toSystem (p : Problem) : System := p.map Formula.toConstraint

/-- A model of a problem, if the search finds one. Unknowns that drop out of all constraints have no
value in it. -/
def solve : Solver := fun p =>
  let fresh := p.unknowns.foldl max 0 + 1
  match (p.toSystem.search searchBudget fresh searchBudget).1 with
  | none => none
  | some ds =>
    let m : Model := (valuesOf ds).filter fun e => p.unknowns.contains e.1
    if p.Holds m.value then some m else none

theorem holds_of_solve {p : Problem} {m : Model} (h : solve p = some m) : p.Holds m.value := by
  unfold solve at h
  simp only at h
  split at h
  · simp at h
  · split at h
    · simp_all
    · simp at h

end Cairoscope.Symbolic
