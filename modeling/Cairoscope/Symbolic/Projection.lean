import Cairoscope.Symbolic.Roots
import Cairoscope.Symbolic.System

/-! Bounds of one unknown that follow from linear inequalities, by elimination of the others. -/

namespace Cairoscope.Symbolic

abbrev Halfspaces := List Polynomial

namespace Halfspaces

/-- Combines two forms in which `y` has coefficients of opposite sign so that `y` cancels. -/
def combine (y : Nat) (up down : Polynomial) : Polynomial :=
  (up.scale (down.coefficient [y]).natAbs).add (down.scale (up.coefficient [y]).natAbs)

/-- Eliminates an unknown. The number of forms can grow, so `limit` cuts what is kept; fewer forms
give weaker bounds. -/
def eliminate (limit : Nat) (y : Nat) (hs : Halfspaces) : Halfspaces :=
  let up := hs.filter fun p => 0 < p.coefficient [y]
  let down := hs.filter fun p => p.coefficient [y] < 0
  let without := hs.filter fun p => p.coefficient [y] = 0
  (without ++ up.flatMap fun u => down.map fun d => combine y u d).take limit

/-- The forms in `x` alone that follow. -/
def onto (limit : Nat) (x : Nat) (hs : Halfspaces) : Halfspaces :=
  let others := ((hs.flatMap fun p => p.unknowns).eraseDups).filter (· ≠ x)
  (others.foldl (fun hs y => eliminate limit y hs) hs).filter fun p => p.coefficient [x] ≠ 0

end Halfspaces

namespace System

/-- The linear inequalities of a system; an equation counts as two. -/
def halfspaces (cs : System) : Halfspaces :=
  cs.flatMap fun c =>
    if c.poly.isLinear then
      match c.demand with
      | .nonnegative => [c.poly]
      | .zero => [c.poly, c.poly.scale (-1)]
      | .nonzero => []
    else []

/-- The smallest and the largest value that the linear constraints leave to an unknown. -/
def bounds (cs : System) (x : Nat) : Option Int × Option Int :=
  let forms := cs.halfspaces.onto 64 x
  let lows := forms.filterMap fun p =>
    let a := p.coefficient [x]
    if 0 < a then some (-((p.rest) / a)) else none
  let highs := forms.filterMap fun p =>
    let a := p.coefficient [x]
    if a < 0 then some (p.rest / (-a)) else none
  (lows.max?, highs.min?)

end System

end Cairoscope.Symbolic
