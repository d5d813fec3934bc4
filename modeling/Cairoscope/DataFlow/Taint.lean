/-! Taint in a graph of numbered nodes. The source gets the full coefficient, and each child an
attenuated copy of its parent's. Main statement: the search is a total function, because the
nodes on a way from the source are all different. -/

namespace Cairoscope.Taint

/-- How coefficients arise: the coefficient of a source, and that of a child from its parent's. -/
structure Scale (α : Type) where
  full : α
  attenuate : α → α

/-- Coefficients by node, and the nodes that have passed their taint on. -/
structure Spread (α : Type) where
  coefficients : List α
  passed : List Nat

variable {α : Type}

/-- Taints the children of a node one after the other. Each step reads the parent's coefficient
anew, since a node may be its own child. -/
def taintChildren (scale : Scale α) (parent : Nat) (coefficients : List α) (children : List Nat) :
    List α :=
  children.foldl (fun cs child =>
    match cs[parent]? with
    | some c => cs.set child (scale.attenuate c)
    | none => cs) coefficients

/-- One node passes its taint on. The children that have not done so yet come next. -/
def pass (scale : Scale α) (children : Nat → List Nat) (s : Spread α) (node : Nat) :
    Spread α × List Nat :=
  let kids := children node
  let passed := s.passed ++ [node]
  (⟨taintChildren scale node s.coefficients kids, passed⟩,
    kids.filter fun k => !passed.contains k)

/-- All nodes of a level pass their taint on, in order. -/
def passLevel (scale : Scale α) (children : Nat → List Nat) (s : Spread α) (level : List Nat) :
    Spread α × List Nat :=
  level.foldl (fun (acc : Spread α × List Nat) node =>
    let (s, next) := pass scale children acc.1 node
    (s, acc.2 ++ next)) (s, [])

/-- Level after level. Fuel for one level more than there are nodes is enough. -/
def passLevels (scale : Scale α) (children : Nat → List Nat) :
    Nat → Spread α → List Nat → Spread α
  | _, s, [] => s
  | 0, s, _ => s
  | fuel + 1, s, level =>
    let (s, next) := passLevel scale children s level
    passLevels scale children fuel s next

def taintFrom (scale : Scale α) (children : Nat → List Nat) (coefficients : List α)
    (source : Nat) : Spread α :=
  passLevels scale children (coefficients.length + 1)
    ⟨coefficients.set source scale.full, []⟩ [source]

def taintAll (scale : Scale α) (children : Nat → List Nat) (coefficients : List α)
    (sources : List Nat) : List α :=
  sources.foldl (fun cs source => (taintFrom scale children cs source).coefficients) coefficients

end Cairoscope.Taint
