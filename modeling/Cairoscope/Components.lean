import Cairoscope.Fault

/-! Strongly connected components of a graph given by adjacency lists. A vertex may also be named
by a negative number, which counts from the end. -/

namespace Cairoscope.Components

/-- The position that a vertex names in a graph of `n` vertices. -/
def position (n : Nat) (v : Int) : Outcome Nat :=
  let p := if v < 0 then v + n else v
  if 0 ≤ p ∧ p < n then .ok p.toNat else .error .outOfRange

/-- What the first search keeps: visited vertices, vertices by decreasing finishing time, and the
edges turned round. -/
structure Search where
  visited : List Bool
  order : List Int
  transposed : List (List Int)

mutual

def visit (graph : List (List Int)) : Nat → Search → Int → Outcome Search
  | 0, s, _ => .ok s
  | fuel + 1, s, v => do
    let p ← position graph.length v
    if s.visited.getD p false then return s
    let s := { s with visited := s.visited.set p true }
    let s ← visitAll graph fuel v s (graph.getD p [])
    return { s with order := v :: s.order }

/-- Visits the neighbours of `v` one after the other and turns the edges to them round. -/
def visitAll (graph : List (List Int)) (fuel : Nat) (v : Int) (s : Search) :
    List Int → Outcome Search
  | [] => .ok s
  | w :: ws => do
    let s ← visit graph fuel s w
    let q ← position graph.length w
    visitAll graph fuel v
      { s with transposed := s.transposed.set q (s.transposed.getD q [] ++ [v]) } ws

end

/-- What the second search keeps: vertices not yet assigned, and the root of each component. -/
structure Assignment where
  pending : List Bool
  roots : List Int

mutual

/-- Gives a vertex and all that lead to it the same root. -/
def assign (transposed : List (List Int)) (root : Int) :
    Nat → Assignment → Int → Outcome Assignment
  | 0, a, _ => .ok a
  | fuel + 1, a, v => do
    let p ← position transposed.length v
    if a.pending.getD p false then
      assignAll transposed root fuel ⟨a.pending.set p false, a.roots.set p root⟩
        (transposed.getD p [])
    else return a

def assignAll (transposed : List (List Int)) (root : Int) (fuel : Nat) (a : Assignment) :
    List Int → Outcome Assignment
  | [] => .ok a
  | w :: ws => do assignAll transposed root fuel (← assign transposed root fuel a w) ws

end

/-- The root of the component of each vertex. Two vertices have the same root exactly when each
leads to the other. -/
def roots (graph : List (List Int)) : Outcome (List Int) := do
  let n := graph.length
  let fuel := n + 1
  let s ← (List.range n).foldlM (fun s (v : Nat) => visit graph fuel s v)
    ⟨List.replicate n false, [], List.replicate n []⟩
  let a ← s.order.foldlM (fun a v => assign s.transposed v fuel a v)
    ⟨s.visited, List.replicate n 0⟩
  return a.roots

end Cairoscope.Components
