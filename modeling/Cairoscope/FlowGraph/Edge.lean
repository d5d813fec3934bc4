/-! Edges of control-flow graphs. -/

namespace Cairoscope

inductive EdgeKind
  | unconditional
  /-- The branch taken when the tested cell is zero. -/
  | conditionalTrue
  | conditionalFalse
  | fallthrough
  deriving DecidableEq, Repr

def EdgeKind.name : EdgeKind → String
  | unconditional => "unconditional"
  | conditionalTrue => "conditional_true"
  | conditionalFalse => "conditional_false"
  | fallthrough => "fallthrough"

structure Edge where
  source : Nat
  target : Int
  kind : EdgeKind
  deriving DecidableEq, Repr

end Cairoscope
