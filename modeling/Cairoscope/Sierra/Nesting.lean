import Cairoscope.Sierra.Syntax

/-! Identifiers inside identifiers. The innermost come first, and those at the same depth from left to
right. Of several arguments of a label the first lies deepest, since an argument list is a list with one
more argument. -/

namespace Cairoscope.Sierra

inductive IdKind
  | type
  | libfunc
  deriving DecidableEq, Repr

mutual

/-- The identifiers of a kind inside an identifier that lies at a depth. -/
def Ident.within (wanted : IdKind) (depth : Nat) : Ident → List (Nat × Ident)
  | .number _ => []
  | .label _ => []
  | .applied _ _ arguments => withinArguments wanted depth arguments

def Argument.within (wanted : IdKind) (depth : Nat) : Argument → List (Nat × Ident)
  | .type id => (if wanted = .type then [(depth, id)] else []) ++ id.within wanted depth
  | .libfunc id => (if wanted = .libfunc then [(depth, id)] else []) ++ id.within wanted depth
  | .function id => id.within wanted depth
  | .userType id => id.within wanted depth
  | .integer _ => []
  | .unit => []

def withinArguments (wanted : IdKind) (depth : Nat) : List Argument → List (Nat × Ident)
  | [] => []
  | a :: rest =>
    a.within wanted (depth + 4 + rest.length) ++ withinArguments wanted depth rest

end

/-- The identifiers of a kind inside a long identifier; its arguments lie side by side. -/
def LongId.within (wanted : IdKind) (depth : Nat) (l : LongId) : List (Nat × Ident) :=
  (l.arguments.getD []).flatMap fun a => a.within wanted (depth + 3)

def deepestFirst (found : List (Nat × Ident)) : List Ident :=
  (found.mergeSort fun a b => decide (b.1 ≤ a.1)).map (·.2)

/-- An identifier with those of its kind inside it. -/
def Ident.family (wanted : IdKind) (id : Ident) : List Ident :=
  deepestFirst ((1, id) :: id.within wanted 1)

/-- Several identifiers side by side with those of their kind inside them. -/
def families (wanted : IdKind) (ids : List Ident) : List Ident :=
  deepestFirst (ids.flatMap fun id => (1, id) :: id.within wanted 1)

/-- The innermost identifier of a kind, left of the others. -/
def Ident.innermost (wanted : IdKind) (id : Ident) : Ident := (id.family wanted).headD id

def Declaration.innermostLibfunc (d : Declaration) : Ident :=
  (deepestFirst ((1, d.id) :: d.id.within .libfunc 1 ++ d.long.within .libfunc 1)).headD d.id

end Cairoscope.Sierra
