import Cairoscope.Text.Numeral

/-! Problems over unbounded integers. An unknown is a variable of a memory, by its number. -/

namespace Cairoscope.Symbolic

inductive Term
  | unknown (number : Nat)
  | integer (n : Int)
  | sum (left right : Term)
  | product (left right : Term)
  deriving DecidableEq, Repr

inductive Relation
  | equal
  | distinct
  | less
  | atMost
  | greater
  | atLeast
  deriving DecidableEq, Repr

structure Formula where
  relation : Relation
  left : Term
  right : Term
  deriving DecidableEq, Repr

abbrev Problem := List Formula

namespace Term

/-- The sum; two integers are added at once. -/
def add : Term → Term → Term
  | integer a, integer b => integer (a + b)
  | a, b => sum a b

/-- The product; two integers are multiplied at once. -/
def mul : Term → Term → Term
  | integer a, integer b => integer (a * b)
  | a, b => product a b

def eval (m : Nat → Int) : Term → Int
  | unknown number => m number
  | integer n => n
  | sum a b => a.eval m + b.eval m
  | product a b => a.eval m * b.eval m

@[simp] theorem eval_add (m : Nat → Int) (a b : Term) : (add a b).eval m = a.eval m + b.eval m := by
  unfold add; split <;> rfl

@[simp] theorem eval_mul (m : Nat → Int) (a b : Term) : (mul a b).eval m = a.eval m * b.eval m := by
  unfold mul; split <;> rfl

def unknowns : Term → List Nat
  | unknown number => [number]
  | integer _ => []
  | sum a b => a.unknowns ++ b.unknowns
  | product a b => a.unknowns ++ b.unknowns

/-- Operators in front, each application in parentheses. -/
def text (name : Nat → String) : Term → String
  | unknown number => name number
  | integer n => Text.decimal n
  | sum a b => "(+ " ++ a.text name ++ " " ++ b.text name ++ ")"
  | product a b => "(* " ++ a.text name ++ " " ++ b.text name ++ ")"

end Term

namespace Relation

def symbol : Relation → String
  | equal => "="
  | distinct => "distinct"
  | less => "<"
  | atMost => "<="
  | greater => ">"
  | atLeast => ">="

def Holds (r : Relation) (a b : Int) : Prop :=
  match r with
  | equal => a = b
  | distinct => a ≠ b
  | less => a < b
  | atMost => a ≤ b
  | greater => b < a
  | atLeast => b ≤ a

instance (r : Relation) (a b : Int) : Decidable (r.Holds a b) := by
  cases r <;> unfold Holds <;> infer_instance

end Relation

namespace Formula

def Holds (f : Formula) (m : Nat → Int) : Prop := f.relation.Holds (f.left.eval m) (f.right.eval m)

instance (f : Formula) (m : Nat → Int) : Decidable (f.Holds m) := by
  unfold Holds; infer_instance

def unknowns (f : Formula) : List Nat := f.left.unknowns ++ f.right.unknowns

def text (name : Nat → String) (f : Formula) : String :=
  "(" ++ f.relation.symbol ++ " " ++ f.left.text name ++ " " ++ f.right.text name ++ ")"

end Formula

namespace Problem

def Holds (p : Problem) (m : Nat → Int) : Prop := ∀ f ∈ p, f.Holds m

instance (p : Problem) (m : Nat → Int) : Decidable (p.Holds m) := by
  unfold Holds; infer_instance

def unknowns (p : Problem) : List Nat := p.flatMap Formula.unknowns

end Problem

/-- Integers for some of the unknowns. -/
abbrev Model := List (Nat × Int)

/-- An unknown without a value is 0. -/
def Model.value (m : Model) (number : Nat) : Int := (m.lookup number).getD 0

/-- A way to look for a model of a problem. -/
abbrev Solver := Problem → Option Model

end Cairoscope.Symbolic
