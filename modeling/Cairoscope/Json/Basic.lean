/-! JSON values. An object keeps its members in document order; a repeated name keeps its first
place and its last value. -/

namespace Cairoscope

inductive Json
  | null
  | bool (b : Bool)
  | num (n : Int)
  /-- A number with a fraction or an exponent, or one that is not finite, as it is written. -/
  | real (literal : String)
  | str (s : String)
  | arr (items : List Json)
  | obj (members : List (String × Json))
  deriving Inhabited, Repr

namespace Json

/-- Members of an object in order, each name once. -/
abbrev Members := List (String × Json)

end Json

/-- Sets `key` to `value`: in its old place if it is there, else at the end. -/
def assocSet {κ α : Type} [BEq κ] (key : κ) (value : α) : List (κ × α) → List (κ × α)
  | [] => [(key, value)]
  | (k, v) :: rest => if k == key then (k, value) :: rest else (k, v) :: assocSet key value rest

/-- The pairs with each key once: at its first place and with its last value. -/
def assocOfPairs {κ α : Type} [BEq κ] (pairs : List (κ × α)) : List (κ × α) :=
  pairs.foldl (fun acc p => assocSet p.1 p.2 acc) []

theorem map_fst_assocSet_of_mem {κ α : Type} [BEq κ] [LawfulBEq κ] (key : κ) (value : α)
    (l : List (κ × α)) (h : key ∈ l.map Prod.fst) :
    (assocSet key value l).map Prod.fst = l.map Prod.fst := by
  induction l with
  | nil => simp at h
  | cons p rest ih =>
    obtain ⟨k, v⟩ := p
    by_cases hk : k = key
    · simp [assocSet, hk]
    · have : key ∈ rest.map Prod.fst := by
        simp only [List.map_cons, List.mem_cons] at h
        exact h.resolve_left fun e => hk e.symm
      simp [assocSet, hk, ih this]

theorem map_fst_assocSet_of_not_mem {κ α : Type} [BEq κ] [LawfulBEq κ] (key : κ) (value : α)
    (l : List (κ × α)) (h : key ∉ l.map Prod.fst) :
    (assocSet key value l).map Prod.fst = l.map Prod.fst ++ [key] := by
  induction l with
  | nil => rfl
  | cons p rest ih =>
    obtain ⟨k, v⟩ := p
    simp only [List.map_cons, List.mem_cons, not_or] at h
    have hk : ¬ k = key := fun e => h.1 e.symm
    simp [assocSet, hk, ih h.2]

namespace Json

def isText (s : String) : Json → Bool
  | str t => t == s
  | _ => false

/-- Whether no digit before the exponent is other than 0. -/
def isZeroLiteral (literal : String) : Bool :=
  let digits := literal.toList.takeWhile fun c => c != 'e' && c != 'E'
  digits.contains '0' && digits.all fun c => c == '0' || !c.isAlphanum

/-- Null, false, zero and the empty text, list and object count as absent. -/
def isPresent : Json → Bool
  | null => false
  | bool b => b
  | num n => n != 0
  | real literal => !isZeroLiteral literal
  | str s => s != ""
  | arr items => !items.isEmpty
  | obj members => !members.isEmpty

end Json

end Cairoscope
