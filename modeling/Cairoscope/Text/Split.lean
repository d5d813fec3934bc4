/-! Cutting text at a character, or at a text. -/

namespace Cairoscope.Text

/-- The pieces of `cs` between the marks; there is always at least one. -/
def pieces (mark : Char) : List Char → List (List Char)
  | [] => [[]]
  | c :: rest =>
    if c = mark then [] :: pieces mark rest
    else match pieces mark rest with
      | [] => [[c]]
      | p :: ps => (c :: p) :: ps

theorem pieces_ne_nil (mark : Char) (cs : List Char) : pieces mark cs ≠ [] := by
  cases cs with
  | nil => simp [pieces]
  | cons c rest =>
    unfold pieces
    split
    · simp
    · split <;> simp

/-- The pieces joined with the mark give the text back. -/
theorem intercalate_pieces (mark : Char) (cs : List Char) :
    [mark].intercalate (pieces mark cs) = cs := by
  induction cs with
  | nil => rfl
  | cons c rest ih =>
    unfold pieces
    split
    · subst_vars
      cases h : pieces c rest with
      | nil => exact absurd h (pieces_ne_nil _ _)
      | cons p ps => rw [h] at ih; simp_all [List.intercalate, List.intersperse]
    · cases h : pieces mark rest with
      | nil => exact absurd h (pieces_ne_nil _ _)
      | cons p ps =>
        rw [h] at ih
        cases ps with
        | nil => simp_all [List.intercalate, List.intersperse]
        | cons q qs => simp_all [List.intercalate, List.intersperse]

def split (mark : Char) (s : String) : List String :=
  (pieces mark s.toList).map String.ofList

/-- The pieces between the occurrences of a text. Occurrences do not overlap: the rest of one, `skip`
characters long, is passed over. -/
def piecesAt (mark : List Char) : Nat → List Char → List (List Char)
  | _, [] => [[]]
  | skip + 1, _ :: rest => piecesAt mark skip rest
  | 0, c :: rest =>
    if mark.isPrefixOf (c :: rest) then [] :: piecesAt mark (mark.length - 1) rest
    else match piecesAt mark 0 rest with
      | [] => [[c]]
      | p :: ps => (c :: p) :: ps

def splitAt (mark s : String) : List String :=
  (piecesAt mark.toList 0 s.toList).map String.ofList

def lastPart (mark : Char) (s : String) : String :=
  ((split mark s).getLast?).getD ""

def without (p : Char → Bool) (s : String) : String :=
  String.ofList (s.toList.filter fun c => !p c)

def replaceChar (c : Char) (by_ : String) (s : String) : String :=
  String.ofList (s.toList.flatMap fun d => if d = c then by_.toList else [d])

end Cairoscope.Text
