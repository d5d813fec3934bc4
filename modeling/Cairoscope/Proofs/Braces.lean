import Mathlib.Data.List.Infix
import Mathlib.Tactic.Common

/-! Texts with balanced curly braces. A part of such a text goes from one depth to another, and parts are put
together where their depths meet. -/

namespace Cairoscope.Text

/-- As many braces are opened as closed, and at no point have more been closed than opened. -/
def Balanced (s : String) : Prop :=
  s.toList.count '\x7b' = s.toList.count '\x7d' ∧
    ∀ front, front <+: s.toList → front.count '\x7d' ≤ front.count '\x7b'

/-- Read at depth `a` the text ends at depth `b`, and it closes nothing that is not open. -/
structure Goes (cs : List Char) (a b : Nat) : Prop where
  whole : cs.count '\x7b' + a = cs.count '\x7d' + b
  fronts : ∀ front, front <+: cs → front.count '\x7d' ≤ front.count '\x7b' + a

def Free (cs : List Char) : Prop := '\x7b' ∉ cs ∧ '\x7d' ∉ cs

instance (cs : List Char) : Decidable (Free cs) := inferInstanceAs (Decidable (_ ∧ _))

theorem balanced_iff {s : String} : Balanced s ↔ Goes s.toList 0 0 :=
  ⟨fun h => ⟨h.1, h.2⟩, fun h => ⟨h.whole, h.fronts⟩⟩

/-- What all characters of the parts have, all characters of the joined text have. -/
theorem all_intercalate {p : Char → Bool} {separator : String} (hseparator : separator.toList.all p = true)
    {items : List String} (h : ∀ s ∈ items, s.toList.all p = true) :
    (String.intercalate separator items).toList.all p = true := by
  rw [String.toList_intercalate]
  induction items with
  | nil => rfl
  | cons item rest ih =>
    obtain ⟨hitem, hrest⟩ := List.forall_mem_cons.1 h
    cases rest with
    | nil =>
      rw [List.map_singleton, List.intercalate_singleton]
      exact hitem
    | cons next rest =>
      rw [List.map_cons, List.map_cons, List.intercalate_cons_cons, List.all_append, List.all_append,
        Bool.and_eq_true, Bool.and_eq_true]
      exact ⟨⟨hitem, hseparator⟩, ih hrest⟩

section Free

variable {cs ds : List Char}

theorem free_nil : Free [] := by decide

theorem free_append : Free (cs ++ ds) ↔ Free cs ∧ Free ds := by
  simp only [Free, List.mem_append]
  tauto

end Free

namespace Goes

variable {cs ds : List Char} {a b c : Nat}

theorem append (h : Goes cs a b) (h' : Goes ds b c) : Goes (cs ++ ds) a c := by
  refine ⟨?_, fun front hfront => ?_⟩
  · have := h.whole
    have := h'.whole
    rw [List.count_append, List.count_append]
    omega
  · obtain hfront' | ⟨rest, rfl⟩ := List.prefix_or_prefix_of_prefix hfront (List.prefix_append cs ds)
    · exact h.fronts front hfront'
    · have := h.whole
      have := h'.fronts rest ((List.prefix_append_right_inj cs).1 hfront)
      rw [List.count_append, List.count_append]
      omega

/-- What stays above one depth stays above a lower one. -/
theorem lift (h : Goes cs a b) (c : Nat) : Goes cs (a + c) (b + c) := by
  refine ⟨?_, fun front hfront => ?_⟩
  · have := h.whole
    omega
  · have := h.fronts front hfront
    omega

theorem of_free (h : Free cs) (a : Nat) : Goes cs a a := by
  refine ⟨?_, fun front hfront => ?_⟩
  · rw [List.count_eq_zero_of_not_mem h.1, List.count_eq_zero_of_not_mem h.2]
  · rw [List.count_eq_zero_of_not_mem fun hmem => h.2 (hfront.subset hmem)]
    exact Nat.zero_le _

/-- A brace that opens, between texts without one. -/
theorem opening (h : Free cs) (h' : Free ds) : Goes (cs ++ '\x7b' :: ds) 0 1 := by
  have hbrace : Goes ['\x7b'] 0 1 := by
    refine ⟨rfl, fun front hfront => ?_⟩
    have := hfront.sublist.count_le '\x7d'
    exact this.trans (Nat.zero_le _)
  exact (of_free h 0).append (hbrace.append (of_free h' 1))

/-- A brace that closes, between texts without one. -/
theorem closing (h : Free cs) (h' : Free ds) : Goes (cs ++ '\x7d' :: ds) 1 0 := by
  have hbrace : Goes ['\x7d'] 1 0 := by
    refine ⟨rfl, fun front hfront => ?_⟩
    have := hfront.sublist.count_le '\x7d'
    exact this.trans (Nat.le_add_left _ _)
  exact (of_free h 1).append (hbrace.append (of_free h' 0))

end Goes

end Cairoscope.Text
