import Cairoscope.Contract.Prototype
import Cairoscope.Proofs.Outcome
import Mathlib.Data.List.Range

/-! The lists of members in a prototype. A separator follows each member but the one whose offset is the last
number below the length of the list. That is the last member exactly when every member takes one cell; in
any other list a separator stands at the end. -/

namespace Cairoscope

namespace Artifact

structure Slot where
  offset : Nat
  name : String
  type : String

namespace Slot

def entry (s : Slot) : Key × Member := (.number s.offset, ⟨s.name, .str s.type⟩)

def text (s : Slot) : String := s.name ++ " : " ++ s.type

def joined (slots : List Slot) : String := String.intercalate ", " (slots.map text)

/-- The offsets count up from 0: every member takes one cell. -/
def Packed (slots : List Slot) : Prop := slots.map (·.offset) = List.range slots.length

/-- The members, each with a separator after it unless it is the one at offset `last`. -/
def separated (last : Int) (slots : List Slot) : String :=
  String.join (slots.map fun s => s.text ++ if (s.offset : Int) = last then "" else ", ")

variable {slots front back : List Slot} {s : Slot} {last : Int}

theorem membersText_map_entry (slots : List Slot) :
    Function.membersText (slots.map entry) = .ok (separated ((slots.length : Int) - 1) slots) := by
  unfold Function.membersText
  rw [List.length_map, List.mapM_map]
  exact Outcome.bind_eq_ok.2 ⟨_, Outcome.mapM_eq_ok_map fun s _ => rfl, rfl⟩

theorem separated_append (last : Int) (front back : List Slot) :
    separated last (front ++ back) = separated last front ++ separated last back := by
  rw [separated, List.map_append, String.join_append]
  rfl

theorem joined_append (hfront : front ≠ []) (hback : back ≠ []) :
    joined (front ++ back) = joined front ++ ", " ++ joined back := by
  rw [joined, List.map_append]
  exact String.intercalate_append_of_ne_nil (by simpa using hfront) (by simpa using hback)

/-- Where no member is at the offset, a separator follows each. -/
theorem separated_of_ne (hne : slots ≠ []) (h : ∀ s ∈ slots, (s.offset : Int) ≠ last) :
    separated last slots = joined slots ++ ", " := by
  induction slots with
  | nil => exact absurd rfl hne
  | cons s slots ih =>
    obtain ⟨hs, hrest⟩ := List.forall_mem_cons.1 h
    have hone : separated last [s] = s.text ++ ", " := by
      rw [separated, List.map_singleton, if_neg hs]
      simp
    rw [← List.singleton_append, separated_append, hone]
    by_cases hnil : slots = []
    · subst hnil
      simp [separated, joined]
    · rw [ih hnil hrest, joined_append (by simp) hnil]
      simp [joined, String.append_assoc]

/-- Up to the member at the offset the separators are right. After it comes one too few, and one too many at
the end. -/
theorem separated_of_eq (h : ((front ++ s :: back).map (·.offset)).Pairwise (· < ·))
    (hs : (s.offset : Int) = last) : separated last (front ++ s :: back) =
      joined (front ++ [s]) ++ if back = [] then "" else joined back ++ ", " := by
  rw [List.pairwise_map, List.pairwise_append, List.pairwise_cons] at h
  obtain ⟨-, ⟨hback, -⟩, hfront⟩ := h
  have hone : separated last [s] = joined [s] := by
    rw [separated, List.map_singleton, if_pos hs]
    simp [joined]
  have hupto : separated last (front ++ [s]) = joined (front ++ [s]) := by
    by_cases hnil : front = []
    · rw [hnil]
      exact hone
    · have hne : ∀ x ∈ front, (x.offset : Int) ≠ last := by
        intro x hx
        have := hfront x hx s List.mem_cons_self
        omega
      rw [separated_append, separated_of_ne hnil hne, hone, joined_append hnil (by simp)]
  have hafter : separated last back = if back = [] then "" else joined back ++ ", " := by
    split_ifs with hnil
    · rw [hnil]
      rfl
    · refine separated_of_ne hnil fun x hx => ?_
      have := hback x hx
      omega
  rw [← List.singleton_append, ← List.append_assoc, separated_append, hupto, hafter]

/-- Numbers that increase from `a` on, and end where counting up from `a` ends, count up from `a`. -/
theorem eq_range'_of_last {a : Nat} {l : List Nat} (hincreasing : l.Pairwise (· < ·)) (hlow : ∀ n ∈ l, a ≤ n)
    (hlast : ∀ n ∈ l.getLast?, n + 1 = a + l.length) : l = List.range' a l.length := by
  induction l generalizing a with
  | nil => rfl
  | cons x l ih =>
    obtain ⟨hx, hl⟩ := List.pairwise_cons.1 hincreasing
    have hax := hlow x List.mem_cons_self
    cases l with
    | nil =>
      obtain rfl : x = a := by simpa using hlast x rfl
      rfl
    | cons y l =>
      have hrest : y :: l = List.range' (a + 1) (y :: l).length := by
        refine ih hl (fun n hn => ?_) fun n hn => ?_
        · have := hx n hn
          omega
        · have := hlast n (by rwa [List.getLast?_cons_cons])
          simp only [List.length_cons] at this ⊢
          omega
      have hy : y = a + 1 := by
        rw [List.length_cons, List.range'_succ] at hrest
        exact (List.cons.inj hrest).1
      have hxy := hx y List.mem_cons_self
      obtain rfl : x = a := by omega
      rw [List.length_cons, List.range'_succ, ← hrest]

theorem packed_iff (h : (slots.map (·.offset)).Pairwise (· < ·)) :
    Packed slots ↔ ∀ s ∈ slots.getLast?, s.offset + 1 = slots.length := by
  unfold Packed
  constructor
  · intro hrange s hs
    have hlast : (slots.map (·.offset)).getLast? = some s.offset := by
      rw [List.getLast?_map, hs]
      rfl
    rw [hrange, List.getLast?_range] at hlast
    split_ifs at hlast with hzero
    have := Option.some.inj hlast
    omega
  · intro hlast
    have hcount := eq_range'_of_last h (a := 0) (by simp) fun n hn => ?_
    · rwa [List.length_map, ← List.range_eq_range'] at hcount
    · rw [List.getLast?_map] at hn
      obtain ⟨s, hs, rfl⟩ := Option.map_eq_some_iff.1 hn
      rw [hlast s hs, List.length_map, Nat.zero_add]

/-- What commutes with a text has no other characters. -/
theorem subset_of_append_comm {α : Type} {l m : List α} (hm : m ≠ []) (h : l ++ m = m ++ l) : l ⊆ m := by
  induction hn : l.length using Nat.strong_induction_on generalizing l with
  | _ n ih =>
    rcases List.append_eq_append_iff.1 h with ⟨k, rfl, -⟩ | ⟨k, rfl, hk⟩
    · exact List.subset_append_left l k
    · rw [List.append_assoc, List.append_cancel_left_eq] at h
      have hpos := List.length_pos_of_ne_nil hm
      rw [List.length_append] at hn
      exact List.append_subset.2 ⟨List.Subset.refl m, ih k.length (by omega) h rfl⟩

theorem joined_append_separator_ne (hne : slots ≠ []) : joined slots ++ ", " ≠ ", " ++ joined slots := by
  intro h
  have hcomm : (joined slots).toList ++ ", ".toList = ", ".toList ++ (joined slots).toList := by
    rw [← String.toList_append, h, String.toList_append]
  have hcolon : ':' ∈ (joined slots).toList := by
    obtain ⟨s, slots, rfl⟩ := List.exists_cons_of_ne_nil hne
    by_cases hnil : slots = []
    · subst hnil
      simp [joined, text]
    · rw [← List.singleton_append, joined_append (by simp) hnil]
      simp [joined, text]
  exact absurd (subset_of_append_comm (by decide) hcomm hcolon) (by decide)

/-- How a list of members is written: right exactly when every member takes one cell, and in any other case
with a separator at the end. -/
structure Written (slots : List Slot) (text : String) : Prop where
  joined_iff : text = joined slots ↔ Packed slots
  /-- No member is at the last number below the length. -/
  trailing : slots ≠ [] → (∀ s ∈ slots, s.offset + 1 ≠ slots.length) → text = joined slots ++ ", "
  /-- A member before the end is at that number, and is not separated from the next one. -/
  shifted : ∀ front s back, slots = front ++ s :: back → back ≠ [] → s.offset + 1 = slots.length →
    text = joined (front ++ [s]) ++ joined back ++ ", "

theorem written_separated (h : (slots.map (·.offset)).Pairwise (· < ·)) :
    Written slots (separated ((slots.length : Int) - 1) slots) := by
  have htrailing : slots ≠ [] → (∀ s ∈ slots, s.offset + 1 ≠ slots.length) →
      separated ((slots.length : Int) - 1) slots = joined slots ++ ", " := by
    intro hne hnone
    refine separated_of_ne hne fun s hs => ?_
    have := hnone s hs
    omega
  have hat : ∀ front s back, slots = front ++ s :: back → s.offset + 1 = slots.length →
      separated ((slots.length : Int) - 1) slots =
        joined (front ++ [s]) ++ if back = [] then "" else joined back ++ ", " := by
    rintro front s back rfl hs
    exact separated_of_eq h (by omega)
  refine ⟨?_, htrailing, fun front s back hsplit hback hs => ?_⟩
  · rw [packed_iff h]
    by_cases hsome : ∃ s ∈ slots, s.offset + 1 = slots.length
    · obtain ⟨s, hs, hoffset⟩ := hsome
      obtain ⟨front, back, hsplit⟩ := List.append_of_mem hs
      rw [hat front s back hsplit hoffset]
      by_cases hback : back = []
      · subst hback
        rw [if_pos rfl, String.append_empty, ← hsplit]
        refine iff_of_true rfl fun x hx => ?_
        rw [hsplit, List.getLast?_append_cons] at hx
        obtain rfl : s = x := by simpa using hx
        exact hoffset
      · rw [if_neg hback]
        refine iff_of_false (fun heq => ?_) fun hlast => ?_
        · rw [hsplit, List.append_cons front s back, joined_append (by simp) hback, String.append_assoc,
            String.append_right_inj] at heq
          exact joined_append_separator_ne hback heq
        · -- the last member is further on
          obtain ⟨x, hx⟩ := Option.isSome_iff_exists.1 (List.getLast?_isSome.2 hback)
          have hlength := hlast x (by rw [hsplit, List.getLast?_append, List.getLast?_cons, hx]; rfl)
          rw [hsplit, List.pairwise_map, List.pairwise_append, List.pairwise_cons] at h
          have := h.2.1.1 x (List.mem_of_getLast? hx)
          omega
    · simp only [not_exists, not_and] at hsome
      by_cases hne : slots = []
      · subst hne
        exact iff_of_true rfl (by simp)
      · rw [htrailing hne hsome]
        refine iff_of_false (fun heq => ?_) fun hlast => ?_
        · have hlength := congrArg String.length heq
          rw [String.length_append] at hlength
          exact absurd hlength (by simp)
        · obtain ⟨x, hx⟩ := Option.isSome_iff_exists.1 (List.getLast?_isSome.2 hne)
          exact hsome x (List.mem_of_getLast? hx) (hlast x hx)
  · rw [hat front s back hsplit hs, if_neg hback, String.append_assoc]

end Slot

end Artifact

namespace Function

open Artifact (Slot)

/-- The prototype of a function with members at increasing offsets, printed whenever the decorators can be
listed. Each of its three lists is the members joined by separators if and only if every member of the list
takes one cell; otherwise a separator stands at the end, and one may be missing further in. -/
theorem prototype_lists_joined_iff {f : Function} (implicit explicit returns : List Slot)
    (himplicit : f.implicit = implicit.map Slot.entry) (hexplicit : f.explicit = explicit.map Slot.entry)
    (hreturns : f.returns = returns.map Slot.entry)
    (hoffsets : (implicit.map (·.offset)).Pairwise (· < ·) ∧ (explicit.map (·.offset)).Pairwise (· < ·) ∧
      (returns.map (·.offset)).Pairwise (· < ·)) :
    ∃ a b c, Slot.Written implicit a ∧ Slot.Written explicit b ∧ Slot.Written returns c ∧
      f.prototype = f.decoratorsText.map fun decorators =>
        decorators ++ "func " ++ f.name ++ "\x7b" ++ a ++ "\x7d(" ++ b ++ ")" ++
          if returns = [] then "" else " -> (" ++ c ++ ")" := by
  obtain ⟨ha, hb, hc⟩ := hoffsets
  refine ⟨_, _, _, Slot.written_separated ha, Slot.written_separated hb, Slot.written_separated hc, ?_⟩
  unfold prototype
  rw [himplicit, hexplicit, hreturns, Slot.membersText_map_entry, Slot.membersText_map_entry,
    Slot.membersText_map_entry]
  cases f.decoratorsText with
  | error e => rfl
  | ok decorators =>
    cases returns with
    | nil => rfl
    | cons s rest => rfl

/-- A function of a pair and a number, and of a number at an offset that is 1 by chance. -/
def takesPair : Function where
  name := "main"
  id := 0
  start := 0
  stop := 0
  sites := []
  implicit := [Slot.entry ⟨1, "p", "Pair"⟩, Slot.entry ⟨3, "n", "felt"⟩]
  explicit := [Slot.entry ⟨0, "a", "Pair"⟩, Slot.entry ⟨2, "b", "felt"⟩]
  returns := [Slot.entry ⟨0, "c", "felt"⟩, Slot.entry ⟨1, "d", "felt"⟩]
  decorators := .arr [.str "view"]
  isImport := false
  entryPoint := true

theorem takesPair_prototype : takesPair.prototype =
    .ok "@view func main\x7bp : Pairn : felt, \x7d(a : Pair, b : felt, ) -> (c : felt, d : felt)" := by
  obtain ⟨a, b, c, ha, hb, hc, hprototype⟩ := prototype_lists_joined_iff (f := takesPair)
    [⟨1, "p", "Pair"⟩, ⟨3, "n", "felt"⟩] [⟨0, "a", "Pair"⟩, ⟨2, "b", "felt"⟩]
    [⟨0, "c", "felt"⟩, ⟨1, "d", "felt"⟩] rfl rfl rfl (by decide)
  rw [hprototype, ha.shifted [] _ _ rfl (by simp) rfl, hb.trailing (by simp) (by decide),
    hc.joined_iff.2 rfl]
  decide

end Function

end Cairoscope
