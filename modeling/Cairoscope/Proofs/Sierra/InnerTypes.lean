import Cairoscope.Sierra.Program
import Mathlib.Data.List.Infix
import Mathlib.Tactic.Common

/-! Identifiers inside identifiers. What lies inside an identifier lies deeper, and its text is a part of the
text of the identifier, so the innermost type of an identifier is the identifier itself only if it names no
other type. A sort by depth brings a type that lies deeper than all others to the front, and leaves those side
by side in their order. -/

namespace Cairoscope.Sierra

theorem isInfix_joinWith {s : String} {items : List String} (h : s ∈ items) :
    s.toList <:+: (joinWith items).toList := by
  unfold joinWith
  rw [String.toList_intercalate]
  induction items with
  | nil => cases h
  | cons item rest ih =>
    obtain rfl | h := List.mem_cons.1 h
    · cases rest with
      | nil => simp
      | cons next rest =>
        rw [List.map_cons, List.map_cons, List.intercalate_cons_cons, List.append_assoc]
        exact (List.prefix_append _ _).isInfix
    · have hne : rest.map String.toList ≠ [] := by
        rw [ne_eq, List.map_eq_nil_iff]
        exact List.ne_nil_of_mem h
      rw [List.map_cons, List.intercalate_cons_of_ne_nil hne]
      exact (ih h).trans (List.suffix_append _ _).isInfix

section Inside

variable {wanted : IdKind}

theorem eq_or_mem_of_named {depth : Nat} {id : Ident} {x : Nat × Ident} {found : List (Nat × Ident)} {isWanted : Prop}
    [Decidable isWanted] (h : x ∈ (if isWanted then [(depth, id)] else []) ++ found) :
    x = (depth, id) ∨ x ∈ found := by
  split_ifs at h
  · simpa using h
  · exact .inr h

mutual

theorem Ident.inside : ∀ {id : Ident} {depth : Nat} {x : Nat × Ident}, x ∈ id.within wanted depth →
    depth < x.1 ∧ x.2.text.toList <:+: id.text.toList ∧ x.2.text.length < id.text.length
  | .number _, _, _, h => by simp [Ident.within] at h
  | .label _, _, _, h => by simp [Ident.within] at h
  | .applied path b arguments, _, x, h => by
    rw [Ident.within] at h
    obtain ⟨hdepth, s, hs, hinside⟩ := inside_arguments h
    have hjoined := hinside.trans (isInfix_joinWith hs)
    have hopening : 0 < b.opening.length := by cases b <;> decide
    refine ⟨hdepth, ?_, ?_⟩
    · rw [Ident.text, String.toList_append, String.toList_append]
      exact hjoined.trans ((List.suffix_append _ _).isInfix.trans (List.prefix_append _ _).isInfix)
    · have hle := hjoined.length_le
      rw [Ident.text, String.length_append, String.length_append, String.length_append]
      simp only [String.length_toList] at hle
      omega

theorem Argument.inside : ∀ {a : Argument} {depth : Nat} {x : Nat × Ident}, x ∈ a.within wanted depth →
    depth ≤ x.1 ∧ x.2.text.toList <:+: a.text.toList
  | .type id, _, x, h => by
    rw [Argument.within] at h
    obtain rfl | h := eq_or_mem_of_named h
    · exact ⟨le_rfl, List.infix_rfl⟩
    · obtain ⟨hdepth, hinside, -⟩ := Ident.inside h
      exact ⟨hdepth.le, hinside⟩
  | .libfunc id, _, x, h => by
    rw [Argument.within] at h
    rw [Argument.text, String.toList_append]
    obtain rfl | h := eq_or_mem_of_named h
    · exact ⟨le_rfl, (List.suffix_append _ _).isInfix⟩
    · obtain ⟨hdepth, hinside, -⟩ := Ident.inside h
      exact ⟨hdepth.le, hinside.trans (List.suffix_append _ _).isInfix⟩
  | .function id, _, x, h => by
    rw [Argument.within] at h
    rw [Argument.text, String.toList_append]
    obtain ⟨hdepth, hinside, -⟩ := Ident.inside h
    exact ⟨hdepth.le, hinside.trans (List.suffix_append _ _).isInfix⟩
  | .userType id, _, x, h => by
    rw [Argument.within] at h
    rw [Argument.text, String.toList_append]
    obtain ⟨hdepth, hinside, -⟩ := Ident.inside h
    exact ⟨hdepth.le, hinside.trans (List.suffix_append _ _).isInfix⟩
  | .integer _, _, _, h => by simp [Argument.within] at h
  | .unit, _, _, h => by simp [Argument.within] at h

theorem inside_arguments : ∀ {as : List Argument} {depth : Nat} {x : Nat × Ident},
    x ∈ withinArguments wanted depth as →
    depth < x.1 ∧ ∃ s ∈ argumentTexts as, x.2.text.toList <:+: s.toList
  | [], _, _, h => by simp [withinArguments] at h
  | a :: rest, _, x, h => by
    rw [withinArguments, List.mem_append] at h
    rw [argumentTexts]
    obtain h | h := h
    · obtain ⟨hdepth, hinside⟩ := Argument.inside h
      exact ⟨by omega, a.text, List.mem_cons_self, hinside⟩
    · obtain ⟨hdepth, s, hs, hinside⟩ := inside_arguments h
      exact ⟨hdepth, s, List.mem_cons_of_mem _ hs, hinside⟩

end

end Inside

section Order

variable {found : List (Nat × Ident)}

/-- Side by side means at the same depth, where the sort changes nothing. -/
theorem pairwise_beside (ids : List Ident) (depth : Nat) :
    (ids.map fun id => (depth, id)).Pairwise fun a b => decide (b.1 ≤ a.1) = true := by
  rw [List.pairwise_map]
  exact List.pairwise_of_forall (by simp)

theorem atLeastAsDeep_trans (a b x : Nat × Ident) (hab : decide (b.1 ≤ a.1) = true)
    (hbx : decide (x.1 ≤ b.1) = true) : decide (x.1 ≤ a.1) = true := by
  rw [decide_eq_true_eq] at *
  omega

theorem atLeastAsDeep_total (a b : Nat × Ident) : (decide (b.1 ≤ a.1) || decide (a.1 ≤ b.1)) = true := by
  rw [Bool.or_eq_true, decide_eq_true_eq, decide_eq_true_eq]
  omega

/-- The sorted list begins with an entry that none lies deeper than. -/
theorem exists_deepest (h : found ≠ []) : ∃ y rest,
    (found.mergeSort fun a b => decide (b.1 ≤ a.1)) = y :: rest ∧ y ∈ found ∧ ∀ z ∈ found, z.1 ≤ y.1 := by
  have hperm := List.mergeSort_perm found fun a b => decide (b.1 ≤ a.1)
  have hsorted := List.pairwise_mergeSort atLeastAsDeep_trans atLeastAsDeep_total found
  cases hlist : found.mergeSort fun a b => decide (b.1 ≤ a.1) with
  | nil =>
    rw [hlist] at hperm
    exact absurd hperm.nil_eq.symm h
  | cons y rest =>
    rw [hlist] at hperm hsorted
    refine ⟨y, rest, rfl, hperm.mem_iff.1 List.mem_cons_self, fun z hz => ?_⟩
    obtain rfl | hz := List.mem_cons.1 (hperm.mem_iff.2 hz)
    · exact le_rfl
    · exact of_decide_eq_true ((List.pairwise_cons.1 hsorted).1 z hz)

end Order

/-- The innermost type has a text of its own, unless it is the identifier. -/
theorem innermost_text_eq_iff {wanted : IdKind} {id : Ident} :
    (id.innermost wanted).text = id.text ↔ id.within wanted 1 = [] := by
  obtain ⟨y, rest, hlist, hmem, hdeepest⟩ := exists_deepest (List.cons_ne_nil (1, id) (id.within wanted 1))
  have hinnermost : id.innermost wanted = y.2 := by
    unfold Ident.innermost Ident.family deepestFirst
    rw [hlist]
    rfl
  rw [hinnermost]
  constructor
  · intro heq
    refine List.eq_nil_iff_forall_not_mem.2 fun x hx => ?_
    have hdeep := (Ident.inside hx).1
    have hle := hdeepest x (List.mem_cons_of_mem _ hx)
    obtain rfl | hy := List.mem_cons.1 hmem
    · omega
    · have hshorter := (Ident.inside hy).2.2
      rw [heq] at hshorter
      exact lt_irrefl _ hshorter
  · intro hnone
    rw [hnone, List.mem_singleton] at hmem
    rw [hmem]

def innerTypes (ids : List Ident) : List (Nat × Ident) := ids.flatMap fun id => id.within .type 1

section Families

variable {ids : List Ident}

/-- A list with the types inside them. -/
theorem length_family (ids : List Ident) :
    (ids.flatMap fun id => (1, id) :: id.within .type 1).length = ids.length + (innerTypes ids).length := by
  unfold innerTypes
  induction ids with
  | nil => rfl
  | cons id ids ih =>
    simp only [List.flatMap_cons, List.length_append, List.length_cons] at ih ⊢
    omega

theorem beside_sublist (ids : List Ident) :
    (ids.map fun id => (1, id)).Sublist (ids.flatMap fun id => (1, id) :: id.within .type 1) := by
  induction ids with
  | nil => exact .slnil
  | cons id ids ih =>
    rw [List.map_cons, List.flatMap_cons, List.cons_append]
    exact (ih.trans (List.sublist_append_right _ _)).cons_cons _

theorem length_returnTypes (ids : List Ident) :
    (Program.returnTypes ids).length = ids.length + (innerTypes ids).length - 1 := by
  unfold Program.returnTypes families deepestFirst
  rw [List.length_map, List.length_drop, List.length_map, (List.mergeSort_perm _ _).length_eq,
    length_family]

/-- Without types inside, the first one is left out. -/
theorem returnTypes_of_plain (h : innerTypes ids = []) :
    Program.returnTypes ids = (ids.map Ident.text).tail := by
  have hbeside : (ids.flatMap fun id => (1, id) :: id.within .type 1) = ids.map fun id => (1, id) := by
    have hlength := length_family ids
    rw [h, List.length_nil, Nat.add_zero] at hlength
    exact ((beside_sublist ids).eq_of_length (by rw [List.length_map, hlength])).symm
  unfold Program.returnTypes families deepestFirst
  rw [hbeside, List.mergeSort_of_pairwise (pairwise_beside ids 1), List.map_map, List.drop_one,
    List.map_tail, List.map_map]
  rfl

/-- A single type inside lies deepest, and takes the place of the one that is left out. -/
theorem returnTypes_of_single (h : (innerTypes ids).length = 1) :
    Program.returnTypes ids = ids.map Ident.text := by
  obtain ⟨x, hx⟩ : ∃ x, x ∈ innerTypes ids := List.exists_mem_of_length_pos (by omega)
  obtain ⟨id, hid, hx⟩ := List.mem_flatMap.1 hx
  have hdeep := (Ident.inside hx).1
  have hfound : x ∈ ids.flatMap fun id => (1, id) :: id.within .type 1 :=
    List.mem_flatMap.2 ⟨id, hid, List.mem_cons_of_mem _ hx⟩
  obtain ⟨y, rest, hlist, -, hdeepest⟩ := exists_deepest (List.ne_nil_of_mem hfound)
  have hlength := (List.mergeSort_perm (ids.flatMap fun id => (1, id) :: id.within .type 1)
    fun a b => decide (b.1 ≤ a.1)).length_eq
  have hbeside := List.sublist_mergeSort atLeastAsDeep_trans atLeastAsDeep_total (pairwise_beside ids 1)
    (beside_sublist ids)
  rw [hlist] at hbeside hlength
  rw [length_family, h, List.length_cons] at hlength
  -- those side by side are no match for the deepest one, so they are the rest
  have hrest : ids.map (fun id => (1, id)) = rest := by
    obtain hskip | ⟨tail, htail, -⟩ := List.sublist_cons_iff.1 hbeside
    · exact hskip.eq_of_length (by rw [List.length_map]; omega)
    · have hone : y ∈ ids.map fun id => (1, id) := htail ▸ List.mem_cons_self
      obtain ⟨id, -, rfl⟩ := List.mem_map.1 hone
      exact absurd (hdeepest x hfound) (by omega)
  unfold Program.returnTypes families deepestFirst
  rw [hlist, ← hrest, List.map_cons, List.drop_one, List.tail_cons, List.map_map, List.map_map]
  rfl

theorem returnTypes_eq_iff : Program.returnTypes ids = ids.map Ident.text ↔
    ids = [] ∨ (innerTypes ids).length = 1 := by
  constructor
  · intro h
    have hlength := length_returnTypes ids
    rw [h, List.length_map] at hlength
    cases ids with
    | nil => exact .inl rfl
    | cons id ids =>
      right
      rw [List.length_cons] at hlength
      omega
  · rintro (rfl | h)
    · rw [returnTypes_of_plain rfl]
      rfl
    · exact returnTypes_of_single h

end Families

end Cairoscope.Sierra
