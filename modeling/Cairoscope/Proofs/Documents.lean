import Cairoscope.Json.Access
import Cairoscope.Json.Reader
import Cairoscope.Proofs.Outcome
import Mathlib.Data.List.Nodup

/-! Association lists and the names in a document. A document that was read from text has each name
at most once in each of its objects, at any depth. -/

namespace Cairoscope

section Assoc

variable {κ α : Type} [BEq κ] [LawfulBEq κ]

theorem lookup_assocSet (key : κ) (value : α) (l : List (κ × α)) (k : κ) :
    (assocSet key value l).lookup k = if k == key then some value else l.lookup k := by
  induction l with
  | nil =>
    by_cases h : k = key
    · simp [assocSet, h]
    · simp [assocSet, List.lookup_cons, beq_false_of_ne h]
  | cons p rest ih =>
    obtain ⟨k', v⟩ := p
    by_cases hk : k' = key
    · subst hk
      by_cases h : k = k'
      · simp [assocSet, h]
      · simp [assocSet, List.lookup_cons, beq_false_of_ne h]
    · by_cases h : k = k'
      · simp [assocSet, h, hk]
      · simp [assocSet, hk, List.lookup_cons, beq_false_of_ne h, ih]

theorem mem_of_mem_assocSet {key : κ} {value : α} {l : List (κ × α)} {p : κ × α}
    (h : p ∈ assocSet key value l) : p = (key, value) ∨ p ∈ l := by
  induction l with
  | nil => left; simpa [assocSet] using h
  | cons q rest ih =>
    obtain ⟨k, v⟩ := q
    by_cases hk : k = key
    · subst hk
      simp only [assocSet, beq_self_eq_true, if_true, List.mem_cons] at h ⊢
      rcases h with h | h
      · exact Or.inl h
      · exact Or.inr (Or.inr h)
    · simp only [assocSet, beq_iff_eq, hk, if_false, List.mem_cons] at h ⊢
      rcases h with h | h
      · exact Or.inr (Or.inl h)
      · exact (ih h).imp_right Or.inr

theorem nodup_keys_assocSet {key : κ} {value : α} {l : List (κ × α)}
    (h : (l.map Prod.fst).Nodup) : ((assocSet key value l).map Prod.fst).Nodup := by
  by_cases hk : key ∈ l.map Prod.fst
  · rwa [map_fst_assocSet_of_mem key value l hk]
  · rw [map_fst_assocSet_of_not_mem key value l hk]
    exact List.nodup_append.2 ⟨h, List.nodup_singleton _, by
      rintro a ha b hb rfl
      exact hk (List.mem_singleton.1 hb ▸ ha)⟩

theorem nodup_keys_assocOfPairs (pairs : List (κ × α)) :
    ((assocOfPairs pairs).map Prod.fst).Nodup := by
  unfold assocOfPairs
  suffices h : ∀ acc : List (κ × α), (acc.map Prod.fst).Nodup →
      ((pairs.foldl (fun acc p => assocSet p.1 p.2 acc) acc).map Prod.fst).Nodup from h [] List.nodup_nil
  induction pairs with
  | nil => exact fun _ h => h
  | cons p rest ih => exact fun acc h => ih _ (nodup_keys_assocSet h)

theorem assocSet_of_not_mem {key : κ} {value : α} {l : List (κ × α)} (h : key ∉ l.map Prod.fst) :
    assocSet key value l = l ++ [(key, value)] := by
  induction l with
  | nil => rfl
  | cons p rest ih =>
    obtain ⟨k, v⟩ := p
    rw [List.map_cons, List.mem_cons, not_or] at h
    have hk : ¬ k = key := fun heq => h.1 heq.symm
    rw [assocSet, if_neg (by simpa using hk), ih h.2]
    rfl

/-- Pairs with different keys stay as they are. -/
theorem assocOfPairs_of_nodup {pairs : List (κ × α)} (h : (pairs.map Prod.fst).Nodup) :
    assocOfPairs pairs = pairs := by
  unfold assocOfPairs
  suffices hg : ∀ acc : List (κ × α), ((acc ++ pairs).map Prod.fst).Nodup →
      pairs.foldl (fun acc p => assocSet p.1 p.2 acc) acc = acc ++ pairs by
    simpa using hg [] (by simpa using h)
  clear h
  induction pairs with
  | nil => simp
  | cons p rest ih =>
    intro acc hacc
    have hp : p.1 ∉ acc.map Prod.fst := by
      rw [List.map_append, List.map_cons, List.nodup_append] at hacc
      exact fun hmem => hacc.2.2 _ hmem _ List.mem_cons_self rfl
    rw [List.foldl_cons, assocSet_of_not_mem hp, ih _ (by simpa using hacc)]
    simp

theorem mem_of_mem_assocOfPairs {pairs : List (κ × α)} {p : κ × α} (h : p ∈ assocOfPairs pairs) :
    p ∈ pairs := by
  unfold assocOfPairs at h
  suffices hg : ∀ acc : List (κ × α),
      p ∈ pairs.foldl (fun acc p => assocSet p.1 p.2 acc) acc → p ∈ acc ∨ p ∈ pairs by
    simpa using hg [] h
  clear h
  induction pairs with
  | nil => exact fun _ h => Or.inl h
  | cons q rest ih =>
    intro acc h
    rcases ih _ h with h | h
    · rcases mem_of_mem_assocSet h with h | h
      · exact Or.inr (h ▸ List.mem_cons_self)
      · exact Or.inl h
    · exact Or.inr (List.mem_cons_of_mem _ h)

theorem mem_keys_assocSet {key : κ} {value : α} {l : List (κ × α)} {k : κ} :
    k ∈ (assocSet key value l).map Prod.fst ↔ k ∈ l.map Prod.fst ∨ k = key := by
  by_cases h : key ∈ l.map Prod.fst
  · rw [map_fst_assocSet_of_mem key value l h]
    constructor
    · exact Or.inl
    · rintro (hk | rfl)
      · exact hk
      · exact h
  · rw [map_fst_assocSet_of_not_mem key value l h, List.mem_append, List.mem_singleton]

theorem mem_keys_assocOfPairs {pairs : List (κ × α)} {k : κ} :
    k ∈ (assocOfPairs pairs).map Prod.fst ↔ k ∈ pairs.map Prod.fst := by
  unfold assocOfPairs
  suffices h : ∀ acc : List (κ × α), k ∈ (pairs.foldl (fun acc p => assocSet p.1 p.2 acc) acc).map Prod.fst ↔
      k ∈ acc.map Prod.fst ∨ k ∈ pairs.map Prod.fst by
    simpa using h []
  induction pairs with
  | nil => simp
  | cons p rest ih =>
    intro acc
    rw [List.foldl_cons, ih, mem_keys_assocSet, List.map_cons, List.mem_cons, or_assoc]

end Assoc

namespace Json

inductive NamesDistinct : Json → Prop
  | null : NamesDistinct null
  | bool (b : Bool) : NamesDistinct (bool b)
  | num (n : Int) : NamesDistinct (num n)
  | real (literal : String) : NamesDistinct (real literal)
  | str (s : String) : NamesDistinct (str s)
  | arr {items : List Json} (each : ∀ v ∈ items, NamesDistinct v) : NamesDistinct (arr items)
  | obj {members : Members} (names : (members.map Prod.fst).Nodup)
      (each : ∀ m ∈ members, NamesDistinct m.2) : NamesDistinct (obj members)

theorem namesDistinct_of_field {v w : Json} {name : String} (hv : v.NamesDistinct)
    (h : v.field name = .ok w) : w.NamesDistinct := by
  cases hv with
  | obj _ each =>
    simp only [field] at h
    split at h
    · rename_i u hu
      obtain rfl : u = w := by simpa using h
      obtain ⟨before, after, rfl, -⟩ := List.lookup_eq_some_iff.1 hu
      exact each (name, u) (by simp)
    · cases h
  | _ => cases h

theorem nodup_of_members {v : Json} {ms : Members} (hv : v.NamesDistinct)
    (h : v.members = .ok ms) : (ms.map Prod.fst).Nodup := by
  cases hv with
  | obj names _ =>
    obtain rfl : _ = ms := by simpa [members] using h
    exact names
  | _ => cases h

theorem namesDistinct_of_word {cs rest : List Char} {v : Json} (h : word? cs = some (v, rest)) :
    v.NamesDistinct := by
  unfold word? at h
  split at h <;> simp only [Option.some.injEq, Prod.mk.injEq, reduceCtorEq] at h
  all_goals
    obtain ⟨rfl, -⟩ := h
    constructor

theorem namesDistinct_of_unsigned {negative : Bool} {cs rest : List Char} {v : Json}
    (h : unsignedNumber? negative cs = some (v, rest)) : v.NamesDistinct := by
  unfold unsignedNumber? at h
  dsimp only at h
  split_ifs at h <;> simp only [Option.some.injEq, Prod.mk.injEq] at h
  all_goals
    obtain ⟨rfl, -⟩ := h
    constructor

/-- What the three readers give with some fuel. -/
structure ReadDistinct (fuel : Nat) : Prop where
  value : ∀ cs v rest, value? cs fuel = some (v, rest) → v.NamesDistinct
  items : ∀ cs vs rest, items? cs fuel = some (vs, rest) → ∀ v ∈ vs, v.NamesDistinct
  members : ∀ cs ms rest, members? cs fuel = some (ms, rest) → ∀ m ∈ ms, m.2.NamesDistinct

theorem ReadDistinct.value_succ {fuel : Nat} (ih : ReadDistinct fuel) {cs rest : List Char} {v : Json}
    (h : value? cs (fuel + 1) = some (v, rest)) : v.NamesDistinct := by
  unfold value? at h
  split at h
  · cases h
  · obtain ⟨⟨s, rest'⟩, -, h⟩ := Option.bind_eq_some_iff.1 h
    obtain ⟨rfl, -⟩ : str s = _ ∧ _ := by simpa using h
    exact .str s
  · rename_i hfuel
    cases hfuel
    split at h
    · obtain ⟨rfl, -⟩ : arr [] = _ ∧ _ := by simpa using h
      exact .arr (by simp)
    · obtain ⟨⟨items, rest'⟩, hi, h⟩ := Option.bind_eq_some_iff.1 h
      obtain ⟨rfl, -⟩ : arr items = _ ∧ _ := by simpa using h
      exact .arr (ih.items _ _ _ hi)
  · rename_i hfuel
    cases hfuel
    split at h
    · obtain ⟨rfl, -⟩ : obj [] = _ ∧ _ := by simpa using h
      exact .obj (by simp) (by simp)
    · obtain ⟨⟨ms, rest'⟩, hm, h⟩ := Option.bind_eq_some_iff.1 h
      obtain ⟨rfl, -⟩ : obj (assocOfPairs ms) = _ ∧ _ := by simpa using h
      exact .obj (nodup_keys_assocOfPairs ms)
        fun m hmem => ih.members _ _ _ hm m (mem_of_mem_assocOfPairs hmem)
  · split at h
    · rename_i r hr
      obtain rfl : r = _ := by simpa using h
      exact namesDistinct_of_word hr
    · split at h <;> exact namesDistinct_of_unsigned h

theorem ReadDistinct.items_succ {fuel : Nat} (ih : ReadDistinct fuel) {cs rest : List Char}
    {vs : List Json} (h : items? cs (fuel + 1) = some (vs, rest)) : ∀ v ∈ vs, v.NamesDistinct := by
  unfold items? at h
  obtain ⟨⟨v, rest'⟩, hv, h⟩ := Option.bind_eq_some_iff.1 h
  have hfirst := ih.value _ _ _ hv
  dsimp only at h
  split at h
  · obtain ⟨⟨vs, rest'⟩, hvs, h⟩ := Option.bind_eq_some_iff.1 h
    obtain ⟨rfl, -⟩ : v :: vs = _ ∧ _ := by simpa using h
    exact List.forall_mem_cons.2 ⟨hfirst, ih.items _ _ _ hvs⟩
  · obtain ⟨rfl, -⟩ : [v] = _ ∧ _ := by simpa using h
    exact List.forall_mem_cons.2 ⟨hfirst, by simp⟩
  · cases h

theorem ReadDistinct.members_succ {fuel : Nat} (ih : ReadDistinct fuel) {cs rest : List Char}
    {ms : List (String × Json)} (h : members? cs (fuel + 1) = some (ms, rest)) :
    ∀ m ∈ ms, m.2.NamesDistinct := by
  unfold members? at h
  split at h
  · rename_i hfuel
    cases hfuel
    obtain ⟨⟨k, rest'⟩, -, h⟩ := Option.bind_eq_some_iff.1 h
    dsimp only at h
    split at h
    · obtain ⟨⟨v, rest'⟩, hv, h⟩ := Option.bind_eq_some_iff.1 h
      have hfirst := ih.value _ _ _ hv
      dsimp only at h
      split at h
      · obtain ⟨⟨ms, rest'⟩, hms, h⟩ := Option.bind_eq_some_iff.1 h
        obtain ⟨rfl, -⟩ : (k, v) :: ms = _ ∧ _ := by simpa using h
        exact List.forall_mem_cons.2 ⟨hfirst, ih.members _ _ _ hms⟩
      · obtain ⟨rfl, -⟩ : [(k, v)] = _ ∧ _ := by simpa using h
        exact List.forall_mem_cons.2 ⟨hfirst, by simp⟩
      · cases h
    · cases h
  · cases h

/-- By induction on the fuel that the readers share. -/
theorem readDistinct (fuel : Nat) : ReadDistinct fuel := by
  induction fuel with
  | zero =>
    constructor
    · intro cs v rest h
      simp [value?] at h
    · intro cs vs rest h
      simp [items?] at h
    · intro cs ms rest h
      simp [members?] at h
  | succ fuel ih =>
    exact ⟨fun _ _ _ h => ih.value_succ h, fun _ _ _ h => ih.items_succ h,
      fun _ _ _ h => ih.members_succ h⟩

theorem namesDistinct_of_parse {text : String} {doc : Json} (h : parse? text = some doc) :
    doc.NamesDistinct := by
  unfold parse? at h
  dsimp only at h
  split at h
  · rename_i v rest hv
    obtain ⟨-, rfl⟩ : _ ∧ v = doc := by simpa using h
    exact (readDistinct _).value _ _ _ hv
  · cases h

end Json

end Cairoscope
