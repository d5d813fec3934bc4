import Cairoscope.Proofs.Sweep

/-! The listing of an artifact. The functions are those declared in the document, each opened at its
offset by the sweep, and their code put together is the swept code. -/

namespace Cairoscope.Artifact

def DescribesStart (description : Json) (offset : String) : Prop :=
  ∃ type pc, description.field "type" = .ok type ∧ type.isText "function" = true ∧
    description.field "pc" = .ok pc ∧ pc.display = offset

theorem DescribesStart.unique {description : Json} {a b : String}
    (ha : DescribesStart description a) (hb : DescribesStart description b) : a = b := by
  obtain ⟨_, pc, -, -, hpc, rfl⟩ := ha
  obtain ⟨_, pc', -, -, hpc', rfl⟩ := hb
  rw [hpc] at hpc'
  obtain rfl : pc = pc' := by simpa using hpc'
  rfl

/-- The last identifier that is a function starting at the offset. -/
def LastAt (ids : Json.Members) (offset name : String) : Prop :=
  ∃ before description after, ids = before ++ (name, description) :: after ∧
    DescribesStart description offset ∧ ∀ m ∈ after, ¬ DescribesStart m.2 offset

theorem lastAt_cons {m : String × Json} {ids : Json.Members} {offset name : String} :
    LastAt (m :: ids) offset name ↔ LastAt ids offset name ∨
      (DescribesStart m.2 offset ∧ m.1 = name ∧ ∀ m' ∈ ids, ¬ DescribesStart m'.2 offset) := by
  constructor
  · rintro ⟨before, description, after, hids, hd, hafter⟩
    cases before with
    | nil =>
      obtain ⟨rfl, rfl⟩ := List.cons.inj hids
      exact Or.inr ⟨hd, rfl, hafter⟩
    | cons b before =>
      obtain ⟨rfl, rfl⟩ := List.cons.inj hids
      exact Or.inl ⟨before, description, after, rfl, hd, hafter⟩
  · rintro (⟨before, description, after, rfl, hd, hafter⟩ | ⟨hd, rfl, hafter⟩)
    · exact ⟨m :: before, description, after, rfl, hd, hafter⟩
    · exact ⟨[], m.2, ids, rfl, hd, hafter⟩

def declareStep (starts : List (String × String)) (m : String × Json) :
    Outcome (List (String × String)) := do
  if (← m.2.field "type").isText "function" then
    return assocSet (← m.2.field "pc").display m.1 starts
  else return starts

theorem functionStarts_eq (ids : Json.Members) : functionStarts ids = ids.foldlM declareStep [] := rfl

theorem lookup_declareStep {starts starts' : List (String × String)} {m : String × Json}
    (h : declareStep starts m = .ok starts') (offset name : String) :
    starts'.lookup offset = some name ↔
      (DescribesStart m.2 offset ∧ m.1 = name) ∨
        (¬ DescribesStart m.2 offset ∧ starts.lookup offset = some name) := by
  unfold declareStep at h
  obtain ⟨type, htype, h⟩ := Outcome.bind_eq_ok.1 h
  split at h
  · rename_i hfun
    obtain ⟨pc, hpc, h⟩ := Outcome.bind_eq_ok.1 h
    rw [Outcome.pure_eq_ok] at h
    subst h
    have hd : DescribesStart m.2 offset ↔ offset = pc.display := by
      constructor
      · intro hd
        exact hd.unique ⟨type, pc, htype, hfun, hpc, rfl⟩
      · rintro rfl
        exact ⟨type, pc, htype, hfun, hpc, rfl⟩
    rw [lookup_assocSet, hd]
    by_cases he : offset = pc.display <;> simp [he]
  · rename_i hfun
    rw [Outcome.pure_eq_ok] at h
    subst h
    have hd : ¬ DescribesStart m.2 offset := by
      rintro ⟨t, _, ht, hf, -⟩
      rw [htype] at ht
      obtain rfl : type = t := by simpa using ht
      exact hfun hf
    simp [hd]

theorem lookup_functionStarts {ids : Json.Members} {starts : List (String × String)}
    (h : functionStarts ids = .ok starts) (offset name : String) :
    starts.lookup offset = some name ↔ LastAt ids offset name := by
  rw [functionStarts_eq] at h
  suffices hg : ∀ acc, ids.foldlM declareStep acc = .ok starts →
      (starts.lookup offset = some name ↔ LastAt ids offset name ∨
        ((∀ m ∈ ids, ¬ DescribesStart m.2 offset) ∧ acc.lookup offset = some name)) by
    simpa using hg [] h
  clear h
  induction ids with
  | nil =>
    intro acc h
    obtain rfl : acc = starts := by simpa [pure, Except.pure] using h
    simp [LastAt]
  | cons m ids ih =>
    intro acc h
    obtain ⟨acc', hstep, h⟩ := Outcome.foldlM_cons_eq_ok.1 h
    rw [ih acc' h, lookup_declareStep hstep, lastAt_cons, List.forall_mem_cons]
    tauto

/-- The function that is declared at an offset of the code. Of several the last one counts; deployed
code is one function. -/
def DeclaredAt (k : Kind) (doc : Json) (offset : Nat) (name : String) : Prop :=
  match k with
  | .code => offset = 0 ∧ name = "unknown_function"
  | _ => ∃ ids, identifiers doc = .ok ids ∧ LastAt ids (toString offset) name

theorem declaredAt_iff {k : Kind} (hk : k ≠ .code) {doc : Json} {offset : Nat} {name : String} :
    DeclaredAt k doc offset name ↔
      ∃ ids, identifiers doc = .ok ids ∧ LastAt ids (toString offset) name := by
  unfold DeclaredAt
  split
  · exact absurd rfl hk
  · rfl

theorem lookup_starts {k : Kind} {doc : Json} {decls : Declarations}
    (h : declarations k doc = .ok decls) (offset : Nat) (name : String) :
    decls.starts.lookup (toString offset) = some name ↔ DeclaredAt k doc offset name := by
  by_cases hk : k = .code
  · subst hk
    obtain rfl : _ = decls := by simpa [declarations] using h
    by_cases he : offset = 0
    · subst he
      have : toString 0 = "0" := rfl
      rw [this, List.lookup_cons_self]
      simp [DeclaredAt, eq_comm]
    · have : (toString offset == "0") = false := beq_false_of_ne fun h => he (Text.toString_inj (n := 0) h)
      rw [List.lookup_cons, this]
      simp [DeclaredAt, he]
  · have hdecl : ∃ ids, identifiers doc = .ok ids ∧ functionStarts ids = .ok decls.starts := by
      unfold declarations at h
      split at h
      · exact absurd rfl hk
      · obtain ⟨table, htable, h⟩ := Outcome.bind_eq_ok.1 h
        obtain ⟨ids, hids, h⟩ := Outcome.bind_eq_ok.1 h
        obtain ⟨starts, hstarts, h⟩ := Outcome.bind_eq_ok.1 h
        obtain ⟨entries, -, h⟩ := Outcome.bind_eq_ok.1 h
        obtain ⟨signatures, -, h⟩ := Outcome.bind_eq_ok.1 h
        rw [Outcome.pure_eq_ok] at h
        subst h
        exact ⟨ids, Outcome.bind_eq_ok.2 ⟨table, htable, hids⟩, hstarts⟩
    obtain ⟨ids, hids, hstarts⟩ := hdecl
    rw [lookup_functionStarts hstarts, declaredAt_iff hk, hids]
    simp

theorem namesDistinct_of_table {doc t : Json} {name : String} (hdoc : doc.NamesDistinct)
    (h : table doc name = .ok t) : t.NamesDistinct := by
  obtain ⟨there, -, h⟩ := Outcome.bind_eq_ok.1 h
  split at h
  · exact Json.namesDistinct_of_field hdoc h
  · obtain ⟨program, hp, h⟩ := Outcome.bind_eq_ok.1 h
    exact Json.namesDistinct_of_field (Json.namesDistinct_of_field hdoc hp) h

/-- One function is not declared at two offsets. -/
theorem DeclaredAt.offset_unique {k : Kind} {doc : Json} (hdoc : doc.NamesDistinct) {a b : Nat}
    {name : String} (ha : DeclaredAt k doc a name) (hb : DeclaredAt k doc b name) : a = b := by
  by_cases hk : k = .code
  · subst hk
    exact ha.1.trans hb.1.symm
  · obtain ⟨ids, hids, before, d, after, hd, hstart, -⟩ := (declaredAt_iff hk).1 ha
    obtain ⟨ids', hids', before', d', after', hd', hstart', -⟩ := (declaredAt_iff hk).1 hb
    obtain rfl : ids = ids' := by rw [hids] at hids'; simpa using hids'
    have hnames : (ids.map Prod.fst).Nodup := by
      obtain ⟨t, ht, hm⟩ := Outcome.bind_eq_ok.1 hids
      exact Json.nodup_of_members (namesDistinct_of_table hdoc ht) hm
    have hsame : d = d' := by
      have h1 : (name, d) ∈ ids := hd ▸ by simp
      have h2 : (name, d') ∈ ids := hd' ▸ by simp
      exact (Prod.mk.inj (List.inj_on_of_nodup_map hnames h1 h2 rfl)).2
    subst hsame
    exact Text.toString_inj (hstart.unique hstart')

/-- A group starts with the instruction that opens it, and no other of its instructions opens one. -/
def OpensOnce (g : Group) : Prop :=
  ∃ p rest, g.code = p :: rest ∧ p.opens = some g.name ∧ ∀ q ∈ rest, q.opens = none

theorem groups_placeIn (signatures : List (String × Signature)) {groups : List Group} {p : Placed}
    (hp : p.opens.isSome ∨ groups ≠ []) (hg : ∀ g ∈ groups, OpensOnce g) :
    (placeIn signatures groups p).flatMap (·.code) = groups.flatMap (·.code) ++ [p] ∧
      (placeIn signatures groups p).map (·.name) = groups.map (·.name) ++ p.opens.toList ∧
      (∀ g ∈ placeIn signatures groups p, OpensOnce g) ∧ placeIn signatures groups p ≠ [] := by
  unfold placeIn
  cases ho : p.opens with
  | some name =>
    refine ⟨by simp, by simp, ?_, by simp⟩
    intro g hmem
    rcases List.mem_append.1 hmem with h | h
    · exact hg g h
    · obtain rfl := List.mem_singleton.1 h
      exact ⟨p, [], rfl, ho, by simp⟩
  | none =>
    have hne : groups ≠ [] := hp.resolve_left (by simp [ho])
    obtain ⟨front, last, rfl⟩ := (List.eq_nil_or_concat' groups).resolve_left hne
    obtain ⟨q, rest, hcode, hopen, hrest⟩ := hg last (by simp)
    simp only [List.getLast?_append, List.getLast?_singleton, Option.some_or, List.dropLast_concat]
    refine ⟨by simp, by simp, ?_, by simp⟩
    intro g hmem
    rcases List.mem_append.1 hmem with h | h
    · exact hg g (List.mem_append_left _ h)
    · obtain rfl := List.mem_singleton.1 h
      refine ⟨q, rest ++ [p], by simp [hcode], hopen, ?_⟩
      intro x hx
      rcases List.mem_append.1 hx with h | h
      · exact hrest x h
      · exact List.mem_singleton.1 h ▸ ho

theorem groups_foldl (signatures : List (String × Signature)) (code : List Placed)
    (groups : List Group) (hp : groups ≠ [] ∨ ∀ p ∈ code.head?, p.opens.isSome)
    (hg : ∀ g ∈ groups, OpensOnce g) :
    (code.foldl (placeIn signatures) groups).flatMap (·.code) = groups.flatMap (·.code) ++ code ∧
      (code.foldl (placeIn signatures) groups).map (·.name) =
        groups.map (·.name) ++ code.filterMap (·.opens) ∧
      ∀ g ∈ code.foldl (placeIn signatures) groups, OpensOnce g := by
  induction code generalizing groups with
  | nil => exact ⟨by simp, by simp, hg⟩
  | cons p code ih =>
    have hfirst : p.opens.isSome ∨ groups ≠ [] := hp.symm.imp_left fun h => h p (by simp)
    obtain ⟨hcode, hname, hopen, hne⟩ := groups_placeIn signatures hfirst hg
    obtain ⟨ihcode, ihname, ihopen⟩ := ih _ (Or.inl hne) hopen
    rw [List.foldl_cons]
    refine ⟨?_, ?_, ihopen⟩
    · rw [ihcode, hcode, List.append_assoc, List.singleton_append]
    · rw [ihname, hname, List.append_assoc]
      cases ho : p.opens <;> simp [ho]

structure Listed (k : Kind) (doc : Json) (words : List Int) (groups : List Group)
    (code : List Placed) : Prop where
  reads : bytecode k doc = .ok words
  tiles : Tiles words code
  decoded : ∀ p ∈ code, DecodedFrom words p
  flat : groups.flatMap (·.code) = code
  names : groups.map (·.name) = code.filterMap (·.opens)
  opens : ∀ g ∈ groups, OpensOnce g
  declared : ∀ p ∈ code, ∀ name, p.opens = some name ↔ DeclaredAt k doc p.offset name

theorem listed_of_listing {k : Kind} {doc : Json} {groups : List Group}
    (h : listing k doc = .ok groups) : ∃ words code, Listed k doc words groups code := by
  unfold listing at h
  obtain ⟨words, hwords, h⟩ := Outcome.bind_eq_ok.1 h
  obtain ⟨decls, hdecls, h⟩ := Outcome.bind_eq_ok.1 h
  obtain ⟨code, hcode, h⟩ := Outcome.bind_eq_ok.1 h
  rw [Outcome.pure_eq_ok] at h
  subst h
  have hswept : Swept _ 0 words code := swept_of_sweepFrom (Nat.le_refl _) hcode
  have hhead : ∀ p ∈ code.head?, p.opens.isSome := by
    cases code with
    | nil => simp
    | cons p code =>
      intro q hq
      obtain rfl : p = q := by simpa using hq
      exact opens_of_sweep hcode
  obtain ⟨hflat, hname, hopen⟩ :=
    groups_foldl decls.signatures code [] (Or.inr hhead) (by simp)
  rw [List.flatMap_nil, List.nil_append] at hflat
  rw [List.map_nil, List.nil_append] at hname
  refine ⟨words, code, hwords, hswept.tiles, hswept.decodedFrom, hflat, hname, hopen, ?_⟩
  intro p hp name
  rw [hswept.opens_eq p hp, lookup_starts hdecls]

section Listed

variable {k : Kind} {doc : Json} {words : List Int} {groups : List Group} {code : List Placed}

/-- No group is opened again: its function starts at one offset only. -/
theorem Listed.nodup_names (h : Listed k doc words groups code) (hnames : doc.NamesDistinct) :
    (groups.map (·.name)).Nodup := by
  rw [h.names, List.Nodup, List.pairwise_filterMap]
  have hincreasing := h.tiles.increasing
  rw [List.pairwise_map] at hincreasing
  refine hincreasing.imp_of_mem fun {p q} hp hq hlt name hpn name' hqn => ?_
  rintro rfl
  have hp' := (h.declared p hp name).1 hpn
  have hq' := (h.declared q hq name).1 hqn
  exact absurd (hp'.offset_unique hnames hq') (Nat.ne_of_lt hlt)

end Listed

end Cairoscope.Artifact
