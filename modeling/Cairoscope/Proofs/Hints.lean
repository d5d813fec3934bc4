import Cairoscope.Proofs.Listing
import Cairoscope.Proofs.Transfers

/-! Hints in a disassembly. A document can have several hints at an offset; a contract keeps the code of the last
one, and the line of the instruction ends in it. -/

namespace Cairoscope

section Assoc

variable {α : Type}

theorem lookup_eq_some_iff_mem {l : List (String × α)} (h : (l.map Prod.fst).Nodup) {k : String} {v : α} :
    l.lookup k = some v ↔ (k, v) ∈ l := by
  induction l with
  | nil => simp
  | cons p l ih =>
    obtain ⟨k', v'⟩ := p
    obtain ⟨hnew, hl⟩ := List.nodup_cons.1 h
    rw [List.lookup_cons, List.mem_cons]
    by_cases hk : k = k'
    · subst hk
      have habsent : (k, v) ∉ l := fun hmem => hnew (List.mem_map.2 ⟨_, hmem, rfl⟩)
      simp [habsent, eq_comm]
    · simp [beq_false_of_ne hk, hk, ih hl]

/-- A table with each key once reads the same in any order. -/
theorem lookup_eq_of_perm {l l' : List (String × α)} (hperm : l.Perm l') (h : (l.map Prod.fst).Nodup)
    (k : String) : l.lookup k = l'.lookup k := by
  have h' : (l'.map Prod.fst).Nodup := (hperm.map Prod.fst).nodup_iff.1 h
  refine Option.ext fun v => ?_
  rw [lookup_eq_some_iff_mem h, lookup_eq_some_iff_mem h', hperm.mem_iff]

def assocSetAll (key : String) (values : List α) (l : List (String × α)) : List (String × α) :=
  values.foldl (fun l v => assocSet key v l) l

theorem lookup_assocSetAll (key : String) (values : List α) (l : List (String × α)) (k : String) :
    (assocSetAll key values l).lookup k = if k = key then values.getLast?.or (l.lookup k) else l.lookup k := by
  unfold assocSetAll
  induction values generalizing l with
  | nil => simp
  | cons v values ih =>
    rw [List.foldl_cons, ih, lookup_assocSet]
    by_cases hk : k = key
    · simp [hk, List.getLast?_cons]
    · simp [hk]

theorem nodup_keys_assocSetAll {key : String} {values : List α} {l : List (String × α)}
    (h : (l.map Prod.fst).Nodup) : ((assocSetAll key values l).map Prod.fst).Nodup := by
  unfold assocSetAll
  induction values generalizing l with
  | nil => exact h
  | cons v values ih => exact ih (nodup_keys_assocSet h)

end Assoc

namespace Artifact

def codeOf? (hint : Json) : Option Json := (hint.field "code").toOption

def codes (hints : List Json) : List Json := hints.filterMap codeOf?

def hintsAt (doc : Json) (offset : String) : Outcome (List Json) := do
  ((← (← table doc "hints").members).lookup offset).elim (pure []) Json.elements

def hintStep (offset : String) (found : List (String × Json)) (hint : Json) :
    Outcome (List (String × Json)) := do
  if ← hint.mentions "code" then return assocSet offset (← hint.field "code") found
  else return found

def offsetStep (found : List (String × Json)) (m : String × Json) : Outcome (List (String × Json)) := do
  (← m.2.elements).foldlM (hintStep m.1) found

theorem hints_eq {k : Kind} (hk : k ≠ .code) (doc : Json) :
    hints k doc = (do
      let found ← (← (← table doc "hints").members).foldlM offsetStep []
      return sortByText found) := by
  cases k with
  | cairo => rfl
  | starknet => rfl
  | code => exact absurd rfl hk

theorem hintStep_eq_ok {offset : String} {found found' : List (String × Json)} {hint : Json}
    (h : hintStep offset found hint = .ok found') :
    found' = assocSetAll offset (codeOf? hint).toList found := by
  unfold hintStep at h
  obtain ⟨mentioned, hmentions, h⟩ := Outcome.bind_eq_ok.1 h
  unfold codeOf?
  cases mentioned with
  | true =>
    obtain ⟨code, hcode, h⟩ := Outcome.bind_eq_ok.1 h
    rw [hcode]
    exact (Outcome.pure_eq_ok.1 h).symm
  | false =>
    obtain rfl := Outcome.pure_eq_ok.1 h
    cases hint with
    | obj members =>
      have habsent : members.lookup "code" = none := by
        rw [List.lookup_eq_none_iff]
        intro m hm
        have := List.any_eq_false.1 (Except.ok.inj hmentions) m hm
        rw [bne_iff_ne]
        rintro heq
        simp [← heq] at this
      simp [Json.field, habsent]
      rfl
    | _ => rfl

theorem hintSteps_eq_ok {offset : String} {found found' : List (String × Json)} {hs : List Json}
    (h : hs.foldlM (hintStep offset) found = .ok found') : found' = assocSetAll offset (codes hs) found := by
  induction hs generalizing found with
  | nil => exact (Outcome.pure_eq_ok.1 h).symm
  | cons hint hs ih =>
    obtain ⟨next, hstep, h⟩ := Outcome.foldlM_cons_eq_ok.1 h
    rw [ih h, hintStep_eq_ok hstep, codes, codes, List.filterMap_cons]
    cases codeOf? hint <;> rfl

theorem offsetStep_eq_ok {found found' : List (String × Json)} {m : String × Json}
    (h : offsetStep found m = .ok found') :
    ∃ hs, m.2.elements = .ok hs ∧ found' = assocSetAll m.1 (codes hs) found := by
  unfold offsetStep at h
  obtain ⟨hs, helements, h⟩ := Outcome.bind_eq_ok.1 h
  exact ⟨hs, helements, hintSteps_eq_ok h⟩

theorem nodup_keys_offsetSteps {ms : Json.Members} {found found' : List (String × Json)}
    (h : ms.foldlM offsetStep found = .ok found') (hfound : (found.map Prod.fst).Nodup) :
    (found'.map Prod.fst).Nodup := by
  induction ms generalizing found with
  | nil =>
    obtain rfl := Outcome.pure_eq_ok.1 h
    exact hfound
  | cons m ms ih =>
    obtain ⟨next, hstep, h⟩ := Outcome.foldlM_cons_eq_ok.1 h
    obtain ⟨hs, -, rfl⟩ := offsetStep_eq_ok hstep
    exact ih h (nodup_keys_assocSetAll hfound)

/-- The walk leaves at an offset the last code there, and what was there if there is none. -/
theorem lookup_offsetSteps {ms : Json.Members} {found found' : List (String × Json)}
    (h : ms.foldlM offsetStep found = .ok found') (hms : (ms.map Prod.fst).Nodup) (offset : String) :
    ∃ hs, (ms.lookup offset).elim (pure []) Json.elements = .ok hs ∧
      found'.lookup offset = (codes hs).getLast?.or (found.lookup offset) := by
  induction ms generalizing found with
  | nil =>
    obtain rfl := Outcome.pure_eq_ok.1 h
    exact ⟨[], rfl, rfl⟩
  | cons m ms ih =>
    obtain ⟨hnew, hms⟩ := List.nodup_cons.1 hms
    obtain ⟨next, hstep, h⟩ := Outcome.foldlM_cons_eq_ok.1 h
    obtain ⟨hs, helements, rfl⟩ := offsetStep_eq_ok hstep
    obtain ⟨rest, hrest, hlookup⟩ := ih h hms
    rw [hlookup, lookup_assocSetAll, List.lookup_cons]
    by_cases hoffset : offset = m.1
    · -- the key stands once, so nothing after it writes there
      have habsent : ms.lookup offset = none := by
        rw [List.lookup_eq_none_iff]
        intro m' hm'
        rw [bne_iff_ne, hoffset]
        exact fun heq => hnew (List.mem_map.2 ⟨m', hm', heq.symm⟩)
      rw [habsent] at hrest
      obtain rfl : [] = rest := Outcome.pure_eq_ok.1 hrest
      refine ⟨hs, ?_, ?_⟩
      · simpa [hoffset] using helements
      · simp [hoffset, codes]
    · rw [if_neg hoffset, beq_false_of_ne hoffset]
      exact ⟨rest, hrest, rfl⟩

/-- A contract keeps the code of the last hint at each offset that has one with a code. -/
theorem lookup_hints {k : Kind} {doc : Json} {table' : List (String × Json)} (hk : k ≠ .code)
    (hdoc : doc.NamesDistinct) (h : hints k doc = .ok table') (offset : String) :
    ∃ hs, hintsAt doc offset = .ok hs ∧ table'.lookup offset = (codes hs).getLast? := by
  rw [hints_eq hk] at h
  obtain ⟨t, ht, h⟩ := Outcome.bind_eq_ok.1 h
  obtain ⟨ms, hms, h⟩ := Outcome.bind_eq_ok.1 h
  obtain ⟨found, hfound, h⟩ := Outcome.bind_eq_ok.1 h
  obtain rfl := Outcome.pure_eq_ok.1 h
  have hnodup := Json.nodup_of_members (namesDistinct_of_table hdoc ht) hms
  obtain ⟨hs, hentry, hlookup⟩ := lookup_offsetSteps hfound hnodup offset
  refine ⟨hs, Outcome.bind_eq_ok.2 ⟨t, ht, Outcome.bind_eq_ok.2 ⟨ms, hms, hentry⟩⟩, ?_⟩
  have hsorted : (sortByText found).Perm found := List.mergeSort_perm ..
  rw [← lookup_eq_of_perm hsorted.symm (nodup_keys_offsetSteps hfound List.nodup_nil), hlookup]
  exact Option.or_none

end Artifact

namespace Site

/-- The line that an instruction with an empty hint has in its place. -/
def unhinted (p : Printer) (s : Site) : Outcome String :=
  text p { s with hint := s.hint.map fun _ => .str "" }

theorem bodyText_unhinted (p : Printer) (s : Site) :
    bodyText p { s with hint := s.hint.map fun _ => .str "" } = bodyText p s := by
  obtain ⟨offset, instruction, callTarget, callee, reference, hint⟩ := s
  cases hint <;> rfl

/-- A line is that of an empty hint and the note for the hint that the instruction has. -/
theorem text_eq_unhinted (p : Printer) (s : Site) :
    s.text p = (s.unhinted p).map (· ++ s.hint.elim "" (hintNote p)) := by
  unfold unhinted
  rw [text_eq, text_eq, bodyText_unhinted]
  cases s.bodyText p with
  | error e => rfl
  | ok body =>
    have hback : backText p { s with hint := s.hint.map fun _ => .str "" } = "" := by
      unfold backText
      cases s.hint <;> rfl
    refine congrArg Except.ok ?_
    dsimp only
    rw [hback, String.append_empty]
    rfl

end Site

namespace Contract

variable {doc : Json} {c : Contract}

/-- A code that counts as absent is no hint, and none is shown for it. -/
theorem hint_of_ofArtifact (h : ofArtifact doc = .ok c) {f : Function} (hf : f ∈ c.functions) {s : Site}
    (hs : s ∈ f.sites) (p : Printer) :
    s.hint.elim "" (Site.hintNote p) = (c.hints.lookup (toString s.offset)).elim "" (Site.hintNote p) := by
  obtain ⟨k, groups, fs, -, -, -, hfs, hfunctions⟩ := parts_of_ofArtifact h
  rw [hfunctions] at hf
  obtain ⟨f₀, hf₀, rfl⟩ := List.mem_map.1 hf
  obtain ⟨s₀, hs₀, rfl⟩ := List.mem_map.1 hs
  obtain ⟨q, hq⟩ := siteOf_of_functionsOf hfs hf₀ hs₀
  have hsite : s₀.hint.elim "" (Site.hintNote p) =
      (c.hints.lookup (toString s₀.offset)).elim "" (Site.hintNote p) := by
    unfold siteOf at hq
    obtain ⟨target, -, hq⟩ := Outcome.bind_eq_ok.1 hq
    obtain rfl := Outcome.pure_eq_ok.1 hq
    dsimp only
    cases c.hints.lookup (toString q.offset) with
    | none => rfl
    | some code => cases code <;> rfl
  split_ifs
  · exact hsite
  · exact hsite

end Contract

namespace Site

def Occurs (code : Json) (line : String) : Prop := code.display.toList <:+: line.toList

/-- Of the codes that an instruction has in the document, its line shows the last one. -/
structure ShowsLast (p : Printer) (codes : List Json) (front line : String) : Prop where
  ends : line = front ++ codes.getLast?.elim "" (hintNote p)
  /-- All of them are shown exactly when those before the last need no note. -/
  notes : line = front ++ String.join (codes.map (hintNote p)) ↔
    ∀ code ∈ codes.dropLast, code.isPresent = false
  occur : (∀ code ∈ codes, Occurs code line) ↔
    (∀ code ∈ codes.dropLast, Occurs code line) ∧
      ∀ code ∈ codes.getLast?, code.isPresent = true ∨ Occurs code front

theorem hintNote_eq_empty_iff (p : Printer) (code : Json) : hintNote p code = "" ↔ code.isPresent = false := by
  unfold hintNote
  cases code.isPresent with
  | false => simp
  | true => simp [Printer.piece, String.append_eq_empty_iff]

theorem occurs_append_hintNote (p : Printer) (code : Json) (front : String) :
    Occurs code (front ++ hintNote p code) ↔ code.isPresent = true ∨ Occurs code front := by
  unfold hintNote Occurs
  cases code.isPresent with
  | false => simp
  | true =>
    refine iff_of_true ⟨front.toList ++ p.palette.beige.toList ++ " # ".toList, ?_⟩ (.inl rfl)
    unfold Printer.piece
    simp only [if_true, String.toList_append, List.append_assoc]
    exact ⟨_, rfl⟩

theorem join_eq_empty_iff {texts : List String} : String.join texts = "" ↔ ∀ s ∈ texts, s = "" := by
  induction texts with
  | nil => simp
  | cons s texts ih => rw [String.join_cons, String.append_eq_empty_iff, ih, List.forall_mem_cons]

theorem showsLast_of_ends {p : Printer} {codes : List Json} {front line : String}
    (hends : line = front ++ codes.getLast?.elim "" (hintNote p)) : ShowsLast p codes front line := by
  refine ⟨hends, ?_, ?_⟩
  · rw [hends, String.append_right_inj]
    rcases List.eq_nil_or_concat codes with rfl | ⟨init, last, rfl⟩
    · simp
    · rw [List.concat_eq_append, List.getLast?_concat, List.dropLast_concat, List.map_append,
        String.join_append, eq_comm]
      have hlast : String.join ([last].map (hintNote p)) = hintNote p last := by simp [String.join_cons]
      have hempty : ∀ {a b : String}, a ++ b = b ↔ a = "" := by
        intro a b
        rw [← String.toList_inj, String.toList_append, List.append_left_eq_self, String.toList_eq_nil_iff]
      rw [hlast, Option.elim_some, hempty, join_eq_empty_iff, List.forall_mem_map]
      simp only [hintNote_eq_empty_iff]
  · rcases List.eq_nil_or_concat codes with rfl | ⟨init, last, rfl⟩
    · simp
    · rw [List.concat_eq_append, List.getLast?_concat] at hends
      rw [List.concat_eq_append, List.getLast?_concat, List.dropLast_concat, List.forall_mem_append,
        List.forall_mem_singleton]
      refine and_congr_right fun _ => ?_
      rw [hends]
      simpa using occurs_append_hintNote p last front

end Site

namespace Contract

/-- The line of an instruction shows one hint of those that the document has at its offset, the last one with a
code. The others are in it only if they count as absent, or by accident: if their text occurs in the rest of
the line. -/
theorem last_hint_shown {source : String} {doc : Json} (hparse : Json.parse? source = some doc)
    {k : Artifact.Kind} (hkind : Artifact.kind doc = .ok k) (hk : k ≠ .code) {c : Contract}
    (hload : ofArtifact doc = .ok c) {f : Function} (hf : f ∈ c.functions) {s : Site} (hs : s ∈ f.sites)
    (palette : Palette) :
    ∃ hints, Artifact.hintsAt doc (toString s.offset) = .ok hints ∧
      ((∃ line, s.text (c.printer palette) = .ok line) ↔
        ∃ front, s.unhinted (c.printer palette) = .ok front) ∧
      ∀ line, s.text (c.printer palette) = .ok line → ∃ front, s.unhinted (c.printer palette) = .ok front ∧
        Site.ShowsLast (c.printer palette) (Artifact.codes hints) front line := by
  obtain ⟨k', groups, fs, hkind', -, hhints, -, -⟩ := parts_of_ofArtifact hload
  obtain rfl := Except.ok.inj (hkind.symm.trans hkind')
  have hdoc := Json.namesDistinct_of_parse hparse
  obtain ⟨hints, hentry, hlookup⟩ := Artifact.lookup_hints hk hdoc hhints (toString s.offset)
  have htext := Site.text_eq_unhinted (c.printer palette) s
  rw [hint_of_ofArtifact hload hf hs, hlookup] at htext
  refine ⟨hints, hentry, ?_, ?_⟩
  · rw [htext]
    constructor
    · rintro ⟨line, hline⟩
      obtain ⟨front, hfront, -⟩ := Outcome.map_eq_ok.1 hline
      exact ⟨front, hfront⟩
    · rintro ⟨front, hfront⟩
      exact ⟨_, Outcome.map_eq_ok.2 ⟨front, hfront, rfl⟩⟩
  · intro line hline
    rw [htext] at hline
    obtain ⟨front, hfront, rfl⟩ := Outcome.map_eq_ok.1 hline
    exact ⟨front, hfront, Site.showsLast_of_ends rfl⟩

def hintedText : String :=
  "\x7b\x22prime\x22: \x220x61\x22, \x22builtins\x22: [], \x22data\x22: [\x220x480680017fff8000\x22, \x220x1\x22, " ++
  "\x220x208b7fff7fff7ffe\x22], \x22identifiers\x22: \x7b\x22main\x22: \x7b\x22type\x22: " ++
  "\x22function\x22, \x22pc\x22: 0\x7d\x7d, \x22hints\x22: \x7b\x222\x22: [" ++
  "\x7b\x22code\x22: \x22a = 1\x22\x7d, \x7b\x22code\x22: \x22b = 2\x22\x7d]\x7d\x7d"

/-- The first of the two is lost. -/
theorem last_hint_shown_second : ∃ doc c, Json.parse? hintedText = some doc ∧ ofArtifact doc = .ok c ∧
    ∃ f ∈ c.functions, ∃ s ∈ f.sites, ∃ hints front line,
      Artifact.hintsAt doc (toString s.offset) = .ok hints ∧
      (Artifact.codes hints).map Json.display = ["a = 1", "b = 2"] ∧
      s.text (c.printer .plain) = .ok line ∧
      line = "\noffset 2:          RET                  # b = 2            " ∧
      Site.ShowsLast (c.printer .plain) (Artifact.codes hints) front line ∧
      ¬∀ code ∈ Artifact.codes hints, Site.Occurs code line := by
  have hrun : ((Json.parse? hintedText).map fun doc => do
      let k ← Artifact.kind doc
      let c ← ofArtifact doc
      let hints ← Artifact.hintsAt doc "2"
      pure (decide (k = Artifact.Kind.cairo ∧ (Artifact.codes hints).map Json.display = ["a = 1", "b = 2"] ∧
        ∃ f ∈ c.functions, ∃ s ∈ f.sites, s.offset = 2 ∧ s.text (c.printer .plain) =
          Except.ok "\noffset 2:          RET                  # b = 2            "))) = some (.ok true) := by
    decide +kernel
  obtain ⟨doc, hparse, hrun⟩ := Option.map_eq_some_iff.1 hrun
  obtain ⟨k, hkind, hrun⟩ := Outcome.bind_eq_ok.1 hrun
  obtain ⟨c, hload, hrun⟩ := Outcome.bind_eq_ok.1 hrun
  obtain ⟨hints, hhints, hrun⟩ := Outcome.bind_eq_ok.1 hrun
  obtain ⟨rfl, hcodes, f, hf, s, hs, hoffset, hline⟩ := of_decide_eq_true (Outcome.pure_eq_ok.1 hrun)
  obtain ⟨hints', hhints', -, hshown⟩ :=
    last_hint_shown hparse hkind (by decide) hload hf hs .plain
  have hsame : Artifact.hintsAt doc "2" = .ok hints' := by rwa [hoffset] at hhints'
  obtain rfl := Except.ok.inj (hhints.symm.trans hsame)
  obtain ⟨front, -, hlast⟩ := hshown _ hline
  refine ⟨doc, c, hparse, hload, f, hf, s, hs, hints, front, _, hhints', hcodes, hline, rfl, hlast, ?_⟩
  intro hall
  have hfirst : ∀ text ∈ (Artifact.codes hints).map Json.display, text.toList <:+:
      "\noffset 2:          RET                  # b = 2            ".toList := List.forall_mem_map.2 hall
  rw [hcodes] at hfirst
  exact absurd (hfirst "a = 1" (by simp)) (by decide +kernel)

end Contract

end Cairoscope
