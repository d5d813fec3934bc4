import Cairoscope.Proofs.Braces
import Cairoscope.Proofs.NumberReading
import Cairoscope.Text.Blank
import Cairoscope.Text.Split
import Mathlib.Data.List.TakeWhile

/-! Texts without their comments. A comment starts with two slashes and goes up to the end of its line. The
braces outside comments are the marks of a text. A text with neither braces nor slashes has no marks and
starts no comment, so most texts can be passed over. -/

namespace Cairoscope.Text

/-- The characters outside comments. `inside` says whether the text starts in a comment. -/
def uncommentFrom (inside : Bool) : List Char → List Char
  | [] => []
  | c :: rest =>
    if inside then
      if c = '\n' then c :: uncommentFrom false rest else uncommentFrom true rest
    else if c = '/' ∧ rest.head? = some '/' then uncommentFrom true rest
    else c :: uncommentFrom false rest

def uncomment (s : String) : String := String.ofList (uncommentFrom false s.toList)

def isBrace (c : Char) : Bool := c == '\x7b' || c == '\x7d'

/-- The braces outside comments, in order. -/
def marks (cs : List Char) : List Char := (uncommentFrom false cs).filter isBrace

section Goes

variable {cs ds : List Char} {a b c : Nat}

theorem goes_nil_iff : Goes [] a b ↔ a = b := by
  refine ⟨fun h => ?_, ?_⟩
  · simpa using h.whole
  · rintro rfl
    exact Goes.of_free free_nil a

theorem goes_append_iff : Goes (cs ++ ds) a c ↔ ∃ b, Goes cs a b ∧ Goes ds b c := by
  refine ⟨fun h => ?_, fun ⟨b, hcs, hds⟩ => hcs.append hds⟩
  have hcs := h.fronts cs (List.prefix_append cs ds)
  have hwhole := h.whole
  rw [List.count_append, List.count_append] at hwhole
  refine ⟨cs.count '\x7b' + a - cs.count '\x7d', ⟨by omega, fun front hfront => ?_⟩, by omega,
    fun front hfront => ?_⟩
  · exact h.fronts front (hfront.trans (List.prefix_append cs ds))
  · have hfronts := h.fronts (cs ++ front) ((List.prefix_append_right_inj cs).2 hfront)
    rw [List.count_append, List.count_append] at hfronts
    omega

theorem goes_opening_iff : Goes ['\x7b'] a b ↔ b = a + 1 := by
  refine ⟨fun h => ?_, ?_⟩
  · have hwhole : 1 + a = 0 + b := h.whole
    omega
  · rintro rfl
    have h := (Goes.opening free_nil free_nil).lift a
    rwa [Nat.zero_add, Nat.add_comm] at h

theorem goes_closings_iff (n : Nat) : Goes (List.replicate n '\x7d') a b ↔ a = b + n := by
  induction n generalizing a with
  | zero => exact goes_nil_iff
  | succ n ih =>
    have hone : ∀ m, Goes ['\x7d'] a m ↔ a = m + 1 := by
      intro m
      refine ⟨fun h => ?_, ?_⟩
      · have hwhole : 0 + a = 1 + m := h.whole
        omega
      · rintro rfl
        have h := (Goes.closing free_nil free_nil).lift m
        rwa [Nat.zero_add, Nat.add_comm] at h
    rw [List.replicate_succ, ← List.singleton_append, goes_append_iff]
    simp only [hone, ih]
    constructor
    · rintro ⟨m, rfl, rfl⟩
      omega
    · rintro rfl
      exact ⟨b + n, by omega, rfl⟩

theorem goes_filter_iff : Goes (cs.filter isBrace) a b ↔ Goes cs a b := by
  induction cs generalizing a with
  | nil => exact Iff.rfl
  | cons x cs ih =>
    rw [← List.singleton_append (l := cs), goes_append_iff, List.filter_append]
    by_cases hx : isBrace x = true
    · rw [List.filter_cons_of_pos hx, List.filter_nil, goes_append_iff]
      simp only [ih]
    · have hfree : Free [x] := by
        simp only [isBrace, Bool.or_eq_true, beq_iff_eq, not_or] at hx
        exact ⟨by simpa using Ne.symm hx.1, by simpa using Ne.symm hx.2⟩
      rw [List.filter_cons_of_neg hx, List.filter_nil, List.nil_append, ih]
      refine ⟨fun h => ⟨a, Goes.of_free hfree a, h⟩, fun ⟨m, hm, h⟩ => ?_⟩
      have hwhole := hm.whole
      rw [List.count_eq_zero_of_not_mem hfree.1, List.count_eq_zero_of_not_mem hfree.2] at hwhole
      rwa [show a = m by omega]

theorem balanced_uncomment_iff (s : String) : Balanced (uncomment s) ↔ Goes (marks s.toList) 0 0 := by
  rw [balanced_iff, uncomment, String.toList_ofList, marks, goes_filter_iff]

end Goes

/-- The character is no brace and starts no comment. -/
def isBare (c : Char) : Bool := !List.contains ['\x7b', '\x7d', '/'] c

def Bare (s : String) : Prop := s.toList.all isBare = true

instance (s : String) : Decidable (Bare s) := inferInstanceAs (Decidable (_ = true))

theorem isBare_of (test : Char → Bool) (hnone : ['\x7b', '\x7d', '/'].any test = false) {c : Char}
    (h : test c = true) : isBare c = true := by
  rw [isBare, Bool.not_eq_true']
  refine Bool.eq_false_iff.2 fun hmem => ?_
  exact List.any_eq_false.1 hnone c (List.contains_iff_mem.1 hmem) h

section Bare

variable {s t : String}

@[simp] theorem bare_append : Bare (s ++ t) ↔ Bare s ∧ Bare t := by
  simp only [Bare, String.toList_append, List.all_append, Bool.and_eq_true]

theorem bare_of_subset (h : Bare s) (ht : t.toList ⊆ s.toList) : Bare t :=
  List.all_eq_true.2 fun _ hc => List.all_eq_true.1 h _ (ht hc)

theorem bare_intercalate {separator : String} (hseparator : Bare separator) {items : List String}
    (h : ∀ s ∈ items, Bare s) : Bare (String.intercalate separator items) :=
  all_intercalate hseparator h

theorem bare_join {items : List String} (h : ∀ s ∈ items, Bare s) : Bare (String.join items) := by
  induction items with
  | nil => decide
  | cons item rest ih =>
    obtain ⟨hitem, hrest⟩ := List.forall_mem_cons.1 h
    rw [String.join_cons]
    exact bare_append.2 ⟨hitem, ih hrest⟩

theorem isBare_of_mem_toDigits {base n : Nat} {c : Char} (hbase : 1 < base) (hle : base ≤ 16)
    (h : c ∈ Nat.toDigits base n) : isBare c = true := by
  have hbare : ∀ d < 16, isBare (Nat.digitChar d) = true := by decide
  obtain ⟨d, hd, rfl⟩ := exists_digit_of_mem_toDigits hbase h
  exact hbare d (by omega)

theorem bare_toString (n : Nat) : Bare (toString n) := by
  refine List.all_eq_true.2 fun c hc => ?_
  rw [toList_toString] at hc
  exact isBare_of_mem_toDigits (by decide) (by decide) hc

theorem bare_decimal (n : Int) : Bare (decimal n) := by
  cases n with
  | ofNat m => exact bare_toString m
  | negSucc m =>
    change Bare ("-" ++ toString (m + 1))
    exact bare_append.2 ⟨by decide, bare_toString (m + 1)⟩

theorem bare_hexadecimal (n : Int) : Bare (hexadecimal n) := by
  refine bare_append.2 ⟨by split_ifs <;> decide, List.all_eq_true.2 fun c hc => ?_⟩
  rw [String.toList_ofList] at hc
  exact isBare_of_mem_toDigits (by decide) (by decide) hc

theorem mem_of_mem_pieces {mark : Char} {cs p : List Char} (hp : p ∈ pieces mark cs) : p ⊆ cs := by
  induction cs generalizing p with
  | nil =>
    rw [pieces, List.mem_singleton] at hp
    simp [hp]
  | cons c rest ih =>
    unfold pieces at hp
    split at hp
    · rcases List.mem_cons.1 hp with rfl | hp
      · exact List.nil_subset _
      · exact List.Subset.trans (ih hp) (List.subset_cons_self c rest)
    · split at hp
      · rw [List.mem_singleton.1 hp]
        exact List.cons_subset_cons c (List.nil_subset rest)
      · rename_i q qs hpieces
        rcases List.mem_cons.1 hp with rfl | hp
        · exact List.cons_subset_cons c (ih (hpieces ▸ List.mem_cons_self))
        · exact List.Subset.trans (ih (hpieces ▸ List.mem_cons_of_mem q hp)) (List.subset_cons_self c rest)

theorem Bare.lastPart (h : Bare s) (mark : Char) : Bare (lastPart mark s) := by
  unfold Text.lastPart
  cases hlast : (split mark s).getLast? with
  | none => decide
  | some t =>
    obtain ⟨p, hp, rfl⟩ := List.mem_map.1 (List.mem_of_getLast? hlast)
    refine bare_of_subset h ?_
    rw [Option.getD_some, String.toList_ofList]
    exact mem_of_mem_pieces hp

/-- What is dropped at the ends of a text is bare. -/
theorem exists_trim (s : String) :
    ∃ front back : String, Bare front ∧ Bare back ∧ s = front ++ trim s ++ back := by
  have hbare : ∀ {cs : List Char}, (∀ c ∈ cs, isBlank c = true) → Bare (String.ofList cs) := by
    intro cs hcs
    refine List.all_eq_true.2 fun c hc => isBare_of isBlank (by decide) (hcs c ?_)
    rwa [String.toList_ofList] at hc
  refine ⟨String.ofList (s.toList.takeWhile isBlank),
    String.ofList ((s.toList.dropWhile isBlank).reverse.takeWhile isBlank).reverse,
    hbare fun c hc => List.mem_takeWhile_imp hc,
    hbare fun c hc => List.mem_takeWhile_imp (List.mem_reverse.1 hc), ?_⟩
  apply String.toList_inj.1
  rw [String.toList_append, String.toList_append, String.toList_ofList, String.toList_ofList, trim,
    String.toList_ofList, List.append_assoc, ← List.reverse_append, List.takeWhile_append_dropWhile,
    List.reverse_reverse, List.takeWhile_append_dropWhile]

theorem bare_of_trim (h : trim s = "") : Bare s := by
  obtain ⟨front, back, hfront, hback, hs⟩ := exists_trim s
  rw [h, String.append_empty] at hs
  exact hs ▸ bare_append.2 ⟨hfront, hback⟩

end Bare

section Marks

variable {cs rest : List Char}

theorem marks_bare_append (h : cs.all isBare = true) (rest : List Char) : marks (cs ++ rest) = marks rest := by
  induction cs with
  | nil => rfl
  | cons c cs ih =>
    obtain ⟨hc, hcs⟩ := Bool.and_eq_true_iff.1 h
    have hslash : c ≠ '/' := by
      rintro rfl
      exact absurd hc (by decide)
    have hbrace : isBrace c = false := by
      rw [isBare, Bool.not_eq_true'] at hc
      simp only [isBrace, Bool.or_eq_false_iff, beq_eq_false_iff_ne]
      constructor
      · rintro rfl
        exact absurd hc (by decide)
      · rintro rfl
        exact absurd hc (by decide)
    have hrest := ih hcs
    rw [marks] at hrest ⊢
    rw [List.cons_append, uncommentFrom, if_neg Bool.false_ne_true, if_neg fun hboth => hslash hboth.1,
      List.filter_cons_of_neg (by rw [hbrace]; exact Bool.false_ne_true)]
    exact hrest

theorem marks_brace {c : Char} (hc : isBrace c = true) (rest : List Char) :
    marks (c :: rest) = c :: marks rest := by
  have hslash : c ≠ '/' := by
    rintro rfl
    exact absurd hc (by decide)
  rw [marks, uncommentFrom, if_neg Bool.false_ne_true, if_neg fun hboth => hslash hboth.1,
    List.filter_cons_of_pos hc, marks]

theorem marks_newline (rest : List Char) : marks ('\n' :: rest) = marks rest := by
  have hnewline : ['\n'].all isBare = true := by decide
  exact marks_bare_append hnewline rest

theorem uncommentFrom_newline (inside : Bool) (rest : List Char) :
    (uncommentFrom inside ('\n' :: rest)).filter isBrace = marks rest := by
  cases inside with
  | false => exact marks_newline rest
  | true => rfl

/-- A comment ends with its line, and hides what stands on it. -/
theorem marks_comment (hline : '\n' ∉ cs) (rest : List Char) :
    marks ('/' :: '/' :: (cs ++ '\n' :: rest)) = marks rest := by
  have hinside : ∀ ds : List Char, '\n' ∉ ds →
      uncommentFrom true (ds ++ '\n' :: rest) = uncommentFrom true ('\n' :: rest) := by
    intro ds hds
    induction ds with
    | nil => rfl
    | cons d ds ih =>
      rw [List.mem_cons, not_or] at hds
      rw [List.cons_append, uncommentFrom, if_pos rfl, if_neg (Ne.symm hds.1), ih hds.2]
  have hopen : uncommentFrom false ('/' :: '/' :: (cs ++ '\n' :: rest)) =
      uncommentFrom true (('/' :: cs) ++ '\n' :: rest) := rfl
  rw [marks, hopen, hinside ('/' :: cs) (by simpa using hline), uncommentFrom_newline]

/-- A comment without braces hides none after it, even if it goes on on a second line. -/
theorem marks_comment_bare (h : cs.all isBare = true) (rest : List Char) :
    marks ('/' :: '/' :: (cs ++ '\n' :: rest)) = marks rest := by
  have hinside : ∀ ds : List Char, ds.all isBare = true →
      (uncommentFrom true (ds ++ '\n' :: rest)).filter isBrace = marks rest := by
    intro ds hds
    induction ds with
    | nil => exact uncommentFrom_newline true rest
    | cons d ds ih =>
      obtain ⟨hd, hds⟩ := Bool.and_eq_true_iff.1 hds
      rw [List.cons_append, uncommentFrom, if_pos rfl]
      split_ifs with hnewline
      · subst hnewline
        exact (marks_bare_append hds ('\n' :: rest)).trans (marks_newline rest)
      · exact ih hds
  have hopen : uncommentFrom false ('/' :: '/' :: (cs ++ '\n' :: rest)) =
      uncommentFrom true (cs ++ '\n' :: rest) := rfl
  rw [marks, hopen, hinside cs h]

/-- What follows the text and is bare does not matter, in a comment or not. -/
theorem marks_append_bare (h : rest.all isBare = true) (cs : List Char) : marks (cs ++ rest) = marks cs := by
  have hend : ∀ inside, (uncommentFrom inside rest).filter isBrace = [] := by
    intro inside
    have hsub : ∀ (inside : Bool) (ds : List Char), uncommentFrom inside ds ⊆ ds := by
      intro inside ds
      induction ds generalizing inside with
      | nil => exact List.nil_subset []
      | cons d ds ih =>
        unfold uncommentFrom
        split_ifs
        · exact List.cons_subset_cons d (ih false)
        · exact List.Subset.trans (ih true) (List.subset_cons_self d ds)
        · exact List.Subset.trans (ih true) (List.subset_cons_self d ds)
        · exact List.cons_subset_cons d (ih false)
    refine List.filter_eq_nil_iff.2 fun c hc hbrace => ?_
    have hbare := List.all_eq_true.1 h c (hsub inside rest hc)
    simp only [isBrace, Bool.or_eq_true, beq_iff_eq] at hbrace
    rcases hbrace with rfl | rfl
    · exact absurd hbare (by decide)
    · exact absurd hbare (by decide)
  have hgeneral : ∀ inside, (uncommentFrom inside (cs ++ rest)).filter isBrace =
      (uncommentFrom inside cs).filter isBrace := by
    intro inside
    induction cs generalizing inside with
    | nil => exact hend inside
    | cons c cs ih =>
      have hhead : (cs ++ rest).head? = some '/' ↔ cs.head? = some '/' := by
        cases cs with
        | cons d ds => exact Iff.rfl
        | nil =>
          refine iff_of_false (fun hslash => ?_) (by simp)
          have hbare := List.all_eq_true.1 h '/' (List.mem_of_mem_head? hslash)
          exact absurd hbare (by decide)
      rw [List.cons_append, uncommentFrom, uncommentFrom]
      simp only [hhead]
      split_ifs
      · rw [List.filter_cons, List.filter_cons, ih]
      · exact ih true
      · exact ih true
      · rw [List.filter_cons, List.filter_cons, ih]
  exact hgeneral false

theorem marks_trim (s : String) : marks (trim s).toList = marks s.toList := by
  obtain ⟨front, back, hfront, hback, hs⟩ := exists_trim s
  have hlist := congrArg String.toList hs
  rw [String.toList_append, String.toList_append, List.append_assoc] at hlist
  rw [hlist, marks_bare_append hfront, marks_append_bare hback]

end Marks

/-- Wherever the text stands outside a comment, these are its marks, and it leaves no comment open. -/
def Shows (s : String) (ms : List Char) : Prop := ∀ rest, marks (s.toList ++ rest) = ms ++ marks rest

section Shows

variable {s t : String} {ms ns : List Char}

theorem Shows.append (hs : Shows s ms) (ht : Shows t ns) : Shows (s ++ t) (ms ++ ns) := by
  intro rest
  rw [String.toList_append, List.append_assoc, hs, ht, List.append_assoc]

theorem shows_of_bare (h : Bare s) : Shows s [] := marks_bare_append h

theorem Shows.after_bare (hs : Bare s) (ht : Shows t ns) : Shows (s ++ t) ns := (shows_of_bare hs).append ht

theorem shows_opening : Shows "\x7b" ['\x7b'] := marks_brace rfl

theorem shows_closing : Shows "\x7d" ['\x7d'] := marks_brace rfl

theorem shows_comment (h : '\n' ∉ s.toList ∨ Bare s) : Shows ("//" ++ s ++ "\n") [] := by
  intro rest
  have hlist : ("//" ++ s ++ "\n").toList ++ rest = '/' :: '/' :: (s.toList ++ '\n' :: rest) := by simp
  rw [hlist]
  rcases h with h | h
  · exact marks_comment h rest
  · exact marks_comment_bare h rest

theorem Shows.eq_nil_of_bare (h : Shows s ms) (hs : Bare s) : ms = [] := by
  have hboth := (h []).symm.trans (marks_bare_append hs [])
  simpa [marks, uncommentFrom] using hboth

end Shows

end Cairoscope.Text
