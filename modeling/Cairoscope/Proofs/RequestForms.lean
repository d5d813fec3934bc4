import Cairoscope.Proofs.Cells
import Cairoscope.Proofs.Outcome
import Cairoscope.Symbolic.Request

/-! The forms of a request. Each form reads back what is written in it, whatever follows as long as it cannot extend
it, and what a form has read has the shape of a name. -/

namespace Cairoscope

namespace Text

theorem digitValue?_of_isDigit {c : Char} (h : c.isDigit = true) : digitValue? c = some (c.toNat - '0'.toNat) := by
  have hbounds : 48 ≤ c.toNat ∧ c.toNat ≤ 57 := by
    simpa [Char.isDigit, UInt32.le_iff_toNat_le] using h
  unfold digitValue? digitRanges
  rw [List.find?_cons_of_pos (by simpa using hbounds), Option.map_some]
  have hzero : '0'.toNat = 48 := rfl
  rw [hzero, Nat.mod_eq_of_lt (by omega)]

theorem isDigit_of_isDigit {c : Char} (h : c.isDigit = true) : isDigit c = true := by
  unfold isDigit
  rw [digitValue?_of_isDigit h]
  rfl

theorem isDigit_of_mem_toDigits {n : Nat} {c : Char} (h : c ∈ Nat.toDigits 10 n) : isDigit c = true :=
  isDigit_of_isDigit (Nat.isDigit_of_mem_toDigits (by decide) (by decide) h)

end Text

namespace Symbolic

def Relation.sign : Relation → String
  | .equal => "=="
  | .distinct => "!="
  | .less => "<"
  | .atMost => "<="
  | .greater => ">"
  | .atLeast => ">="

section Forms

variable {p : Char → Bool} {body rest : List Char}

theorem takeWhile_append_stop (hbody : ∀ c ∈ body, p c = true) (hrest : ∀ c ∈ rest.head?, p c = false) :
    (body ++ rest).takeWhile p = body := by
  rw [List.takeWhile_append_of_pos hbody]
  cases rest with
  | nil => simp
  | cons c rest => simp [hrest c rfl]

theorem dropWhile_append_stop (hbody : ∀ c ∈ body, p c = true) (hrest : ∀ c ∈ rest.head?, p c = false) :
    (body ++ rest).dropWhile p = rest := by
  rw [List.dropWhile_append_of_pos hbody]
  cases rest with
  | nil => rfl
  | cons c rest => simp [hrest c rfl]

theorem numbered_v (rest : List Char) : numbered ('v' :: rest) =
    let digits := (rest.takeWhile Text.isDigit).take 4
    if digits.isEmpty then none else some ('v' :: digits, rest.drop digits.length) := rfl

theorem numbered_append {n : Nat} (hn : n < 10000) (hrest : ∀ c ∈ rest.head?, Text.isDigit c = false) :
    numbered ('v' :: (Nat.toDigits 10 n ++ rest)) = some ('v' :: Nat.toDigits 10 n, rest) := by
  have hlength : (Nat.toDigits 10 n).length ≤ 4 := (Nat.length_toDigits_le_iff (by decide) (by decide)).2 hn
  have hne : Nat.toDigits 10 n ≠ [] := Nat.toDigits_ne_nil
  rw [numbered_v, takeWhile_append_stop (fun c hc => Text.isDigit_of_mem_toDigits hc) hrest]
  dsimp only
  rw [List.take_of_length_le hlength, if_neg (by simp [hne]), List.drop_left]

/-- Whatever its number, a name starts with a form. -/
theorem exists_numbered (n : Nat) (rest : List Char) :
    ∃ r, numbered ('v' :: (Nat.toDigits 10 n ++ rest)) = some r := by
  rw [numbered_v, List.takeWhile_append_of_pos fun c hc => Text.isDigit_of_mem_toDigits hc]
  dsimp only
  obtain ⟨c, ds, hds⟩ := List.exists_cons_of_ne_nil (Nat.toDigits_ne_nil (b := 10) (n := n))
  rw [if_neg (by simp [hds])]
  exact ⟨_, rfl⟩

def Worded (v : Variable) : Prop := ∀ l, v.label = some l → l ≠ "" ∧ ∀ c ∈ l.toList, Text.isWord c = true

theorem label_word (h : rest.takeWhile Text.isWord ≠ []) :
    label ('_' :: rest) = ('_' :: rest.takeWhile Text.isWord, rest.dropWhile Text.isWord) := by
  rw [label]
  split
  · exact absurd ‹_› h
  · rfl

theorem label_of_head? (h : rest.head? ≠ some '_') : label rest = ([], rest) := by
  unfold label
  split
  · exact absurd rfl h
  · rfl

theorem label_append {v : Variable} (hv : Worded v) (hrest : ∀ c ∈ rest.head?, Text.isWord c = false) :
    label (Variable.tail v.label ++ rest) = (Variable.tail v.label, rest) := by
  cases hlabel : v.label with
  | none =>
    refine label_of_head? fun hhead => ?_
    have hunderscore := hrest '_' hhead
    revert hunderscore
    decide +kernel
  | some l =>
    obtain ⟨hne, hl⟩ := hv l hlabel
    have htake : (l.toList ++ rest).takeWhile Text.isWord = l.toList := takeWhile_append_stop hl hrest
    have hword : (l.toList ++ rest).takeWhile Text.isWord ≠ [] := by
      rw [htake]
      simpa using hne
    refine (label_word hword).trans ?_
    rw [htake, dropWhile_append_stop hl hrest]
    rfl

theorem toList_name (v : Variable) : v.name.toList = 'v' :: (Nat.toDigits 10 v.number ++ Variable.tail v.label) :=
  Variable.toList_nameOf v.number v.label

theorem isDigit_of_mem_tail {v : Variable} (hrest : ∀ c ∈ rest.head?, Text.isDigit c = false) :
    ∀ c ∈ (Variable.tail v.label ++ rest).head?, Text.isDigit c = false := by
  cases v.label with
  | none => exact hrest
  | some l =>
    intro c hc
    obtain rfl : '_' = c := Option.some.inj hc
    decide +kernel

theorem nameAt_append {v : Variable} (hn : v.number < 10000) (hv : Worded v)
    (hrest : ∀ c ∈ rest.head?, Text.isDigit c = false ∧ Text.isWord c = false) :
    nameAt (v.name.toList ++ rest) = some (v.name, rest) := by
  unfold nameAt
  rw [toList_name, List.cons_append, List.append_assoc,
    numbered_append hn (isDigit_of_mem_tail fun c hc => (hrest c hc).1)]
  simp only [Option.bind_eq_bind, Option.bind_some, label_append hv fun c hc => (hrest c hc).2]
  rw [List.cons_append, ← toList_name, String.ofList_toList]
  rfl

theorem head?_sign (r : Relation) (rest : List Char) :
    ∀ c ∈ (r.sign.toList ++ rest).head?, Text.isDigit c = false ∧ Text.isWord c = false := by
  intro c hc
  cases r <;> (obtain rfl := Option.some.inj hc; decide +kernel)

theorem relationAt_append (r : Relation) (h : rest.head? ≠ some '=') :
    relationAt (r.sign.toList ++ rest) = some (r, rest) := by
  cases r with
  | equal => rfl
  | distinct => rfl
  | atMost => rfl
  | atLeast => rfl
  | less =>
    cases rest with
    | nil => rfl
    | cons c rest =>
      change relationAt ('<' :: c :: rest) = _
      unfold relationAt
      split <;> simp_all
  | greater =>
    cases rest with
    | nil => rfl
    | cons c rest =>
      change relationAt ('>' :: c :: rest) = _
      unfold relationAt
      split <;> simp_all

theorem foldl_digitValue {ds : List Char} (hds : ∀ c ∈ ds, c.isDigit = true) (k : Nat) :
    ds.foldl (fun n c => 10 * n + (Text.digitValue? c).getD 0) k = Nat.ofDigitChars 10 ds k := by
  induction ds generalizing k with
  | nil => rfl
  | cons c ds ih =>
    obtain ⟨hc, hds⟩ := List.forall_mem_cons.1 hds
    rw [List.foldl_cons, ih hds, Text.digitValue?_of_isDigit hc]
    rfl

theorem numberAt_digits {ds : List Char} (hne : ds ≠ []) (hds : ∀ c ∈ ds, c.isDigit = true) :
    numberAt ds = some (((Nat.ofDigitChars 10 ds 0 : Nat) : Int), []) := by
  have hdigits : ∀ c ∈ ds, Text.isDigit c = true := fun c hc => Text.isDigit_of_isDigit (hds c hc)
  have htake : (ds ++ []).takeWhile Text.isDigit = ds := takeWhile_append_stop hdigits (by simp)
  have hdrop : (ds ++ []).dropWhile Text.isDigit = [] := dropWhile_append_stop hdigits (by simp)
  rw [List.append_nil] at htake hdrop
  unfold numberAt
  rw [htake]
  split
  · exact absurd rfl hne
  · rw [hdrop, foldl_digitValue hds]

theorem numberAt_v (rest : List Char) : numberAt ('v' :: rest) = none := by
  have htake : ('v' :: rest).takeWhile Text.isDigit = [] :=
    List.takeWhile_cons_of_neg (by decide +kernel)
  unfold numberAt
  rw [htake]

theorem boundAt_v (rest : List Char) :
    boundAt ('v' :: rest) = (numbered ('v' :: rest)).map fun r => (.named (String.ofList r.1), r.2) := by
  unfold boundAt
  rw [numberAt_v]

theorem boundAt_digits {ds : List Char} (hne : ds ≠ []) (hds : ∀ c ∈ ds, c.isDigit = true) :
    boundAt ds = some (.integer (Nat.ofDigitChars 10 ds 0 : Nat), []) := by
  unfold boundAt
  rw [numberAt_digits hne hds]

theorem boundAt_name {v : Variable} (hn : v.number < 10000) (hv : v.label = none) :
    boundAt v.name.toList = some (.named v.name, []) := by
  have hname : v.name.toList = 'v' :: (Nat.toDigits 10 v.number ++ []) := by rw [toList_name, hv]; rfl
  rw [hname, boundAt_v, numbered_append hn (by simp), Option.map_some, ← List.append_nil (Nat.toDigits 10 v.number),
    ← hname, String.ofList_toList]

theorem exists_boundAt_name (v : Variable) : ∃ r, boundAt v.name.toList = some r := by
  rw [toList_name, boundAt_v]
  obtain ⟨r, hr⟩ := exists_numbered v.number (Variable.tail v.label)
  exact ⟨_, by rw [hr]; rfl⟩

end Forms

section Read

variable {cs rest : List Char}

theorem numbered_eq_some {head : List Char} (h : numbered cs = some (head, rest)) :
    ∃ ds, head = 'v' :: ds ∧ ds.length ≤ 4 ∧ ∀ c ∈ ds, Text.isDigit c = true := by
  unfold numbered at h
  split at h
  · rename_i text
    dsimp only at h
    split_ifs at h
    obtain ⟨rfl, -⟩ := Prod.mk.inj (Option.some.inj h)
    refine ⟨_, rfl, List.length_take_le _ _, fun c hc => ?_⟩
    exact List.all_eq_true.1 List.all_takeWhile c (List.mem_of_mem_take hc)
  · cases h

theorem label_head? (cs : List Char) : ∀ c ∈ (label cs).1.head?, c = '_' := by
  intro c hc
  unfold label at hc
  split at hc
  · split at hc
    · cases hc
    · exact (Option.some.inj hc).symm
  · cases hc

theorem nameAt_eq_some {name : String} (h : nameAt cs = some (name, rest)) :
    ∃ ds tail, name.toList = 'v' :: (ds ++ tail) ∧ ds.length ≤ 4 ∧ (∀ c ∈ ds, Text.isDigit c = true) ∧
      ∀ c ∈ tail.head?, c = '_' := by
  unfold nameAt at h
  obtain ⟨⟨head, after⟩, hhead, h⟩ := Option.bind_eq_some_iff.1 h
  obtain ⟨ds, rfl, hlength, hds⟩ := numbered_eq_some hhead
  have hname : String.ofList ('v' :: ds ++ (label after).1) = name := congrArg Prod.fst (Option.some.inj h)
  exact ⟨ds, (label after).1, by rw [← hname]; simp, hlength, hds, label_head? after⟩

theorem boundAt_eq_named {name : String} (h : boundAt cs = some (.named name, rest)) :
    ∃ ds, name.toList = 'v' :: ds ∧ ds.length ≤ 4 ∧ ∀ c ∈ ds, Text.isDigit c = true := by
  unfold boundAt at h
  split at h
  · cases h
  · obtain ⟨⟨head, after⟩, hhead, h⟩ := Option.map_eq_some_iff.1 h
    obtain ⟨ds, rfl, hlength, hds⟩ := numbered_eq_some hhead
    obtain ⟨hname, -⟩ := Prod.mk.inj h
    obtain rfl := Bound.named.inj hname
    exact ⟨ds, by simp, hlength, hds⟩

/-- A variable with such a name has a short number, and no label if nothing follows the digits. -/
theorem short_of_name {v : Variable} {ds tail : List Char} (h : v.name.toList = 'v' :: (ds ++ tail))
    (hlength : ds.length ≤ 4) (hds : ∀ c ∈ ds, Text.isDigit c = true) (htail : ∀ c ∈ tail.head?, c = '_') :
    v.number < 10000 ∧ (tail = [] → v.label = none) := by
  rw [toList_name] at h
  obtain ⟨-, hbody⟩ := List.cons.inj h
  have hstop : ∀ c ∈ tail.head?, Text.isDigit c = false := by
    intro c hc
    rw [htail c hc]
    decide +kernel
  have hown : ∀ c ∈ (Variable.tail v.label ++ []).head?, Text.isDigit c = false := isDigit_of_mem_tail (by simp)
  rw [List.append_nil] at hown
  -- on both sides the digits end where the label starts
  have hdigits : Nat.toDigits 10 v.number = ds := by
    have htake := congrArg (List.takeWhile Text.isDigit) hbody
    rwa [takeWhile_append_stop (fun c hc => Text.isDigit_of_mem_toDigits hc) hown,
      takeWhile_append_stop hds hstop] at htake
  refine ⟨(Nat.length_toDigits_le_iff (by decide) (by decide)).1 (hdigits ▸ hlength), fun hnone => ?_⟩
  rw [hdigits, hnone] at hbody
  have hempty := List.append_cancel_left hbody
  cases hlabel : v.label with
  | none => rfl
  | some l =>
    rw [hlabel] at hempty
    cases hempty

theorem comparisonAt_eq_some {b : Comparison} (h : comparisonAt cs = some (b, rest)) :
    (∃ rest, nameAt cs = some (b.name, rest)) ∧ ∃ cs' rest, boundAt cs' = some (b.bound, rest) := by
  unfold comparisonAt at h
  obtain ⟨⟨name, afterName⟩, hname, h⟩ := Option.bind_eq_some_iff.1 h
  obtain ⟨⟨relation, afterRelation⟩, -, h⟩ := Option.bind_eq_some_iff.1 h
  obtain ⟨⟨bound, afterBound⟩, hbound, h⟩ := Option.bind_eq_some_iff.1 h
  obtain ⟨rfl, -⟩ := Prod.mk.inj (Option.some.inj h)
  exact ⟨⟨_, hname⟩, _, _, hbound⟩

theorem exists_of_firstMatch {α : Type} {form : List Char → Option (α × List Char)} {a : α}
    (h : firstMatch form cs = some a) : ∃ cs' rest, form cs' = some (a, rest) := by
  induction cs with
  | nil => cases h
  | cons c cs ih =>
    unfold firstMatch at h
    split at h
    · rename_i b rest hform
      obtain rfl := Option.some.inj h
      exact ⟨_, rest, hform⟩
    · exact ih h

theorem firstMatch_of_form {α : Type} {form : List Char → Option (α × List Char)} {c : Char} {a : α}
    (h : form (c :: cs) = some (a, rest)) : firstMatch form (c :: cs) = some a := by
  unfold firstMatch
  rw [h]

section Texts

variable {α : Type} {form : List Char → Option (α × List Char)} {texts : List String} {as : List α}

theorem exists_of_mem_readAll (h : readAll form texts = .ok as) {a : α} (ha : a ∈ as) :
    ∃ t ∈ texts, firstMatch form t.toList = some a := by
  obtain ⟨t, ht, hone⟩ := Outcome.exists_of_mem_mapM h ha
  split at hone
  · rename_i b hb
    exact ⟨t, ht, hb.trans (congrArg some (Except.ok.inj hone))⟩
  · cases hone

theorem exists_mem_of_readAll (h : readAll form texts = .ok as) {t : String} (ht : t ∈ texts) :
    ∃ a ∈ as, firstMatch form t.toList = some a := by
  obtain ⟨a, ha, hone⟩ := Outcome.exists_mem_of_mapM h ht
  split at hone
  · rename_i b hb
    exact ⟨a, ha, hb.trans (congrArg some (Except.ok.inj hone))⟩
  · cases hone

theorem exists_readAll (h : ∀ t ∈ texts, ∃ a, firstMatch form t.toList = some a) :
    ∃ as, readAll form texts = .ok as := by
  refine Outcome.exists_mapM_iff.2 fun t ht => ?_
  obtain ⟨a, ha⟩ := h t ht
  exact ⟨a, by rw [ha]⟩

theorem readAll_of_read {comparisons values solves : List String} {r : Request}
    (h : Request.read comparisons values solves = .ok r) : readAll comparisonAt comparisons = .ok r.comparisons := by
  unfold Request.read at h
  obtain ⟨bs, hbs, h⟩ := Outcome.bind_eq_ok.1 h
  obtain ⟨_, -, h⟩ := Outcome.bind_eq_ok.1 h
  obtain ⟨_, -, h⟩ := Outcome.bind_eq_ok.1 h
  obtain rfl := Outcome.pure_eq_ok.1 h
  exact hbs

end Texts

end Read

end Symbolic

end Cairoscope
