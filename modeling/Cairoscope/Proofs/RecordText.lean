import Cairoscope.Instruction.Record
import Cairoscope.Proofs.Documents
import Cairoscope.Proofs.NumberReading

/-! Instructions through their text. The fields that are read from the record of an instruction are the fields of the
instruction, and the words that are made from them tell all there is to know of it. -/

namespace Cairoscope

namespace Text

theorem pieces_of_not_mem {mark : Char} {cs : List Char} (h : mark ∉ cs) : pieces mark cs = [cs] := by
  induction cs with
  | nil => rfl
  | cons c cs ih =>
    rw [List.mem_cons, not_or] at h
    obtain ⟨hc, hcs⟩ := h
    rw [pieces, if_neg fun heq => hc heq.symm, ih hcs]

theorem pieces_append {mark : Char} {front : List Char} (h : mark ∉ front) (rest : List Char) :
    pieces mark (front ++ mark :: rest) = front :: pieces mark rest := by
  induction front with
  | nil => rw [List.nil_append, pieces, if_pos rfl]
  | cons c front ih =>
    rw [List.mem_cons, not_or] at h
    obtain ⟨hc, hfront⟩ := h
    rw [List.cons_append, pieces, if_neg fun heq => hc heq.symm, ih hfront]

/-- Joined with the mark and a space, every part but the first starts with the space. -/
theorem pieces_intercalate {mark : Char} (hspace : mark ≠ ' ') {part : List Char} {parts : List (List Char)}
    (hpart : mark ∉ part) (hparts : ∀ p ∈ parts, mark ∉ p) :
    pieces mark ([mark, ' '].intercalate (part :: parts)) = part :: parts.map (' ' :: ·) := by
  induction parts generalizing part with
  | nil =>
    rw [List.intercalate_singleton]
    exact pieces_of_not_mem hpart
  | cons next parts ih =>
    obtain ⟨hnext, hrest⟩ := List.forall_mem_cons.1 hparts
    have htail := ih hnext hrest
    rw [List.intercalate_cons_cons, List.append_assoc]
    change pieces mark (part ++ mark :: (' ' :: [mark, ' '].intercalate (next :: parts))) = _
    rw [pieces_append hpart, pieces, if_neg hspace.symm, htail]
    rfl

theorem piecesAt_of_not_mem {mark cs : List Char} {c : Char} (hmark : c ∈ mark) (h : c ∉ cs) :
    piecesAt mark 0 cs = [cs] := by
  induction cs with
  | nil => rfl
  | cons d cs ih =>
    have hprefix : ¬ mark.isPrefixOf (d :: cs) = true := fun hpre =>
      h ((List.isPrefixOf_iff_prefix.1 hpre).subset hmark)
    rw [List.mem_cons, not_or] at h
    rw [piecesAt, if_neg hprefix, ih h.2]

theorem piecesAt_skip (mark passed rest : List Char) :
    piecesAt mark passed.length (passed ++ rest) = piecesAt mark 0 rest := by
  induction passed with
  | nil => rfl
  | cons c passed ih => rw [List.cons_append, List.length_cons, piecesAt, ih]

/-- A text that starts with the mark is cut once, if the rest of it lacks a character of the mark. -/
theorem splitAt_append {mark name : String} {c : Char} (hmark : c ∈ mark.toList) (h : c ∉ name.toList) :
    splitAt mark (mark ++ name) = ["", name] := by
  unfold splitAt
  rw [String.toList_append]
  cases hcs : mark.toList with
  | nil => rw [hcs] at hmark; cases hmark
  | cons d ds =>
    have hprefix : (d :: ds).isPrefixOf (d :: (ds ++ name.toList)) = true :=
      List.isPrefixOf_iff_prefix.2 (List.prefix_append (d :: ds) _)
    rw [List.cons_append, piecesAt, if_pos hprefix, List.length_cons, Nat.add_sub_cancel, piecesAt_skip,
      piecesAt_of_not_mem (hcs ▸ hmark) h]
    simp

end Text

namespace Instruction

def isQuiet (c : Char) : Bool := !Text.isBlank c && !List.contains [',', '=', ':', '(', ')'] c

def Quiet (s : String) : Prop := s.toList.all isQuiet = true

instance (s : String) : Decidable (Quiet s) := inferInstanceAs (Decidable (_ = true))

theorem Quiet.append {s t : String} (hs : Quiet s) (ht : Quiet t) : Quiet (s ++ t) := by
  unfold Quiet at *
  rw [String.toList_append, List.all_append, hs, ht]
  rfl

theorem Quiet.isBlank {s : String} (hs : Quiet s) {c : Char} (hc : c ∈ s.toList) :
    Text.isBlank c = false := by
  have hquiet := List.all_eq_true.1 hs c hc
  simp only [isQuiet, Bool.and_eq_true, Bool.not_eq_true'] at hquiet
  exact hquiet.1

theorem Quiet.not_mem {s : String} (hs : Quiet s) {mark : Char} (hmark : isQuiet mark = false) :
    mark ∉ s.toList := by
  intro hmem
  have hquiet := List.all_eq_true.1 hs mark hmem
  rw [hmark] at hquiet
  cases hquiet

theorem Quiet.trim {s : String} (hs : Quiet s) (front : List Char)
    (hfront : ∀ c ∈ front, Text.isBlank c = true) :
    Text.trim (String.ofList (front ++ s.toList)) = s := by
  have hblank : ∀ c ∈ s.toList, Text.isBlank c = false := fun c hc => hs.isBlank hc
  unfold Text.trim
  rw [String.toList_ofList, List.dropWhile_append_of_pos hfront,
    List.dropWhile_eq_self_iff.2 fun _ => Bool.eq_false_iff.1 (hblank _ (List.getElem_mem _)),
    List.dropWhile_eq_self_iff.2 fun _ => Bool.eq_false_iff.1 (hblank _ (List.mem_reverse.1 (List.getElem_mem _))),
    List.reverse_reverse,
    String.ofList_toList]

theorem Quiet.trim_self {s : String} (hs : Quiet s) : Text.trim s = s := by
  have htrim := hs.trim [] (by simp)
  rwa [List.nil_append, String.ofList_toList] at htrim

theorem isQuiet_digits {n : Nat} {c : Char} (h : c ∈ Nat.toDigits 10 n) : isQuiet c = true := by
  have hdigit : ∀ d < 10, isQuiet (Nat.digitChar d) = true := by decide
  obtain ⟨d, hd, rfl⟩ := Text.exists_digit_of_mem_toDigits (by decide) h
  exact hdigit d hd

theorem quiet_toString (n : Nat) : Quiet (toString n) := by
  unfold Quiet
  rw [Text.toList_toString]
  exact List.all_eq_true.2 fun c hc => isQuiet_digits hc

theorem quiet_decimal (n : Int) : Quiet (Text.decimal n) := by
  unfold Quiet
  rw [Text.toList_decimal]
  refine List.all_eq_true.2 fun c hc => ?_
  rcases List.mem_append.1 hc with hc | hc
  · unfold Text.signChars at hc
    split_ifs at hc
    · obtain rfl := List.mem_singleton.1 hc
      decide
    · cases hc
  · exact isQuiet_digits hc

theorem quiet_immText (i : Instruction) : Quiet i.immText := by
  unfold immText
  cases i.imm with
  | none => decide
  | some n => exact quiet_decimal n

namespace Entry

/-- The value that a field has when it is read back. -/
def value : Entry → String
  | plain _ value => value
  | member _ kind name _ => kind ++ "." ++ name

def Proper : Entry → Prop
  | plain key value => Quiet key ∧ Quiet value ∧ isPlainKey key = true
  | member key kind name _ => Quiet key ∧ Quiet kind ∧ Quiet name ∧ isPlainKey key = false

theorem Proper.quiet_key {e : Entry} (h : e.Proper) : Quiet e.key := by
  cases e with
  | plain key value => exact h.1
  | member key kind name number => exact h.1

theorem toList_shown_member (key kind name : String) (number : Nat) :
    (member key kind name number).shown.toList =
      '<' :: (kind ++ "." ++ name).toList ++ ':' :: ' ' :: (toString number).toList ++ ['>'] := by
  simp [shown]

/-- A mark that stands in no part of the entry stands nowhere in its value. -/
theorem Proper.not_mem_shown {e : Entry} (h : e.Proper) {mark : Char} (hmark : isQuiet mark = false)
    (hown : mark ≠ ':' ∧ mark ≠ ' ') : mark ∉ e.shown.toList := by
  cases e with
  | plain key value => exact h.2.1.not_mem hmark
  | member key kind name number =>
    obtain ⟨-, hkind, hname, -⟩ := h
    have hmember : Quiet (kind ++ "." ++ name) := (hkind.append (by decide)).append hname
    have hsharp : mark ≠ '<' ∧ mark ≠ '>' := by
      constructor <;> rintro rfl <;> revert hmark <;> decide
    rw [toList_shown_member]
    simp only [List.mem_append, List.mem_cons, List.not_mem_nil, or_false, not_or]
    exact ⟨⟨⟨hsharp.1, hmember.not_mem hmark⟩, hown.1, hown.2, (quiet_toString number).not_mem hmark⟩, hsharp.2⟩

/-- Up to its number a member is its enumeration and its name. -/
theorem Proper.pieces_shown {key kind name : String} {number : Nat}
    (h : (member key kind name number).Proper) :
    ∃ rest, Text.pieces ':' (member key kind name number).shown.toList =
      ('<' :: (kind ++ "." ++ name).toList) :: rest := by
  obtain ⟨-, hkind, hname, -⟩ := h
  have hmember : Quiet (kind ++ "." ++ name) := (hkind.append (by decide)).append hname
  have hfront : ':' ∉ '<' :: (kind ++ "." ++ name).toList := by
    rw [List.mem_cons, not_or]
    exact ⟨by decide, hmember.not_mem (by decide)⟩
  rw [toList_shown_member, List.append_assoc, List.cons_append]
  exact ⟨_, Text.pieces_append hfront _⟩

theorem readField_text {e : Entry} (h : e.Proper) (front : List Char)
    (hfront : ∀ c ∈ front, Text.isBlank c = true) :
    readField (String.ofList (front ++ e.text.toList)) = .ok (e.key, e.value) := by
  have hmark : '=' ∉ front ++ e.key.toList := by
    rw [List.mem_append, not_or]
    refine ⟨fun hmem => ?_, h.quiet_key.not_mem (by decide)⟩
    have hblank := hfront _ hmem
    revert hblank
    decide
  have hpieces : Text.split '=' (String.ofList (front ++ e.text.toList)) =
      [String.ofList (front ++ e.key.toList), e.shown] := by
    have htext : front ++ e.text.toList = (front ++ e.key.toList) ++ '=' :: e.shown.toList := by
      simp [text]
    unfold Text.split
    rw [String.toList_ofList, htext, Text.pieces_append hmark,
      Text.pieces_of_not_mem (h.not_mem_shown (by decide) (by decide))]
    simp
  unfold readField
  simp only [hpieces, h.quiet_key.trim front hfront]
  cases e with
  | plain key value =>
    obtain ⟨-, hvalue, hplain⟩ := h
    simp only [Entry.key, hplain, if_true, Entry.shown, hvalue.trim_self, Entry.value]
  | member key kind name number =>
    obtain ⟨rest, hrest⟩ := h.pieces_shown
    obtain ⟨-, hkind, hname, hplain⟩ := h
    have hmember : Quiet (kind ++ "." ++ name) := (hkind.append (by decide)).append hname
    simp only [Entry.key, hplain, Bool.false_eq_true, if_false, hrest, List.headD_cons, List.drop_succ_cons,
      List.drop_zero, String.ofList_toList, hmember.trim_self, Entry.value]

end Entry

theorem upToClose_append {inner : List Char} (hclose : ')' ∉ inner) (hline : '\n' ∉ inner)
    (rest : List Char) : upToClose (inner ++ ')' :: rest) = some inner := by
  induction inner with
  | nil => rfl
  | cons c inner ih =>
    rw [List.mem_cons, not_or] at hclose hline
    rw [List.cons_append, upToClose, if_neg fun heq => hclose.1 heq.symm,
      if_neg fun heq => hline.1 heq.symm, ih hclose.2 hline.2]
    rfl

theorem inBrackets_append {front : List Char} (hopen : '(' ∉ front) {inner : List Char}
    (hclose : ')' ∉ inner) (hline : '\n' ∉ inner) (rest : List Char) :
    inBrackets (front ++ '(' :: (inner ++ ')' :: rest)) = some inner := by
  induction front with
  | nil =>
    rw [List.nil_append, inBrackets, if_pos rfl, upToClose_append hclose hline]
    rfl
  | cons c front ih =>
    rw [List.mem_cons, not_or] at hopen
    rw [List.cons_append, inBrackets, if_neg fun heq => hopen.1 heq.symm]
    exact ih hopen.2

theorem proper_of_mem_entries {i : Instruction} {e : Entry} (he : e ∈ i.entries) : e.Proper := by
  have hregister : ∀ r : Register, Quiet r.name := by rintro (_ | _) <;> decide
  simp only [entries, List.mem_cons, List.not_mem_nil, or_false] at he
  rcases he with rfl | rfl | rfl | rfl | rfl | rfl | rfl | rfl | rfl | rfl | rfl | rfl | rfl
  · exact ⟨by decide, quiet_decimal _, by decide⟩
  · exact ⟨by decide, quiet_decimal _, by decide⟩
  · exact ⟨by decide, quiet_decimal _, by decide⟩
  · exact ⟨by decide, quiet_decimal _, by decide⟩
  · exact ⟨by decide, quiet_immText i, by decide⟩
  · exact ⟨by decide, by decide, hregister _, by decide⟩
  · exact ⟨by decide, by decide, hregister _, by decide⟩
  · exact ⟨by decide, by decide, by cases i.op1Source <;> decide, by decide⟩
  · exact ⟨by decide, by decide, by cases i.res <;> decide, by decide⟩
  · exact ⟨by decide, by decide, by cases i.pcUpdate <;> decide, by decide⟩
  · exact ⟨by decide, by decide, by cases i.apUpdate <;> decide, by decide⟩
  · exact ⟨by decide, by decide, by cases i.fpUpdate <;> decide, by decide⟩
  · exact ⟨by decide, by decide, by cases i.opcode <;> decide, by decide⟩

theorem Entry.Proper.not_mem_text {e : Entry} (h : e.Proper) {mark : Char} (hmark : isQuiet mark = false)
    (hown : mark ≠ '=' ∧ mark ≠ ':' ∧ mark ≠ ' ') : mark ∉ e.text.toList := by
  have htext : e.text.toList = e.key.toList ++ '=' :: e.shown.toList := by simp [Entry.text]
  rw [htext, List.mem_append, List.mem_cons, not_or, not_or]
  exact ⟨h.quiet_key.not_mem hmark, hown.1, h.not_mem_shown hmark hown.2⟩

theorem fields_eq_map_entries (i : Instruction) : i.fields = i.entries.map fun e => (e.key, e.value) := by
  rfl

theorem keys_fields (i : Instruction) : i.fields.map Prod.fst =
    ["off0", "off1", "off2", "off3", "imm", "dst_register", "op0_register", "op1_addr", "res", "pc_update",
      "ap_update", "fp_update", "opcode"] := by
  rfl

theorem readFields_pieces {e : Entry} {es : List Entry} (h : ∀ x ∈ e :: es, x.Proper) :
    (Text.split ',' (String.ofList ([',', ' '].intercalate ((e :: es).map fun x => x.text.toList)))).mapM
      readField = .ok ((e :: es).map fun x => (x.key, x.value)) := by
  obtain ⟨he, hes⟩ := List.forall_mem_cons.1 h
  have hcomma : ∀ x ∈ e :: es, ',' ∉ x.text.toList := fun x hx =>
    (h x hx).not_mem_text (by decide) (by decide)
  have hpieces : Text.split ',' (String.ofList
      ([',', ' '].intercalate ((e :: es).map fun x => x.text.toList))) =
      String.ofList e.text.toList :: es.map fun x => String.ofList (' ' :: x.text.toList) := by
    unfold Text.split
    rw [String.toList_ofList, List.map_cons, Text.pieces_intercalate (by decide) (hcomma e (by simp))]
    · simp
    · intro p hp
      obtain ⟨x, hx, rfl⟩ := List.mem_map.1 hp
      exact hcomma x (List.mem_cons_of_mem _ hx)
  have hfirst : readField (String.ofList e.text.toList) = .ok (e.key, e.value) := by
    have hread := Entry.readField_text he [] (by simp)
    rwa [List.nil_append] at hread
  have hrest : (es.map fun x => String.ofList (' ' :: x.text.toList)).mapM readField =
      .ok (es.map fun x => (x.key, x.value)) := by
    rw [List.mapM_map]
    refine Outcome.mapM_eq_ok_map fun x hx => ?_
    rw [Function.comp_apply]
    have hblank : Text.isBlank ' ' = true := by decide
    have hread := Entry.readField_text (hes x hx) [' '] (List.forall_mem_singleton.2 hblank)
    rwa [List.singleton_append] at hread
  rw [hpieces]
  exact Outcome.mapM_cons_eq_ok.2 ⟨_, _, hfirst, hrest, rfl⟩

theorem not_mem_intercalate {mark : Char} {parts : List (List Char)} (hown : mark ≠ ',' ∧ mark ≠ ' ')
    (h : ∀ p ∈ parts, mark ∉ p) : mark ∉ [',', ' '].intercalate parts := by
  induction parts with
  | nil => simp
  | cons p parts ih =>
    obtain ⟨hp, hparts⟩ := List.forall_mem_cons.1 h
    cases parts with
    | nil =>
      rw [List.intercalate_singleton]
      exact hp
    | cons q parts =>
      rw [List.intercalate_cons_cons, List.mem_append, List.mem_append, not_or, not_or]
      exact ⟨⟨hp, by simpa using hown⟩, ih hparts⟩

/-- The fields in the record of an instruction are its fields. -/
theorem readFields_record (i : Instruction) : readFields i.record = .ok i.fields := by
  have hproper : ∀ e ∈ i.entries, e.Proper := fun e he => proper_of_mem_entries he
  have hrecord : i.record.toList = "Instruction".toList ++ '(' ::
      ([',', ' '].intercalate (i.entries.map fun e => e.text.toList) ++ [')']) := by
    unfold record
    rw [String.toList_append, String.toList_append, String.toList_intercalate, List.map_map]
    rfl
  have hfree : ∀ mark : Char, isQuiet mark = false → (mark ≠ '=' ∧ mark ≠ ':' ∧ mark ≠ ' ') → mark ≠ ',' →
      mark ∉ [',', ' '].intercalate (i.entries.map fun e => e.text.toList) := by
    intro mark hmark hown hcomma
    refine not_mem_intercalate ⟨hcomma, hown.2.2⟩ fun p hp => ?_
    obtain ⟨e, he, rfl⟩ := List.mem_map.1 hp
    exact (hproper e he).not_mem_text hmark hown
  have hinner : inBrackets i.record.toList =
      some ([',', ' '].intercalate (i.entries.map fun e => e.text.toList)) := by
    rw [hrecord]
    exact inBrackets_append (by decide) (hfree ')' (by decide) (by decide) (by decide))
      (hfree '\n' (by decide) (by decide) (by decide)) []
  have hread : (Text.split ',' (String.ofList
      ([',', ' '].intercalate (i.entries.map fun e => e.text.toList)))).mapM readField = .ok i.fields := by
    rw [fields_eq_map_entries]
    obtain ⟨e, es, hentries⟩ : ∃ e es, i.entries = e :: es := ⟨_, _, rfl⟩
    rw [hentries] at hproper ⊢
    exact readFields_pieces hproper
  unfold readFields
  simp only [hinner, hread]
  exact congrArg Except.ok (assocOfPairs_of_nodup (by rw [keys_fields]; decide))

/-- The word of an offset is the offset as it is printed. -/
theorem offsetWord_of_lookup {fields : List (String × String)} {key : String} {n : Int}
    (h : fields.lookup key = some (Text.decimal n)) : offsetWord fields key = .ok (Text.signedOffset n) := by
  unfold offsetWord Text.signedOffset
  simp only [h]
  by_cases hn : n < 0
  · have hhead : (Text.decimal n).toList.head? = some '-' := by
      rw [Text.toList_decimal, Text.signChars, if_pos hn]
      rfl
    simp only [hhead, if_true, Text.readInt?_decimal, if_pos hn]
  · obtain ⟨c, cs, hcs, hminus, -⟩ := Text.toDigits_eq_cons 10 (by decide) (by decide) n.natAbs
    have hhead : (Text.decimal n).toList.head? = some c := by
      rw [Text.toList_decimal, Text.signChars, if_neg hn, List.nil_append, hcs]
      rfl
    simp only [hhead, if_neg hminus, Text.readInt?_plus (Int.not_lt.1 hn), if_neg hn]

theorem readOffset?_signedOffset (n : Int) : readOffset? (Text.signedOffset n) = some n := by
  unfold readOffset? Text.signedOffset
  by_cases hzero : n = 0
  · rw [if_pos hzero, if_pos rfl, hzero]
  · have hne : Text.decimal n ≠ "" := by
      obtain ⟨c, hc, -⟩ := Text.decimal_head n
      intro hempty
      rw [hempty] at hc
      cases hc
    rw [if_neg hzero]
    by_cases hn : n < 0
    · rw [if_pos hn, if_neg hne, Text.readInt?_decimal]
    · rw [if_neg hn, if_neg (by simp), Text.readInt?_plus (Int.not_lt.1 hn)]

theorem memberWord_of_lookup {fields : List (String × String)} {key kind name : String}
    (h : fields.lookup key = some (kind ++ "." ++ name)) (hname : '.' ∉ name.toList) :
    memberWord fields key kind = .ok name := by
  have hdot : '.' ∈ (kind ++ ".").toList := by
    rw [String.toList_append]
    exact List.mem_append_right _ (by decide)
  unfold memberWord
  simp only [h, Text.splitAt_append hdot hname]
  rfl

theorem wording_fields (i : Instruction) : wording i.fields = .ok {
    offDest := Text.signedOffset i.off0
    off1 := Text.signedOffset i.off1
    off2 := Text.signedOffset i.off2
    off3 := Text.signedOffset i.off3
    imm := some i.immText
    dstRegister := i.dstRegister.name
    op0Register := i.op0Register.name
    op1Addr := i.op1Source.name
    res := i.res.name
    pcUpdate := i.pcUpdate.name
    apUpdate := i.apUpdate.name
    fpUpdate := i.fpUpdate.name
    opcode := i.opcode.name } := by
  have hregister : ∀ r : Register, '.' ∉ r.name.toList := by rintro (_ | _) <;> decide
  have hop1 : '.' ∉ i.op1Source.name.toList := by cases i.op1Source <;> decide
  have hres : '.' ∉ i.res.name.toList := by cases i.res <;> decide
  have hpc : '.' ∉ i.pcUpdate.name.toList := by cases i.pcUpdate <;> decide
  have hap : '.' ∉ i.apUpdate.name.toList := by cases i.apUpdate <;> decide
  have hfp : '.' ∉ i.fpUpdate.name.toList := by cases i.fpUpdate <;> decide
  have hopcode : '.' ∉ i.opcode.name.toList := by cases i.opcode <;> decide
  unfold wording
  rw [offsetWord_of_lookup (n := i.off0) rfl, offsetWord_of_lookup (n := i.off1) rfl,
    offsetWord_of_lookup (n := i.off2) rfl, offsetWord_of_lookup (n := i.off3) rfl,
    memberWord_of_lookup rfl (hregister i.dstRegister), memberWord_of_lookup rfl (hregister i.op0Register),
    memberWord_of_lookup rfl hop1, memberWord_of_lookup rfl hres, memberWord_of_lookup rfl hpc,
    memberWord_of_lookup rfl hap, memberWord_of_lookup rfl hfp, memberWord_of_lookup rfl hopcode]
  rfl

/-- What the words of an instruction tell of it: offsets and immediate by their numbers, and members of
enumerations by their names. -/
structure Wording.Tells (w : Wording) (i : Instruction) : Prop where
  offDest : readOffset? w.offDest = some i.off0
  off1 : readOffset? w.off1 = some i.off1
  off2 : readOffset? w.off2 = some i.off2
  off3 : readOffset? w.off3 = some (i.off3 : Int)
  imm_none : w.imm = some "None" ↔ i.imm = none
  imm_some : ∀ n, i.imm = some n → w.imm.bind (Text.readInt? 10) = some n
  dstRegister : w.dstRegister = i.dstRegister.name
  op0Register : w.op0Register = i.op0Register.name
  op1Addr : w.op1Addr = i.op1Source.name
  res : w.res = i.res.name
  pcUpdate : w.pcUpdate = i.pcUpdate.name
  apUpdate : w.apUpdate = i.apUpdate.name
  fpUpdate : w.fpUpdate = i.fpUpdate.name
  opcode : w.opcode = i.opcode.name

theorem immText_eq_none_iff (i : Instruction) : i.immText = "None" ↔ i.imm = none := by
  unfold immText
  cases i.imm with
  | none => simp
  | some n =>
    refine iff_of_false (fun hnone => ?_) (by simp)
    obtain ⟨c, hc, hkind⟩ := Text.decimal_head n
    have hN : c = 'N' := by
      change Text.decimal n = "None" at hnone
      rw [hnone] at hc
      exact (Option.some.inj hc).symm
    subst hN
    revert hkind
    decide

/-- Only one instruction is told by given words. -/
theorem Wording.Tells.unique {w : Wording} {i j : Instruction} (hi : w.Tells i) (hj : w.Tells j) : i = j := by
  have hregister : ∀ r s : Register, r.name = s.name → r = s := by rintro (_ | _) (_ | _) <;> decide
  have hop1 : ∀ r s : Op1Source, r.name = s.name → r = s := by
    rintro (_ | _ | _ | _) (_ | _ | _ | _) <;> decide
  have hres : ∀ r s : Res, r.name = s.name → r = s := by
    rintro (_ | _ | _ | _) (_ | _ | _ | _) <;> decide
  have hpc : ∀ u v : PcUpdate, u.name = v.name → u = v := by
    rintro (_ | _ | _ | _) (_ | _ | _ | _) <;> decide
  have hap : ∀ u v : ApUpdate, u.name = v.name → u = v := by
    rintro (_ | _ | _ | _) (_ | _ | _ | _) <;> decide
  have hfp : ∀ u v : FpUpdate, u.name = v.name → u = v := by
    rintro (_ | _ | _) (_ | _ | _) <;> decide
  have hopcode : ∀ o p : Opcode, o.name = p.name → o = p := by
    rintro (_ | _ | _ | _) (_ | _ | _ | _) <;> decide
  have himm : i.imm = j.imm := by
    cases hnone : i.imm with
    | none => exact (hj.imm_none.1 (hi.imm_none.2 hnone)).symm
    | some n =>
      cases hnone' : j.imm with
      | none => exact absurd (hi.imm_none.1 (hj.imm_none.2 hnone')) (by simp [hnone])
      | some m => exact (hi.imm_some n hnone).symm.trans (hj.imm_some m hnone')
  have hoff3 : i.off3 = j.off3 := Int.ofNat.inj (Option.some.inj (hi.off3.symm.trans hj.off3))
  cases i
  cases j
  simp only [Instruction.mk.injEq]
  exact ⟨Option.some.inj (hi.offDest.symm.trans hj.offDest), Option.some.inj (hi.off1.symm.trans hj.off1),
    Option.some.inj (hi.off2.symm.trans hj.off2), hoff3, himm,
    hregister _ _ (hi.dstRegister.symm.trans hj.dstRegister),
    hregister _ _ (hi.op0Register.symm.trans hj.op0Register), hop1 _ _ (hi.op1Addr.symm.trans hj.op1Addr),
    hres _ _ (hi.res.symm.trans hj.res), hpc _ _ (hi.pcUpdate.symm.trans hj.pcUpdate),
    hap _ _ (hi.apUpdate.symm.trans hj.apUpdate), hfp _ _ (hi.fpUpdate.symm.trans hj.fpUpdate),
    hopcode _ _ (hi.opcode.symm.trans hj.opcode)⟩

/-- Nothing is lost on the way through the text. From the record of an instruction its thirteen fields are read, in
their order, and the words that are made from them tell that instruction and no other. -/
theorem record_lossless (i : Instruction) :
    readFields i.record = .ok i.fields ∧
      i.fields.map Prod.fst = ["off0", "off1", "off2", "off3", "imm", "dst_register", "op0_register",
        "op1_addr", "res", "pc_update", "ap_update", "fp_update", "opcode"] ∧
      ∃ w, wording i.fields = .ok w ∧ w.Tells i ∧ ∀ j, w.Tells j → j = i := by
  refine ⟨readFields_record i, keys_fields i, _, wording_fields i, ?_⟩
  refine (fun htells => ⟨htells, fun j hj => hj.unique htells⟩) ?_
  exact {
    offDest := readOffset?_signedOffset i.off0
    off1 := readOffset?_signedOffset i.off1
    off2 := readOffset?_signedOffset i.off2
    off3 := readOffset?_signedOffset i.off3
    imm_none := by simpa using immText_eq_none_iff i
    imm_some := by
      intro n hn
      unfold immText
      rw [hn]
      exact Text.readInt?_decimal n
    dstRegister := rfl
    op0Register := rfl
    op1Addr := rfl
    res := rfl
    pcUpdate := rfl
    apUpdate := rfl
    fpUpdate := rfl
    opcode := rfl }

end Instruction

end Cairoscope
