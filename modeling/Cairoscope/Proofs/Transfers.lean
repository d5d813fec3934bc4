import Cairoscope.Contract.InstructionText
import Cairoscope.Proofs.CallEdges
import Cairoscope.Proofs.NumberReading

/-! Where direct transfers go. The machine takes the immediate of an absolute jump as the offset to go to, and that
of any other jump as the way to go. A disassembly takes both as the way, so what it says about a transfer is
right exactly when the transfer is not absolute or stands at the offset 0. -/

namespace Cairoscope

namespace Field

variable {prime m n : Int}

theorem numeral_of_isSigned (h : IsSigned prime m n) :
    numeral m prime = .ok (if n.natAbs < decimalBound then .decimal n
      else if n.natAbs < signedBound then .hex n else .hex m) := by
  unfold numeral
  rw [centered_eq_ok_iff.2 h]
  change (if _ then _ else _) = _
  split_ifs <;> rfl

/-- An element is a small number exactly when its signed reading is near zero. -/
theorem small_of_isSigned (h : IsSigned prime m n) :
    small m prime = if n.natAbs < decimalBound then .ok n else .error .badNumber := by
  unfold small
  rw [numeral_of_isSigned h]
  split_ifs <;> rfl

theorem natAbs_lt_of_small {k : Int} (h : IsSigned prime m n) (hsmall : small m prime = .ok k) :
    n.natAbs < decimalBound := by
  rw [small_of_isSigned h] at hsmall
  by_contra hfar
  rw [if_neg hfar] at hsmall
  cases hsmall

end Field

theorem eq_of_append_blanks {a b r : List Char} {i j : Nat} (ha : a.getLast? ≠ some ' ')
    (hb : b.getLast? ≠ some ' ')
    (h : a ++ r ++ List.replicate i ' ' = b ++ r ++ List.replicate j ' ') : a = b := by
  -- a longer front would have to end in blanks, since both sides have as many of them
  have hlonger : ∀ {a b : List Char} {i j : Nat}, b.getLast? ≠ some ' ' → a <+: b →
      a ++ r ++ List.replicate i ' ' = b ++ r ++ List.replicate j ' ' → a = b := by
    rintro a b i j hb ⟨more, rfl⟩ h
    have hlength := congrArg List.length h
    have hcount := congrArg (List.count ' ') h
    simp only [List.length_append, List.length_replicate, List.count_append,
      List.count_replicate_self] at hlength hcount
    have hblank : ∀ c ∈ more, ' ' = c := List.count_eq_length.1 (by omega)
    cases hlast : more.getLast? with
    | none => simp [List.getLast?_eq_none_iff.1 hlast]
    | some c =>
      rw [List.getLast?_append, hlast, ← hblank c (List.mem_of_getLast? hlast)] at hb
      exact absurd rfl hb
  rw [List.append_assoc, List.append_assoc] at h
  have hfront : a <+: b ++ (r ++ List.replicate j ' ') := h ▸ List.prefix_append a _
  rcases List.prefix_or_prefix_of_prefix hfront (List.prefix_append b _) with hab | hba
  · exact hlonger hb hab (by simpa using h)
  · exact (hlonger ha hba (by simpa using h.symm)).symm

/-- Pieces that do not end in a blank are told apart, whatever the colours are. -/
theorem Printer.piece_inj {p : Printer} {colour s t : String} (hs : s.toList.getLast? ≠ some ' ')
    (ht : t.toList.getLast? ≠ some ' ') (h : p.piece colour s = p.piece colour t) : s = t := by
  unfold piece at h
  have hlist := congrArg String.toList h
  simp only [String.toList_append, List.append_assoc, List.append_cancel_left_eq,
    String.toList_ofList] at hlist
  rw [← List.append_assoc, ← List.append_assoc] at hlist
  exact String.toList_inj.1 (eq_of_append_blanks hs ht hlist)

theorem Text.getLast?_append_decimal_ne (front : String) (n : Int) :
    (front ++ decimal n).toList.getLast? ≠ some ' ' := by
  rw [String.toList_append, List.getLast?_append]
  cases hlast : (decimal n).toList.getLast? with
  | none =>
    obtain ⟨c, hc, -⟩ := decimal_head n
    rw [List.getLast?_eq_none_iff.1 hlast] at hc
    cases hc
  | some c =>
    intro heq
    obtain rfl : c = ' ' := by simpa using heq
    exact absurd (isPlain_of_mem_decimal (List.mem_of_getLast? hlast)) (by decide)

namespace Instruction

/-- A call, or a jump of an instruction without an opcode. -/
def Transfers (i : Instruction) : Prop := i.opcode = .call ∨ i.opcode = .nop ∧ i.pcUpdate ≠ .regular

/-- Where the machine goes from an offset, if `n` is the immediate with its sign. -/
def destination? (i : Instruction) (offset : Nat) (n : Int) : Option Int :=
  match i.pcUpdate with
  | .regular => none
  | .jump => some n
  | .jumpRel => some (offset + n)
  | .jnz => some (offset + n)

theorem destination?_eq_add_iff {i : Instruction} {offset : Nat} {n t : Int}
    (h : i.destination? offset n = some t) :
    t = offset + n ↔ (i.pcUpdate = .jump → offset = 0) := by
  unfold destination? at h
  cases hpc : i.pcUpdate <;> simp only [hpc, Option.some.injEq, reduceCtorEq] at h
  · subst h
    simp
  · simp [h]
  · simp [h]

end Instruction

def Printer.jumpNote (p : Printer) (t : Int) : String := "# JMP " ++ (p.labelAt? t).getD (Text.decimal t)

namespace Site

variable {p : Printer} {s : Site} {m n : Int}

def targetText (p : Printer) (s : Site) (t : Int) : String :=
  if s.instruction.opcode = .call then
    s.callee.elim
      (p.piece p.palette.beige
          ((if s.instruction.isAbsoluteCall then "abs" else "rel") ++ " (" ++ Text.decimal t ++ ")") ++
        (p.labelAt? t).elim "" fun label => p.piece p.palette.cyan ("# " ++ label))
      fun name => p.piece p.palette.cyan (Text.decimal t) ++ p.piece p.palette.cyan ("# " ++ name)
  else p.piece p.palette.cyan (p.jumpNote t)

def frontText (p : Printer) (s : Site) : String :=
  ((p.labelAt? s.offset).elim "" fun name => p.piece p.palette.green ("\nLABEL : " ++ name)) ++
    s.offsetText p

def hintNote (p : Printer) (code : Json) : String :=
  if code.isPresent then p.piece p.palette.beige (" # " ++ code.display) else ""

def backText (p : Printer) (s : Site) : String := s.hint.elim "" (hintNote p)

def bodyText (p : Printer) (s : Site) : Outcome String :=
  if s.instruction.opcode = .call then s.callText p
  else if s.instruction.opcode = .nop then s.nopText p
  else if s.instruction.opcode = .ret then .ok (p.piece p.palette.red s.instruction.opcode.name)
  else do pure ((← s.assertEqText p) ++ (← s.apLine p))

theorem text_eq (p : Printer) (s : Site) :
    s.text p = (s.bodyText p).map fun body => s.frontText p ++ body ++ s.backText p := by
  unfold text bodyText frontText backText
  cases p.labelAt? s.offset <;> cases s.hint <;> cases s.instruction.opcode <;>
    cases s.assertEqText p <;> cases s.apLine p <;> rfl

def transferLine (p : Printer) (s : Site) (n t : Int) : String :=
  s.frontText p ++ ((if s.instruction.opcode = .call then p.piece p.palette.red s.instruction.opcode.name
    else p.piece p.palette.red s.instruction.pcUpdate.name ++ p.piece p.palette.blue (Text.decimal n)) ++
    s.targetText p t) ++ s.backText p

section Lines

variable (himm : s.instruction.imm = some m)

include himm

theorem callText_eq (hcall : s.instruction.opcode = .call) :
    s.callText p = (Field.small m p.prime).map fun n =>
      p.piece p.palette.red s.instruction.opcode.name ++ s.targetText p (s.offset + n) := by
  unfold callText targetText
  simp only [himm, if_pos hcall]
  cases Field.small m p.prime with
  | error e => rfl
  | ok n =>
    cases s.callee with
    | some name => exact congrArg Except.ok (String.append_assoc ..)
    | none =>
      change Except.ok (_ ++ _ ++ _) = Except.ok (_ ++ (_ ++ Option.elim (p.labelAt? (s.offset + n)) _ _))
      cases p.labelAt? (s.offset + n) with
      | some label => exact congrArg Except.ok (String.append_assoc ..)
      | none => exact congrArg Except.ok (String.append_assoc ..)

theorem nopText_eq (hnop : s.instruction.opcode = .nop) (hjump : s.instruction.pcUpdate ≠ .regular) :
    s.nopText p = (Field.small m p.prime).map fun n =>
      p.piece p.palette.red s.instruction.pcUpdate.name ++ p.piece p.palette.blue (Text.decimal n) ++
        s.targetText p (s.offset + n) := by
  have hcall : s.instruction.opcode ≠ .call := by simp [hnop]
  unfold nopText targetText Field.small
  simp only [himm, if_neg hjump, if_neg hcall]
  cases Field.numeral m p.prime with
  | error e => rfl
  | ok numeral =>
    cases numeral with
    | hex n => rfl
    | decimal n =>
      change Except.ok _ = Except.ok _
      rw [add_comm n]
      rfl

/-- The one number that the line of a transfer depends on is the way that it goes. -/
theorem text_of_transfers (htransfer : s.instruction.Transfers) :
    s.text p = (Field.small m p.prime).map fun n => s.transferLine p n (s.offset + n) := by
  rw [text_eq]
  unfold bodyText transferLine
  rcases htransfer with hcall | ⟨hnop, hjump⟩
  · rw [if_pos hcall, callText_eq himm hcall]
    simp only [if_pos hcall]
    cases Field.small m p.prime <;> rfl
  · have hcall : s.instruction.opcode ≠ .call := by simp [hnop]
    rw [if_neg hcall, if_pos hnop, nopText_eq himm hnop hjump]
    simp only [if_neg hcall]
    cases Field.small m p.prime <;> rfl

end Lines

end Site

/-- The line of a jump to the one offset does not read as that of a jump to the other. -/
structure Printer.TellsApart (p : Printer) (t u : Int) : Prop where
  left : (p.jumpNote t).toList.getLast? ≠ some ' '
  right : (p.jumpNote u).toList.getLast? ≠ some ' '
  apart : p.jumpNote t = p.jumpNote u → t = u

/-- Offsets without a label are told apart by their numbers. -/
theorem Printer.tellsApart_of_unlabelled {p : Printer} {t u : Int} (ht : p.labelAt? t = none)
    (hu : p.labelAt? u = none) : p.TellsApart t u := by
  have hnote : ∀ {v}, p.labelAt? v = none → p.jumpNote v = "# JMP " ++ Text.decimal v := by
    intro v hv
    unfold jumpNote
    rw [hv]
    rfl
  refine ⟨?_, ?_, fun h => ?_⟩
  · rw [hnote ht]
    exact Text.getLast?_append_decimal_ne _ t
  · rw [hnote hu]
    exact Text.getLast?_append_decimal_ne _ u
  · rw [hnote ht, hnote hu, String.append_right_inj] at h
    exact Text.decimal_inj h

theorem Site.eq_of_transferLine {p : Printer} {s : Site} {n t u : Int}
    (hcall : s.instruction.opcode ≠ .call) (hapart : p.TellsApart t u)
    (h : s.transferLine p n t = s.transferLine p n u) : t = u := by
  unfold transferLine targetText at h
  simp only [if_neg hcall, String.append_left_inj, String.append_right_inj] at h
  exact hapart.apart (Printer.piece_inj hapart.left hapart.right h)

namespace Contract

/-- What a contract says of a transfer by `n` is that it leads to the offset `t`. -/
structure Follows (c : Contract) (palette : Palette) (s : Site) (n t : Int) : Prop where
  target : s.instruction.opcode = .call → s.callTarget = t
  callee : s.instruction.opcode = .call →
    s.callee = (c.functions.find? fun g => (g.start : Int) == t).map (·.name)
  line : s.text (c.printer palette) = .ok (s.transferLine (c.printer palette) n t)

theorem target_of_siteOf {prime m : Int} {references : List (String × String)}
    {hints : List (String × Json)} {p : Artifact.Placed} {s : Site}
    (h : siteOf prime references hints p = .ok s) (hcall : s.instruction.opcode = .call)
    (himm : s.instruction.imm = some m) :
    ∃ n, Field.small m prime = .ok n ∧ s.callTarget = s.offset + n := by
  unfold siteOf at h
  obtain ⟨target, htarget, h⟩ := Outcome.bind_eq_ok.1 h
  obtain rfl := Outcome.pure_eq_ok.1 h
  dsimp only at hcall himm
  unfold callTarget at htarget
  rw [if_pos (by simp [Instruction.isDirectCall, hcall, himm]), himm] at htarget
  obtain ⟨n, hsmall, htarget⟩ := Outcome.bind_eq_ok.1 htarget
  exact ⟨n, hsmall, (Outcome.pure_eq_ok.1 htarget).symm⟩

section Loaded

variable {doc : Json} {c : Contract} (hload : ofArtifact doc = .ok c) {f : Function} {s : Site}
  (hf : f ∈ c.functions) (hs : s ∈ f.sites) {m n : Int} (himm : s.instruction.imm = some m)
  (hn : Field.IsSigned c.prime m n)

include hload hf hs himm hn

/-- A call with an immediate loads only if the way that it goes is short, and it is taken from its own
offset. -/
theorem target_of_ofArtifact (hcall : s.instruction.opcode = .call) :
    n.natAbs < Field.decimalBound ∧ s.callTarget = s.offset + n ∧
      s.callee = (c.functions.find? fun g => (g.start : Int) == s.callTarget).map (·.name) := by
  have hdirect : s.instruction.isDirectCall = true := by simp [Instruction.isDirectCall, hcall, himm]
  obtain ⟨-, references, hints, groups, fs, -, hfs, hfunctions⟩ := functions_of_ofArtifact hload
  rw [hfunctions] at hf ⊢
  obtain ⟨f₀, hf₀, rfl⟩ := List.mem_map.1 hf
  obtain ⟨s₀, hs₀, rfl⟩ := List.mem_map.1 hs
  obtain ⟨p, hp⟩ := siteOf_of_functionsOf hfs hf₀ hs₀
  have hdirect₀ : s₀.instruction.isDirectCall = true := by
    split_ifs at hdirect with h
    · exact h
    · exact hdirect
  simp only [if_pos hdirect₀] at hcall himm ⊢
  obtain ⟨k, hsmall, htarget⟩ := target_of_siteOf hp hcall himm
  obtain rfl := (Field.isSigned_of_small hsmall).unique hn
  refine ⟨Field.natAbs_lt_of_small hn hsmall, htarget, ?_⟩
  unfold resolveCalls
  rw [List.find?_map, Option.map_map]
  rfl

/-- A transfer is said to lead as far from its own offset as its immediate says, if that is near. -/
theorem follows_add_iff (palette : Palette) (htransfer : s.instruction.Transfers) :
    c.Follows palette s n (s.offset + n) ↔ n.natAbs < Field.decimalBound := by
  have hsigned : Field.IsSigned (c.printer palette).prime m n := hn
  have htext := Site.text_of_transfers himm htransfer (p := c.printer palette)
  rw [Field.small_of_isSigned hsigned] at htext
  constructor
  · intro h
    by_contra hfar
    rw [h.line, if_neg hfar] at htext
    cases htext
  · intro hnear
    rw [if_pos hnear] at htext
    refine ⟨fun hcall => ?_, fun hcall => ?_, htext⟩
    · exact (target_of_ofArtifact hload hf hs himm hn hcall).2.1
    · obtain ⟨-, htarget, hcallee⟩ := target_of_ofArtifact hload hf hs himm hn hcall
      rw [hcallee, htarget]

/-- There is one offset that a transfer is said to lead to, if the line of a jump tells it from others. -/
theorem eq_add_of_follows {palette : Palette} {t : Int} (htransfer : s.instruction.Transfers)
    (hapart : s.instruction.opcode = .nop → (c.printer palette).TellsApart t (s.offset + n))
    (h : c.Follows palette s n t) : t = s.offset + n := by
  rcases htransfer with hcall | ⟨hnop, hjump⟩
  · rw [← h.target hcall]
    exact (target_of_ofArtifact hload hf hs himm hn hcall).2.1
  · have hnotCall : s.instruction.opcode ≠ .call := by simp [hnop]
    have hline := h.line
    rw [Site.text_of_transfers himm (.inr ⟨hnop, hjump⟩)] at hline
    obtain ⟨k, hsmall, hline⟩ := Outcome.map_eq_ok.1 hline
    obtain rfl := (Field.isSigned_of_small hsmall).unique hn
    exact Site.eq_of_transferLine hnotCall (hapart hnop) hline.symm

end Loaded

/-- A loaded call and a jump with an immediate are said to lead to where the machine goes exactly when the
immediate is near zero and the transfer is not absolute, unless it stands at the offset 0. They are said to
lead as far from their own offset as the immediate says; a call whose immediate is not near zero does not
load, and a jump has no line then. -/
theorem transfer_followed_iff {doc : Json} {c : Contract} (hload : ofArtifact doc = .ok c) {f : Function}
    (hf : f ∈ c.functions) {s : Site} (hs : s ∈ f.sites) (htransfer : s.instruction.Transfers) {m n : Int}
    (himm : s.instruction.imm = some m) (hn : Field.IsSigned c.prime m n) (palette : Palette) :
    (s.instruction.opcode = .call → n.natAbs < Field.decimalBound) ∧
    (c.Follows palette s n (s.offset + n) ↔ n.natAbs < Field.decimalBound) ∧
    ((∃ line, s.text (c.printer palette) = .ok line) ↔ n.natAbs < Field.decimalBound) ∧
    ∀ t, s.instruction.destination? s.offset n = some t →
      (s.instruction.opcode = .nop → (c.printer palette).TellsApart t (s.offset + n)) →
      (c.Follows palette s n t ↔
        n.natAbs < Field.decimalBound ∧ (s.instruction.pcUpdate = .jump → s.offset = 0)) := by
  have hsigned : Field.IsSigned (c.printer palette).prime m n := hn
  have hfollows := follows_add_iff hload hf hs himm hn palette htransfer
  refine ⟨fun hcall => (target_of_ofArtifact hload hf hs himm hn hcall).1, hfollows, ?_, ?_⟩
  · constructor
    · rintro ⟨line, hline⟩
      rw [Site.text_of_transfers himm htransfer] at hline
      obtain ⟨k, hsmall, -⟩ := Outcome.map_eq_ok.1 hline
      exact Field.natAbs_lt_of_small hsigned hsmall
    · intro hnear
      exact ⟨_, (hfollows.2 hnear).line⟩
  · intro t ht hapart
    rw [← Instruction.destination?_eq_add_iff ht, ← hfollows]
    constructor
    · intro h
      obtain rfl := eq_add_of_follows hload hf hs himm hn htransfer hapart h
      exact ⟨h, rfl⟩
    · rintro ⟨h, rfl⟩
      exact h

/-- A program modulo 97 with an absolute call of the second function, at the offset 2, and an absolute jump to
the offset 6 after it. -/
def absoluteArtifact : Json :=
  .obj [("prime", .str "0x61"), ("builtins", .arr []), ("hints", .obj []),
    ("data", .arr (["0x480680017fff8000", "0x1", "0x1084800180018000", "0x7", "0x8780017fff7fff", "0x6",
      "0x208b7fff7fff7ffe", "0x480680017fff8000", "0x1", "0x208b7fff7fff7ffe"].map .str)),
    ("identifiers", .obj [("main", .obj [("type", .str "function"), ("pc", .num 0)]),
      ("one", .obj [("type", .str "function"), ("pc", .num 7)])])]

/-- Neither leads where it is said to: the call leads to the start of a function, but it is said to lead to 9,
where no function starts. -/
theorem transfer_followed_iff_absolute :
    ∃ c, ofArtifact absoluteArtifact = .ok c ∧ ∃ f ∈ c.functions,
      (∃ s ∈ f.sites, s.instruction.destination? s.offset 7 = some 7 ∧ c.StartsAt 7 ∧ s.callee = none ∧
        c.Follows .plain s 7 9 ∧ ¬c.Follows .plain s 7 7) ∧
      ∃ s ∈ f.sites, s.instruction.destination? s.offset 6 = some 6 ∧
        c.Follows .plain s 6 10 ∧ ¬c.Follows .plain s 6 6 := by
  have hrun : (ofArtifact absoluteArtifact >>= fun c => pure (decide (c.prime = 97 ∧ c.labels = [] ∧
      c.StartsAt 7 ∧ ∃ f ∈ c.functions,
        (∃ s ∈ f.sites, s.offset = 2 ∧ s.instruction.opcode = .call ∧ s.instruction.pcUpdate = .jump ∧
          s.instruction.imm = some 7 ∧ s.callee = none) ∧
        ∃ s ∈ f.sites, s.offset = 4 ∧ s.instruction.opcode = .nop ∧ s.instruction.pcUpdate = .jump ∧
          s.instruction.imm = some 6))) = .ok true := by
    decide +kernel
  obtain ⟨c, hload, hc⟩ := Outcome.bind_eq_ok.1 hrun
  obtain ⟨hprime, hlabels, hstart, f, hf, ⟨s, hs, hoffset, hcall, hjump, himm, hcallee⟩,
    s', hs', hoffset', hnop', hjump', himm'⟩ := of_decide_eq_true (Outcome.pure_eq_ok.1 hc)
  have hseven : Field.IsSigned c.prime 7 7 := by
    rw [hprime]
    decide
  have hsix : Field.IsSigned c.prime 6 6 := by
    rw [hprime]
    decide
  have hunlabelled : ∀ t, (c.printer .plain).labelAt? t = none := by
    intro t
    change c.labels.lookup _ = none
    rw [hlabels]
    rfl
  obtain ⟨-, hfollows, -, hiff⟩ :=
    transfer_followed_iff hload hf hs (.inl hcall) himm hseven .plain
  obtain ⟨-, hfollows', -, hiff'⟩ :=
    transfer_followed_iff hload hf hs' (.inr ⟨hnop', by simp [hjump']⟩) himm' hsix .plain
  have hdest : s.instruction.destination? s.offset 7 = some 7 := by simp [Instruction.destination?, hjump]
  have hdest' : s'.instruction.destination? s'.offset 6 = some 6 := by
    simp [Instruction.destination?, hjump']
  rw [hoffset] at hfollows
  rw [hoffset'] at hfollows'
  refine ⟨c, hload, f, hf, ⟨s, hs, hdest, hstart, hcallee, hfollows.2 (by decide), fun h => ?_⟩,
    s', hs', hdest', hfollows'.2 (by decide), fun h => ?_⟩
  · have hzero := ((hiff 7 hdest (by simp [hcall])).1 h).2 hjump
    simp [hoffset] at hzero
  · have hapart := Printer.tellsApart_of_unlabelled (hunlabelled 6) (hunlabelled (s'.offset + 6))
    have hzero := ((hiff' 6 hdest' fun _ => hapart).1 h).2 hjump'
    simp [hoffset'] at hzero

end Contract

end Cairoscope
