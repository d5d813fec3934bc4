import Cairoscope.Proofs.Braces
import Cairoscope.Proofs.Numerals
import Cairoscope.Proofs.Sierra.InnerTypes
import Cairoscope.Proofs.Sierra.Loading
import Cairoscope.Proofs.Sierra.Stretches
import Mathlib.Data.List.TakeWhile

/-! The characters of names. A label has letters, digits and underscores only, and an identifier is written with
labels, numbers and marks. So no name that a program has from its source holds a curly brace or ends a line. -/

namespace Cairoscope.Sierra

def isInline (c : Char) : Bool := !List.contains ['\x7b', '\x7d', '\n'] c

theorem isInline_of (test : Char → Bool) (hnone : ['\x7b', '\x7d', '\n'].any test = false) {c : Char}
    (h : test c = true) : isInline c = true := by
  rw [isInline, Bool.not_eq_true']
  refine Bool.eq_false_iff.2 fun hmem => ?_
  exact List.any_eq_false.1 hnone c (List.contains_iff_mem.1 hmem) h

def Inline (s : String) : Prop := s.toList.all isInline = true

instance (s : String) : Decidable (Inline s) := inferInstanceAs (Decidable (_ = true))

section Inline

variable {s t : String}

theorem inline_append : Inline (s ++ t) ↔ Inline s ∧ Inline t := by
  simp only [Inline, String.toList_append, List.all_append, Bool.and_eq_true]

theorem Inline.of_infix (h : Inline s) (ht : t.toList <:+: s.toList) : Inline t :=
  List.all_eq_true.2 fun c hc => List.all_eq_true.1 h c (ht.subset hc)

theorem Inline.not_mem (h : Inline s) {c : Char} (hc : isInline c = false) : c ∉ s.toList := by
  intro hmem
  rw [List.all_eq_true.1 h c hmem] at hc
  cases hc

theorem Inline.free (h : Inline s) : Text.Free s.toList := ⟨h.not_mem (by decide), h.not_mem (by decide)⟩

theorem inline_intercalate {separator : String} (hseparator : Inline separator) {items : List String}
    (h : ∀ s ∈ items, Inline s) : Inline (String.intercalate separator items) :=
  Text.all_intercalate hseparator h

theorem inline_joinWith {items : List String} (h : ∀ s ∈ items, Inline s) : Inline (joinWith items) :=
  inline_intercalate (by decide) h

theorem inline_decimal (n : Int) : Inline (Text.decimal n) := by
  have hdigits : ∀ m : Nat, Inline (toString m) := by
    intro m
    refine List.all_eq_true.2 fun c hc => ?_
    rw [Text.toList_toString] at hc
    exact isInline_of Char.isDigit (by decide) (Nat.isDigit_of_mem_toDigits (by decide) (by decide) hc)
  cases n with
  | ofNat m => exact hdigits m
  | negSucc m =>
    change Inline ("-" ++ toString (m + 1))
    exact inline_append.2 ⟨by decide, hdigits (m + 1)⟩

theorem inline_bracketed (n : Int) : Inline (bracketed n) :=
  inline_append.2 ⟨inline_append.2 ⟨by decide, inline_decimal n⟩, by decide⟩

end Inline

namespace Reader

variable {α β : Type} {P : α → Prop} {Q : β → Prop}

def Yields (P : α → Prop) (r : Reader α) : Prop := ∀ cs a rest, r cs = some (a, rest) → P a

theorem yields_true (r : Reader α) : Yields (fun _ => True) r := fun _ _ _ _ => trivial

theorem yields_pure {a : α} (h : P a) : Yields P (pure a : Reader α) := by
  intro cs b rest hrun
  obtain ⟨rfl, -⟩ := Prod.mk.inj (Option.some.inj hrun)
  exact h

theorem Yields.bind {r : Reader α} {f : α → Reader β} (h : Yields P r) (hf : ∀ a, P a → Yields Q (f a)) :
    Yields Q (r >>= f) := by
  intro cs b rest hrun
  obtain ⟨⟨a, mid⟩, ha, hb⟩ := Option.bind_eq_some_iff.1 hrun
  exact hf a (h cs a mid ha) mid b rest hb

theorem Yields.imp {P' : α → Prop} {r : Reader α} (h : Yields P r) (himp : ∀ a, P a → P' a) : Yields P' r :=
  fun cs a rest hrun => himp a (h cs a rest hrun)

/-- What is read first does not matter. -/
theorem Yields.after {f : α → Reader β} (h : ∀ a, Yields Q (f a)) (r : Reader α) : Yields Q (r >>= f) :=
  (yields_true r).bind fun a _ => h a

theorem Yields.orElse {r r' : Reader α} (h : Yields P r) (h' : Yields P r') : Yields P (r <|> r') := by
  intro cs a rest hrun
  have hrun : (r cs).or (r' cs) = some (a, rest) := by
    rw [← hrun]
    change _ = (r cs <|> r' cs)
    simp
  obtain hfirst | ⟨-, hsecond⟩ := Option.or_eq_some_iff.1 hrun
  · exact h cs a rest hfirst
  · exact h' cs a rest hsecond

theorem Yields.many {item : Reader α} (h : Yields P item) (limit : Nat) :
    Yields (fun as => ∀ a ∈ as, P a) (many item limit) := by
  induction limit with
  | zero => exact yields_pure (by simp)
  | succ limit ih =>
    refine Yields.orElse (h.bind fun a ha => ih.bind fun as has => yields_pure ?_) (yields_pure (by simp))
    exact List.forall_mem_cons.2 ⟨ha, has⟩

theorem Yields.listed {item : Reader α} (h : Yields P item) (limit : Nat) :
    Yields (fun as => ∀ a ∈ as, P a) (listed limit item) := by
  refine h.bind fun a ha => ((Yields.after (fun _ => h) _).many limit).bind fun as has => yields_pure ?_
  exact List.forall_mem_cons.2 ⟨ha, has⟩

theorem Yields.listing {item : Reader α} (h : Yields P item) (limit : Nat) :
    Yields (fun as => ∀ a ∈ as, P a) (listing limit item) :=
  (h.listed limit).orElse (yields_pure (by simp))

theorem label_inline : Yields Inline label := by
  intro cs s rest h
  unfold label at h
  split at h
  · rename_i c more _
    by_cases hstart : isLabelStart c = true
    · rw [if_pos hstart] at h
      obtain ⟨rfl, -⟩ := Prod.mk.inj (Option.some.inj h)
      unfold Inline
      rw [String.toList_ofList, List.all_cons, Bool.and_eq_true, List.all_eq_true]
      refine ⟨isInline_of isLabelStart (by decide) hstart, fun d hd => ?_⟩
      have hlabel := List.mem_takeWhile_imp hd
      exact isInline_of (fun d => isLabelStart d || isFigure d) (by decide) hlabel
    · rw [if_neg hstart] at h
      cases h
  · cases h

theorem path_inline (limit : Nat) : Yields (fun p => Inline (pathText p)) (path limit) := by
  refine label_inline.bind fun first hfirst =>
    ((Yields.after (fun _ => label_inline) _).many limit).bind fun rest hrest => yields_pure ?_
  exact inline_intercalate (by decide) (List.forall_mem_cons.2 ⟨hfirst, hrest⟩)

theorem argument_inline {ident : Reader Ident} (h : Yields (fun id => Inline id.text) ident) :
    Yields (fun a => Inline a.text) (argument ident) := by
  have hmarked : ∀ (mark : String) (make : Ident → Argument), Inline mark →
      (∀ id, (make id).text = mark ++ id.text) →
      Yields (fun a => Inline a.text) (do return make (← ident)) := by
    intro mark make hmark htext
    refine h.bind fun id hid => yields_pure ?_
    rw [htext]
    exact inline_append.2 ⟨hmark, hid⟩
  refine .orElse (.after (fun _ => hmarked "user@" .function (by decide) fun _ => rfl) _) ?_
  refine .orElse (.after (fun _ => hmarked "ut@" .userType (by decide) fun _ => rfl) _) ?_
  refine .orElse (.after (fun _ => hmarked "lib@" .libfunc (by decide) fun _ => rfl) _) ?_
  refine .orElse (.after (fun _ => yields_pure (by decide)) _) ?_
  refine .orElse (.after (fun n => yields_pure ?_) _) (h.bind fun id hid => yields_pure hid)
  exact inline_decimal n

theorem argumentTexts_inline {arguments : List Argument} (h : ∀ a ∈ arguments, Inline a.text) :
    ∀ s ∈ argumentTexts arguments, Inline s := by
  induction arguments with
  | nil => simp [argumentTexts]
  | cons a rest ih =>
    obtain ⟨ha, hrest⟩ := List.forall_mem_cons.1 h
    rw [argumentTexts]
    exact List.forall_mem_cons.2 ⟨ha, ih hrest⟩

theorem enclosed_inline {ident : Reader Ident} (h : Yields (fun id => Inline id.text) ident) (limit : Nat)
    (opening : List String) (b : Brackets) (closing : String) :
    Yields (fun e => Inline (joinWith (argumentTexts e.2))) (enclosed limit ident opening b closing) := by
  refine .after (fun _ => ((argument_inline h).listed limit).bind fun arguments harguments => ?_) _
  refine .after (fun _ => yields_pure ?_) _
  exact inline_joinWith (argumentTexts_inline harguments)

theorem ident_inline (limit : Nat) : Yields (fun id => Inline id.text) (ident limit) := by
  induction limit with
  | zero =>
    intro cs id rest h
    cases h
  | succ limit ih =>
    have hnumber : Yields (fun id : Ident => Inline id.text) (do return .number (← bracketed)) := by
      refine .after (fun n => yields_pure ?_) _
      exact inline_bracketed n
    have henclosed := fun opening b closing => enclosed_inline ih limit opening b closing
    refine hnumber.orElse ((path_inline limit).bind fun p hp => .orElse ?_ (yields_pure hp))
    refine ((henclosed _ _ _).orElse ((henclosed _ _ _).orElse (henclosed _ _ _))).bind fun e he => ?_
    refine yields_pure ?_
    have hbrackets : Inline e.1.opening ∧ Inline e.1.closing := by
      cases e.1 <;> decide
    rw [Ident.text]
    simp only [inline_append]
    exact ⟨⟨⟨hp, hbrackets.1⟩, he⟩, hbrackets.2⟩

theorem var_inline : Yields (fun v => Inline v.text) var := by
  refine .orElse (.after (fun n => yields_pure ?_) _) (label_inline.bind fun name hname => yields_pure hname)
  exact inline_bracketed n

end Reader

def Command.ident? : Command → Option Ident
  | .give _ => none
  | .invoke id _ _ => some id
  | .jump id _ _ => some id

def Command.vars : Command → List VarId
  | .give vars => vars
  | .invoke _ arguments results => arguments ++ results
  | .jump _ arguments branches => arguments ++ branches.flatMap (·.results)

namespace Reader

variable {P : VarId → Prop} {I : Ident → Prop}

theorem Yields.vars (h : Yields P var) (limit : Nat) : Yields (fun vs => ∀ v ∈ vs, P v) (vars limit) :=
  .after (fun _ => (h.listing limit).bind fun _ hvs => .after (fun _ => yields_pure hvs) _) _

/-- What holds of all identifiers and variables that are read holds of those of a command. -/
theorem Yields.command (hident : ∀ limit, Yields I (ident limit)) (h : Yields P var) (limit : Nat) :
    Yields (fun c => (∀ id ∈ c.ident?, I id) ∧ ∀ v ∈ c.vars, P v) (command limit) := by
  refine .orElse ?_ ?_
  · refine .after (fun _ => (h.vars limit).bind fun vs hvs => .after (fun _ => yields_pure ⟨?_, hvs⟩) _) _
    simp [Command.ident?]
  refine (hident limit).bind fun id hid => (h.vars limit).bind fun arguments harguments => .orElse ?_ ?_
  · refine .after (fun _ => (h.vars limit).bind fun results hresults => .after (fun _ => yields_pure ⟨?_, ?_⟩) _) _
    · simpa [Command.ident?] using hid
    · exact List.forall_mem_append.2 ⟨harguments, hresults⟩
  · have hbranch : Yields (fun b => ∀ v ∈ b.results, P v) (branch limit) :=
      .after (fun t => (h.vars limit).bind fun vs hvs => yields_pure hvs) _
    refine .after (fun _ => (hbranch.many limit).bind fun branches hbranches => ?_) _
    refine .after (fun _ => .after (fun _ => yields_pure ⟨?_, ?_⟩) _) _
    · simpa [Command.ident?] using hid
    · refine List.forall_mem_append.2 ⟨harguments, fun v hv => ?_⟩
      obtain ⟨b, hb, hv⟩ := List.mem_flatMap.1 hv
      exact hbranches b hb v hv

theorem Yields.source {C : Command → Prop} {limit : Nat} (h : Yields C (Reader.command limit)) :
    Yields (fun src => ∀ c ∈ src.commands, C c) (source limit) := by
  refine .after (fun types => .after (fun libfuncs => ?_) _) _
  refine (h.many limit).bind fun commands hcommands => ?_
  exact .after (fun functions => .after (fun _ => yields_pure hcommands) _) _

end Reader

def Command.Named : Command → Prop
  | .give _ => True
  | .invoke id _ _ => Inline id.text
  | .jump id arguments branches => Inline id.text ∧
      ∀ vars ∈ Program.jumpLists arguments branches, ∀ v ∈ vars, Inline v.text

def Action.Named : Action → Prop
  | .give vars => ∀ v ∈ vars, Inline v
  | .assign libfunc arguments results => Inline libfunc.id ∧ (∀ v ∈ arguments, Inline v) ∧
      ∀ v ∈ results, Inline v
  | .jump libfunc parameters _ _ _ => Inline libfunc ∧ ∀ v ∈ parameters, Inline v

theorem Command.named_of_inline {c : Command} (hident : ∀ id ∈ c.ident?, Inline id.text)
    (hvars : ∀ v ∈ c.vars, Inline v.text) : c.Named := by
  cases c with
  | give => trivial
  | invoke id arguments results => exact hident id rfl
  | jump id arguments branches =>
    obtain ⟨harguments, hresults⟩ := List.forall_mem_append.1 hvars
    refine ⟨hident id rfl, List.forall_mem_append.2 ⟨List.forall_mem_map.2 fun b hb v hv => ?_, ?_⟩⟩
    · exact hresults v (List.mem_flatMap.2 ⟨b, hb, hv⟩)
    · simpa using harguments

theorem Reader.source_named (limit : Nat) : Yields (fun src => ∀ c ∈ src.commands, c.Named) (source limit) :=
  .source ((Yields.command ident_inline var_inline limit).imp fun _ hc => Command.named_of_inline hc.1 hc.2)

theorem innermost_inline {id : Ident} (h : Inline id.text) (wanted : IdKind) :
    Inline (id.innermost wanted).text := by
  unfold Ident.innermost
  cases hfamily : id.family wanted with
  | nil => exact h
  | cons first rest =>
    have hmem : first ∈ id.family wanted := by simp [hfamily]
    unfold Ident.family deepestFirst at hmem
    obtain ⟨x, hx, rfl⟩ := List.mem_map.1 hmem
    obtain rfl | hx := List.mem_cons.1 (List.mem_mergeSort.1 hx)
    · exact h
    · exact h.of_infix (Ident.inside hx).2.1

theorem numberedNames_inline (vars : List VarId) : ∀ v ∈ Program.numberedNames vars, Inline v := by
  intro v hv
  obtain ⟨n, -, rfl⟩ := List.mem_map.1 hv
  exact inline_decimal n

theorem Records.named {offset : Nat} {c : Command} {a : Action} (h : Records offset c a) (hc : c.Named) :
    a.Named := by
  have hlist : ∀ {lists : List (List VarId)} {vars : List VarId}, lists[2]? = some vars →
      (∀ vars ∈ lists, ∀ v ∈ vars, Inline v.text) → ∀ v ∈ vars.map VarId.text, Inline v := by
    intro lists vars hvars hlists
    exact List.forall_mem_map.2 (hlists vars (List.mem_of_getElem? hvars))
  cases h with
  | give vars => exact numberedNames_inline vars
  | invoke hid =>
    refine ⟨?_, numberedNames_inline _, numberedNames_inline _⟩
    rw [hid]
    exact innermost_inline hc .libfunc
  | fallthrough _ _ hvars => exact ⟨innermost_inline hc.1 .libfunc, hlist hvars hc.2⟩
  | single => exact ⟨innermost_inline hc.1 .libfunc, by simp⟩
  | several _ _ hvars => exact ⟨innermost_inline hc.1 .libfunc, hlist hvars hc.2⟩

namespace Program

/-- The names in the blocks of a program that was loaded stay on a line. -/
theorem named_of_load {text : String} {p : Program} (h : load text .empty = .ok () p) :
    ∀ f ∈ p.functions, ∀ b ∈ f.blocks, ∀ s ∈ b.statements, s.action.Named := by
  intro f hf b hb s hs
  obtain ⟨src, hread, hloaded⟩ := loaded_of_load h
  have hsource : ∀ c ∈ src.commands, c.Named := by
    obtain ⟨⟨src', rest⟩, hrun, rfl⟩ := Option.map_eq_some_iff.1 hread
    exact Reader.source_named _ _ _ _ hrun
  have harranged := hloaded.functions f hf
  have hs : s ∈ f.statements := by
    have hmem : s ∈ f.blocks.flatMap (·.statements) := List.mem_flatMap.2 ⟨b, hb, hs⟩
    rw [Function.flatMap_blocks harranged.blocks] at hmem
    exact (kept_sublist f.statements).subset hmem
  obtain ⟨stop, -, hstatements⟩ := harranged.statements
  rw [hstatements] at hs
  obtain ⟨i, hi⟩ := List.mem_iff_getElem?.1 (List.mem_filter.1 hs).1
  have hbound : i < src.commands.length := by
    rw [← hloaded.length]
    exact (List.getElem?_eq_some_iff.1 hi).1
  obtain ⟨a, hrecords, ha⟩ := hloaded.recorded i _ (List.getElem?_eq_getElem hbound)
  obtain rfl := Option.some.inj (ha.symm.trans hi)
  exact hrecords.named (hsource _ (List.getElem_mem hbound))

end Program

end Cairoscope.Sierra
