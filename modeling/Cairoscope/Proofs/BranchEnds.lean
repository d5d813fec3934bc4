import Cairoscope.Decompiler.Statement
import Cairoscope.Proofs.Comments
import Mathlib.Data.List.Basic
import Mathlib.Data.List.Nodup

/-! Where the branches of a function end. A conditional jump opens a branch. Its end is kept in one place if
the branch has no `else`, and a later branch without `else` takes that place; otherwise the relative jump
between the two halves gives the end. So which braces are written depends only on the jumps of the function.
They are balanced exactly when as many branches are ended as opened and none is ended too early, and this is
so for structured code. -/

namespace Cairoscope

namespace Site

def opensBranch (s : Site) : Bool := s.instruction.opcode == .nop && s.instruction.pcUpdate == .jnz

/-- A relative jump that can stand between the two halves of a branch. -/
def skips (s : Site) : Bool :=
  s.instruction.opcode == .nop && s.instruction.pcUpdate == .jumpRel && s.instruction.imm.isSome

def goal (prime : Int) (s : Site) : Int :=
  ((Field.small (s.instruction.imm.getD 0) prime).toOption.getD 0) + s.offset

def Reaches (sites : List Site) (t : Int) : Prop := ∃ e ∈ sites, (e.offset : Int) = t

instance (sites : List Site) (t : Int) : Decidable (Reaches sites t) :=
  inferInstanceAs (Decidable (∃ e ∈ sites, (e.offset : Int) = t))

def before (sites : List Site) (t : Int) : List Site := sites.takeWhile fun s => (s.offset : Int) != t

theorem opensBranch_eq_false_of_skips {s : Site} (h : s.skips = true) : s.opensBranch = false := by
  simp only [skips, Bool.and_eq_true, beq_iff_eq] at h
  simp [opensBranch, h.1.2]

theorem reaches_cons {s : Site} {rest : List Site} {t : Int} :
    Reaches (s :: rest) t ↔ (s.offset : Int) = t ∨ Reaches rest t := by
  simp [Reaches]

theorem reaches_iff {sites : List Site} {t : Int} :
    Reaches sites t ↔ Reaches (sites.take 1) t ∨ Reaches sites.tail t := by
  cases sites with
  | nil => simp [Reaches]
  | cons s rest => simp [Reaches]

theorem not_reaches_of_nodup {s : Site} {rest : List Site} (h : ((s :: rest).map (·.offset)).Nodup) :
    ¬ Reaches rest s.offset := by
  rintro ⟨e, he, heq⟩
  rw [List.map_cons, List.nodup_cons] at h
  exact h.1 (List.mem_map.2 ⟨e, he, by omega⟩)

theorem before_cons_of_ne {s : Site} {rest : List Site} {t : Int} (h : (s.offset : Int) ≠ t) :
    before (s :: rest) t = s :: before rest t := by
  simp [before, h]

end Site

/-- The end of the last branch without `else`, the ends of the `else` halves, and the number of branches
that are counted as open. -/
structure Schedule where
  ifEnd : Option Int
  elseEnds : List Int
  openIfs : Int

namespace Function

/-- How many instructions one or two words before the offset are no relative jumps. -/
def plainBefore (f : Function) (t : Int) : Nat :=
  (f.sites.filter fun s => ((s.offset : Int) == t - 2 || (s.offset : Int) == t - 1) &&
    s.instruction.pcUpdate ≠ .jumpRel).length

/-- A branch whose end is not right after a relative jump. -/
def lacksElse (prime : Int) (f : Function) (s : Site) : Bool :=
  s.opensBranch && f.plainBefore (s.goal prime) != 0

def hasElse (prime : Int) (f : Function) (s : Site) : Bool :=
  s.opensBranch && f.plainBefore (s.goal prime) == 0

end Function

namespace Schedule

def start : Schedule := ⟨none, [], 0⟩

def ends (σ : Schedule) (s : Site) : Nat :=
  (if σ.ifEnd = some (s.offset : Int) then 1 else 0) + σ.elseEnds.count (s.offset : Int)

/-- An end of a branch without `else` is dropped when it is reached; the others stay. -/
def close (σ : Schedule) (s : Site) : Schedule :=
  if σ.ifEnd = some (s.offset : Int) then { σ with ifEnd := none } else σ

def pass (prime : Int) (f : Function) (σ : Schedule) (s : Site) : Schedule :=
  if f.lacksElse prime s then
    { σ with ifEnd := some (s.goal prime), openIfs := σ.openIfs + 1 - f.plainBefore (s.goal prime) }
  else if f.hasElse prime s then { σ with openIfs := σ.openIfs + 1 }
  else if s.skips ∧ σ.openIfs ≠ 0 then
    { σ with elseEnds := σ.elseEnds ++ [s.goal prime], openIfs := σ.openIfs - 1 }
  else σ

def step (prime : Int) (f : Function) (σ : Schedule) (s : Site) : Schedule := (σ.close s).pass prime f s

theorem pass_of_not_jump (prime : Int) (f : Function) (σ : Schedule) {s : Site} (hopens : s.opensBranch = false)
    (hskips : s.skips = false) : σ.pass prime f s = σ := by
  simp [pass, Function.lacksElse, Function.hasElse, hopens, hskips]

def endedFrom (prime : Int) (f : Function) : Schedule → List Site → Nat
  | _, [] => 0
  | σ, s :: rest => σ.ends s + endedFrom prime f (σ.step prime f s) rest

def bracesFrom (prime : Int) (f : Function) : Schedule → List Site → List Char
  | _, [] => []
  | σ, s :: rest => List.replicate (σ.ends s) '\x7d' ++ (if s.opensBranch then ['\x7b'] else []) ++
      bracesFrom prime f (σ.step prime f s) rest

theorem endedFrom_concat (prime : Int) (f : Function) (σ : Schedule) (past : List Site) (s : Site) :
    endedFrom prime f σ (past ++ [s]) =
      endedFrom prime f σ past + (past.foldl (step prime f) σ).ends s := by
  induction past generalizing σ with
  | nil => simp [endedFrom]
  | cons a past ih => simp [endedFrom, ih, Nat.add_assoc]

end Schedule

namespace Function

def opened (sites : List Site) : Nat := sites.countP Site.opensBranch

/-- How many of the branches of the function have ended at the last of its first instructions. -/
def ended (prime : Int) (f : Function) (past : List Site) : Nat := Schedule.endedFrom prime f .start past

/-- The braces of a function: those of its implicit arguments, its own, and between them those of the
branches. -/
def outline (prime : Int) (f : Function) : List Char :=
  ['\x7b', '\x7d', '\x7b'] ++ Schedule.bracesFrom prime f .start f.sites ++ ['\x7d']

def openedIn : List Function → Nat
  | [] => 0
  | f :: fs => opened f.sites + openedIn fs

def endedIn (prime : Int) : List Function → Nat
  | [] => 0
  | f :: fs => f.ended prime f.sites + endedIn prime fs

/-- All branches are ended, no function ends more of them than have been opened, and no instruction ends
more than those and the function itself. -/
structure EndsBranches (prime : Int) (fs : List Function) : Prop where
  all : endedIn prime fs = openedIn fs
  functions : ∀ front f back, fs = front ++ f :: back →
    endedIn prime (front ++ [f]) ≤ openedIn (front ++ [f])
  instructions : ∀ front f back, fs = front ++ f :: back → ∀ past s rest, f.sites = past ++ s :: rest →
    endedIn prime front + f.ended prime (past ++ [s]) ≤ openedIn front + opened past + 1

end Function

namespace Function

open Text Schedule

variable {prime : Int} {f : Function} {a b : Nat}

theorem goes_own_iff (s : Site) : Goes (if s.opensBranch then ['\x7b'] else []) a b ↔ b = a + opened [s] := by
  by_cases hs : s.opensBranch = true
  · rw [if_pos hs, goes_opening_iff]
    simp [opened, hs]
  · rw [if_neg hs, goes_nil_iff]
    simp [opened, hs, eq_comm]

theorem goes_bracesFrom_iff (σ : Schedule) (sites : List Site) :
    Goes (bracesFrom prime f σ sites) a b ↔ b + endedFrom prime f σ sites = a + opened sites ∧
      ∀ past s rest, sites = past ++ s :: rest → endedFrom prime f σ (past ++ [s]) ≤ a + opened past := by
  induction sites generalizing σ a with
  | nil => simp [bracesFrom, endedFrom, opened, goes_nil_iff, eq_comm]
  | cons s rest ih =>
    have hopened : ∀ past, opened (s :: past) = opened [s] + opened past := fun past => by
      simp [opened, List.countP_cons, Nat.add_comm]
    have hgoes : Goes (bracesFrom prime f σ (s :: rest)) a b ↔ σ.ends s ≤ a ∧
        Goes (bracesFrom prime f (σ.step prime f s) rest) (a - σ.ends s + opened [s]) b := by
      rw [bracesFrom, goes_append_iff]
      simp only [goes_append_iff, goes_closings_iff, goes_own_iff]
      constructor
      · rintro ⟨_, ⟨m, rfl, rfl⟩, h⟩
        exact ⟨by omega, by rwa [Nat.add_sub_cancel]⟩
      · rintro ⟨hle, h⟩
        exact ⟨_, ⟨a - σ.ends s, by omega, rfl⟩, h⟩
    rw [hgoes, ih, hopened rest]
    constructor
    · rintro ⟨hle, hall, hfronts⟩
      refine ⟨by rw [endedFrom]; omega, fun past s' rest' hsplit => ?_⟩
      cases past with
      | nil =>
        obtain ⟨rfl, -⟩ := List.cons.inj hsplit
        simp only [List.nil_append, endedFrom]
        omega
      | cons x past =>
        obtain ⟨rfl, hrest⟩ := List.cons.inj hsplit
        have hfront := hfronts past s' rest' hrest
        rw [List.cons_append, endedFrom, hopened past]
        omega
    · rintro ⟨hall, hfronts⟩
      have hnone : opened [] = 0 := rfl
      have hfirst := hfronts [] s rest rfl
      simp only [List.nil_append, endedFrom, hnone, Nat.add_zero] at hfirst hall
      refine ⟨hfirst, by omega, fun past s' rest' hrest => ?_⟩
      have hfront := hfronts (s :: past) s' rest' (by rw [hrest, List.cons_append])
      rw [List.cons_append, endedFrom, hopened past] at hfront
      omega

theorem goes_outline_iff : Goes (f.outline prime) a b ↔ b + f.ended prime f.sites = a + opened f.sites ∧
    ∀ past s rest, f.sites = past ++ s :: rest → f.ended prime (past ++ [s]) ≤ a + opened past + 1 := by
  have hhead : ∀ m, Goes ['\x7b', '\x7d', '\x7b'] a m ↔ m = a + 1 := by
    intro m
    have hsplit : ['\x7b', '\x7d', '\x7b'] = ['\x7b'] ++ (List.replicate 1 '\x7d' ++ ['\x7b']) := rfl
    rw [hsplit]
    simp only [goes_append_iff, goes_opening_iff, goes_closings_iff]
    constructor
    · rintro ⟨_, rfl, n, hn, rfl⟩
      omega
    · rintro rfl
      exact ⟨_, rfl, a, rfl, rfl⟩
  have hlast : ∀ m, Goes ['\x7d'] m b ↔ m = b + 1 := fun m => goes_closings_iff 1
  rw [outline, goes_append_iff]
  simp only [goes_append_iff, hhead, hlast, goes_bracesFrom_iff]
  constructor
  · rintro ⟨_, ⟨_, rfl, hall, hfronts⟩, rfl⟩
    refine ⟨by rw [ended]; omega, fun past s rest hsplit => ?_⟩
    have hfront := hfronts past s rest hsplit
    rw [ended]
    omega
  · rintro ⟨hall, hfronts⟩
    refine ⟨_, ⟨_, rfl, ?_, fun past s rest hsplit => ?_⟩, rfl⟩
    · rw [ended] at hall
      omega
    · have hfront := hfronts past s rest hsplit
      rw [ended] at hfront
      omega

theorem goes_outlines_iff (fs : List Function) : Goes (fs.flatMap (outline prime)) a b ↔
    b + endedIn prime fs = a + openedIn fs ∧ ∀ front f back, fs = front ++ f :: back →
      endedIn prime (front ++ [f]) ≤ a + openedIn (front ++ [f]) ∧
      ∀ past s rest, f.sites = past ++ s :: rest →
        endedIn prime front + f.ended prime (past ++ [s]) ≤ a + openedIn front + opened past + 1 := by
  induction fs generalizing a with
  | nil => simp [endedIn, openedIn, goes_nil_iff, eq_comm]
  | cons g fs ih =>
    have hended : ∀ front, endedIn prime (g :: front) = g.ended prime g.sites + endedIn prime front :=
      fun _ => rfl
    have hopened : ∀ front, openedIn (g :: front) = opened g.sites + openedIn front := fun _ => rfl
    have hnone : endedIn prime [] = 0 ∧ openedIn [] = 0 := ⟨rfl, rfl⟩
    rw [List.flatMap_cons, goes_append_iff]
    simp only [goes_outline_iff, ih]
    constructor
    · rintro ⟨m, ⟨hone, hparts⟩, hall, hfronts⟩
      refine ⟨by rw [hended, hopened]; omega, fun front f back hsplit => ?_⟩
      cases front with
      | nil =>
        obtain ⟨rfl, -⟩ := List.cons.inj hsplit
        rw [List.nil_append, hended, hopened]
        refine ⟨by omega, fun past s rest hsites => ?_⟩
        have hpart := hparts past s rest hsites
        omega
      | cons x front =>
        obtain ⟨rfl, hrest⟩ := List.cons.inj hsplit
        obtain ⟨hwhole, hinner⟩ := hfronts front f back hrest
        rw [List.cons_append, hended, hopened, hended, hopened]
        refine ⟨by omega, fun past s rest hsites => ?_⟩
        have hpart := hinner past s rest hsites
        omega
    · rintro ⟨hall, hfronts⟩
      obtain ⟨hwhole, hinner⟩ := hfronts [] g fs rfl
      rw [List.nil_append, hended, hopened] at hwhole
      rw [hended, hopened] at hall
      refine ⟨a + opened g.sites - g.ended prime g.sites, ⟨by omega, fun past s rest hsites => ?_⟩, by omega,
        fun front f back hrest => ?_⟩
      · have hpart := hinner past s rest hsites
        omega
      · obtain ⟨hwhole', hinner'⟩ := hfronts (g :: front) f back (by rw [hrest, List.cons_append])
        rw [List.cons_append, hended, hopened] at hwhole'
        refine ⟨by omega, fun past s rest hsites => ?_⟩
        have hpart := hinner' past s rest hsites
        rw [hended, hopened] at hpart
        omega

/-- The braces of the functions are balanced exactly when their branches are ended. -/
theorem goes_iff_endsBranches (fs : List Function) :
    Goes (fs.flatMap (outline prime)) 0 0 ↔ EndsBranches prime fs := by
  rw [goes_outlines_iff]
  simp only [Nat.zero_add]
  exact ⟨fun ⟨hall, hfronts⟩ => ⟨hall, fun front f back hsplit => (hfronts front f back hsplit).1,
      fun front f back hsplit => (hfronts front f back hsplit).2⟩,
    fun h => ⟨h.all, fun front f back hsplit => ⟨h.functions front f back hsplit,
      h.instructions front f back hsplit⟩⟩⟩

end Function

namespace Function

/-- How the instruction fits into structured code. The end of a branch without `else` comes later, is
recognised by one instruction before it, and no other branch without `else` is opened before it. The end of a
branch with `else` comes right after a relative jump. A relative jump goes to a later instruction, and exactly
one branch with `else` ends after it. -/
structure Fits (prime : Int) (f : Function) (past : List Site) (s : Site) (rest : List Site) : Prop where
  plain : f.lacksElse prime s = true → f.plainBefore (s.goal prime) = 1 ∧ Site.Reaches rest (s.goal prime) ∧
    (Site.before rest (s.goal prime)).any (f.lacksElse prime) = false
  halved : f.hasElse prime s = true → Site.Reaches rest.tail (s.goal prime) ∧
    (Site.before rest (s.goal prime)).getLast?.any Site.skips = true
  between : s.skips = true → Site.Reaches rest (s.goal prime) ∧
    past.countP (fun b => f.hasElse prime b && decide (Site.Reaches (rest.take 1) (b.goal prime))) = 1

instance (prime : Int) (f : Function) (past : List Site) (s : Site) (rest : List Site) :
    Decidable (f.Fits prime past s rest) :=
  decidable_of_iff (_ ∧ _ ∧ _) ⟨fun ⟨hplain, hhalved, hbetween⟩ => ⟨hplain, hhalved, hbetween⟩,
    fun h => ⟨h.plain, h.halved, h.between⟩⟩

def FitFrom (prime : Int) (f : Function) : List Site → List Site → Prop
  | _, [] => True
  | past, s :: rest => f.Fits prime past s rest ∧ FitFrom prime f (past ++ [s]) rest

instance decidableFitFrom (prime : Int) (f : Function) : ∀ past rest, Decidable (f.FitFrom prime past rest)
  | _, [] => isTrue trivial
  | past, s :: rest =>
    have := decidableFitFrom prime f (past ++ [s]) rest
    inferInstanceAs (Decidable (f.Fits prime past s rest ∧ f.FitFrom prime (past ++ [s]) rest))

/-- Branches with and without `else`, nested and in sequence, but no branch without `else` before the end of
another one. -/
structure Structured (prime : Int) (f : Function) : Prop where
  distinct : (f.sites.map (·.offset)).Nodup
  fit : f.FitFrom prime [] f.sites

end Function

namespace Schedule

open Site

variable {prime : Int} {f : Function} {past rest : List Site} {s : Site} {σ : Schedule}

/-- The branches with `else` whose second half is still to come. -/
def openAt (prime : Int) (f : Function) (past rest : List Site) : Nat :=
  past.countP fun b => f.hasElse prime b && decide (Reaches rest.tail (b.goal prime))

/-- Between the first instructions and the rest of structured code the schedule knows all ends to come. -/
structure Tracks (prime : Int) (f : Function) (past rest : List Site) (σ : Schedule) : Prop where
  here : σ = past.foldl (step prime f) .start
  slot : ∀ t, σ.ifEnd = some t → Reaches rest t ∧ (before rest t).any (f.lacksElse prime) = false
  jumps : ∀ b ∈ past, f.hasElse prime b = true → Reaches rest.tail (b.goal prime) →
    (before rest (b.goal prime)).getLast?.any Site.skips = true
  opens : σ.openIfs = openAt prime f past rest
  halves : past.countP (f.hasElse prime) = past.countP Site.skips + openAt prime f past rest
  counted : f.ended prime past + (if σ.ifEnd.isSome then 1 else 0) +
      σ.elseEnds.countP (fun t => decide (Reaches rest t)) =
    past.countP (f.lacksElse prime) + past.countP Site.skips

theorem countP_concat {α : Type} (p : α → Bool) (xs : List α) (x : α) :
    (xs ++ [x]).countP p = xs.countP p + if p x then 1 else 0 := by
  simp [List.countP_append, List.countP_cons]

/-- Counting by two tests that exclude each other. -/
theorem countP_or {α : Type} {p q r : α → Bool} (xs : List α)
    (h : ∀ x ∈ xs, r x = true ↔ p x = true ∨ q x = true) (hnot : ∀ x ∈ xs, p x = true → q x = false) :
    xs.countP r = xs.countP p + xs.countP q := by
  induction xs with
  | nil => rfl
  | cons x xs ih =>
    obtain ⟨hx, hxs⟩ := List.forall_mem_cons.1 h
    obtain ⟨hx', hxs'⟩ := List.forall_mem_cons.1 hnot
    rw [List.countP_cons, List.countP_cons, List.countP_cons, ih hxs hxs']
    cases hp : p x with
    | true =>
      rw [hx.2 (Or.inl hp), hx' hp, if_pos rfl, if_neg Bool.false_ne_true]
      omega
    | false =>
      have hsame : r x = q x := by
        rw [hp] at hx
        exact Bool.eq_iff_iff.2 (by simpa using hx)
      rw [hsame, if_neg Bool.false_ne_true]
      omega

theorem ne_of_reaches (hdistinct : ((s :: rest).map (·.offset)).Nodup) {t : Int} (ht : Reaches rest t) :
    (s.offset : Int) ≠ t := by
  rintro rfl
  exact not_reaches_of_nodup hdistinct ht

theorem skips_of_hasElse (h : f.hasElse prime s = true) : s.skips = false := by
  have hopens := (Bool.and_eq_true_iff.1 h).1
  cases hskips : s.skips with
  | false => rfl
  | true => rw [opensBranch_eq_false_of_skips hskips] at hopens; cases hopens

theorem others_of_lacksElse (h : f.lacksElse prime s = true) :
    f.hasElse prime s = false ∧ s.skips = false := by
  obtain ⟨hopens, hplain⟩ := Bool.and_eq_true_iff.1 h
  constructor
  · rw [Function.hasElse, hopens, Bool.true_and, ← Bool.not_eq_true']
    exact hplain
  · cases hskips : s.skips with
    | false => rfl
    | true => rw [opensBranch_eq_false_of_skips hskips] at hopens; cases hopens

/-- What a statement of structured code adds, by the kind of its instruction. -/
theorem pass_eq (hplain : f.lacksElse prime s = true → f.plainBefore (s.goal prime) = 1)
    (hopen : s.skips = true → σ.openIfs ≠ 0) :
    σ.pass prime f s = ⟨if f.lacksElse prime s then some (s.goal prime) else σ.ifEnd,
      σ.elseEnds ++ (if s.skips then [s.goal prime] else []),
      σ.openIfs + (if f.hasElse prime s then 1 else 0) - if s.skips then 1 else 0⟩ := by
  unfold pass
  by_cases hlacks : f.lacksElse prime s = true
  · obtain ⟨helse, hskips⟩ := others_of_lacksElse hlacks
    simp [hlacks, helse, hskips, hplain hlacks]
  by_cases helse : f.hasElse prime s = true
  · simp [hlacks, helse, skips_of_hasElse helse]
  by_cases hskips : s.skips = true
  · simp [hlacks, helse, hskips, hopen hskips]
  · simp [hlacks, helse, hskips]

namespace Tracks

variable (h : Tracks prime f past (s :: rest) σ)

include h

/-- What is kept after the ends at the instruction is still to come, and leaves no room for a branch without
`else` here. -/
theorem slot_close {t : Int} (ht : (σ.close s).ifEnd = some t) : f.lacksElse prime s = false ∧
    Reaches rest t ∧ (before rest t).any (f.lacksElse prime) = false := by
  unfold close at ht
  split_ifs at ht with hend
  obtain ⟨hreaches, hnone⟩ := h.slot t ht
  have hne : (s.offset : Int) ≠ t := by
    rintro rfl
    exact hend ht
  rw [before_cons_of_ne hne, List.any_cons, Bool.or_eq_false_iff] at hnone
  exact ⟨hnone.1, (reaches_cons.1 hreaches).resolve_left hne, hnone.2⟩

variable (hdistinct : ((s :: rest).map (·.offset)).Nodup)

include hdistinct

theorem counted_close : f.ended prime (past ++ [s]) + (if (σ.close s).ifEnd.isSome then 1 else 0) +
    (σ.close s).elseEnds.countP (fun t => decide (Reaches rest t)) =
      past.countP (f.lacksElse prime) + past.countP Site.skips := by
  have hended : f.ended prime (past ++ [s]) = f.ended prime past + σ.ends s := by
    rw [Function.ended, endedFrom_concat, ← h.here, Function.ended]
  have helse : σ.elseEnds.countP (fun t => decide (Reaches (s :: rest) t)) =
      σ.elseEnds.count (s.offset : Int) + σ.elseEnds.countP (fun t => decide (Reaches rest t)) := by
    refine countP_or _ (fun t _ => ?_) fun t _ ht => ?_
    · simp only [decide_eq_true_eq, beq_iff_eq, reaches_cons]
      exact or_congr_left eq_comm
    · obtain rfl := beq_iff_eq.1 ht
      exact decide_eq_false (not_reaches_of_nodup hdistinct)
  have hslot : (if σ.ifEnd.isSome then 1 else 0) =
      (if σ.ifEnd = some (s.offset : Int) then 1 else 0) + if (σ.close s).ifEnd.isSome then 1 else 0 := by
    unfold close
    by_cases hend : σ.ifEnd = some (s.offset : Int)
    · simp [hend]
    · simp [hend]
  have hkept : (σ.close s).elseEnds = σ.elseEnds := by
    unfold close
    split_ifs <;> rfl
  have hcounted := h.counted
  rw [hended, ends, hkept]
  omega

/-- The branches whose second half starts after the instruction: one if it is a relative jump, else none. -/
theorem countP_ending (hfits : f.Fits prime past s rest) :
    past.countP (fun b => f.hasElse prime b && decide (Reaches (rest.take 1) (b.goal prime))) =
      if s.skips then 1 else 0 := by
  split_ifs with hskips
  · exact (hfits.between hskips).2
  · rw [List.countP_eq_zero]
    intro b hb hboth
    obtain ⟨helse, hnext⟩ := Bool.and_eq_true_iff.1 hboth
    cases rest with
    | nil => simp [Reaches] at hnext
    | cons e rest =>
      have hgoal : (e.offset : Int) = b.goal prime := by simpa [Reaches] using hnext
      have hreaches : Reaches (e :: rest) (b.goal prime) := ⟨e, by simp, hgoal⟩
      have hjump := h.jumps b hb helse hreaches
      rw [before_cons_of_ne (ne_of_reaches hdistinct hreaches)] at hjump
      have hnone : before (e :: rest) (b.goal prime) = [] := by simp [before, hgoal]
      rw [hnone] at hjump
      exact hskips hjump

theorem openAt_next (hfits : f.Fits prime past s rest) :
    openAt prime f (past ++ [s]) rest + (if s.skips then 1 else 0) =
      openAt prime f past (s :: rest) + if f.hasElse prime s then 1 else 0 := by
  have hsplit : openAt prime f past (s :: rest) =
      past.countP (fun b => f.hasElse prime b && decide (Reaches (rest.take 1) (b.goal prime))) +
        openAt prime f past rest := by
    refine countP_or _ (fun b _ => ?_) fun b _ hb => ?_
    · simp only [Bool.and_eq_true, decide_eq_true_eq]
      rw [← and_or_left]
      exact and_congr_right fun _ => reaches_iff
    · cases rest with
      | nil => simp [Reaches] at hb
      | cons e rest =>
        have hgoal : (e.offset : Int) = b.goal prime := by
          simpa [Reaches] using (Bool.and_eq_true_iff.1 hb).2
        rw [← hgoal, List.tail_cons]
        simp [not_reaches_of_nodup (List.nodup_cons.1 hdistinct).2]
  have hlast : (f.hasElse prime s && decide (Reaches rest.tail (s.goal prime))) = f.hasElse prime s := by
    cases helse : f.hasElse prime s with
    | false => rfl
    | true => simp [(hfits.halved helse).1]
  rw [hsplit, h.countP_ending hdistinct hfits, openAt, countP_concat, hlast, ← openAt]
  omega

theorem jumps_next (hfits : f.Fits prime past s rest) (b : Site) (hb : b ∈ past ++ [s])
    (helse : f.hasElse prime b = true) (hreaches : Reaches rest.tail (b.goal prime)) :
    (before rest (b.goal prime)).getLast?.any Site.skips = true := by
  rcases List.mem_append.1 hb with hb | hb
  · cases rest with
    | nil => simp [Reaches] at hreaches
    | cons e rest =>
      have hlater : Reaches (e :: rest) (b.goal prime) := reaches_cons.2 (Or.inr hreaches)
      have hjump := h.jumps b hb helse hlater
      have hfirst := ne_of_reaches (List.nodup_cons.1 hdistinct).2 hreaches
      rw [before_cons_of_ne (ne_of_reaches hdistinct hlater), before_cons_of_ne hfirst,
        List.getLast?_cons_cons] at hjump
      rwa [before_cons_of_ne hfirst]
  · obtain rfl := List.mem_singleton.1 hb
    exact (hfits.halved helse).2

/-- One instruction of structured code. -/
theorem step (hfits : f.Fits prime past s rest) : Tracks prime f (past ++ [s]) rest (σ.step prime f s) := by
  have hnext := h.openAt_next hdistinct hfits
  have hkept : (σ.close s).openIfs = σ.openIfs := by
    unfold close
    split_ifs <;> rfl
  have hopens : (σ.close s).openIfs = openAt prime f past (s :: rest) := hkept.trans h.opens
  have hpass : σ.step prime f s = _ := pass_eq (fun hlacks => (hfits.plain hlacks).1) fun hskips => by
    rw [if_pos hskips] at hnext
    have helse : f.hasElse prime s = false := by
      cases helse : f.hasElse prime s with
      | false => rfl
      | true => rw [skips_of_hasElse helse] at hskips; cases hskips
    rw [helse, if_neg Bool.false_ne_true] at hnext
    omega
  refine ⟨?_, fun t ht => ?_, h.jumps_next hdistinct hfits, ?_, ?_, ?_⟩
  · rw [List.foldl_append, ← h.here]
    rfl
  · rw [hpass] at ht
    dsimp only at ht
    split_ifs at ht with hlacks
    · obtain rfl := Option.some.inj ht
      exact (hfits.plain hlacks).2
    · exact (h.slot_close ht).2
  · rw [hpass]
    dsimp only
    split_ifs at hnext ⊢ <;> omega
  · have hhalves := h.halves
    rw [countP_concat, countP_concat]
    omega
  · have hcounted := h.counted_close hdistinct
    -- the place for the end of a branch without `else` is free where one is opened
    have hslot : (if (σ.step prime f s).ifEnd.isSome then 1 else 0) =
        (if (σ.close s).ifEnd.isSome then 1 else 0) + if f.lacksElse prime s then 1 else 0 := by
      rw [hpass]
      dsimp only
      cases hlacks : f.lacksElse prime s with
      | false => simp
      | true =>
        cases hend : (σ.close s).ifEnd with
        | none => simp
        | some t => rw [(h.slot_close hend).1] at hlacks; cases hlacks
    have helse : (σ.step prime f s).elseEnds.countP (fun t => decide (Reaches rest t)) =
        (σ.close s).elseEnds.countP (fun t => decide (Reaches rest t)) + if s.skips then 1 else 0 := by
      rw [hpass]
      dsimp only
      split_ifs with hskips
      · rw [countP_concat, if_pos (decide_eq_true (hfits.between hskips).1)]
      · rw [List.append_nil, Nat.add_zero]
    rw [hslot, helse, countP_concat, countP_concat]
    omega

end Tracks

/-- All of structured code. -/
theorem tracks_of_fitFrom (hdistinct : (rest.map (·.offset)).Nodup) (hfit : f.FitFrom prime past rest)
    (h : Tracks prime f past rest σ) (before after : List Site) (hsplit : rest = before ++ after) :
    Tracks prime f (past ++ before) after (before.foldl (step prime f) σ) := by
  induction before generalizing past rest σ with
  | nil =>
    rw [hsplit, List.nil_append] at h
    rwa [List.append_nil]
  | cons s before ih =>
    subst hsplit
    obtain ⟨hfits, hrest⟩ := hfit
    have htracks := ih (List.nodup_cons.1 hdistinct).2 hrest (h.step hdistinct hfits) rfl
    rwa [List.append_assoc] at htracks

end Schedule

namespace Function

open Schedule

variable {prime : Int} {f : Function}

theorem Structured.tracks (h : f.Structured prime) {past rest : List Site} (hsplit : f.sites = past ++ rest) :
    Tracks prime f past rest (past.foldl (step prime f) .start) := by
  have hstart : Tracks prime f [] f.sites .start := by
    refine ⟨rfl, fun t ht => ?_, fun b hb => ?_, rfl, rfl, rfl⟩
    · cases ht
    · cases hb
  exact tracks_of_fitFrom h.distinct h.fit hstart past rest hsplit

theorem opened_eq (prime : Int) (f : Function) (sites : List Site) :
    opened sites = sites.countP (f.lacksElse prime) + sites.countP (f.hasElse prime) := by
  refine countP_or sites (fun s _ => ?_) fun s _ hlacks => (others_of_lacksElse hlacks).1
  simp only [lacksElse, hasElse, Bool.and_eq_true, bne_iff_ne, beq_iff_eq]
  tauto

theorem Structured.ended_sites (h : f.Structured prime) : f.ended prime f.sites = opened f.sites := by
  have htracks := h.tracks (List.append_nil f.sites).symm
  have hslot : (f.sites.foldl (step prime f) .start).ifEnd = none := by
    cases hend : (f.sites.foldl (step prime f) .start).ifEnd with
    | none => rfl
    | some t =>
      obtain ⟨e, he, -⟩ := (htracks.slot t hend).1
      cases he
  have hcounted := htracks.counted
  have hhalves := htracks.halves
  have hopen : openAt prime f f.sites [] = 0 := by simp [openAt, Site.Reaches]
  have helse : (f.sites.foldl (step prime f) .start).elseEnds.countP
      (fun t => decide (Site.Reaches [] t)) = 0 := by simp [Site.Reaches]
  rw [hslot, helse] at hcounted
  rw [opened_eq prime f]
  simp only [Option.isSome_none, Bool.false_eq_true, if_false] at hcounted
  omega

/-- No instruction of structured code ends a branch that is not open. -/
theorem Structured.ended_le (h : f.Structured prime) {past rest : List Site} {s : Site}
    (hsplit : f.sites = past ++ s :: rest) : f.ended prime (past ++ [s]) ≤ opened past := by
  have htracks := h.tracks hsplit
  have hdistinct : ((s :: rest).map (·.offset)).Nodup := by
    have hall := h.distinct
    rw [hsplit, List.map_append] at hall
    exact hall.of_append_right
  have hcounted := htracks.counted_close hdistinct
  have hhalves := htracks.halves
  rw [opened_eq prime f]
  omega

theorem Structured.endsBranches {fs : List Function} (h : ∀ f ∈ fs, f.Structured prime) :
    EndsBranches prime fs := by
  have hsame : ∀ gs : List Function, (∀ f ∈ gs, f.Structured prime) → endedIn prime gs = openedIn gs := by
    intro gs hgs
    induction gs with
    | nil => rfl
    | cons g gs ih =>
      obtain ⟨hg, hgs⟩ := List.forall_mem_cons.1 hgs
      rw [endedIn, openedIn, hg.ended_sites, ih hgs]
  refine ⟨hsame fs h, ?_, ?_⟩
  · rintro front f back rfl
    refine Nat.le_of_eq (hsame _ fun g hg => h g ?_)
    rw [List.append_cons]
    exact List.mem_append_left _ hg
  · rintro front f back rfl past s rest hsites
    have hfront := hsame front fun g hg => h g (List.mem_append_left _ hg)
    have hinner := (h f (by simp)).ended_le hsites
    omega

end Function

end Cairoscope
