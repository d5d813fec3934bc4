import Cairoscope.Proofs.Sierra.BranchTargets
import Cairoscope.Sierra.Decompiler

/-! One level of a decompilation. A block ends in a jump with two targets, and then it is a condition with two
arms, or it has no conditional edge. What a level writes is said for any way to write the blocks that are
nested in it, so it carries over to a run with more room. -/

namespace Cairoscope.Sierra

def Statement.forks (s : Statement) : Bool :=
  match s.action with
  | .jump _ _ _ (some _) _ => true
  | _ => false

theorem Statement.isPlain_of_not_ends {s : Statement} (h : endsBlock s = false) :
    s.isPlain = true ∧ s.forks = false := by
  unfold endsBlock at h
  unfold isPlain forks
  cases haction : s.action with
  | assign => simp
  | _ => simp [haction] at h

theorem Statement.not_forks_of_isPlain {s : Statement} (h : s.isPlain = true) : s.forks = false := by
  unfold isPlain at h
  unfold forks
  cases haction : s.action with
  | jump => simp [haction] at h
  | _ => rfl

structure Block.Forks (b : Block) (t u : Int) : Prop where
  edges : ∃ source, b.edges = [⟨source, t, .conditionalTrue⟩, ⟨source, u, .conditionalFalse⟩]
  statements : ∃ front last, b.statements = front ++ [last] ∧ (∀ s ∈ front, s.isPlain = true) ∧
    last.forks = true

structure Block.Straight (b : Block) : Prop where
  edges : ∀ e ∈ b.edges, e.kind = .unconditional ∨ e.kind = .fallthrough
  length : b.edges.length ≤ 1
  statements : ∀ s ∈ b.statements, s.forks = false

def Block.Shaped (b : Block) : Prop := (∃ t u, b.Forks t u) ∨ b.Straight

theorem edgesAfter_of_not_forks {s : Statement} (h : s.forks = false) (starts : List Int)
    (next : Option Statement) :
    (∀ e ∈ edgesAfter starts s next, e.kind = .unconditional ∨ e.kind = .fallthrough) ∧
      (edgesAfter starts s next).length ≤ 1 := by
  unfold edgesAfter
  unfold Statement.forks at h
  cases haction : s.action with
  | give => simp
  | assign =>
    cases next with
    | none => simp
    | some n =>
      dsimp only
      split_ifs
      · simp
      · simp
  | jump libfunc parameters first second isFallthrough =>
    cases second with
    | none => simp
    | some second => simp [haction] at h

theorem Fills.shaped {starts : List Int} {before run after : List Statement} {b : Block}
    (h : Fills starts before run after b) : b.Shaped := by
  obtain ⟨last, hlast, hedges⟩ := h.edges
  obtain ⟨front, rfl⟩ := List.getLast?_eq_some_iff.1 hlast
  have hfront : ∀ s ∈ front, s.isPlain = true ∧ s.forks = false := by
    intro s hs
    obtain ⟨before', back, rfl⟩ := List.append_of_mem hs
    obtain ⟨next, rest, hback⟩ : ∃ next rest, back ++ [last] = next :: rest :=
      List.exists_cons_of_ne_nil (by simp)
    rw [List.append_assoc, List.cons_append, hback] at h
    exact Statement.isPlain_of_not_ends h.next.1
  cases hforks : last.forks with
  | false =>
    obtain ⟨hkinds, hlength⟩ := edgesAfter_of_not_forks hforks starts after.head?
    refine .inr ⟨by rwa [hedges], by rwa [hedges], ?_⟩
    rw [h.statements]
    intro s hs
    obtain hs | hs := List.mem_append.1 hs
    · exact (hfront s hs).2
    · rwa [List.mem_singleton.1 hs]
  | true =>
    have hends := hforks
    unfold Statement.forks at hends
    unfold edgesAfter at hedges
    split at hends
    · rename_i haction
      rw [haction] at hedges
      exact .inl ⟨_, _, ⟨last.offset, hedges⟩, front, last, h.statements, fun s hs => (hfront s hs).1, hforks⟩
    · cases hends

theorem Function.shaped_of_mem_blocks {f : Function} (h : blocksOf f = .ok f.blocks) :
    ∀ b ∈ f.blocks, b.Shaped := by
  intro b hb
  obtain ⟨first, -, -, rfl⟩ | ⟨before, run, after, -, hfills⟩ := fills_of_mem_blocks h hb
  · exact .inr ⟨by simp [Block.opened], by simp [Block.opened], by simp [Block.opened]⟩
  · exact hfills.shaped

namespace Progress

def indent (w : Progress) (n : Int) : Progress := { w with tabs := w.tabs + n }

/-- The block is written now, if it has not been before. -/
def mark (w : Progress) (function place : Nat) : Progress :=
  if (function, place) ∈ w.printed then w else { w with printed := w.printed ++ [(function, place)] }

def opening (w : Progress) (function place : Nat) (b : Block) : String :=
  if (function, place) ∈ w.printed then ""
  else String.join (b.statements.map (statementLine w.tabs b.edges.length))

variable {w : Progress} {function place : Nat}

theorem indent_neg (w : Progress) (n : Int) : (w.indent n).indent (-n) = w := by
  unfold indent
  rw [Int.add_neg_cancel_right]

@[simp]
theorem printed_indent (w : Progress) (n : Int) : (w.indent n).printed = w.printed := rfl

theorem mark_of_mem (h : (function, place) ∈ w.printed) : w.mark function place = w := if_pos h

theorem printed_mark_of_not_mem (h : (function, place) ∉ w.printed) :
    (w.mark function place).printed = w.printed ++ [(function, place)] := by
  rw [mark, if_neg h]

end Progress

theorem indentBy_bind {α : Type} (n : Int) (f : Unit → Writing α) (w : Progress) :
    (indentBy n >>= f) w = f () (w.indent n) := rfl

section Arms

variable (function : Nat) (blocks : List Block) (nested : Nat → Writing (Option String))

inductive WritesFirst (target : Int) (w : Progress) : String → Progress → Prop
  | missing (h : placeOf? blocks target = none) : WritesFirst target w "" w
  | nested {i : Nat} {r : Option String} {v : Progress} (h : placeOf? blocks target = some i)
      (hrun : nested i (w.indent 1) = .ok r v) : WritesFirst target w (r.getD "") (v.indent (-1))

inductive WritesSecond (target : Int) (w : Progress) : String → Progress → Prop
  | absent (h : ∀ i, placeOf? blocks target = some i → (function, i) ∈ w.printed) :
      WritesSecond target w "" (w.indent (-1))
  | nested {i : Nat} {r : Option String} {v : Progress} (h : placeOf? blocks target = some i)
      (hnew : (function, i) ∉ w.printed) (hrun : nested i (w.indent 1) = .ok r v) :
      WritesSecond target w (elseLine w.tabs ++ r.getD "") (v.indent (-1))

end Arms

section Edges

variable {function : Nat} {blocks : List Block} {nested : Nat → Writing (Option String)} {target : Int}
  {text text' : String} {e : Edge} {w w' : Progress}

theorem firstArm_eq_ok : firstArm blocks nested target w = .ok text w' ↔
    WritesFirst blocks nested target w text w' := by
  unfold firstArm
  rw [indentBy_bind]
  cases hplace : placeOf? blocks target with
  | none =>
    constructor
    · intro hrun
      obtain ⟨rfl, hback⟩ := Run.pure_eq_ok.1 hrun
      obtain rfl : w = w' := (Progress.indent_neg w 1).symm.trans hback
      exact .missing hplace
    · rintro (h | ⟨h, -⟩)
      · exact Run.pure_eq_ok.2 ⟨rfl, Progress.indent_neg w 1⟩
      · cases hplace.symm.trans h
  | some i =>
    constructor
    · intro hrun
      obtain ⟨r, v, hnested, hrun⟩ := Run.bind_eq_ok.1 hrun
      obtain ⟨rfl, rfl⟩ := Run.pure_eq_ok.1 hrun
      exact .nested hplace hnested
    · rintro (h | ⟨h, hnested⟩)
      · cases hplace.symm.trans h
      · obtain rfl := Option.some.inj (hplace.symm.trans h)
        exact Run.bind_eq_ok.2 ⟨_, _, hnested, rfl⟩

theorem secondArm_eq_ok : secondArm function blocks nested target w = .ok text w' ↔
    WritesSecond function blocks nested target w text w' := by
  unfold secondArm
  rw [Run.get_bind]
  cases hplace : (placeOf? blocks target).filter fun i => !w.printed.contains (function, i) with
  | none =>
    have habsent : ∀ i, placeOf? blocks target = some i → (function, i) ∈ w.printed := by
      simpa [Option.filter_eq_none_iff] using hplace
    constructor
    · intro hrun
      obtain ⟨rfl, rfl⟩ := Run.pure_eq_ok.1 hrun
      exact .absent habsent
    · rintro (- | ⟨h, hnew, -⟩)
      · rfl
      · exact absurd (habsent _ h) hnew
  | some i =>
    obtain ⟨hi, hnew⟩ : placeOf? blocks target = some i ∧ (function, i) ∉ w.printed := by
      simpa [Option.filter_eq_some_iff] using hplace
    constructor
    · intro hrun
      dsimp only at hrun
      rw [indentBy_bind] at hrun
      obtain ⟨r, v, hnested, hrun⟩ := Run.bind_eq_ok.1 hrun
      obtain ⟨rfl, rfl⟩ := Run.pure_eq_ok.1 hrun
      exact .nested hi hnew hnested
    · rintro (habsent | ⟨h, -, hnested⟩)
      · exact absurd (habsent i hi) hnew
      · obtain rfl := Option.some.inj (hi.symm.trans h)
        dsimp only
        rw [indentBy_bind]
        exact Run.bind_eq_ok.2 ⟨_, _, hnested, rfl⟩

/-- Edges that are no conditions bring nothing. -/
theorem edges_of_straight {b : Block} (h : b.Straight) (text : String) (w : Progress) :
    b.edges.foldlM (edgeText function blocks nested) text w = .ok text w := by
  have hall := h.edges
  generalize b.edges = edges at hall ⊢
  induction edges with
  | nil => rfl
  | cons e rest ih =>
    obtain ⟨he, hrest⟩ := List.forall_mem_cons.1 hall
    have hone : edgeText function blocks nested text e = pure text := by
      unfold edgeText
      obtain he | he := he
      · rw [he]
      · rw [he]
    rw [List.foldlM_cons, hone]
    exact ih hrest

/-- The edges of a condition bring its two arms and its end. -/
theorem edges_of_forks {b : Block} {t u : Int} (h : b.Forks t u) :
    b.edges.foldlM (edgeText function blocks nested) text w = .ok text' w' ↔
      ∃ inner v alternative, WritesFirst blocks nested t w inner v ∧
        WritesSecond function blocks nested u v alternative w' ∧
        text' = closed (text ++ inner ++ alternative) w'.tabs := by
  obtain ⟨source, hedges⟩ := h.edges
  simp only [hedges, List.foldlM_cons, List.foldlM_nil, ← firstArm_eq_ok, ← secondArm_eq_ok]
  constructor
  · intro hrun
    obtain ⟨_, _, hedge, hrun⟩ := Run.bind_eq_ok.1 hrun
    obtain ⟨inner, v, hfirst, hpure⟩ := Run.bind_eq_ok.1 hedge
    obtain ⟨rfl, rfl⟩ := Run.pure_eq_ok.1 hpure
    obtain ⟨_, _, hedge', hrun⟩ := Run.bind_eq_ok.1 hrun
    obtain ⟨alternative, _, hsecond, hpure⟩ := Run.bind_eq_ok.1 hedge'
    rw [Run.get_bind] at hpure
    obtain ⟨rfl, rfl⟩ := Run.pure_eq_ok.1 hpure
    obtain ⟨rfl, rfl⟩ := Run.pure_eq_ok.1 hrun
    exact ⟨inner, v, alternative, hfirst, hsecond, rfl⟩
  · rintro ⟨inner, v, alternative, hfirst, hsecond, rfl⟩
    refine Run.bind_eq_ok.2 ⟨text ++ inner, v, Run.bind_eq_ok.2 ⟨inner, v, hfirst, rfl⟩, ?_⟩
    refine Run.bind_eq_ok.2 ⟨_, w', Run.bind_eq_ok.2 ⟨alternative, w', hsecond, ?_⟩, rfl⟩
    rw [Run.get_bind]
    rfl

end Edges

/-- A run that fails where there is no room. -/
def tooDeep : Writing (Option String) := throw .endless

section Level

variable {full : Writing (Option String)} {function place levels : Nat} {blocks : List Block} {b : Block}
  {w w' : Progress} {text : String}

/-- There is room for the statements of a block that has to be written. -/
def HasRoom (function place levels : Nat) (b : Block) (w : Progress) : Prop :=
  (function, place) ∈ w.printed ∨ levels ≠ 0 ∨ b.statements.any Statement.isPlain = false

theorem blockText_of_room (h : HasRoom function place levels b w) :
    blockText full function place levels b w =
      .ok (some (w.opening function place b)) (w.mark function place) := by
  unfold blockText Progress.opening Progress.mark
  rw [Run.get_bind]
  by_cases hprinted : (function, place) ∈ w.printed
  · rw [if_pos (by simpa using hprinted), if_pos hprinted, if_pos hprinted]
    rfl
  · have hroom : ¬ (levels = 0 ∧ b.statements.any Statement.isPlain = true) := by
      rintro ⟨hlast, hplain⟩
      obtain h | h | h := h
      · exact hprinted h
      · exact h hlast
      · rw [hplain] at h
        cases h
    rw [if_neg (by simpa using hprinted), if_neg hprinted, if_neg hprinted, if_neg hroom]
    rfl

theorem room_of_blockText {r : Option String} (h : blockText tooDeep function place levels b w = .ok r w') :
    HasRoom function place levels b w := by
  by_contra hroom
  obtain ⟨hnew, hlast, hplain⟩ : (function, place) ∉ w.printed ∧ levels = 0 ∧
      b.statements.any Statement.isPlain = true := by
    simpa [HasRoom] using hroom
  unfold blockText at h
  rw [Run.get_bind, if_neg (by simpa using hnew), Run.modify_bind, if_pos ⟨hlast, hplain⟩] at h
  exact Run.throw_ne_ok h

variable (function blocks) in
/-- What is written for a block on a level, with so many levels left for what is nested in it. -/
inductive WritesLevel (nested : Nat → Writing (Option String)) (levels place : Nat) (w : Progress) :
    String → Progress → Prop
  | straight {b : Block} (hb : blocks[place]? = some b) (hroom : HasRoom function place levels b w)
      (hshape : b.Straight) :
      WritesLevel nested levels place w (w.opening function place b) (w.mark function place)
  | forks {b : Block} {t u : Int} {inner alternative : String} {v w' : Progress}
      (hb : blocks[place]? = some b) (hroom : HasRoom function place levels b w) (hshape : b.Forks t u)
      (hfirst : WritesFirst blocks nested t (w.mark function place) inner v)
      (hsecond : WritesSecond function blocks nested u v alternative w') :
      WritesLevel nested levels place w
        (closed (w.opening function place b ++ inner ++ alternative) w'.tabs) w'

theorem nestedText_of_level
    (h : WritesLevel function blocks (nestedText full function blocks levels) levels place w text w') :
    nestedText full function blocks (levels + 1) place w = .ok (some text) w' := by
  rw [nestedText]
  cases h with
  | straight hb hroom hshape =>
    rw [hb]
    refine Run.bind_eq_ok.2 ⟨_, _, blockText_of_room hroom, ?_⟩
    exact Run.bind_eq_ok.2 ⟨_, _, edges_of_straight hshape _ _, rfl⟩
  | forks hb hroom hshape hfirst hsecond =>
    rw [hb]
    refine Run.bind_eq_ok.2 ⟨_, _, blockText_of_room hroom, ?_⟩
    exact Run.bind_eq_ok.2 ⟨_, _, (edges_of_forks hshape).2 ⟨_, _, _, hfirst, hsecond, rfl⟩, rfl⟩

theorem level_of_nestedText (hshapes : ∀ b ∈ blocks, b.Shaped) (hplace : place < blocks.length)
    {r : Option String} (h : nestedText tooDeep function blocks (levels + 1) place w = .ok r w') :
    ∃ text, r = some text ∧
      WritesLevel function blocks (nestedText tooDeep function blocks levels) levels place w text w' := by
  have hb := List.getElem?_eq_getElem hplace
  rw [nestedText, hb] at h
  obtain ⟨opened, v, hopened, h⟩ := Run.bind_eq_ok.1 h
  have hroom := room_of_blockText hopened
  rw [blockText_of_room hroom] at hopened
  obtain ⟨rfl, rfl⟩ := EStateM.Result.ok.inj hopened
  obtain ⟨text, _, hedges, h⟩ := Run.bind_eq_ok.1 h
  obtain ⟨rfl, rfl⟩ := Run.pure_eq_ok.1 h
  refine ⟨text, rfl, ?_⟩
  obtain ⟨t, u, hshape⟩ | hshape := hshapes _ (List.getElem_mem hplace)
  · obtain ⟨inner, v, alternative, hfirst, hsecond, rfl⟩ := (edges_of_forks hshape).1 hedges
    exact .forks hb hroom hshape hfirst hsecond
  · rw [edges_of_straight hshape] at hedges
    obtain ⟨rfl, rfl⟩ := EStateM.Result.ok.inj hedges
    exact .straight hb hroom hshape

end Level

section Room

variable {full : Writing (Option String)} {function place n m : Nat} {blocks : List Block}
  {nested nested' : Nat → Writing (Option String)} {target : Int} {text : String} {w w' : Progress}

theorem lt_of_placeOf? {i : Nat} (h : placeOf? blocks target = some i) : i < blocks.length :=
  (List.findIdx?_eq_some_iff_getElem.1 h).1

/-- The first block that starts at an offset stands here. -/
def FirstAt (blocks : List Block) (target : Int) (i : Nat) : Prop :=
  ∃ b, blocks[i]? = some b ∧ (b.start : Int) = target ∧
    ∀ j < i, ∀ c, blocks[j]? = some c → (c.start : Int) ≠ target

theorem placeOf?_eq_some_iff {i : Nat} : placeOf? blocks target = some i ↔ FirstAt blocks target i := by
  unfold placeOf?
  rw [List.findIdx?_eq_some_iff_getElem]
  constructor
  · rintro ⟨hi, hstart, hfirst⟩
    refine ⟨_, List.getElem?_eq_getElem hi, by simpa using hstart, fun j hj c hc => ?_⟩
    obtain ⟨hlt, rfl⟩ := List.getElem?_eq_some_iff.1 hc
    simpa using hfirst j hj
  · rintro ⟨b, hb, hstart, hfirst⟩
    obtain ⟨hi, rfl⟩ := List.getElem?_eq_some_iff.1 hb
    refine ⟨hi, by simpa using hstart, fun j hj => ?_⟩
    simpa using hfirst j hj _ (List.getElem?_eq_getElem (hj.trans hi))

def Extends (blocks : List Block) (nested nested' : Nat → Writing (Option String)) : Prop :=
  ∀ {i : Nat} {w w' : Progress} {r : Option String}, i < blocks.length →
    nested i w = .ok r w' → nested' i w = .ok r w'

theorem WritesFirst.extend (hext : Extends blocks nested nested')
    (h : WritesFirst blocks nested target w text w') : WritesFirst blocks nested' target w text w' := by
  cases h with
  | missing h => exact .missing h
  | nested h hrun => exact .nested h (hext (lt_of_placeOf? h) hrun)

theorem WritesSecond.extend (hext : Extends blocks nested nested')
    (h : WritesSecond function blocks nested target w text w') :
    WritesSecond function blocks nested' target w text w' := by
  cases h with
  | absent h => exact .absent h
  | nested h hnew hrun => exact .nested h hnew (hext (lt_of_placeOf? h) hrun)

theorem HasRoom.mono {b : Block} (h : HasRoom function place n b w) (hle : n ≤ m) :
    HasRoom function place m b w := by
  obtain h | h | h := h
  · exact .inl h
  · exact .inr (.inl (by omega))
  · exact .inr (.inr h)

theorem WritesLevel.extend (hext : Extends blocks nested nested') (hle : n ≤ m)
    (h : WritesLevel function blocks nested n place w text w') :
    WritesLevel function blocks nested' m place w text w' := by
  cases h with
  | straight hb hroom hshape => exact .straight hb (hroom.mono hle) hshape
  | forks hb hroom hshape hfirst hsecond =>
    exact .forks hb (hroom.mono hle) hshape (hfirst.extend hext) (hsecond.extend hext)

/-- A run that has found room everywhere is the run with any more room, whatever that one does where it finds
none. -/
theorem nestedText_extends (hshapes : ∀ b ∈ blocks, b.Shaped) (hle : n ≤ m) :
    Extends blocks (nestedText tooDeep function blocks n) (nestedText full function blocks m) := by
  intro place w w' r hplace hrun
  induction n generalizing m place w w' r with
  | zero => exact absurd hrun Run.throw_ne_ok
  | succ n ih =>
    obtain ⟨m, rfl⟩ : ∃ k, m = k + 1 := ⟨m - 1, by omega⟩
    obtain ⟨text, rfl, hlevel⟩ := level_of_nestedText hshapes hplace hrun
    exact nestedText_of_level (hlevel.extend (ih (by omega)) (by omega))

end Room

end Cairoscope.Sierra
