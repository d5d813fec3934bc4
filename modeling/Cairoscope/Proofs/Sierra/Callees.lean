import Cairoscope.Proofs.Sierra.Stretches
import Cairoscope.Sierra.Drawing
import Mathlib.Data.List.TakeWhile

/-! Who calls whom. The call graph has an edge for each statement of a function, to what was invoked last, so it
shows what a function invokes and, where one does not begin with an invocation, also what was invoked before it. -/

namespace Cairoscope.Sierra

namespace Reader

theorem after?_eq_some_iff {ps cs rest : List Char} : after? ps cs = some rest ↔ cs = ps ++ rest := by
  induction ps generalizing cs with
  | nil => simp [after?]
  | cons p ps ih =>
    cases cs with
    | nil => simp [after?]
    | cons c cs =>
      unfold after?
      split_ifs with h
      · simp [h, ih]
      · simp [Ne.symm h]

end Reader

/-- The text names a call of a function of the program; what follows the last angle bracket does not matter. -/
def NamesCall (text g : String) : Prop :=
  g ≠ "" ∧ ∃ colons tail : String, (colons = "" ∨ colons = "::") ∧ '>' ∉ tail.toList ∧
    text = "function_call" ++ colons ++ "<user@" ++ g ++ ">" ++ tail

theorem upToLastAngle_append {body tail : List Char} (h : '>' ∉ tail) :
    upToLastAngle (body ++ '>' :: tail) = if body = [] then none else some (String.ofList body) := by
  have hdrop : (body ++ '>' :: tail).reverse.dropWhile (· ≠ '>') = '>' :: body.reverse := by
    rw [List.reverse_append, List.reverse_cons, List.append_assoc, List.dropWhile_append_of_pos]
    · rfl
    · intro c hc
      simpa using fun hangle : c = '>' => h (hangle ▸ List.mem_reverse.1 hc)
  unfold upToLastAngle
  rw [hdrop, List.drop_one, List.tail_cons]
  split_ifs with hbody
  · simp [hbody]
  · split
    · rename_i hempty
      exact absurd (List.reverse_eq_nil_iff.1 hempty) hbody
    · rw [List.reverse_reverse]

theorem upToLastAngle_of_notMem {cs : List Char} (h : '>' ∉ cs) : upToLastAngle cs = none := by
  have hdrop : cs.reverse.dropWhile (· ≠ '>') = [] := by
    rw [List.dropWhile_eq_nil_iff]
    intro c hc
    simpa using fun hangle : c = '>' => h (hangle ▸ List.mem_reverse.1 hc)
  unfold upToLastAngle
  rw [hdrop]
  rfl

theorem upToLastAngle_eq_some_iff {cs : List Char} {g : String} :
    upToLastAngle cs = some g ↔ g ≠ "" ∧ ∃ tail, '>' ∉ tail ∧ cs = g.toList ++ '>' :: tail := by
  constructor
  · intro h
    by_cases hangle : '>' ∈ cs
    · obtain ⟨after, before, hsplit, htail⟩ := List.eq_append_cons_of_mem (List.mem_reverse.2 hangle)
      have hcs : cs = before.reverse ++ '>' :: after.reverse := by
        rw [← List.reverse_reverse cs, hsplit]
        simp
      rw [hcs, upToLastAngle_append (by simpa using htail)] at h
      split_ifs at h with hempty
      obtain rfl := Option.some.inj h
      exact ⟨by simpa using hempty, after.reverse, by simpa using htail, by simpa using hcs⟩
    · rw [upToLastAngle_of_notMem hangle] at h
      cases h
  · rintro ⟨hg, tail, htail, rfl⟩
    rw [upToLastAngle_append htail, if_neg (by simpa using hg), String.ofList_toList]

theorem calledFunction?_eq_some_iff {text g : String} : calledFunction? text = some g ↔ NamesCall text g := by
  have hforms : ∀ rest cs : List Char,
      "<user@".toList ++ cs = (Reader.after? "::".toList rest).getD rest ↔
        ∃ colons : String, (colons = "" ∨ colons = "::") ∧ rest = colons.toList ++ ("<user@".toList ++ cs) := by
    intro rest cs
    cases hcolons : Reader.after? "::".toList rest with
    | none =>
      refine ⟨fun h => ⟨"", .inl rfl, h.symm⟩, ?_⟩
      rintro ⟨_, rfl | rfl, rfl⟩
      · rfl
      · rw [Reader.after?_eq_some_iff.2 rfl] at hcolons
        cases hcolons
    | some after =>
      obtain rfl := Reader.after?_eq_some_iff.1 hcolons
      refine ⟨fun h => ⟨"::", .inr rfl, by rw [h]; rfl⟩, ?_⟩
      rintro ⟨_, rfl | rfl, h⟩
      · cases h
      · exact (List.append_cancel_left h).symm
  unfold calledFunction? NamesCall
  simp only [Option.bind_eq_bind, Option.bind_eq_some_iff, Reader.after?_eq_some_iff, upToLastAngle_eq_some_iff]
  constructor
  · rintro ⟨rest, htext, cs, hrest, hg, tail, htail, rfl⟩
    obtain ⟨colons, hcolons, rfl⟩ := (hforms rest _).1 hrest.symm
    refine ⟨hg, colons, String.ofList tail, hcolons, by simpa using htail, String.toList_inj.1 ?_⟩
    simp [htext]
  · rintro ⟨hg, colons, tail, hcolons, htail, rfl⟩
    refine ⟨colons.toList ++ ("<user@".toList ++ (g.toList ++ '>' :: tail.toList)), by simp, _,
      ((hforms _ _).2 ⟨colons, hcolons, rfl⟩).symm, hg, tail.toList, htail, rfl⟩

/-- What a library function invokes: the function of the program that its name calls, else itself. -/
def Libfunc.Invokes (l : Libfunc) (g : String) : Prop :=
  NamesCall l.name g ∨ (∀ g', ¬ NamesCall l.name g') ∧ g = l.name

/-- What is drawn for a library function: what its name calls, if its identifier calls something too. -/
def Libfunc.Draws (l : Libfunc) (g : String) : Prop :=
  (∃ g', NamesCall l.id g') ∧ NamesCall l.name g ∨ (∀ g', ¬ NamesCall l.id g') ∧ g = l.name

section Drawn

variable {l : Libfunc} {g : String}

theorem calledFunction?_eq_none_iff {text : String} : calledFunction? text = none ↔ ∀ g, ¬ NamesCall text g := by
  simp only [← calledFunction?_eq_some_iff, Option.eq_none_iff_forall_ne_some, ne_eq]

theorem NamesCall.unique {text g g' : String} (h : NamesCall text g) (h' : NamesCall text g') : g = g' :=
  Option.some.inj ((calledFunction?_eq_some_iff.2 h).symm.trans (calledFunction?_eq_some_iff.2 h'))

theorem Libfunc.Draws.unique {g' : String} (h : l.Draws g) (h' : l.Draws g') : g = g' := by
  rcases h with ⟨⟨_, hid⟩, hname⟩ | ⟨hid, rfl⟩ <;> rcases h' with ⟨⟨_, hid'⟩, hname'⟩ | ⟨hid', rfl⟩
  · exact hname.unique hname'
  · exact absurd hid (hid' _)
  · exact absurd hid' (hid _)
  · rfl

theorem Libfunc.exists_draws_iff :
    (∃ g, l.Draws g) ↔ ((∃ g, NamesCall l.id g) → ∃ g, NamesCall l.name g) := by
  constructor
  · rintro ⟨g, ⟨-, hname⟩ | ⟨hid, -⟩⟩ ⟨g', hg'⟩
    · exact ⟨g, hname⟩
    · exact absurd hg' (hid g')
  · intro h
    by_cases hid : ∃ g, NamesCall l.id g
    · obtain ⟨g, hname⟩ := h hid
      exact ⟨g, .inl ⟨hid, hname⟩⟩
    · exact ⟨l.name, .inr ⟨not_exists.1 hid, rfl⟩⟩

/-- What is drawn is what is invoked if the identifier calls whenever the name does. -/
theorem Libfunc.draws_iff_invokes (h : (∃ g, NamesCall l.name g) → ∃ g, NamesCall l.id g)
    (hdraws : ∃ g, l.Draws g) : l.Draws g ↔ l.Invokes g := by
  constructor
  · rintro (⟨-, hname⟩ | ⟨hid, rfl⟩)
    · exact .inl hname
    · refine .inr ⟨fun g hg => ?_, rfl⟩
      obtain ⟨g', hg'⟩ := h ⟨g, hg⟩
      exact hid g' hg'
  · rintro (hname | ⟨hname, rfl⟩)
    · exact .inl ⟨h ⟨g, hname⟩, hname⟩
    · rcases hdraws with ⟨g', ⟨-, hg'⟩ | ⟨hid, -⟩⟩
      · exact absurd hg' (hname g')
      · exact .inr ⟨hid, rfl⟩

def ends? : Dot.Item → Option (String × String)
  | .edge a b _ _ => some (a, b)
  | _ => none

def callEdges (items : List Dot.Item) : List (String × String) := items.filterMap ends?

theorem calleeItem_eq_ok {callee : String} {node : Dot.Item} (h : calleeItem l = .ok (callee, node)) :
    ends? node = none ∧ ∃ g, l.Draws g ∧ callee = nodeName g := by
  unfold calleeItem at h
  cases hid : calledFunction? l.id with
  | some g' =>
    rw [hid] at h
    cases hname : calledFunction? l.name with
    | some g =>
      rw [hname] at h
      obtain ⟨rfl, rfl⟩ := Prod.mk.inj (Except.ok.inj h)
      exact ⟨rfl, g, .inl ⟨⟨g', calledFunction?_eq_some_iff.1 hid⟩, calledFunction?_eq_some_iff.1 hname⟩, rfl⟩
    | none =>
      rw [hname] at h
      cases h
  | none =>
    rw [hid] at h
    obtain ⟨rfl, rfl⟩ := Prod.mk.inj (Except.ok.inj h)
    exact ⟨rfl, l.name, .inr ⟨calledFunction?_eq_none_iff.1 hid, rfl⟩, rfl⟩

theorem exists_calleeItem (h : l.Draws g) : ∃ node, calleeItem l = .ok (nodeName g, node) := by
  unfold calleeItem
  rcases h with ⟨⟨g', hid⟩, hname⟩ | ⟨hid, rfl⟩
  · rw [calledFunction?_eq_some_iff.2 hid, calledFunction?_eq_some_iff.2 hname]
    exact ⟨_, rfl⟩
  · rw [calledFunction?_eq_none_iff.2 hid]
    exact ⟨_, rfl⟩

end Drawn

def Statement.invoked? (s : Statement) : Option Libfunc :=
  match s.action with
  | .assign l _ _ => some l
  | _ => none

def invokedBy (ss : List Statement) : List Libfunc := ss.filterMap Statement.invoked?

def StartsIdle (ss : List Statement) : Prop := ∃ s, ss.head? = some s ∧ s.invoked? = none

/-- The statements count for a library function: one that they invoke, or, if they do not begin with an
invocation, the last one before them. -/
def Charges (last : Option Libfunc) (ss : List Statement) (l : Libfunc) : Prop :=
  l ∈ invokedBy ss ∨ StartsIdle ss ∧ last = some l

def lastAfter (last : Option Libfunc) (ls : List Libfunc) : Option Libfunc := ls.getLast?.or last

section Statements

variable {source : String} {last last' : Option Libfunc} {s : Statement} {ss : List Statement} {l l' : Libfunc}

theorem countedFor_eq (last : Option Libfunc) (s : Statement) : countedFor last s = s.invoked?.or last := by
  unfold countedFor Statement.invoked?
  cases s.action <;> rfl

theorem lastAfter_cons (last : Option Libfunc) (l : Libfunc) (ls : List Libfunc) :
    lastAfter last (l :: ls) = lastAfter (some l) ls := by
  unfold lastAfter
  rw [List.getLast?_cons]
  cases ls.getLast? <;> rfl

theorem lastAfter_invokedBy_cons (h : countedFor last s = some l) :
    lastAfter last (invokedBy (s :: ss)) = lastAfter (some l) (invokedBy ss) := by
  rw [countedFor_eq] at h
  unfold invokedBy
  cases hs : s.invoked? with
  | none =>
    rw [hs] at h
    rw [List.filterMap_cons_none hs, show last = some l from h]
  | some l' =>
    rw [hs] at h
    obtain rfl : l' = l := Option.some.inj h
    rw [List.filterMap_cons_some hs, lastAfter_cons]

theorem charges_cons_iff (h : countedFor last s = some l) :
    Charges last (s :: ss) l' ↔ l' = l ∨ Charges (some l) ss l' := by
  rw [countedFor_eq] at h
  unfold Charges invokedBy
  cases hs : s.invoked? with
  | none =>
    rw [hs] at h
    obtain rfl : last = some l := h
    have hidle : StartsIdle (s :: ss) := ⟨s, rfl, hs⟩
    rw [List.filterMap_cons_none hs]
    grind
  | some l₀ =>
    rw [hs] at h
    obtain rfl : l₀ = l := Option.some.inj h
    have hidle : ¬ StartsIdle (s :: ss) := by
      rintro ⟨s', hs', hnone⟩
      obtain rfl := Option.some.inj hs'
      simp [hs] at hnone
    rw [List.filterMap_cons_some hs, List.mem_cons]
    grind

theorem callItems_cons {items : List Dot.Item} :
    callItems source last (s :: ss) = .ok (items, last') ↔ ∃ l callee node rest, countedFor last s = some l ∧
      calleeItem l = .ok (callee, node) ∧ callItems source (some l) ss = .ok (rest, last') ∧
        items = node :: .edge source callee none [] :: rest := by
  rw [callItems]
  cases hcounted : countedFor last s with
  | none => simp
  | some l =>
    simp only [Outcome.bind_eq_ok, Outcome.pure_eq_ok, Prod.exists, Prod.mk.injEq]
    constructor
    · rintro ⟨callee, node, hcallee, rest, _, hrest, rfl, rfl⟩
      exact ⟨l, callee, node, rest, rfl, hcallee, hrest, rfl⟩
    · rintro ⟨_, callee, node, rest, hl, hcallee, hrest, rfl⟩
      obtain rfl := Option.some.inj hl
      exact ⟨callee, node, hcallee, rest, _, hrest, rfl, rfl⟩

theorem lastAfter_of_callItems {items : List Dot.Item} (h : callItems source last ss = .ok (items, last')) :
    last' = lastAfter last (invokedBy ss) := by
  induction ss generalizing last items with
  | nil =>
    obtain ⟨-, rfl⟩ := Prod.mk.inj (Except.ok.inj h)
    simp [lastAfter, invokedBy]
  | cons s ss ih =>
    obtain ⟨l, callee, node, rest, hcounted, -, hrest, -⟩ := callItems_cons.1 h
    rw [ih hrest, lastAfter_invokedBy_cons hcounted]

theorem mem_callItems_iff {items : List Dot.Item} (h : callItems source last ss = .ok (items, last'))
    {a b : String} : (a, b) ∈ callEdges items ↔
      a = source ∧ ∃ l g, Charges last ss l ∧ l.Draws g ∧ b = nodeName g := by
  induction ss generalizing last items with
  | nil =>
    obtain ⟨rfl, -⟩ := Prod.mk.inj (Except.ok.inj h)
    simp [Charges, StartsIdle, invokedBy, callEdges]
  | cons s ss ih =>
    obtain ⟨l, callee, node, rest, hcounted, hcallee, hrest, rfl⟩ := callItems_cons.1 h
    obtain ⟨hnode, g, hdraws, rfl⟩ := calleeItem_eq_ok hcallee
    have hedges : callEdges (node :: .edge source (nodeName g) none [] :: rest) =
        (source, nodeName g) :: callEdges rest := by
      unfold callEdges
      rw [List.filterMap_cons_none hnode]
      rfl
    rw [hedges]
    simp only [List.mem_cons, Prod.mk.injEq, ih hrest, charges_cons_iff hcounted]
    constructor
    · rintro (⟨rfl, rfl⟩ | ⟨rfl, l', g', hcharges, hdraws', rfl⟩)
      · exact ⟨rfl, l, g, .inl rfl, hdraws, rfl⟩
      · exact ⟨rfl, l', g', .inr hcharges, hdraws', rfl⟩
    · rintro ⟨rfl, l', g', rfl | hcharges, hdraws', rfl⟩
      · exact .inl ⟨rfl, by rw [hdraws'.unique hdraws]⟩
      · exact .inr ⟨rfl, l', g', hcharges, hdraws', rfl⟩

/-- There are items for the statements exactly when the first one has something to count for, and each library
function can be drawn. -/
theorem exists_callItems_iff : (∃ r, callItems source last ss = .ok r) ↔
    (StartsIdle ss → last.isSome) ∧ ∀ l, Charges last ss l → ∃ g, l.Draws g := by
  induction ss generalizing last with
  | nil => simp [callItems, Charges, StartsIdle, invokedBy]
  | cons s ss ih =>
    simp only [Prod.exists, callItems_cons]
    constructor
    · rintro ⟨items, last', l, callee, node, rest, hcounted, hcallee, hrest, -⟩
      obtain ⟨-, hall⟩ := ih.1 ⟨_, hrest⟩
      obtain ⟨-, g, hdraws, -⟩ := calleeItem_eq_ok hcallee
      refine ⟨fun ⟨s', hs', hidle⟩ => ?_, fun l' hl' => ?_⟩
      · obtain rfl := Option.some.inj hs'
        rw [countedFor_eq, hidle] at hcounted
        exact Option.isSome_iff_exists.2 ⟨l, hcounted⟩
      · rcases (charges_cons_iff hcounted).1 hl' with rfl | hl'
        · exact ⟨g, hdraws⟩
        · exact hall l' hl'
    · rintro ⟨hidle, hall⟩
      obtain ⟨l, hcounted⟩ : ∃ l, countedFor last s = some l := by
        rw [countedFor_eq]
        cases hs : s.invoked? with
        | none => exact Option.isSome_iff_exists.1 (hidle ⟨s, rfl, hs⟩)
        | some l => exact ⟨l, rfl⟩
      obtain ⟨g, hdraws⟩ := hall l ((charges_cons_iff hcounted).2 (.inl rfl))
      obtain ⟨node, hcallee⟩ := exists_calleeItem hdraws
      obtain ⟨⟨rest, last'⟩, hrest⟩ := ih.2
        ⟨fun _ => rfl, fun l' hl' => hall l' ((charges_cons_iff hcounted).2 (.inr hl'))⟩
      exact ⟨_, last', l, nodeName g, node, rest, hcounted, hcallee, hrest, rfl⟩

end Statements

def Function.invoked (f : Function) : List Libfunc := invokedBy f.statements

/-- The last library function that the functions before this one invoke. -/
def carriedTo (last : Option Libfunc) (fs : List Function) (i : Nat) : Option Libfunc :=
  lastAfter last ((fs.take i).flatMap Function.invoked)

section Functions

variable {last : Option Libfunc} {f : Function} {fs : List Function}

theorem lastAfter_append (last : Option Libfunc) (ls ls' : List Libfunc) :
    lastAfter last (ls ++ ls') = lastAfter (lastAfter last ls) ls' := by
  unfold lastAfter
  rw [List.getLast?_append, Option.or_assoc]

theorem carriedTo_succ (last : Option Libfunc) (f : Function) (fs : List Function) (i : Nat) :
    carriedTo last (f :: fs) (i + 1) = carriedTo (lastAfter last f.invoked) fs i := by
  unfold carriedTo
  rw [List.take_succ_cons, List.flatMap_cons, lastAfter_append]

theorem callerItems_cons {items : List Dot.Item} : callerItems last (f :: fs) = .ok items ↔ ∃ own rest,
    callItems (nodeName f.id) last f.statements = .ok (own, lastAfter last f.invoked) ∧
      callerItems (lastAfter last f.invoked) fs = .ok rest ∧ items = functionNode f.id :: own ++ rest := by
  rw [callerItems]
  simp only [Outcome.bind_eq_ok, Outcome.pure_eq_ok, Prod.exists]
  constructor
  · rintro ⟨own, last', hown, rest, hrest, rfl⟩
    obtain rfl := lastAfter_of_callItems hown
    exact ⟨own, rest, hown, hrest, rfl⟩
  · rintro ⟨own, rest, hown, hrest, rfl⟩
    exact ⟨own, _, hown, rest, hrest, rfl⟩

theorem mem_callerItems_iff {items : List Dot.Item} (h : callerItems last fs = .ok items) {a b : String} :
    (a, b) ∈ callEdges items ↔ ∃ i f l g, fs[i]? = some f ∧
      Charges (carriedTo last fs i) f.statements l ∧ l.Draws g ∧ a = nodeName f.id ∧ b = nodeName g := by
  induction fs generalizing last items with
  | nil =>
    obtain rfl := Except.ok.inj h
    simp [callEdges]
  | cons f fs ih =>
    obtain ⟨own, rest, hown, hrest, rfl⟩ := callerItems_cons.1 h
    have hedges : callEdges (functionNode f.id :: own ++ rest) = callEdges own ++ callEdges rest := by
      unfold callEdges
      rw [List.cons_append, List.filterMap_cons_none rfl, List.filterMap_append]
    rw [hedges]
    simp only [List.mem_append, mem_callItems_iff hown, ih hrest]
    constructor
    · rintro (⟨rfl, l, g, hcharges, hdraws, rfl⟩ | ⟨i, f', l, g, hf', hcharges, hdraws, rfl, rfl⟩)
      · exact ⟨0, f, l, g, rfl, hcharges, hdraws, rfl, rfl⟩
      · exact ⟨i + 1, f', l, g, hf', by rwa [carriedTo_succ], hdraws, rfl, rfl⟩
    · rintro ⟨_ | i, f', l, g, hf', hcharges, hdraws, rfl, rfl⟩
      · obtain rfl := Option.some.inj hf'
        exact .inl ⟨rfl, l, g, hcharges, hdraws, rfl⟩
      · rw [carriedTo_succ] at hcharges
        exact .inr ⟨i, f', l, g, hf', hcharges, hdraws, rfl, rfl⟩

theorem exists_callerItems_iff : (∃ items, callerItems last fs = .ok items) ↔ ∀ i f, fs[i]? = some f →
    (StartsIdle f.statements → (carriedTo last fs i).isSome) ∧
      ∀ l, Charges (carriedTo last fs i) f.statements l → ∃ g, l.Draws g := by
  induction fs generalizing last with
  | nil => simp [callerItems]
  | cons f fs ih =>
    simp only [callerItems_cons]
    constructor
    · rintro ⟨items, own, rest, hown, hrest, -⟩ (_ | i) f' hf'
      · obtain rfl := Option.some.inj hf'
        exact exists_callItems_iff.1 ⟨_, hown⟩
      · rw [carriedTo_succ]
        exact ih.1 ⟨_, hrest⟩ i f' hf'
    · intro hall
      obtain ⟨⟨own, last'⟩, hown⟩ := (@exists_callItems_iff (nodeName f.id) last f.statements).2 (hall 0 f rfl)
      obtain rfl := lastAfter_of_callItems hown
      obtain ⟨rest, hrest⟩ := ih.2 fun i f' hf' => by
        have hafter := hall (i + 1) f' hf'
        rwa [carriedTo_succ] at hafter
      exact ⟨_, own, rest, hown, hrest, rfl⟩

theorem mem_of_carriedTo {i : Nat} {l : Libfunc} (h : carriedTo none fs i = some l) : ∃ f ∈ fs, l ∈ f.invoked := by
  unfold carriedTo lastAfter at h
  rw [Option.or_none] at h
  obtain ⟨f, hf, hl⟩ := List.mem_flatMap.1 (List.mem_of_getLast? h)
  exact ⟨f, List.mem_of_mem_take hf, hl⟩

theorem isSome_carriedTo {i : Nat} {l : Libfunc} (hl : l ∈ f.invoked) :
    (carriedTo none (f :: fs) (i + 1)).isSome := by
  rw [carriedTo_succ]
  unfold carriedTo lastAfter
  rw [Option.isSome_or, Option.or_none]
  simp [List.ne_nil_of_mem hl]

end Functions

namespace Program

variable {text : String} {p : Program}

theorem exists_callDigraph_iff :
    (∃ graph, p.callDigraph = .ok graph) ↔ ∃ items, callerItems none p.functions = .ok items := by
  unfold callDigraph
  exact Outcome.exists_bind_pure_iff

theorem items_of_callDigraph {graph : Dot.Digraph} (h : p.callDigraph = .ok graph) :
    callerItems none p.functions = .ok graph.items ∧ graph.clusters = [] := by
  unfold callDigraph at h
  obtain ⟨items, hitems, h⟩ := Outcome.bind_eq_ok.1 h
  obtain rfl := Outcome.pure_eq_ok.1 h
  exact ⟨hitems, rfl⟩

/-- There is a graph exactly when the first function begins with an invocation and each library function can be
drawn: after the first function there is always something to count for. -/
theorem exists_callDigraph_of_load (h : load text .empty = .ok () p) : (∃ graph, p.callDigraph = .ok graph) ↔
    (∀ f, p.functions.head? = some f → ∃ s, f.statements.head? = some s ∧ s.invoked?.isSome) ∧
      ∀ f ∈ p.functions, ∀ l ∈ f.invoked, ∃ g, l.Draws g := by
  obtain ⟨src, -, hloaded⟩ := loaded_of_load h
  rw [exists_callDigraph_iff, exists_callerItems_iff]
  constructor
  · refine fun hall => ⟨fun f hf => ?_, fun f hf l hl => ?_⟩
    · obtain ⟨s, rest, hs, -⟩ := Function.blocks_eq (hloaded.functions f (List.mem_of_head? hf)).blocks
      have hfirst : p.functions[0]? = some f := by rw [← List.head?_eq_getElem?, hf]
      refine ⟨s, by rw [hs]; rfl, Option.isSome_iff_ne_none.2 fun hidle => ?_⟩
      have hcarried := (hall 0 f hfirst).1 ⟨s, by rw [hs]; rfl, hidle⟩
      cases hcarried
    · obtain ⟨i, hi⟩ := List.mem_iff_getElem?.1 hf
      exact (hall i f hi).2 l (.inl hl)
  · rintro ⟨hstart, hall⟩ i f hf
    refine ⟨fun ⟨s, hs, hidle⟩ => ?_, ?_⟩
    · cases hfunctions : p.functions with
      | nil => simp [hfunctions] at hf
      | cons first rest =>
        obtain ⟨s', hs', hinvokes⟩ := hstart first (by rw [hfunctions]; rfl)
        obtain ⟨l, hl⟩ := Option.isSome_iff_exists.1 hinvokes
        cases i with
        | zero =>
          rw [hfunctions] at hf
          obtain rfl := Option.some.inj hf
          obtain rfl := Option.some.inj (hs'.symm.trans hs)
          simp [hidle] at hinvokes
        | succ i => exact isSome_carriedTo (List.mem_filterMap.2 ⟨s', List.mem_of_head? hs', hl⟩)
    · rintro l (hl | ⟨-, hl⟩)
      · exact hall f (List.mem_of_getElem? hf) l hl
      · obtain ⟨f', hf', hl⟩ := mem_of_carriedTo hl
        exact hall f' hf' l hl

/-- The call graph of a program. It is drawn unless the first function begins without an invocation, or a library
function whose identifier calls a function has a name that calls none. Then there is an edge from a function to
what is drawn for each library function that it invokes and, where it begins without an invocation, for the last
one that was invoked before it. So the edges are those from functions to what they invoke if identifiers call
whenever names do, and nothing is carried into a function that does not invoke it. -/
theorem call_graph_edges_iff (h : load text .empty = .ok () p) :
    ((∃ graph, p.callDigraph = .ok graph) ↔
      (∀ f, p.functions.head? = some f → ∃ s, f.statements.head? = some s ∧ s.invoked?.isSome) ∧
        ∀ f ∈ p.functions, ∀ l ∈ f.invoked, (∃ g, NamesCall l.id g) → ∃ g, NamesCall l.name g) ∧
    ∀ graph, p.callDigraph = .ok graph → graph.clusters = [] ∧
      (∀ a b, (a, b) ∈ callEdges graph.items ↔ ∃ i f l g, p.functions[i]? = some f ∧
        (l ∈ f.invoked ∨ StartsIdle f.statements ∧ carriedTo none p.functions i = some l) ∧ l.Draws g ∧
          a = nodeName f.id ∧ b = nodeName g) ∧
      ((∀ f ∈ p.functions, ∀ l ∈ f.invoked, (∃ g, NamesCall l.name g) → ∃ g, NamesCall l.id g) →
        (∀ i f, p.functions[i]? = some f → StartsIdle f.statements →
          ∃ l ∈ f.invoked, carriedTo none p.functions i = some l) →
        ∀ a b, (a, b) ∈ callEdges graph.items ↔
          ∃ f ∈ p.functions, ∃ l ∈ f.invoked, ∃ g, l.Invokes g ∧ a = nodeName f.id ∧ b = nodeName g) := by
  refine ⟨by simpa only [Libfunc.exists_draws_iff] using exists_callDigraph_of_load h, fun graph hgraph => ?_⟩
  obtain ⟨hitems, hclusters⟩ := items_of_callDigraph hgraph
  have hedges := @mem_callerItems_iff none p.functions graph.items hitems
  obtain ⟨-, hdraws⟩ := (exists_callDigraph_of_load h).1 ⟨graph, hgraph⟩
  refine ⟨hclusters, fun a b => hedges, fun hcalls hcarried a b => hedges.trans ⟨?_, ?_⟩⟩
  · rintro ⟨i, f, l, g, hf, hcharges, hg, rfl, rfl⟩
    have hl : l ∈ f.invoked := by
      rcases hcharges with hl | ⟨hidle, hlast⟩
      · exact hl
      · obtain ⟨l', hl', hlast'⟩ := hcarried i f hf hidle
        rwa [Option.some.inj (hlast.symm.trans hlast')]
    have hmem := List.mem_of_getElem? hf
    exact ⟨f, hmem, l, hl, g, (Libfunc.draws_iff_invokes (hcalls f hmem l hl) ⟨g, hg⟩).1 hg, rfl, rfl⟩
  · rintro ⟨f, hf, l, hl, g, hinvokes, rfl, rfl⟩
    obtain ⟨i, hi⟩ := List.mem_iff_getElem?.1 hf
    have hg := (Libfunc.draws_iff_invokes (hcalls f hf l hl) (hdraws f hf l hl)).2 hinvokes
    exact ⟨i, f, l, g, hi, .inl hl, hg, rfl, rfl⟩

/-- The second function only returns. -/
def returnsAfterCall : String :=
  "libfunc g = g;\ng() -> ();\nreturn();\nreturn();\na@0() -> ();\nb@2() -> ();\n"

theorem returnsAfterCall_loads : ∃ p fa fb, load returnsAfterCall .empty = .ok () p ∧ p.functions = [fa, fb] ∧
    (∃ s, fa.statements.head? = some s ∧ s.invoked?.isSome) ∧ fa.invoked = [⟨"g", "g"⟩] ∧
    fb.id = "b" ∧ StartsIdle fb.statements ∧ fb.invoked = [] := by
  obtain ⟨p, hload, hcheck⟩ := exists_load returnsAfterCall
    (fun p => decide (p.functions.map (fun f => (f.id, f.statements.map Statement.invoked?)) =
      [("a", [some ⟨"g", "g"⟩, none]), ("b", [none])])) (by decide +kernel)
  obtain ⟨fa, _, hp, ha, hrest⟩ := List.map_eq_cons_iff.1 (of_decide_eq_true hcheck)
  obtain ⟨fb, rfl, hb⟩ := List.map_eq_singleton_iff.1 hrest
  obtain ⟨-, ha⟩ := Prod.mk.inj ha
  obtain ⟨hid, hb⟩ := Prod.mk.inj hb
  have hinvoked : ∀ f : Function, f.invoked = (f.statements.map Statement.invoked?).filterMap id := by
    intro f
    rw [List.filterMap_map]
    rfl
  obtain ⟨s, rest, hs, hfirst, -⟩ := List.map_eq_cons_iff.1 ha
  obtain ⟨t, ht, hidle⟩ := List.map_eq_singleton_iff.1 hb
  refine ⟨p, fa, fb, hload, hp, ⟨s, by rw [hs]; rfl, by rw [hfirst]; rfl⟩, ?_, hid, ⟨t, by rw [ht]; rfl, hidle⟩, ?_⟩
  · rw [hinvoked, ha]
    rfl
  · rw [hinvoked, hb]
    rfl

theorem call_graph_carries_callee : ∃ p graph f, load returnsAfterCall .empty = .ok () p ∧
    p.callDigraph = .ok graph ∧ p.functions[1]? = some f ∧ f.id = "b" ∧ f.invoked = [] ∧
    ("b", "g") ∈ callEdges graph.items := by
  obtain ⟨p, fa, fb, hload, hp, hstart, hinvoked, hid, hidle, hnothing⟩ := returnsAfterCall_loads
  have hplain : ∀ g, ¬ NamesCall "g" g := calledFunction?_eq_none_iff.1 (by decide +kernel)
  obtain ⟨hdrawn, hedges⟩ := call_graph_edges_iff hload
  rw [hp] at hdrawn hedges
  obtain ⟨graph, hgraph⟩ := hdrawn.2 (by
    refine ⟨fun f hf => Option.some.inj hf ▸ hstart, fun f hf l hl => ?_⟩
    simp only [List.mem_cons, List.not_mem_nil, or_false] at hf
    rcases hf with rfl | rfl
    · rw [hinvoked] at hl
      obtain rfl := List.mem_singleton.1 hl
      exact fun ⟨g, hg⟩ => absurd hg (hplain g)
    · rw [hnothing] at hl
      cases hl)
  refine ⟨p, graph, fb, hload, hgraph, by rw [hp]; rfl, hid, hnothing, ?_⟩
  refine ((hedges graph hgraph).2.1 "b" "g").2 ⟨1, fb, ⟨"g", "g"⟩, "g", rfl, .inr ⟨hidle, ?_⟩,
    .inr ⟨hplain, rfl⟩, by rw [hid]; decide +kernel, by decide +kernel⟩
  simp [carriedTo, lastAfter, hinvoked]

end Program

end Cairoscope.Sierra
