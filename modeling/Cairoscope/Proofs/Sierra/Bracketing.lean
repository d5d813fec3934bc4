import Cairoscope.Proofs.Sierra.Termination

/-! Bodies with balanced braces. A condition opens a brace when its block is written, and closes one if it has
written anything. So a condition that is met again has to write nothing: all that is nested in it has been
written by then. That holds where conditions do not go round and there is room to write each to its end. -/

namespace Cairoscope.Sierra

open Relation (ReflTransGen TransGen)
open Text (Goes Balanced)

theorem conditionLine_goes {libfunc : String} {parameters : List String} (hlibfunc : Inline libfunc)
    (hparameters : ∀ v ∈ parameters, Inline v) (tabs : Int) :
    Goes (conditionLine tabs libfunc parameters).toList 0 1 := by
  obtain ⟨front, hfront, hline⟩ := conditionLine_eq hlibfunc hparameters tabs
  have hsplit : (conditionLine tabs libfunc parameters).toList =
      front.toList ++ '\x7b' :: (palette.reset ++ "\n").toList := by
    simp [hline]
  rw [hsplit]
  exact Goes.opening hfront.free (by decide)

theorem elseLine_goes (tabs : Int) : Goes (elseLine tabs).toList 1 1 := by
  have hsplit : (elseLine tabs).toList =
      ((tabsText tabs ++ palette.green).toList ++ '\x7d' :: (palette.reset ++ " else ").toList) ++
        (palette.green.toList ++ '\x7b' :: ("\n" ++ palette.reset).toList) := by
    simp [elseLine, inColour]
  rw [hsplit]
  refine (Goes.closing ?_ (by decide)).append (Goes.opening (by decide) (by decide))
  rw [String.toList_append]
  exact Text.free_append.2 ⟨(tabsText_inline tabs).free, by decide⟩

theorem closingLine_goes (tabs : Int) : Goes (closingLine tabs).toList 1 0 := by
  have hsplit : (closingLine tabs).toList = (palette.green ++ tabsText tabs).toList ++
      '\x7d' :: ("\n" ++ palette.reset).toList := by
    simp [closingLine, inColour]
  rw [hsplit]
  refine Goes.closing ?_ (by decide)
  rw [String.toList_append]
  exact Text.free_append.2 ⟨by decide, (tabsText_inline tabs).free⟩

theorem closed_goes {text : String} (h : Goes text.toList 0 1) (tabs : Int) :
    Goes (closed text tabs).toList 0 0 := by
  have hsome : text ≠ "" := by
    rintro rfl
    exact absurd h.whole (by decide)
  rw [closed, if_neg hsome, String.toList_append]
  exact h.append (closingLine_goes tabs)

theorem lines_goes {s : Statement} (h : s.action.Named) (tabs : Int) :
    Goes (String.join (s.lines tabs)).toList 0 (if s.forks then 1 else 0) := by
  have hplain : s.isPlain = true → Goes (String.join (s.lines tabs)).toList 0 0 := by
    intro hplain
    rw [lines_of_isPlain tabs hplain]
    refine Goes.of_free ?_ 0
    simp only [String.join_cons, String.join_nil, String.append_empty, String.toList_append, Text.free_append]
    exact ⟨⟨(tabsText_inline tabs).free, (line_inline h).free⟩, by decide⟩
  unfold Statement.forks
  cases haction : s.action with
  | give => exact hplain (by simp [Statement.isPlain, haction])
  | assign => exact hplain (by simp [Statement.isPlain, haction])
  | jump libfunc parameters first second isFallthrough =>
    rw [haction] at h
    cases second with
    | none => simpa [Statement.lines, haction] using Goes.of_free Text.free_nil 0
    | some second => simpa [lines_of_condition tabs haction] using conditionLine_goes h.1 h.2 tabs

theorem straight_goes {statements : List Statement} (hnamed : ∀ s ∈ statements, s.action.Named)
    (h : ∀ s ∈ statements, s.forks = false) (tabs : Int) :
    Goes (String.join (statements.flatMap (Statement.lines tabs))).toList 0 0 := by
  induction statements with
  | nil => exact Goes.of_free Text.free_nil 0
  | cons s rest ih =>
    obtain ⟨hs, hrest⟩ := List.forall_mem_cons.1 hnamed
    obtain ⟨hfork, hforks⟩ := List.forall_mem_cons.1 h
    have hfirst := lines_goes hs tabs
    rw [hfork, if_neg Bool.false_ne_true] at hfirst
    rw [List.flatMap_cons, String.join_append, String.toList_append]
    exact hfirst.append (ih hrest hforks)

theorem Block.Straight.goes {b : Block} (h : b.Straight) (hnamed : ∀ s ∈ b.statements, s.action.Named)
    (tabs : Int) : Goes (String.join (b.statements.map (statementLine tabs b.edges.length))).toList 0 0 := by
  rw [Block.Shaped.lines (.inr h)]
  exact straight_goes hnamed h.statements tabs

theorem Block.Forks.goes {b : Block} {t u : Int} (h : b.Forks t u)
    (hnamed : ∀ s ∈ b.statements, s.action.Named) (tabs : Int) :
    Goes (String.join (b.statements.map (statementLine tabs b.edges.length))).toList 0 1 := by
  rw [Block.Shaped.lines (.inl ⟨t, u, h⟩)]
  obtain ⟨front, last, hstatements, hfront, hlast⟩ := h.statements
  rw [hstatements] at hnamed ⊢
  obtain ⟨hbefore, hend⟩ := List.forall_mem_append.1 hnamed
  have hcondition := lines_goes (hend last (by simp)) tabs
  rw [hlast, if_pos rfl] at hcondition
  rw [List.flatMap_append, String.join_append, String.toList_append, List.flatMap_singleton]
  have hstraight : ∀ s ∈ front, s.forks = false := fun s hs => Statement.not_forks_of_isPlain (hfront s hs)
  exact (straight_goes hbefore hstraight tabs).append hcondition

abbrev Nests (blocks : List Block) : Nat → Nat → Prop := LeadsBy [.conditionalTrue, .conditionalFalse] blocks

section Explore

variable {function place levels n j : Nat} {blocks : List Block} {nested : Nat → Writing (Option String)}
  {target : Int} {text : String} {w v w' : Progress}

/-- Of the blocks from `place` on, those that have been written have been with all that is nested in them. -/
def Settled (function : Nat) (blocks : List Block) (place : Nat) (w : Progress) : Prop :=
  ∀ i, ReflTransGen (Nests blocks) place i → (function, i) ∈ w.printed →
    ∀ j, Nests blocks i j → (function, j) ∈ w.printed

theorem Settled.mem (h : Settled function blocks place w) (hplace : (function, place) ∈ w.printed) {i : Nat}
    (hi : ReflTransGen (Nests blocks) place i) : (function, i) ∈ w.printed := by
  induction hi with
  | refl => exact hplace
  | tail hreach hnests ih => exact h _ hreach ih _ hnests

theorem Settled.step (h : Settled function blocks place w) (hj : Nests blocks place j) :
    Settled function blocks j w :=
  fun i hi => h i (.head hj hi)

theorem Settled.congr (h : Settled function blocks place w) (hsame : v.printed = w.printed) :
    Settled function blocks place v := by
  unfold Settled
  rw [hsame]
  exact h

/-- It is enough to look at the blocks that are new. -/
theorem Settled.grow (h : Settled function blocks place w) (hkept : w.printed ⊆ v.printed)
    (hnew : ∀ i, (function, i) ∈ v.printed → (function, i) ∉ w.printed → ReflTransGen (Nests blocks) place i →
      ∀ j, Nests blocks i j → (function, j) ∈ v.printed) : Settled function blocks place v := by
  intro i hreach hi j hj
  by_cases hold : (function, i) ∈ w.printed
  · exact hkept (h i hreach hold j hj)
  · exact hnew i hi hold hreach j hj

/-- What is written for a block: all from it on, and nothing but what balances. -/
structure Explores (function : Nat) (blocks : List Block) (place : Nat) (w : Progress) (text : String)
    (w' : Progress) : Prop where
  goes : Goes text.toList 0 0
  silent : (function, place) ∈ w.printed → text = "" ∧ w'.printed = w.printed
  reached : ∀ i, ReflTransGen (Nests blocks) place i → (function, i) ∈ w'.printed
  new : ∀ q ∈ w'.printed, q ∈ w.printed ∨ ∃ i, ReflTransGen (Nests blocks) place i ∧ q = (function, i)
  kept : w.printed ⊆ w'.printed

structure ExploresArm (function : Nat) (blocks : List Block) (target : Int) (w : Progress) (text : String)
    (w' : Progress) : Prop where
  goes : Goes text.toList 1 1
  silent : (∀ j, placeOf? blocks target = some j → (function, j) ∈ w.printed) →
    text = "" ∧ w'.printed = w.printed
  reached : ∀ j, placeOf? blocks target = some j → ∀ i, ReflTransGen (Nests blocks) j i →
    (function, i) ∈ w'.printed
  new : ∀ q ∈ w'.printed, q ∈ w.printed ∨
    ∃ j i, placeOf? blocks target = some j ∧ ReflTransGen (Nests blocks) j i ∧ q = (function, i)
  kept : w.printed ⊆ w'.printed

def ExploresAll (function : Nat) (blocks : List Block) (nested : Nat → Writing (Option String)) : Prop :=
  ∀ {i : Nat} {w w' : Progress} {r : Option String}, i < blocks.length → Settled function blocks i w →
    nested i w = .ok r w' → ∃ text, r = some text ∧ Explores function blocks i w text w'

theorem Explores.arm (h : Explores function blocks j (w.indent 1) text v)
    (hj : placeOf? blocks target = some j) :
    ExploresArm function blocks target w text (v.indent (-1)) := by
  refine ⟨h.goes.lift 1, fun hold => h.silent (hold j hj), ?_, fun q hq => ?_, h.kept⟩
  · intro j' hj'
    obtain rfl := Option.some.inj (hj.symm.trans hj')
    exact h.reached
  · exact (h.new q hq).imp id fun ⟨i, hi⟩ => ⟨j, i, hj, hi⟩

theorem WritesFirst.explores (hall : ExploresAll function blocks nested)
    (hsettled : ∀ j, placeOf? blocks target = some j → Settled function blocks j w)
    (h : WritesFirst blocks nested target w text w') : ExploresArm function blocks target w text w' := by
  cases h with
  | missing hnone =>
    refine ⟨Goes.of_free Text.free_nil 1, fun _ => ⟨rfl, rfl⟩, ?_, fun q hq => .inl hq, List.Subset.refl _⟩
    intro j hj
    cases hnone.symm.trans hj
  | nested hj hrun =>
    have hindented := (hsettled _ hj).congr (Progress.printed_indent w 1)
    obtain ⟨text, rfl, hexplores⟩ := hall (lt_of_placeOf? hj) hindented hrun
    exact hexplores.arm hj

theorem WritesSecond.explores (hall : ExploresAll function blocks nested)
    (hsettled : ∀ j, placeOf? blocks target = some j → Settled function blocks j w)
    (h : WritesSecond function blocks nested target w text w') :
    ExploresArm function blocks target w text w' := by
  cases h with
  | absent hold =>
    refine ⟨Goes.of_free Text.free_nil 1, fun _ => ⟨rfl, rfl⟩, ?_, fun q hq => .inl hq, List.Subset.refl _⟩
    exact fun j hj i hi => (hsettled j hj).mem (hold j hj) hi
  | nested hj hnew hrun =>
    have hindented := (hsettled _ hj).congr (Progress.printed_indent w 1)
    obtain ⟨text, rfl, hexplores⟩ := hall (lt_of_placeOf? hj) hindented hrun
    have harm := hexplores.arm hj
    refine ⟨?_, fun hold => absurd (hold _ hj) hnew, harm.reached, harm.new, harm.kept⟩
    rw [String.toList_append]
    exact (elseLine_goes w.tabs).append harm.goes

theorem Explores.of_printed (hsettled : Settled function blocks place w)
    (hprinted : (function, place) ∈ w.printed) (hsame : w'.printed = w.printed) :
    Explores function blocks place w "" w' := by
  refine ⟨Goes.of_free Text.free_nil 0, fun _ => ⟨rfl, hsame⟩, ?_, ?_, ?_⟩
  · rw [hsame]
    exact fun i hi => hsettled.mem hprinted hi
  · rw [hsame]
    exact fun q hq => .inl hq
  · rw [hsame]
    exact List.Subset.refl _

theorem nests_iff {b : Block} {t u : Int} (hb : blocks[place]? = some b) (hshape : b.Forks t u) :
    Nests blocks place j ↔ placeOf? blocks t = some j ∨ placeOf? blocks u = some j := by
  refine (leadsBy_iff hb hshape).trans ?_
  simp

/-- A condition that is written now: what is nested in it lies behind it, so it is not met again inside. -/
theorem explores_of_forks (hacyclic : ∀ i, ¬ TransGen (Nests blocks) i i)
    (hall : ExploresAll function blocks nested) (hsettled : Settled function blocks place w)
    (hnew : (function, place) ∉ w.printed) {b : Block} {t u : Int} {inner alternative : String}
    (hb : blocks[place]? = some b) (hshape : b.Forks t u) (hnamed : ∀ s ∈ b.statements, s.action.Named)
    (hfirst : WritesFirst blocks nested t (w.mark function place) inner v)
    (hsecond : WritesSecond function blocks nested u v alternative w') :
    Explores function blocks place w (closed (w.opening function place b ++ inner ++ alternative) w'.tabs)
      w' := by
  have hnests := fun j => nests_iff (j := j) hb hshape
  have hmark := Progress.printed_mark_of_not_mem hnew
  have hkept : w.printed ⊆ (w.mark function place).printed := by
    rw [hmark]
    exact List.subset_append_left _ _
  have hplace : (function, place) ∈ (w.mark function place).printed := by
    rw [hmark]
    simp
  -- no arm leads back here
  have hback : ∀ j, Nests blocks place j → ¬ ReflTransGen (Nests blocks) j place := fun j hj hreach =>
    hacyclic place (.head' hj hreach)
  have hmarked : ∀ j, Nests blocks place j → Settled function blocks j (w.mark function place) := by
    refine fun j hj => (hsettled.step hj).grow hkept fun i hi hold hreach => ?_
    rw [hmark] at hi
    obtain hi | hi := List.mem_append.1 hi
    · exact absurd hi hold
    · obtain rfl : i = place := by simpa using hi
      exact absurd hreach (hback j hj)
  have hinner := hfirst.explores hall fun j hj => hmarked j ((hnests j).2 (.inl hj))
  have hbetween : ∀ j, Nests blocks place j → Settled function blocks j v := by
    refine fun j hj => (hmarked j hj).grow hinner.kept fun i hi hold _ k hk => ?_
    obtain hi | ⟨j', i', hj', hreach, heq⟩ := hinner.new _ hi
    · exact absurd hi hold
    · obtain rfl : i = i' := (Prod.mk.inj heq).2
      exact hinner.reached j' hj' k (hreach.tail hk)
  have halternative := hsecond.explores hall fun j hj => hbetween j ((hnests j).2 (.inr hj))
  refine ⟨closed_goes ?_ _, fun hprinted => absurd hprinted hnew, fun i hi => ?_, fun q hq => ?_, ?_⟩
  · rw [Progress.opening, if_neg hnew, String.toList_append, String.toList_append]
    exact ((hshape.goes hnamed w.tabs).append hinner.goes).append halternative.goes
  · obtain rfl | ⟨j, hj, hreach⟩ := hi.cases_head
    · exact halternative.kept (hinner.kept hplace)
    · obtain hj | hj := (hnests j).1 hj
      · exact halternative.kept (hinner.reached j hj i hreach)
      · exact halternative.reached j hj i hreach
  · obtain hq | ⟨j, i, hj, hreach, rfl⟩ := halternative.new q hq
    · obtain hq | ⟨j, i, hj, hreach, rfl⟩ := hinner.new q hq
      · rw [hmark] at hq
        obtain hq | hq := List.mem_append.1 hq
        · exact .inl hq
        · exact .inr ⟨place, .refl, List.mem_singleton.1 hq⟩
      · exact .inr ⟨i, .head ((hnests j).2 (.inl hj)) hreach, rfl⟩
    · exact .inr ⟨i, .head ((hnests j).2 (.inr hj)) hreach, rfl⟩
  · exact fun q hq => halternative.kept (hinner.kept (hkept hq))

theorem explores_of_straight (hnew : (function, place) ∉ w.printed) {b : Block} (hb : blocks[place]? = some b)
    (hshape : b.Straight) (hnamed : ∀ s ∈ b.statements, s.action.Named) :
    Explores function blocks place w (w.opening function place b) (w.mark function place) := by
  have hmark := Progress.printed_mark_of_not_mem hnew
  refine ⟨?_, fun hprinted => absurd hprinted hnew, fun i hi => ?_, fun q hq => ?_, ?_⟩
  · rw [Progress.opening, if_neg hnew]
    exact hshape.goes hnamed w.tabs
  · obtain rfl | ⟨j, hj, -⟩ := hi.cases_head
    · rw [hmark]
      simp
    · exact absurd hj (not_leadsBy_of_straight (List.Subset.refl _) hb hshape)
  · rw [hmark] at hq
    obtain hq | hq := List.mem_append.1 hq
    · exact .inl hq
    · exact .inr ⟨place, .refl, List.mem_singleton.1 hq⟩
  · rw [hmark]
    exact List.subset_append_left _ _

theorem WritesLevel.explores (hacyclic : ∀ i, ¬ TransGen (Nests blocks) i i)
    (hnamed : ∀ b ∈ blocks, ∀ s ∈ b.statements, s.action.Named) (hall : ExploresAll function blocks nested)
    (hsettled : Settled function blocks place w)
    (h : WritesLevel function blocks nested levels place w text w') :
    Explores function blocks place w text w' := by
  by_cases hprinted : (function, place) ∈ w.printed
  · have hmark := Progress.mark_of_mem hprinted
    cases h with
    | straight =>
      rw [Progress.opening, if_pos hprinted]
      exact .of_printed hsettled hprinted (by rw [hmark])
    | forks hb _ hshape hfirst hsecond =>
      -- the arms have been written, so they are silent
      have hnests := fun j => nests_iff (j := j) hb hshape
      have hold : ∀ j, Nests blocks place j → (function, j) ∈ w.printed := hsettled place .refl hprinted
      rw [hmark] at hfirst
      have hinner := hfirst.explores hall fun j hj => hsettled.step ((hnests j).2 (.inl hj))
      obtain ⟨rfl, hv⟩ := hinner.silent fun j hj => hold j ((hnests j).2 (.inl hj))
      have halternative := hsecond.explores hall fun j hj => (hsettled.step ((hnests j).2 (.inr hj))).congr hv
      obtain ⟨rfl, hw'⟩ := halternative.silent fun j hj => by
        rw [hv]
        exact hold j ((hnests j).2 (.inr hj))
      rw [Progress.opening, if_pos hprinted]
      exact .of_printed hsettled hprinted (hw'.trans hv)
  · cases h with
    | straight hb _ hshape =>
      exact explores_of_straight hprinted hb hshape (hnamed _ (List.mem_of_getElem? hb))
    | forks hb _ hshape hfirst hsecond =>
      have hown := hnamed _ (List.mem_of_getElem? hb)
      exact explores_of_forks hacyclic hall hsettled hprinted hb hshape hown hfirst hsecond

theorem nestedText_exploresAll (hshapes : ∀ b ∈ blocks, b.Shaped)
    (hacyclic : ∀ i, ¬ TransGen (Nests blocks) i i)
    (hnamed : ∀ b ∈ blocks, ∀ s ∈ b.statements, s.action.Named) (n : Nat) :
    ExploresAll function blocks (nestedText tooDeep function blocks n) := by
  intro place w w' r hplace hsettled hrun
  induction n generalizing place w w' r with
  | zero => exact absurd hrun Run.throw_ne_ok
  | succ n ih =>
    obtain ⟨text, rfl, hlevel⟩ := level_of_nestedText hshapes hplace hrun
    exact ⟨text, rfl, hlevel.explores hacyclic hnamed ih hsettled⟩

theorem outermostTexts_goes (hshapes : ∀ b ∈ blocks, b.Shaped) (hacyclic : ∀ i, ¬ TransGen (Nests blocks) i i)
    (hnamed : ∀ b ∈ blocks, ∀ s ∈ b.statements, s.action.Named) {places : List Nat} {texts : List String}
    (hplaces : ∀ i ∈ places, i < blocks.length) (hsettled : ∀ i, Settled function blocks i w)
    (h : places.mapM (outermostText tooDeep n function blocks) w = .ok texts w') :
    Goes (String.join texts).toList 0 0 := by
  induction places generalizing w texts with
  | nil =>
    obtain ⟨rfl, rfl⟩ := Run.pure_eq_ok.1 h
    exact Goes.of_free Text.free_nil 0
  | cons place places ih =>
    obtain ⟨hplace, hplaces⟩ := List.forall_mem_cons.1 hplaces
    obtain ⟨text, v, rest, hone, hrest, rfl⟩ := Run.mapM_cons_eq_ok.1 h
    obtain ⟨r, hnested, rfl⟩ := outermostText_eq_ok.1 hone
    have hstart : Settled function blocks place { w with tabs := 1 } := (hsettled place).congr rfl
    obtain ⟨text, rfl, hexplores⟩ := nestedText_exploresAll hshapes hacyclic hnamed n hplace hstart hnested
    have hbetween : ∀ i, Settled function blocks i v := by
      refine fun i => (hsettled i).grow hexplores.kept fun k hk hold _ j hj => ?_
      obtain hk | ⟨k', hreach, heq⟩ := hexplores.new _ hk
      · exact absurd hk hold
      · obtain rfl : k = k' := (Prod.mk.inj heq).2
        exact hexplores.reached j (hreach.tail hj)
    rw [String.join_cons, String.toList_append]
    exact hexplores.goes.append (ih hplaces hbetween hrest)

theorem bodyText_balanced (hshapes : ∀ b ∈ blocks, b.Shaped) (hacyclic : ∀ i, ¬ TransGen (Nests blocks) i i)
    (hnamed : ∀ b ∈ blocks, ∀ s ∈ b.statements, s.action.Named) (hnone : ∀ q ∈ w.printed, q.1 ≠ function)
    {body : String} (h : bodyText tooDeep n function blocks w = .ok body w') : Balanced body := by
  obtain ⟨texts, hrun, rfl⟩ := bodyText_eq_ok.1 h
  refine Text.balanced_iff.2 (outermostTexts_goes hshapes hacyclic hnamed (fun i => List.mem_range.1) ?_ hrun)
  exact fun i k _ hk => absurd rfl (hnone _ hk)

end Explore

section Room

variable {full : Writing (Option String)} {function place levels limit k : Nat} {blocks : List Block}
  {body : String} {w w' : Progress}

theorem nestedText_of_height (hshapes : ∀ b ∈ blocks, b.Shaped) (hplace : place < blocks.length)
    (hk : HasHeight (Nests blocks) k place) (hlevels : k < levels) (w : Progress) :
    ∃ r w', nestedText tooDeep function blocks levels place w = .ok r w' := by
  induction levels generalizing place k w with
  | zero => omega
  | succ levels ih =>
    have hpos := hk.pos
    obtain ⟨k, rfl⟩ : ∃ k', k = k' + 1 := ⟨k - 1, by omega⟩
    refine exists_nestedText hshapes hplace (by omega) (fun j hj v _ => ?_) (fun j hj v _ _ => ?_)
    · exact ih hj.lt (hk.step (hj.mono (by simp))) (by omega) v
    · exact ih hj.lt (hk.step (hj.mono (by simp))) (by omega) v

theorem balanced_of_height (hshapes : ∀ b ∈ blocks, b.Shaped)
    (hnamed : ∀ b ∈ blocks, ∀ s ∈ b.statements, s.action.Named)
    (hheight : ∀ i < blocks.length, HasHeight (Nests blocks) k i) (hlimit : k < limit)
    (hnone : ∀ q ∈ w.printed, q.1 ≠ function) (h : bodyText full limit function blocks w = .ok body w') :
    Balanced body := by
  have hacyclic : ∀ i, ¬ TransGen (Nests blocks) i i := by
    intro i hcycle
    obtain ⟨j, -, hj⟩ := TransGen.tail'_iff.1 hcycle
    exact not_hasHeight_of_cycle hcycle k (hheight i hj.lt)
  have hroom : ∀ i < blocks.length, ∀ v, ∃ r v', nestedText tooDeep function blocks limit i v = .ok r v' :=
    fun i hi v => nestedText_of_height hshapes hi (hheight i hi) hlimit v
  obtain ⟨strict, v, hstrict⟩ := exists_bodyText hroom w
  obtain ⟨rfl, -⟩ := EStateM.Result.ok.inj (h.symm.trans (bodyText_extends hshapes le_rfl hstrict))
  exact bodyText_balanced hshapes hacyclic hnamed hnone hstrict

end Room

namespace Program

variable {p : Program} {text : String}

/-- With any limit to nesting there is a text. The body of a function in it has balanced braces if conditions
nest less deep than the limit; so it has if they do not go round and there are fewer blocks than that. -/
theorem bodies_balanced (h : load text .empty = .ok () p) (limit : Nat) :
    ∃ texts w, p.written (pure none) limit .start =
        .ok (p.declarationsText ++ String.intercalate "\n\n" texts) w ∧
      texts.length = p.functions.length ∧
      ∀ i f, p.functions[i]? = some f → ∃ prototype body, p.prototype f = .ok prototype ∧
        texts[i]? = some (functionText i prototype body) ∧
        ((∀ path : List Nat, path.IsChain (Nests f.blocks) → path.length < limit) → Balanced body) ∧
        ((∀ i, ¬ TransGen (Nests f.blocks) i i) → f.blocks.length < limit → Balanced body) := by
  have hshapes := shaped_of_load h
  have hnamed := named_of_load h
  have hkeeps : ∀ i (f : Function), Keeps i (bodyText (pure none) limit i f.blocks) :=
    fun i f => keeps_bodyText (keeps_pure none) limit f.blocks
  obtain ⟨out, w, hwritten⟩ := exists_written h (fun f _ i v => by
    obtain ⟨body, v', hbody, -⟩ := hkeeps i f v
    exact ⟨body, v', hbody⟩) .start
  obtain ⟨texts, hrun, rfl⟩ := written_eq_ok.1 hwritten
  refine ⟨texts, w, hwritten, ?_⟩
  obtain ⟨hlength, hbodies⟩ := bodies_of_functionsWritten (fun f _ i v body v' hbody => by
    obtain ⟨_, _, hrun, hown⟩ := hkeeps i f v
    obtain ⟨rfl, rfl⟩ := EStateM.Result.ok.inj (hbody.symm.trans hrun)
    exact hown) (by simp [Progress.start]) hrun
  refine ⟨hlength, fun i f hf => ?_⟩
  obtain ⟨prototype, body, v, v', hprototype, htext, hbody, hbefore⟩ := hbodies i f hf
  rw [Nat.zero_add] at htext hbody hbefore
  have hmem := List.mem_of_getElem? hf
  have hbalanced : ∀ k, k < limit → (∀ i < f.blocks.length, HasHeight (Nests f.blocks) k i) → Balanced body :=
    fun k hk hheight => balanced_of_height (hshapes f hmem) (hnamed f hmem) hheight hk
      (fun q hq => (hbefore q hq).ne) hbody
  refine ⟨prototype, body, hprototype, htext, fun hchains => ?_, fun hacyclic hblocks => ?_⟩
  · have hpos : 0 < limit := hchains [] .nil
    refine hbalanced (limit - 1) (by omega) fun i _ path hpath => ?_
    have hpath := hchains _ hpath
    rw [List.length_cons] at hpath
    omega
  · exact hbalanced _ hblocks fun i hi => hasHeight_of_acyclic hacyclic (fun _ _ => LeadsBy.lt) hi

/-- Conditions on three levels. -/
def threeDeep : String :=
  "j() \x7b 1() 9() \x7d;\nj() \x7b 2() 9() \x7d;\nj() \x7b 9() 9() \x7d;\nmain@0() -> ();\n"

theorem threeDeep_loads : ∃ p f, load threeDeep .empty = .ok () p ∧ p.functions[0]? = some f ∧
    rises [.conditionalTrue, .conditionalFalse] f.blocks = true ∧ f.blocks.length = 4 := by
  obtain ⟨p, hload, hcheck⟩ := exists_load threeDeep
    (fun p => p.functions[0]?.any fun f : Function => rises [.conditionalTrue, .conditionalFalse] f.blocks &&
      decide (f.blocks.length = 4)) (by decide +kernel)
  simp only [Option.any_eq_true, Bool.and_eq_true, decide_eq_true_eq] at hcheck
  obtain ⟨f, hf, hrises, hlength⟩ := hcheck
  exact ⟨p, f, hload, hf, hrises, hlength⟩

theorem bodies_balanced_three : ∃ p texts w prototype body, load threeDeep .empty = .ok () p ∧
    p.decompiled .start = .ok (p.declarationsText ++ String.intercalate "\n\n" texts) w ∧
    texts[0]? = some (functionText 0 prototype body) ∧ Balanced body := by
  obtain ⟨p, f, hload, hf, hrises, hlength⟩ := threeDeep_loads
  obtain ⟨texts, w, hwritten, -, hbodies⟩ := bodies_balanced hload nestingLimit
  obtain ⟨prototype, body, -, htext, -, hbalanced⟩ := hbodies 0 f hf
  exact ⟨p, texts, w, prototype, body, hload, hwritten, htext,
    hbalanced (not_cycle_of_rises hrises) (by rw [hlength]; decide)⟩

-- The limit matters: with two levels the third condition is written when the second one is met again, and that
-- one closes a brace then that it has not opened.
example : ∃ p, load threeDeep .empty = .ok () p ∧ ((p.written (pure none) 2).run' .start).any (fun text =>
    text.toList.count '\x7b' == 4 && text.toList.count '\x7d' == 5) = true :=
  exists_load threeDeep _ (by decide +kernel)

end Program

end Cairoscope.Sierra
