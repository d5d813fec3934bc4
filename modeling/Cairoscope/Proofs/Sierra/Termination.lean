import Cairoscope.Proofs.Sierra.Pieces
import Mathlib.Algebra.Order.BigOperators.Group.List
import Mathlib.Algebra.Order.Group.Nat
import Mathlib.Data.List.Chain

/-! When the decompilation of a program ends, and what it has written then. The first arm of a condition is
entered whether its block has been written or not, so it is the first arms alone that can go round. A second arm
is entered for a block that has not been written yet, and then one block fewer is left. -/

namespace Cairoscope.Sierra

open Relation (TransGen)

section Height

variable {R : Nat → Nat → Prop} {k n i j : Nat}

/-- No chain from `i` has more than `k` members. -/
def HasHeight (R : Nat → Nat → Prop) (k i : Nat) : Prop :=
  ∀ path : List Nat, (i :: path).IsChain R → path.length < k

theorem HasHeight.pos (h : HasHeight R k i) : 0 < k := h [] (.singleton i)

theorem HasHeight.step (h : HasHeight R (k + 1) i) (hij : R i j) : HasHeight R k j := by
  intro path hpath
  have := h (j :: path) (.cons_cons hij hpath)
  rw [List.length_cons] at this
  omega

/-- Without a cycle among finitely many members, a chain has no member twice. -/
theorem hasHeight_of_acyclic (hacyclic : ∀ i, ¬ TransGen R i i) (hbound : ∀ i j, R i j → j < n) (hi : i < n) :
    HasHeight R n i := by
  intro path hpath
  have hpairwise : (i :: path).Pairwise (TransGen R) :=
    List.isChain_iff_pairwise.1 (hpath.imp fun _ _ => TransGen.single)
  have hnodup : (i :: path).Nodup := by
    refine hpairwise.imp ?_
    rintro a b hab rfl
    exact hacyclic a hab
  have hrange : (i :: path) ⊆ List.range n := by
    intro a ha
    rw [List.mem_range]
    rcases List.mem_cons.1 ha with rfl | ha
    · exact hi
    · obtain ⟨b, -, hba⟩ := TransGen.tail'_iff.1 (List.rel_of_pairwise_cons hpairwise ha)
      exact hbound b a hba
  have hlength := (hnodup.subperm hrange).length_le
  rw [List.length_cons, List.length_range] at hlength
  omega

theorem not_hasHeight_of_cycle (h : TransGen R i i) (k : Nat) : ¬ HasHeight R k i := by
  induction k generalizing i with
  | zero => exact fun hheight => absurd hheight.pos (lt_irrefl 0)
  | succ k ih =>
    intro hheight
    obtain ⟨j, hij, hji⟩ := TransGen.head'_iff.1 h
    exact ih (TransGen.tail' hji hij) (hheight.step hij)

end Height

/-- An edge of one of the kinds leads from the first block to the second, the first one that starts at its target. -/
def LeadsBy (kinds : List EdgeKind) (blocks : List Block) (i j : Nat) : Prop :=
  ∃ b, blocks[i]? = some b ∧ ∃ e ∈ b.edges, e.kind ∈ kinds ∧ FirstAt blocks e.target j

section Leads

variable {kinds : List EdgeKind} {blocks : List Block} {b : Block} {t u : Int} {i j : Nat}

theorem LeadsBy.lt (h : LeadsBy kinds blocks i j) : j < blocks.length := by
  obtain ⟨b, -, e, -, -, hj⟩ := h
  exact lt_of_placeOf? (placeOf?_eq_some_iff.2 hj)

theorem LeadsBy.mono {kinds' : List EdgeKind} (h : LeadsBy kinds blocks i j) (hsub : kinds ⊆ kinds') :
    LeadsBy kinds' blocks i j := by
  obtain ⟨b, hb, e, he, hkind, hj⟩ := h
  exact ⟨b, hb, e, he, hsub hkind, hj⟩

/-- Edges of the kinds lead to later blocks only. -/
def rises (kinds : List EdgeKind) (blocks : List Block) : Bool :=
  blocks.zipIdx.all fun bi => bi.1.edges.all fun e =>
    !kinds.contains e.kind || (placeOf? blocks e.target).all fun j => decide (bi.2 < j)

theorem not_cycle_of_rises (h : rises kinds blocks = true) (i : Nat) :
    ¬ TransGen (LeadsBy kinds blocks) i i := by
  have hlt : ∀ i j, LeadsBy kinds blocks i j → i < j := by
    rintro i j ⟨b, hb, e, he, hkind, hj⟩
    simp only [rises, List.all_eq_true, Bool.or_eq_true, Option.all_eq_true, decide_eq_true_eq] at h
    obtain hother | hup := h (b, i) (List.mk_mem_zipIdx_iff_getElem?.2 hb) e he
    · simp [hkind] at hother
    · exact hup j (placeOf?_eq_some_iff.2 hj)
  intro hcycle
  have hself : TransGen (· < ·) i i := TransGen.mono hlt i i hcycle
  rw [Relation.transGen_eq_self] at hself
  exact lt_irrefl i hself

/-- A block without conditional edges leads nowhere by them. -/
theorem not_leadsBy_of_straight (hkinds : kinds ⊆ [.conditionalTrue, .conditionalFalse])
    (hb : blocks[i]? = some b) (hshape : b.Straight) : ¬ LeadsBy kinds blocks i j := by
  rintro ⟨b', hb', e, he, hkind, -⟩
  obtain rfl := Option.some.inj (hb.symm.trans hb')
  have hconditional := hkinds hkind
  obtain hstraight | hstraight := hshape.edges e he
  · simp [hstraight] at hconditional
  · simp [hstraight] at hconditional

theorem leadsBy_iff (hb : blocks[i]? = some b) (hshape : b.Forks t u) :
    LeadsBy kinds blocks i j ↔ (.conditionalTrue ∈ kinds ∧ placeOf? blocks t = some j) ∨
      (.conditionalFalse ∈ kinds ∧ placeOf? blocks u = some j) := by
  obtain ⟨source, hedges⟩ := hshape.edges
  simp [LeadsBy, hb, hedges, placeOf?_eq_some_iff]

end Leads

section Ends

variable {function place levels k n u : Nat} {blocks : List Block} {w w' : Progress}

/-- A level ends if both arms do. -/
theorem exists_nestedText (hshapes : ∀ b ∈ blocks, b.Shaped) (hplace : place < blocks.length)
    (hlevels : levels ≠ 0)
    (hfirst : ∀ j, LeadsBy [.conditionalTrue] blocks place j → ∀ v : Progress,
      (w.mark function place).printed ⊆ v.printed →
      ∃ r v', nestedText tooDeep function blocks levels j v = .ok r v')
    (hsecond : ∀ j, LeadsBy [.conditionalFalse] blocks place j → ∀ v : Progress,
      (w.mark function place).printed ⊆ v.printed → (function, j) ∉ v.printed →
      ∃ r v', nestedText tooDeep function blocks levels j v = .ok r v') :
    ∃ r w', nestedText tooDeep function blocks (levels + 1) place w = .ok r w' := by
  have hb := List.getElem?_eq_getElem hplace
  have hroom : HasRoom function place levels blocks[place] w := .inr (.inl hlevels)
  obtain ⟨t, u, hshape⟩ | hshape := hshapes _ (List.getElem_mem hplace)
  · obtain ⟨inner, v, hinner⟩ : ∃ inner v, WritesFirst blocks (nestedText tooDeep function blocks levels) t
        (w.mark function place) inner v := by
      cases ht : placeOf? blocks t with
      | none => exact ⟨_, _, .missing ht⟩
      | some j =>
        obtain ⟨r, v, hrun⟩ := hfirst j ((leadsBy_iff hb hshape).2 (.inl ⟨by simp, ht⟩))
          ((w.mark function place).indent 1) (fun _ hq => hq)
        exact ⟨_, _, .nested ht hrun⟩
    obtain ⟨_, -, hadds⟩ := hinner.adds (nestedText_tellsParts hshapes levels)
    obtain ⟨alternative, w', halternative⟩ : ∃ alternative w', WritesSecond function blocks
        (nestedText tooDeep function blocks levels) u v alternative w' := by
      by_cases hold : ∀ j, placeOf? blocks u = some j → (function, j) ∈ v.printed
      · exact ⟨_, _, .absent hold⟩
      · push Not at hold
        obtain ⟨j, hj, hnew⟩ := hold
        obtain ⟨r, w', hrun⟩ := hsecond j ((leadsBy_iff hb hshape).2 (.inr ⟨by simp, hj⟩)) (v.indent 1)
          (fun _ => hadds.mem) hnew
        exact ⟨_, _, .nested hj hnew hrun⟩
    exact ⟨_, _, nestedText_of_level (.forks hb hroom hshape hinner halternative)⟩
  · exact ⟨_, _, nestedText_of_level (.straight hb hroom hshape)⟩

def unwritten (function : Nat) (blocks : List Block) (w : Progress) : Nat :=
  (List.range blocks.length).countP fun i => !w.printed.contains (function, i)

theorem countP_unwritten_le (function : Nat) (h : w.printed ⊆ w'.printed) (l : List Nat) :
    l.countP (fun i => !w'.printed.contains (function, i)) ≤
      l.countP fun i => !w.printed.contains (function, i) := by
  refine List.countP_mono_left fun i _ hi => ?_
  simp only [Bool.not_eq_true', List.contains_eq_mem, decide_eq_false_iff_not] at hi ⊢
  exact fun hw => hi (h hw)

theorem unwritten_le (h : w.printed ⊆ w'.printed) :
    unwritten function blocks w' ≤ unwritten function blocks w :=
  countP_unwritten_le function h _

theorem unwritten_lt (hplace : place < blocks.length) (hnew : (function, place) ∉ w.printed)
    (h : (w.mark function place).printed ⊆ w'.printed) :
    unwritten function blocks w' < unwritten function blocks w := by
  rw [Progress.printed_mark_of_not_mem hnew] at h
  have hold : w.printed ⊆ w'.printed := fun q hq => h (List.mem_append_left _ hq)
  have hmem : (function, place) ∈ w'.printed := h (by simp)
  obtain ⟨front, back, hrange⟩ := List.append_of_mem (List.mem_range.2 hplace)
  have hfront := countP_unwritten_le function hold front
  have hback := countP_unwritten_le function hold back
  unfold unwritten
  rw [hrange, List.countP_append, List.countP_append, List.countP_cons_of_neg (by simpa using hmem),
    List.countP_cons_of_pos (by simpa using hnew)]
  omega

theorem unwritten_le_length : unwritten function blocks w ≤ blocks.length := by
  have hle := List.countP_le_length (p := fun i => !w.printed.contains (function, i))
    (l := List.range blocks.length)
  rwa [List.length_range] at hle

/-- If first arms do not go round, so many levels are enough: those of first arms for blocks that have been
written, and for each block that has not been at most as many again. -/
theorem nestedText_ends (hshapes : ∀ b ∈ blocks, b.Shaped)
    (hheight : ∀ i < blocks.length, HasHeight (LeadsBy [.conditionalTrue] blocks) blocks.length i)
    (hplace : place < blocks.length) (hk : HasHeight (LeadsBy [.conditionalTrue] blocks) k place)
    (hu : unwritten function blocks w ≤ u)
    (hlevels : u * (blocks.length + 1) + k < levels ∨
      (function, place) ∉ w.printed ∧ u * (blocks.length + 1) < levels) :
    ∃ r w', nestedText tooDeep function blocks levels place w = .ok r w' := by
  induction levels generalizing place w k u with
  | zero => omega
  | succ levels ih =>
    have hpos := hk.pos
    by_cases hprinted : (function, place) ∈ w.printed
    · -- the block has been written: its first arm is lower, its second one new
      have hroom : u * (blocks.length + 1) + k ≤ levels := by
        obtain h | ⟨hnew, -⟩ := hlevels
        · omega
        · exact absurd hprinted hnew
      obtain ⟨k, rfl⟩ : ∃ k', k = k' + 1 := ⟨k - 1, by omega⟩
      refine exists_nestedText hshapes hplace (by omega) (fun j hj v hv => ?_) (fun j hj v hv hnew => ?_)
      · rw [Progress.mark_of_mem hprinted] at hv
        exact ih hj.lt (hk.step hj) ((unwritten_le hv).trans hu) (.inl (by omega))
      · rw [Progress.mark_of_mem hprinted] at hv
        exact ih hj.lt (hheight j hj.lt) ((unwritten_le hv).trans hu) (.inr ⟨hnew, by omega⟩)
    · -- the block is written now, so one fewer is left for both arms
      have hless : ∀ v : Progress, (w.mark function place).printed ⊆ v.printed →
          unwritten function blocks v < u := fun v hv => (unwritten_lt hplace hprinted hv).trans_le hu
      obtain ⟨u, rfl⟩ : ∃ u', u = u' + 1 := ⟨u - 1, by have := hless _ (List.Subset.refl _); omega⟩
      have hroom : u * (blocks.length + 1) + blocks.length < levels := by
        rw [Nat.add_mul] at hlevels
        omega
      have harm : ∀ j < blocks.length, ∀ v : Progress, (w.mark function place).printed ⊆ v.printed →
          ∃ r v', nestedText tooDeep function blocks levels j v = .ok r v' := fun j hj v hv =>
        ih hj (hheight j hj) (Nat.le_of_lt_succ (hless v hv)) (.inl hroom)
      refine exists_nestedText hshapes hplace (by omega) (fun j hj v hv => ?_) (fun j hj v hv _ => ?_)
      · exact harm j hj.lt v hv
      · exact harm j hj.lt v hv

/-- A run that ends has room for every chain of first arms. -/
theorem hasHeight_of_nestedText (hshapes : ∀ b ∈ blocks, b.Shaped) (hplace : place < blocks.length)
    {r : Option String} (h : nestedText tooDeep function blocks n place w = .ok r w') :
    HasHeight (LeadsBy [.conditionalTrue] blocks) n place := by
  induction n generalizing place w w' r with
  | zero => exact absurd h Run.throw_ne_ok
  | succ n ih =>
    intro path hpath
    cases path with
    | nil => exact Nat.succ_pos n
    | cons j path =>
      obtain ⟨hj, hpath⟩ := List.isChain_cons_cons.1 hpath
      obtain ⟨text, -, hlevel⟩ := level_of_nestedText hshapes hplace h
      suffices hrun : ∃ v r v', nestedText tooDeep function blocks n j v = .ok r v' by
        obtain ⟨v, r, v', hrun⟩ := hrun
        exact Nat.succ_lt_succ (ih hj.lt hrun path hpath)
      cases hlevel with
      | straight hb _ hshape => exact absurd hj (not_leadsBy_of_straight (by simp) hb hshape)
      | forks hb _ hshape hfirst _ =>
        obtain ⟨-, hj⟩ | ⟨hkind, -⟩ := (leadsBy_iff hb hshape).1 hj
        · cases hfirst with
          | missing h => cases h.symm.trans hj
          | nested h hrun =>
            obtain rfl := Option.some.inj (h.symm.trans hj)
            exact ⟨_, _, _, hrun⟩
        · simp at hkind

end Ends

section Bodies

variable {limit function : Nat} {blocks : List Block} {body : String} {w w' : Progress}

/-- First arms do not go round. -/
def Settles (blocks : List Block) : Prop := ∀ i, ¬ TransGen (LeadsBy [.conditionalTrue] blocks) i i

theorem Settles.exists_bodyText (h : Settles blocks) (hshapes : ∀ b ∈ blocks, b.Shaped)
    (hlimit : (blocks.length + 1) ^ 2 ≤ limit) (w : Progress) :
    ∃ body w', bodyText tooDeep limit function blocks w = .ok body w' := by
  have hheight : ∀ i < blocks.length, HasHeight (LeadsBy [.conditionalTrue] blocks) blocks.length i :=
    fun i hi => hasHeight_of_acyclic h (fun _ _ => LeadsBy.lt) hi
  refine Sierra.exists_bodyText (fun i hi v => ?_) w
  refine nestedText_ends hshapes hheight hi (hheight i hi) unwritten_le_length (.inl ?_)
  rw [Nat.pow_two, Nat.add_mul] at hlimit
  omega

theorem settles_of_bodyText (hshapes : ∀ b ∈ blocks, b.Shaped)
    (h : bodyText tooDeep limit function blocks w = .ok body w') : Settles blocks := by
  intro i hcycle
  obtain ⟨j, -, hj⟩ := TransGen.tail'_iff.1 hcycle
  obtain ⟨texts, hrun, -⟩ := bodyText_eq_ok.1 h
  obtain ⟨v, text, v', hone⟩ := Run.exists_of_mapM hrun (List.mem_range.2 hj.lt)
  obtain ⟨r, hnested, -⟩ := outermostText_eq_ok.1 hone
  exact not_hasHeight_of_cycle hcycle limit (hasHeight_of_nestedText hshapes hj.lt hnested)

end Bodies

namespace Program

variable {p : Program} {text : String}

/-- Nesting comes to an end, however deep that is: with some limit, even a run that fails where it finds no room
ends well. -/
def Ends (p : Program) : Prop := ∃ limit text w, p.written tooDeep limit .start = .ok text w

theorem ends_iff (h : load text .empty = .ok () p) : p.Ends ↔ ∀ f ∈ p.functions, Settles f.blocks := by
  have hshapes := shaped_of_load h
  constructor
  · rintro ⟨limit, out, w, hrun⟩ f hf
    obtain ⟨texts, hrun, -⟩ := written_eq_ok.1 hrun
    obtain ⟨i, hi⟩ := List.mem_iff_getElem?.1 hf
    have hmem : (f, i) ∈ p.functions.zipIdx := List.mk_mem_zipIdx_iff_getElem?.2 hi
    obtain ⟨v, one, v', hone⟩ := Run.exists_of_mapM hrun hmem
    obtain ⟨prototype, body, -, hbody, -⟩ := functionWritten_eq_ok.1 hone
    exact settles_of_bodyText (hshapes f hf) hbody
  · intro hsettles
    let limit := (p.functions.map fun f => (f.blocks.length + 1) ^ 2).sum
    have hlimit : ∀ f ∈ p.functions, (f.blocks.length + 1) ^ 2 ≤ limit := fun f hf =>
      List.single_le_sum (by simp) _ (List.mem_map_of_mem hf)
    exact ⟨limit, exists_written h
      (fun f hf i => (hsettles f hf).exists_bodyText (hshapes f hf) (hlimit f hf)) .start⟩

theorem functionText_eq (i : Nat) (prototype body : String) : functionText i prototype body =
    "\x1b[35m// Function " ++ toString (i + 1) ++ "\n\x1b[0m" ++ prototype ++ "\n\x1b[92m\x7b\x1b[0m\n" ++ body ++
      "\x1b[92m\x7d\x1b[0m" := by
  have hfront : "\x1b[35m// Function " = magenta ++ "// Function " := by decide
  have hname : "\n\x1b[0m" = "\n" ++ palette.reset := by decide
  have hopening : "\n\x1b[92m\x7b\x1b[0m\n" = "\n" ++ inColour palette.green "\x7b" ++ "\n" := by decide
  have hclosing : "\x1b[92m\x7d\x1b[0m" = inColour palette.green "\x7d" := by decide
  simp only [functionText, hfront, hname, hopening, hclosing, String.append_assoc]

/-- The decompilation of a program ends, with nesting as deep as it may be, exactly when in no function the
first arms of conditions go round. With any limit from some depth on the text is then the same. After the
declarations it has the functions in their order, and the body of each is made of pieces among which each block
of the function stands once, with the lines of its statements: one that opens for a condition, none for another
jump, one for any other statement. Each of these is a single line. -/
theorem decompilation_ends_iff (h : load text .empty = .ok () p) :
    (p.Ends ↔ ∀ f ∈ p.functions, ∀ i, ¬ TransGen (LeadsBy [.conditionalTrue] f.blocks) i i) ∧
      (p.Ends → ∃ texts w,
        (∃ n, ∀ limit ≥ n, p.written (pure none) limit .start =
          .ok (p.declarationsText ++ String.intercalate "\n\n" texts) w) ∧
        texts.length = p.functions.length ∧
        ∀ i f, p.functions[i]? = some f →
          (∃ prototype parts, p.prototype f = .ok prototype ∧
            texts[i]? = some ("\x1b[35m// Function " ++ toString (i + 1) ++ "\n\x1b[0m" ++ prototype ++
              "\n\x1b[92m\x7b\x1b[0m\n" ++ textOf f.blocks parts ++ "\x1b[92m\x7d\x1b[0m") ∧
            (placesIn parts).Perm (List.range f.blocks.length)) ∧
          ∀ b ∈ f.blocks, ∀ s ∈ b.statements, ∀ tabs, ∀ line ∈ s.lines tabs,
            ∃ text, line = text ++ "\n" ∧ '\n' ∉ text.toList) := by
  refine ⟨ends_iff h, ?_⟩
  rintro ⟨limit, out, w, hrun⟩
  have hshapes := shaped_of_load h
  obtain ⟨texts, hwalk, rfl⟩ := written_eq_ok.1 hrun
  refine ⟨texts, w, ⟨limit, fun m hle => written_extends hshapes hle hrun⟩, ?_⟩
  obtain ⟨hlength, hbodies⟩ := bodies_of_functionsWritten (fun f hf i v body v' hbody q hq => by
    obtain ⟨parts, -, hadds, -⟩ := parts_of_bodyText (hshapes f hf) hbody
    rw [hadds.printed] at hq
    obtain hq | hq := List.mem_append.1 hq
    · exact .inl hq
    · obtain ⟨j, -, rfl⟩ := List.mem_map.1 hq
      exact .inr rfl) (by simp [Progress.start]) hwalk
  refine ⟨hlength, fun i f hf => ?_⟩
  obtain ⟨prototype, body, v, v', hprototype, htext, hbody, hbefore⟩ := hbodies i f hf
  rw [Nat.zero_add] at htext hbody hbefore
  rw [functionText_eq] at htext
  obtain ⟨parts, rfl, -, hperm⟩ := parts_of_bodyText (hshapes f (List.mem_of_getElem? hf)) hbody
  refine ⟨⟨prototype, parts, hprototype, htext, hperm fun q hq => (hbefore q hq).ne⟩, ?_⟩
  intro b hb s hs tabs line
  exact Statement.lines_end (named_of_load h f (List.mem_of_getElem? hf) b hb s hs)

/-- A condition that leads back to itself in its first arm. -/
def firstArmRound : String :=
  "j() \x7b 1() 2() \x7d;\nj() \x7b 1() 2() \x7d;\nreturn();\nmain@0() -> ();\n"

/-- A condition that leads back to itself in its second arm. -/
def secondArmRound : String :=
  "j() \x7b 2() 1() \x7d;\nj() \x7b 2() 1() \x7d;\nreturn();\nmain@0() -> ();\n"

theorem firstArmRound_loads : ∃ p f, load firstArmRound .empty = .ok () p ∧ f ∈ p.functions ∧
    LeadsBy [.conditionalTrue] f.blocks 2 2 := by
  obtain ⟨p, hload, hcheck⟩ := exists_load firstArmRound
    (fun p => p.functions.any fun f => f.blocks[2]?.any fun b => b.edges.any fun e =>
      decide (e.kind = .conditionalTrue) && (placeOf? f.blocks e.target).any (· == 2)) (by decide +kernel)
  simp only [List.any_eq_true, Option.any_eq_true, Bool.and_eq_true, decide_eq_true_eq, beq_iff_eq] at hcheck
  obtain ⟨f, hf, b, hb, e, he, hkind, _, hplace, rfl⟩ := hcheck
  exact ⟨p, f, hload, hf, b, hb, e, he, by simp [hkind], placeOf?_eq_some_iff.1 hplace⟩

def standsAlone (f : Function) : Bool :=
  f.blocks[2]?.any fun b => decide (b.statements.map (·.action) = [.jump "j" [] 2 (some 0) false])

theorem secondArmRound_loads : ∃ p f, load secondArmRound .empty = .ok () p ∧ p.functions = [f] ∧
    LeadsBy [.conditionalFalse] f.blocks 2 2 ∧ rises [.conditionalTrue] f.blocks = true ∧ standsAlone f = true := by
  obtain ⟨p, hload, hcheck⟩ := exists_load secondArmRound
    (fun p => decide (p.functions.length = 1) && p.functions.all fun f => (f.blocks[2]?.any fun b => b.edges.any fun e =>
      decide (e.kind = .conditionalFalse) && (placeOf? f.blocks e.target).any (· == 2)) &&
      rises [.conditionalTrue] f.blocks && standsAlone f) (by decide +kernel)
  simp only [List.all_eq_true, List.any_eq_true, Option.any_eq_true, Bool.and_eq_true, decide_eq_true_eq,
    beq_iff_eq] at hcheck
  obtain ⟨hone, hcheck⟩ := hcheck
  obtain ⟨f, hf⟩ := List.length_eq_one_iff.1 hone
  obtain ⟨⟨⟨b, hb, e, he, hkind, _, hplace, rfl⟩, hrises⟩, halone⟩ := hcheck f (by simp [hf])
  exact ⟨p, f, hload, hf, ⟨b, hb, e, he, by simp [hkind], placeOf?_eq_some_iff.1 hplace⟩, hrises, halone⟩

/-- The line of the second condition, wherever its block has been written. -/
theorem text_of_standsAlone {f : Function} {parts : List Part} (h : standsAlone f = true)
    (hparts : (placesIn parts).Perm (List.range f.blocks.length)) :
    ∃ before tabs after, textOf f.blocks parts =
      before ++ (margin tabs ++ "if (j() == 0) \x1b[92m\x7b\x1b[0m\n") ++ after := by
  simp only [standsAlone, Option.any_eq_true, decide_eq_true_eq] at h
  obtain ⟨b, hb, hactions⟩ := h
  obtain ⟨s, hs, haction⟩ := List.map_eq_singleton_iff.1 hactions
  have hmem : 2 ∈ placesIn parts :=
    hparts.mem_iff.2 (List.mem_range.2 (List.getElem?_eq_some_iff.1 hb).1)
  obtain ⟨front, tabs, back, rfl⟩ := exists_of_mem_placesIn hmem
  refine ⟨textOf f.blocks front, tabs, textOf f.blocks back, ?_⟩
  have hline : s.lines tabs = [margin tabs ++ "if (j() == 0) \x1b[92m\x7b\x1b[0m\n"] := by
    simp only [Statement.lines, haction, String.append_assoc]
    rfl
  rw [textOf_append, String.append_assoc]
  simp [textOf, Part.text, hb, hs, hline]

theorem decompilation_ends_rounds : ∃ p q, load firstArmRound .empty = .ok () p ∧ ¬ p.Ends ∧
    load secondArmRound .empty = .ok () q ∧
    (∀ f ∈ q.functions, LeadsBy [.conditionalFalse] f.blocks 2 2) ∧ q.Ends ∧
    ∃ text w n, (∀ limit ≥ n, q.written (pure none) limit .start = .ok text w) ∧
      ∃ before tabs after, text = before ++ (margin tabs ++ "if (j() == 0) \x1b[92m\x7b\x1b[0m\n") ++ after := by
  obtain ⟨p, g, hp, hg, hround⟩ := firstArmRound_loads
  obtain ⟨q, f, hq, hfunctions, hsecond, hrises, halone⟩ := secondArmRound_loads
  have hends : q.Ends := by
    refine (decompilation_ends_iff hq).1.2 fun g hg => ?_
    rw [hfunctions] at hg
    rw [List.mem_singleton.1 hg]
    exact not_cycle_of_rises hrises
  obtain ⟨texts, w, ⟨n, hwritten⟩, hlength, hbodies⟩ := (decompilation_ends_iff hq).2 hends
  obtain ⟨⟨prototype, parts, -, htext, hparts⟩, -⟩ := hbodies 0 f (by rw [hfunctions]; rfl)
  obtain ⟨before, tabs, after, hline⟩ := text_of_standsAlone halone hparts
  refine ⟨p, q, hp, fun hends => ?_, hq, ?_, hends, _, w, n, hwritten, ?_⟩
  · exact (decompilation_ends_iff hp).1.1 hends g hg 2 (.single hround)
  · intro g hg
    rw [hfunctions] at hg
    rw [List.mem_singleton.1 hg]
    exact hsecond
  · rw [hfunctions] at hlength
    obtain ⟨one, rfl⟩ := List.length_eq_one_iff.1 hlength
    obtain rfl := Option.some.inj htext
    refine ⟨q.declarationsText ++ ("\x1b[35m// Function " ++ toString (0 + 1) ++ "\n\x1b[0m" ++ prototype ++
      "\n\x1b[92m\x7b\x1b[0m\n" ++ before), tabs, after ++ "\x1b[92m\x7d\x1b[0m", ?_⟩
    rw [String.intercalate_singleton, hline]
    simp only [String.append_assoc]

end Program

end Cairoscope.Sierra
