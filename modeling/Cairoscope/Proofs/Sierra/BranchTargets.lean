import Cairoscope.Proofs.Sierra.Stretches
import Mathlib.Data.List.Perm.Basic

/-! Edges of branches. A jump ends the block that it stands in, which never gets lost, and the block has
the edges that are recorded for the jump. That is one for each branch where there are two branches at most;
of more branches some are not recorded. -/

namespace Cairoscope.Sierra

def Branch.destination (offset : Nat) (b : Branch) : Int := b.target.index?.getD (offset + 1)

/-- The destinations that are recorded for a command at the offset: if a branch goes on with the next
statement, that and the first of the others, and else the first two. -/
def recordedDestinations (offset : Nat) (branches : List Branch) : List Int :=
  if branches.any fun b => b.target = .next then
    (branches.filterMap (·.target.index?)).take 1 ++ [(offset : Int) + 1]
  else (branches.map (·.destination offset)).take 2

section Records

variable {offset : Nat} {id : Ident} {arguments : List VarId} {branches : List Branch}

theorem map_destination_of_forall_ne (h : ∀ b ∈ branches, b.target ≠ .next) :
    branches.map (·.destination offset) = branches.filterMap (·.target.index?) := by
  induction branches with
  | nil => rfl
  | cons b rest ih =>
    obtain ⟨hb, hrest⟩ := List.forall_mem_cons.1 h
    rw [List.map_cons, ih hrest]
    unfold Branch.destination
    cases htarget : b.target with
    | next => exact absurd htarget hb
    | statement index => simp [htarget, Target.index?]

/-- The destinations in another order: first those that are written out. -/
theorem map_destination_perm (offset : Nat) (branches : List Branch) :
    (branches.map (·.destination offset)).Perm (branches.filterMap (·.target.index?) ++
      List.replicate (branches.countP fun b => b.target = .next) ((offset : Int) + 1)) := by
  induction branches with
  | nil => exact .nil
  | cons b rest ih =>
    rw [List.map_cons, List.filterMap_cons, List.countP_cons, Branch.destination]
    cases htarget : b.target with
    | next =>
      simp only [Target.index?, Option.getD_none, decide_true, if_true, List.replicate_succ]
      exact (ih.cons _).trans List.perm_middle.symm
    | statement index => simpa [Target.index?] using ih

theorem recordedDestinations_of_next (h : ∃ b ∈ branches, b.target = .next) :
    recordedDestinations offset branches =
      (branches.filterMap (·.target.index?)).take 1 ++ [(offset : Int) + 1] :=
  if_pos (by simpa using h)

theorem recordedDestinations_of_forall_ne (h : ∀ b ∈ branches, b.target ≠ .next) :
    recordedDestinations offset branches = (branches.map (·.destination offset)).take 2 :=
  if_neg (by simpa using h)

theorem targets_of_records {s : Statement}
    (h : Records s.offset (.jump id arguments branches) s.action) (starts : List Int)
    (next : Option Statement) :
    (edgesAfter starts s next).map (·.target) = recordedDestinations s.offset branches ∧
      ∀ e ∈ edgesAfter starts s next, e.source = s.offset := by
  unfold edgesAfter
  generalize haction : s.action = a at h ⊢
  cases h with
  | fallthrough hnext htargets hvars =>
    rw [recordedDestinations_of_next hnext, htargets]
    exact ⟨rfl, by simp⟩
  | single hnext htargets =>
    rw [recordedDestinations_of_forall_ne hnext, map_destination_of_forall_ne hnext, htargets]
    exact ⟨rfl, by simp⟩
  | several hnext htargets hvars =>
    rw [recordedDestinations_of_forall_ne hnext, map_destination_of_forall_ne hnext, htargets]
    exact ⟨by simp, by simp⟩

theorem target?_of_records {s : Statement}
    (h : Records s.offset (.jump id arguments branches) s.action) : ∃ first, s.target? = some first := by
  unfold Statement.target?
  generalize s.action = a at h ⊢
  cases h with
  | fallthrough => exact ⟨_, rfl⟩
  | single => exact ⟨_, rfl⟩
  | several => exact ⟨_, rfl⟩

theorem recorded_perm_iff {a : Action} (h : Records offset (.jump id arguments branches) a) :
    (recordedDestinations offset branches).Perm (branches.map (·.destination offset)) ↔
      branches.length ≤ 2 := by
  by_cases hnext : ∃ b ∈ branches, b.target = .next
  · obtain ⟨first, rest, htargets⟩ :
        ∃ first rest, branches.filterMap (·.target.index?) = first :: rest := by
      cases h with
      | fallthrough _ htargets _ => exact ⟨_, _, htargets⟩
      | single _ htargets => exact ⟨_, _, htargets⟩
      | several _ htargets _ => exact ⟨_, _, htargets⟩
    have hall := map_destination_perm offset branches
    have hlength := hall.length_eq
    rw [htargets] at hall hlength
    simp only [List.length_map, List.length_append, List.length_cons, List.length_replicate] at hlength
    rw [recordedDestinations_of_next hnext, htargets]
    constructor
    · intro hperm
      have htwo := hperm.length_eq
      simp only [List.take_succ_cons, List.take_zero, List.length_append, List.length_singleton,
        List.length_map] at htwo
      omega
    · intro htwo
      have hcount : 0 < branches.countP fun b => b.target = .next := by
        simpa [List.countP_pos_iff] using hnext
      have hone : (branches.countP fun b => b.target = .next) = 1 := by omega
      obtain rfl : rest = [] := List.length_eq_zero_iff.1 (by omega)
      rw [hone] at hall
      exact hall.symm
  · have hnext : ∀ b ∈ branches, b.target ≠ .next := by simpa using hnext
    rw [recordedDestinations_of_forall_ne hnext]
    constructor
    · intro hperm
      have htwo := hperm.length_eq
      rw [List.length_take, List.length_map] at htwo
      omega
    · intro htwo
      rw [List.take_of_length_le (by simpa using htwo)]

end Records

namespace Function

variable {f : Function} {s : Statement} {b : Block}

/-- A block holds a stretch of the statements, if it is not the empty one before the first statement. -/
theorem fills_of_mem_blocks (h : blocksOf f = .ok f.blocks) (hb : b ∈ f.blocks) :
    (∃ first ∈ f.statements.head?, f.HasStart first.offset ∧ b = Block.opened first) ∨
      ∃ before run after, f.statements = before ++ run ++ after ∧
        Fills (blockStarts f) before run after b := by
  obtain ⟨first, rest, hstatements, hblocks⟩ := blocks_eq h
  rw [hblocks] at hb
  rw [hstatements]
  have hstretches (hb : b ∈ blocksFrom (blockStarts f)
      ((Block.opened first).extend (blockStarts f) first rest.head?) (endsBlock first) rest) :
      ∃ before run after, first :: rest = before ++ run ++ after ∧
        Fills (blockStarts f) before run after b :=
    fills_of_mem_blocksFrom (fills_opened (.inl rfl)) rfl hb
  by_cases hstart : (first.offset : Int) ∈ blockStarts f
  · rw [blocksFrom_of_start hstart] at hb
    obtain rfl | hb := List.mem_cons.1 hb
    · exact .inl ⟨first, rfl, mem_blockStarts.1 hstart, rfl⟩
    · exact .inr (hstretches hb)
  · rw [blocksFrom_of_full hstart] at hb
    exact .inr (hstretches hb)

theorem fills_of_mem_statements (h : blocksOf f = .ok f.blocks) (hb : b ∈ f.blocks)
    (hs : s ∈ b.statements) : ∃ before after, f.statements = before ++ b.statements ++ after ∧
      Fills (blockStarts f) before b.statements after b := by
  obtain ⟨first, -, -, rfl⟩ | ⟨before, run, after, hsplit, hfills⟩ := fills_of_mem_blocks h hb
  · cases hs
  · obtain rfl := hfills.statements
    exact ⟨before, after, hsplit, hfills⟩

/-- A jump does not get lost, and ends its block. -/
theorem block_of_jump (h : blocksOf f = .ok f.blocks) (hnumbered : Numbered f.statements)
    (hs : s ∈ f.statements) {first : Int} (hjump : s.target? = some first) :
    ∃ b ∈ f.blocks, b.statements.getLast? = some s ∧
      (∃ next, b.edges = edgesAfter (blockStarts f) s next) ∧
      ∀ b' ∈ f.blocks, s ∈ b'.statements → b' = b := by
  have hkept : s ∈ f.blocks.flatMap (·.statements) := by
    rw [mem_blocks_iff h hnumbered hs]
    rintro ⟨r, -, -, hle, -, hnone⟩
    exact hnone (s.offset + 1) (by omega) (by omega) (.inr ⟨s, hs, first, hjump, .inl (by simp)⟩)
  obtain ⟨b, hb, hsb⟩ := List.mem_flatMap.1 hkept
  obtain ⟨before, after, -, hfills⟩ := fills_of_mem_statements h hb hsb
  have hends : endsBlock s = true := Statement.endsBlock_iff.2 (.inr ⟨first, hjump⟩)
  have hlast : b.statements.getLast? = some s := by
    obtain ⟨front, back, hrun⟩ := List.append_of_mem hsb
    cases back with
    | nil => simp [hrun]
    | cons y back =>
      rw [hrun] at hfills
      exact absurd hends (by simp [hfills.next.1])
  refine ⟨b, hb, hlast, ?_, fun b' hb' hsb' => ?_⟩
  · obtain ⟨x, hx, hedges⟩ := hfills.edges
    obtain rfl : s = x := Option.some.inj (hlast.symm.trans hx)
    exact ⟨_, hedges⟩
  · have hnodup : (f.blocks.flatMap (·.statements)).Nodup := by
      rw [flatMap_blocks h]
      exact hnumbered.nodup.sublist (kept_sublist _)
    have : Std.Symm (Function.onFun List.Disjoint Block.statements) := ⟨fun _ _ hapart => hapart.symm⟩
    by_contra hne
    exact (List.nodup_flatMap.1 hnodup).2.forall hb' hb hne hsb' hsb

/-- A block would begin with the statement, if nothing got lost. -/
def Opens (f : Function) (s : Statement) : Prop :=
  f.statements.head? = some s ∨ f.HasStart s.offset ∨
    ∃ r ∈ f.statements, r.isReturn = true ∧ s.offset = r.offset + 1

theorem start_of_opens (h : blocksOf f = .ok f.blocks) (hnumbered : Numbered f.statements)
    (hb : b ∈ f.blocks) (hs : s ∈ b.statements) (hopens : f.Opens s) : b.start = s.offset := by
  obtain ⟨before, after, hsplit, hfills⟩ := fills_of_mem_statements h hb hs
  obtain ⟨front, back, hrun⟩ := List.append_of_mem hs
  obtain rfl | ⟨front, x, rfl⟩ := List.eq_nil_or_concat' front
  · have hstart := hfills.start
    rw [hrun] at hstart
    exact (Option.some.inj hstart).symm
  -- inside a block nothing opens, whatever stands before the statement
  · exfalso
    rw [List.append_assoc, List.singleton_append] at hrun
    rw [hrun] at hfills
    obtain ⟨hgoes, hnone⟩ := hfills.next
    have hwhole : f.statements = (before ++ front) ++ x :: s :: (back ++ after) := by simp [hsplit, hrun]
    have hx : x ∈ f.statements := by simp [hwhole]
    have hnext : s.offset = x.offset + 1 := by
      rw [hwhole] at hnumbered
      exact hnumbered.next
    obtain hfirst | hstart | ⟨r, hr, hreturn, hrs⟩ := hopens
    · cases hstatements : f.statements with
      | nil =>
        rw [hstatements] at hfirst
        cases hfirst
      | cons y rest =>
        rw [hstatements] at hfirst hnumbered hx
        obtain rfl := Option.some.inj hfirst
        have hle := hnumbered.le_of_mem hx
        omega
    · exact hnone (mem_blockStarts.2 hstart)
    · obtain rfl : r = x := hnumbered.eq_of_offset hr hx (by omega)
      have hends := Statement.endsBlock_iff.2 (.inl hreturn)
      exact absurd hends (by simp [hgoes])

theorem opens_of_fills (hnumbered : Numbered f.statements) {before run after : List Statement}
    (hsplit : f.statements = before ++ run ++ after) (hfills : Fills (blockStarts f) before run after b)
    (hs : run.head? = some s) : f.Opens s := by
  obtain ⟨back, rfl⟩ : ∃ back, run = s :: back := by
    cases run with
    | nil => cases hs
    | cons x back => exact ⟨back, by rw [Option.some.inj hs]⟩
  obtain rfl | ⟨x, hx, hstart⟩ | ⟨r, hr, hends⟩ := hfills.opens
  · exact .inl (by simp [hsplit])
  · obtain rfl := Option.some.inj (hs.symm.trans hx)
    exact .inr (.inl (mem_blockStarts.1 hstart))
  · obtain ⟨front, rfl⟩ := List.getLast?_eq_some_iff.1 hr
    have hmem : r ∈ f.statements := by simp [hsplit]
    have hnext : s.offset = r.offset + 1 := by
      rw [hsplit, List.append_assoc, List.append_assoc] at hnumbered
      exact hnumbered.next
    obtain hreturn | ⟨first, hjump⟩ := Statement.endsBlock_iff.1 hends
    · exact .inr (.inr ⟨r, hmem, hreturn, hnext⟩)
    · exact .inr (.inl (.inr ⟨r, hmem, first, hjump, .inl (by omega)⟩))

/-- A block begins at the statement: it opens one that does not get lost, or it is the first one, before
which an empty block stands if it is known as a start. -/
def Begins (f : Function) (s : Statement) : Prop :=
  f.Opens s ∧ ¬ f.Loses s.offset ∨ f.statements.head? = some s ∧ f.HasStart s.offset

theorem exists_start_iff (h : blocksOf f = .ok f.blocks) (hnumbered : Numbered f.statements) {t : Int} :
    (∃ b ∈ f.blocks, (b.start : Int) = t) ↔ ∃ s ∈ f.statements, (s.offset : Int) = t ∧ f.Begins s := by
  constructor
  · rintro ⟨b, hb, rfl⟩
    obtain ⟨first, hfirst, hstart, rfl⟩ | ⟨before, run, after, hsplit, hfills⟩ :=
      fills_of_mem_blocks h hb
    · exact ⟨first, List.mem_of_head? hfirst, rfl, .inr ⟨hfirst, hstart⟩⟩
    · obtain ⟨s, hs, hstart⟩ := Option.map_eq_some_iff.1 hfills.start
      have hrun : s ∈ run := List.mem_of_head? hs
      have hmem : s ∈ f.statements := by simp [hsplit, hrun]
      have hkept : s ∈ f.blocks.flatMap (·.statements) :=
        List.mem_flatMap.2 ⟨b, hb, hfills.statements ▸ hrun⟩
      rw [mem_blocks_iff h hnumbered hmem] at hkept
      exact ⟨s, hmem, congrArg _ hstart, .inl ⟨opens_of_fills hnumbered hsplit hfills hs, hkept⟩⟩
  · rintro ⟨s, hs, rfl, ⟨hopens, hkept⟩ | ⟨hfirst, hstart⟩⟩
    · rw [← mem_blocks_iff h hnumbered hs] at hkept
      obtain ⟨b, hb, hsb⟩ := List.mem_flatMap.1 hkept
      exact ⟨b, hb, congrArg _ (start_of_opens h hnumbered hb hsb hopens)⟩
    · obtain ⟨first, rest, hstatements, hblocks⟩ := blocks_eq h
      obtain rfl : first = s := by simpa [hstatements] using hfirst
      rw [blocksFrom_of_start (mem_blockStarts.2 hstart)] at hblocks
      exact ⟨Block.opened first, by simp [hblocks], rfl⟩

end Function

namespace Program

/-- A jump that belongs to a function is the last statement of one of its blocks. The edges of the block
lead to the destinations that are recorded for the jump, which are those of its branches exactly when there
are two at most; and a destination is the start of a block exactly where a statement of the function
begins one. -/
theorem branch_edges_exact {text : String} {src : Source} {p : Program}
    (hread : Source.read? text = some src) (hload : load text .empty = .ok () p) {i : Nat} {id : Ident}
    {arguments : List VarId} {branches : List Branch}
    (hcommand : src.commands[i]? = some (.jump id arguments branches)) {f : Function}
    (hf : f ∈ p.functions) (hi : i ∈ f.statements.map (·.offset)) :
    (∃ b ∈ f.blocks, b.statements.getLast?.map (·.offset) = some i ∧
      (∀ b' ∈ f.blocks, i ∈ b'.statements.map (·.offset) → b' = b) ∧
      (∀ e ∈ b.edges, e.source = i) ∧ b.edges.map (·.target) = recordedDestinations i branches ∧
      ((b.edges.map (·.target)).Perm (branches.map (·.destination i)) ↔ branches.length ≤ 2)) ∧
    ∀ t ∈ branches.map (·.destination i), (∃ b ∈ f.blocks, (b.start : Int) = t) ↔
      ∃ s ∈ f.statements, (s.offset : Int) = t ∧ f.Begins s := by
  obtain ⟨src', hread', hloaded⟩ := loaded_of_load hload
  obtain rfl := Option.some.inj (hread.symm.trans hread')
  have hnumbered := hloaded.numbered hf
  have hblocks := (hloaded.functions f hf).blocks
  obtain ⟨s, hs, rfl⟩ := List.mem_map.1 hi
  have hrecords := hloaded.records hf hs hcommand
  obtain ⟨first, hjump⟩ := target?_of_records hrecords
  obtain ⟨b, hb, hlast, ⟨next, hedges⟩, honly⟩ := Function.block_of_jump hblocks hnumbered hs hjump
  obtain ⟨htargets, hsources⟩ := targets_of_records hrecords (blockStarts f) next
  rw [← hedges] at htargets hsources
  refine ⟨⟨b, hb, by rw [hlast]; rfl, fun b' hb' hsb' => ?_, hsources, htargets, ?_⟩,
    fun t _ => Function.exists_start_iff hblocks hnumbered⟩
  · obtain ⟨x, hx, hsame⟩ := List.mem_map.1 hsb'
    obtain ⟨before, after, hsplit, -⟩ := Function.fills_of_mem_statements hblocks hb' hx
    have hmem : x ∈ f.statements := by simp [hsplit, hx]
    obtain rfl := hnumbered.eq_of_offset hmem hs hsame
    exact honly b' hb' hx
  · rw [htargets]
    exact recorded_perm_iff hrecords

/-- Three branches into the same straight code. -/
def threeBranches : String :=
  "libfunc f = f;\nf() \x7b 1() 2() 3() \x7d;\nf() -> ();\nf() -> ();\nreturn();\nmain@0() -> ();\n"

theorem branch_edges_three : ∃ src p f id arguments branches b, Source.read? threeBranches = some src ∧
    load threeBranches .empty = .ok () p ∧ src.commands[0]? = some (.jump id arguments branches) ∧
    f ∈ p.functions ∧ branches.map (·.destination 0) = [1, 2, 3] ∧ b ∈ f.blocks ∧
    b.edges.map (·.target) = [1, 2] ∧ ∀ b' ∈ f.blocks, b'.start ≠ 2 := by
  obtain ⟨p, hload, hcheck⟩ := exists_load threeBranches
    (fun p => p.functions.any fun f : Function => decide (0 ∈ f.statements.map Statement.offset) &&
      f.blocks.all fun b => decide (b.start ≠ 2)) (by decide +kernel)
  simp only [List.any_eq_true, Bool.and_eq_true, decide_eq_true_eq, List.all_eq_true] at hcheck
  obtain ⟨f, hf, hin, hnone⟩ := hcheck
  have hsource : ((Source.read? threeBranches).bind (·.commands[0]?)).any (fun
      | Command.jump _ _ branches => decide (branches.map (·.destination 0) = [1, 2, 3]) &&
          decide (recordedDestinations 0 branches = [1, 2])
      | _ => false) = true := by
    decide +kernel
  simp only [Option.any_eq_true, Option.bind_eq_some_iff] at hsource
  obtain ⟨command, ⟨src, hread, hcommand⟩, hbranches⟩ := hsource
  cases command with
  | give => cases hbranches
  | invoke => cases hbranches
  | jump id arguments branches =>
    simp only [Bool.and_eq_true, decide_eq_true_eq] at hbranches
    obtain ⟨b, hb, -, -, -, htargets, -⟩ := (branch_edges_exact hread hload hcommand hf hin).1
    rw [hbranches.2] at htargets
    exact ⟨src, p, f, id, arguments, branches, b, hread, hload, hcommand, hf, hbranches.1, hb, htargets,
      hnone⟩

end Program

end Cairoscope.Sierra
