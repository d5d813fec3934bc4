import Cairoscope.Proofs.Passes

/-! Assertions of the program. An equality whose cell already has a value asserts something about it. A first pass
notes those that assert an immediate: its assertions are read off the log of its statements, each with the memory
that it finds. -/

namespace Cairoscope

def Instruction.equalsImmediate (i : Instruction) : Bool := decide (i.res = .op1) && decide (i.op1Source = .imm)

namespace Decompiler

/-- A statement, and the memory that it finds. -/
structure Moment where
  site : Site
  memory : Memory

namespace Moment

/-- The cell of an equality, if it has a value already. -/
def asserted? (μ : Moment) : Option Nat :=
  let i := μ.site.instruction
  match i.opcode, μ.memory.access i.dstRegister i.off0 with
  | .assertEq, .ok (m, a) => if m.cells[a.number]?.any (·.value.isSome) then some a.number else none
  | _, _ => none

def entry? (prime : Int) (μ : Moment) : Option Assertion :=
  let i := μ.site.instruction
  match μ.asserted?, Field.numeral (i.imm.getD 0) prime with
  | some dst, .ok n => if i.equalsImmediate then some ⟨dst, n⟩ else none
  | _, _ => none

theorem opcode_of_asserted? {μ : Moment} {dst : Nat} (h : μ.asserted? = some dst) :
    μ.site.instruction.opcode = .assertEq := by
  unfold asserted? at h
  dsimp only at h
  split at h
  · assumption
  · cases h

/-- Only an equality with an immediate is noted. -/
theorem entry?_eq_none {prime : Int} {μ : Moment}
    (h : μ.site.instruction.opcode ≠ .assertEq ∨ μ.site.instruction.equalsImmediate = false) :
    μ.entry? prime = none := by
  unfold entry?
  dsimp only
  split
  · rename_i dst n hasserted hn
    have himm := h.resolve_left fun hopcode => hopcode (opcode_of_asserted? hasserted)
    simp [himm]
  · rfl

def Legible (prime : Int) (μ : Moment) : Prop :=
  μ.site.instruction.opcode = .assertEq → μ.site.instruction.equalsImmediate = true →
    ∃ n, Field.numeral (μ.site.instruction.imm.getD 0) prime = .ok n

end Moment

def Silent {α : Type} (x : Step α) : Prop := ∀ d a d', x d = .ok a d' → d'.assertions = d.assertions

section Silent

variable {α β : Type} {sc : Scene} {place : Place}

theorem silent_of_eq {x : Step α} (hx : ∀ {d a d'}, x d = .ok a d' → d = d') : Silent x := by
  intro d a d' h
  rw [hx h]

theorem silent_pure (a : α) : Silent (pure a : Step α) := silent_of_eq fun h => (Run.pure_eq_ok.1 h).2

theorem silent_throw (e : Fault) : Silent (throw e : Step α) := fun _ _ _ h => absurd h Run.throw_ne_ok

theorem silent_bind {x : Step α} {f : α → Step β} (hx : Silent x) (hf : ∀ a, Silent (f a)) :
    Silent (x >>= f) := by
  intro d b d' h
  obtain ⟨a, d₁, hxd, hfd⟩ := Run.bind_eq_ok.1 h
  rw [hf a _ _ _ hfd, hx _ _ _ hxd]

theorem silent_get : Silent (get : Step Decompiler) := silent_of_eq fun h => (Run.get_eq_ok.1 h).2

theorem silent_ofOutcome (o : Outcome α) : Silent (Run.ofOutcome o : Step α) :=
  silent_of_eq fun h => (Run.ofOutcome_eq_ok.1 h).2

theorem silent_modify {f : Decompiler → Decompiler} (hf : ∀ d, (f d).assertions = d.assertions) :
    Silent (modify f : Step PUnit) := by
  intro d u d' h
  rw [← Run.modify_eq_ok.1 h, hf]

theorem silent_cell (r : Register) (offset : Int) : Silent (cell r offset) := by
  intro d n d' h
  obtain ⟨m, -, -, rfl⟩ := cellAt_of_cell h
  rfl

theorem silent_nameOf (n : Nat) : Silent (nameOf n) := silent_of_eq fun h => (nameOf_eq_ok.1 h).2

theorem silent_namesOf (ns : List Nat) : Silent (namesOf ns) := silent_of_eq eq_of_namesOf

theorem silent_line (colour data : String) : Silent (line sc colour data) :=
  silent_of_eq fun h => (line_eq_ok.1 h).2

theorem silent_indent (n : Int) : Silent (indent n) := silent_modify fun _ => rfl

theorem silent_updateVariable (n : Nat) (f : Variable → Variable) : Silent (updateVariable n f) :=
  silent_modify fun _ => rfl

theorem silent_currentBlock : Silent (currentBlock place) := silent_of_eq fun h => (currentBlock_eq_ok.1 h).2

theorem silent_assertMark (n : Nat) : Silent (assertMark n) := silent_of_eq eq_of_assertMark

theorem silent_source (m : Meeting) (n : Nat) : Silent (m.source n) := silent_of_eq fun h => (pick_of_source h).2

theorem silent_written (colour : String) (f : String → String) (n : Nat) :
    Silent (nameOf n >>= fun name => line sc colour (f name) >>= fun out => (pure (n, out) : Step (Nat × String))) :=
  silent_bind (silent_nameOf _) fun _ => silent_bind (silent_line _ _) fun _ => silent_pure _

theorem silent_assignLoad (m : Meeting) (i : Instruction) : Silent (assignLoad sc m i) := by
  unfold assignLoad
  refine silent_bind (silent_cell _ _) fun dst => silent_bind (silent_assertMark _) fun mark => ?_
  refine silent_bind (silent_cell _ _) fun n => silent_bind (silent_source _ _) fun base => ?_
  exact silent_bind (silent_updateVariable _ _) fun _ => silent_written _ _ _

theorem silent_assignCopy (m : Meeting) (i : Instruction) : Silent (assignCopy sc m i) := by
  unfold assignCopy
  refine silent_bind (silent_cell _ _) fun dst => silent_bind (silent_assertMark _) fun mark => ?_
  refine silent_bind (silent_cell _ _) fun n => silent_bind (silent_source _ _) fun source => ?_
  exact silent_bind (silent_updateVariable _ _) fun _ => silent_written _ _ _

theorem silent_assignCells (m : Meeting) (op : String) (i : Instruction) : Silent (assignCells sc m op i) := by
  unfold assignCells
  refine silent_bind (silent_cell _ _) fun dst => silent_bind (silent_assertMark _) fun mark => ?_
  refine silent_bind (silent_cell _ _) fun n => silent_bind (silent_source _ _) fun left => ?_
  refine silent_bind (silent_cell _ _) fun n => silent_bind (silent_source _ _) fun right => ?_
  exact silent_bind (silent_updateVariable _ _) fun _ => silent_written _ _ _

theorem silent_assignCellImmediate (m : Meeting) (op : String) (i : Instruction) :
    Silent (assignCellImmediate sc place m op i) := by
  unfold assignCellImmediate
  refine silent_bind (silent_cell _ _) fun dst => silent_bind (silent_assertMark _) fun mark => ?_
  refine silent_bind (silent_cell _ _) fun n => silent_bind ?_ fun left => ?_
  · exact silent_of_eq fun h => (pick_of_immediateSource h).2
  have hend : ∀ text, Silent (nameOf dst >>= fun name =>
      line sc sc.printer.palette.green (mark ++ name ++ " = " ++ left.text ++ " " ++ text) >>= fun out =>
        (modify fun d => { d with newInBlock := d.newInBlock + 1 }) >>= fun _ =>
          (pure (dst, out) : Step (Nat × String))) := by
    intro text
    refine silent_bind (silent_nameOf _) fun name => silent_bind (silent_line _ _) fun out => ?_
    exact silent_bind (silent_modify fun _ => rfl) fun _ => silent_pure _
  cases Field.small (i.imm.getD 0) sc.printer.prime with
  | ok k => exact silent_bind (silent_updateVariable _ _) fun _ => hend _
  | error e => exact hend _

theorem silent_branch (s : Site) : Silent (branch sc place s) := by
  unfold branch
  refine silent_bind (silent_cell _ _) fun tested => silent_bind (silent_modify fun _ => rfl) fun _ => ?_
  refine silent_bind (silent_line _ _) fun head => silent_bind (silent_nameOf _) fun name => ?_
  refine silent_bind (silent_updateVariable _ _) fun _ => silent_bind (silent_indent _) fun _ => ?_
  refine silent_bind (silent_modify fun _ => rfl) fun _ => ?_
  split
  · exact silent_throw _
  · refine silent_bind (silent_ofOutcome _) fun n => ?_
    dsimp only
    split_ifs
    · exact silent_bind (silent_modify fun _ => rfl) fun _ => silent_pure _
    · exact silent_pure _

theorem silent_relativeJump (imm : Int) (s : Site) : Silent (relativeJump sc imm s) := by
  unfold relativeJump
  refine silent_bind silent_get fun d => ?_
  split_ifs
  · refine silent_bind (silent_indent _) fun _ => silent_bind (silent_line _ _) fun text => ?_
    refine silent_bind (silent_indent _) fun _ => silent_bind (silent_ofOutcome _) fun n => ?_
    exact silent_bind (silent_modify fun _ => rfl) fun _ => silent_pure _
  · exact silent_line _ _

theorem silent_nop (s : Site) : Silent (nop sc place s) := by
  unfold nop
  dsimp only
  split
  · exact silent_branch s
  · exact silent_relativeJump _ s
  · split_ifs
    · exact silent_line _ _
    · exact silent_pure _
  · exact silent_pure _

theorem silent_callArguments (n : Nat) : Silent (callArguments place n) := by
  induction n with
  | zero => exact silent_pure _
  | succ n ih =>
    unfold callArguments
    refine silent_bind silent_currentBlock fun b => silent_bind silent_get fun d => ?_
    have hrest : ∀ numbers : List Nat, Silent (do
        let number ← cell .ap (-(n + 1 : Nat))
        let argument ← if numbers.contains number then
            do pure (CallArgument.merged numbers, phiText (← namesOf numbers))
          else do pure (CallArgument.single number, ← nameOf number)
        return argument :: (← callArguments place n)) := by
      intro numbers
      refine silent_bind (silent_cell _ _) fun number => ?_
      dsimp only
      split_ifs
      · refine silent_bind (silent_namesOf _) fun names => ?_
        exact silent_bind (silent_pure _) fun _ => silent_bind ih fun _ => silent_pure _
      · refine silent_bind (silent_nameOf _) fun name => ?_
        exact silent_bind (silent_pure _) fun _ => silent_bind ih fun _ => silent_pure _
    dsimp only
    split_ifs
    · exact silent_bind (silent_of_eq eq_of_mergedAt) hrest
    · exact hrest []

theorem silent_assignResults (callee : Nat) (returns : List String) (arguments : List CallArgument) (i : Nat)
    (names : List String) : Silent (assignResults place callee returns arguments i names) := by
  induction names generalizing i with
  | nil => exact silent_pure _
  | cons name names ih =>
    unfold assignResults
    refine silent_bind (silent_cell _ _) fun number => silent_bind silent_currentBlock fun b => ?_
    refine silent_bind silent_get fun d => silent_bind (silent_updateVariable _ _) fun _ => ?_
    exact silent_bind (silent_nameOf _) fun text => silent_bind (ih _) fun _ => silent_pure _

theorem silent_forM {γ : Type} {f : γ → Step Unit} (hf : ∀ c, Silent (f c)) (cs : List γ) : Silent (cs.forM f) := by
  induction cs with
  | nil => exact silent_pure _
  | cons c cs ih => exact silent_bind (hf c) fun _ => ih

theorem silent_callFunction (index : Nat) (callee : Function) : Silent (callFunction sc place index callee) := by
  unfold callFunction
  refine silent_bind (silent_callArguments _) fun arguments => ?_
  refine silent_bind (silent_forM (fun name => ?_) _) fun _ => ?_
  · exact silent_modify fun _ => rfl
  dsimp only
  split_ifs
  · refine silent_bind (silent_line _ _) fun head => silent_bind (silent_pure _) fun text => ?_
    exact silent_bind (silent_modify fun _ => rfl) fun _ => silent_pure _
  · refine silent_bind (silent_assignResults _ _ _ _ _) fun names => ?_
    refine silent_bind (silent_line _ _) fun head => silent_bind (silent_pure _) fun text => ?_
    exact silent_bind (silent_modify fun _ => rfl) fun _ => silent_pure _

theorem silent_call (s : Site) : Silent (call sc place s) := by
  unfold call
  dsimp only
  split
  · exact silent_line _ _
  · refine silent_bind (silent_ofOutcome _) fun offset => ?_
    split
    · exact silent_callFunction _ _
    · refine silent_bind (silent_line _ _) fun text => ?_
      split
      · exact silent_bind (silent_line _ _) fun label => silent_pure _
      · exact silent_pure _

theorem silent_returnNames (n : Nat) : Silent (returnNames n) := by
  induction n with
  | zero => exact silent_pure _
  | succ n ih =>
    unfold returnNames
    refine silent_bind (silent_cell _ _) fun number => silent_bind (silent_updateVariable _ _) fun _ => ?_
    exact silent_bind (silent_nameOf _) fun name => silent_bind ih fun _ => silent_pure _

theorem silent_ret (returns : Nat) (last : Bool) : Silent (ret sc returns last) := by
  unfold ret
  refine silent_bind ?_ fun text => ?_
  · unfold returnText
    dsimp only
    split_ifs
    · exact silent_bind (silent_line _ _) fun _ => silent_pure _
    · refine silent_bind (silent_line _ _) fun head => ?_
      exact silent_bind (silent_returnNames _) fun _ => silent_pure _
  · split_ifs
    · refine silent_bind (silent_modify fun _ => rfl) fun _ => ?_
      exact silent_bind (silent_line _ _) fun _ => silent_pure _
    · exact silent_pure _

end Silent

section Log

variable {sc : Scene} {place : Place} {d d' d'' : Decompiler} {log log' : List Moment}

/-- The moments add what they note to the assertions. -/
structure Logged (sc : Scene) (log : List Moment) (d d' : Decompiler) : Prop where
  assertions : d'.assertions = d.assertions ++ log.filterMap (Moment.entry? sc.printer.prime)
  legible : ∀ μ ∈ log, μ.Legible sc.printer.prime

theorem Logged.nil (h : d'.assertions = d.assertions) : Logged sc [] d d' := ⟨by simp [h], by simp⟩

theorem Logged.append (h : Logged sc log d d') (h' : Logged sc log' d' d'') : Logged sc (log ++ log') d d'' := by
  refine ⟨?_, List.forall_mem_append.2 ⟨h.legible, h'.legible⟩⟩
  rw [h'.assertions, h.assertions, List.filterMap_append, List.append_assoc]

theorem mark_of_assertMark {n : Nat} {mark : String} (h : assertMark n d = .ok mark d') :
    mark = if d.memory.cells[n]?.any (·.value.isSome) then "assert " else "" := by
  unfold assertMark hasValue at h
  obtain ⟨known, _, hknown, h⟩ := Run.bind_eq_ok.1 h
  rw [Run.get_bind] at hknown
  obtain ⟨rfl, rfl⟩ := Run.pure_eq_ok.1 hknown
  rw [← (Run.pure_eq_ok.1 h).1]
  cases d.memory.cells[n]? <;> rfl

theorem access_of_cell {r : Register} {offset : Int} {n : Nat} (h : cell r offset d = .ok n d') :
    ∃ a, d.memory.access r offset = .ok (d'.memory, a) ∧ a.number = n := by
  unfold cell at h
  rw [Run.get_bind] at h
  obtain ⟨⟨m, a⟩, _, hout, h⟩ := Run.bind_eq_ok.1 h
  obtain ⟨haccess, rfl⟩ := Run.ofOutcome_eq_ok.1 hout
  obtain ⟨_, _, hset, h⟩ := Run.bind_eq_ok.1 h
  obtain rfl := Run.set_eq_ok.1 hset
  obtain ⟨rfl, rfl⟩ := Run.pure_eq_ok.1 h
  exact ⟨a, haccess, rfl⟩

/-- The mark of an equality says whether its cell had a value. -/
theorem asserted?_of_mark {s : Site} {dst : Nat} {mark : String} (hopcode : s.instruction.opcode = .assertEq)
    (hcell : cell s.instruction.dstRegister s.instruction.off0 d = .ok dst d')
    (hmark : assertMark dst d' = .ok mark d'') :
    Moment.asserted? ⟨s, d.memory⟩ = if mark = "" then none else some dst := by
  obtain ⟨a, haccess, rfl⟩ := access_of_cell hcell
  rw [mark_of_assertMark hmark]
  simp only [Moment.asserted?, hopcode, haccess]
  cases d'.memory.cells[a.number]?.any (·.value.isSome) <;> rfl

theorem logged_of_assignImmediate {s : Site} {p : Nat × String} (hopcode : s.instruction.opcode = .assertEq)
    (himm : s.instruction.equalsImmediate = true) (h : assignImmediate sc s.instruction d = .ok p d') :
    Logged sc [⟨s, d.memory⟩] d d' := by
  unfold assignImmediate at h
  obtain ⟨reading, _, hreading, h⟩ := Run.bind_eq_ok.1 h
  obtain ⟨-, rfl⟩ := Run.ofOutcome_eq_ok.1 hreading
  obtain ⟨n, _, hnumeral, h⟩ := Run.bind_eq_ok.1 h
  obtain ⟨hn, rfl⟩ := Run.ofOutcome_eq_ok.1 hnumeral
  obtain ⟨dst, d₁, hcell, h⟩ := Run.bind_eq_ok.1 h
  obtain ⟨mark, d₂, hmark, h⟩ := Run.bind_eq_ok.1 h
  have hasserted := asserted?_of_mark hopcode hcell hmark
  have hsame : d₂.assertions = d.assertions := by
    rw [silent_assertMark _ _ _ _ hmark, silent_cell _ _ _ _ _ hcell]
  obtain ⟨_, d₃, hdefine, h⟩ := Run.bind_eq_ok.1 h
  have hsame₃ : d₃.assertions = d.assertions := (silent_updateVariable _ _ _ _ _ hdefine).trans hsame
  obtain ⟨name, _, hname, h⟩ := Run.bind_eq_ok.1 h
  obtain ⟨-, rfl⟩ := nameOf_eq_ok.1 hname
  obtain ⟨out, _, hline, h⟩ := Run.bind_eq_ok.1 h
  obtain ⟨-, rfl⟩ := line_eq_ok.1 hline
  have hentry : Moment.entry? sc.printer.prime ⟨s, d.memory⟩ = if mark = "" then none else some ⟨dst, n⟩ := by
    unfold Moment.entry?
    rw [hasserted]
    by_cases hempty : mark = ""
    · rw [if_pos hempty, if_pos hempty]
    · rw [if_neg hempty, if_neg hempty]
      simp [hn, himm]
  refine ⟨?_, fun μ hμ => List.mem_singleton.1 hμ ▸ fun _ _ => ⟨n, hn⟩⟩
  rw [List.filterMap_cons, hentry, List.filterMap_nil]
  dsimp only at h
  by_cases hempty : mark = ""
  · rw [if_neg (not_not.2 hempty)] at h
    obtain ⟨-, rfl⟩ := Run.pure_eq_ok.1 h
    rw [if_pos hempty, hsame₃, List.append_nil]
  · rw [if_pos hempty] at h
    obtain ⟨_, _, hmodify, h⟩ := Run.bind_eq_ok.1 h
    obtain rfl := Run.modify_eq_ok.1 hmodify
    obtain ⟨-, rfl⟩ := Run.pure_eq_ok.1 h
    rw [if_neg hempty, hsame₃]

theorem Logged.quiet {s : Site} (hquiet : s.instruction.opcode ≠ .assertEq ∨ s.instruction.equalsImmediate = false)
    (h : d'.assertions = d.assertions) : Logged sc [⟨s, d.memory⟩] d d' := by
  have hentry : Moment.entry? sc.printer.prime ⟨s, d.memory⟩ = none := Moment.entry?_eq_none hquiet
  refine ⟨?_, fun μ hμ => List.mem_singleton.1 hμ ▸ fun hopcode himm => ?_⟩
  · rw [List.filterMap_cons, hentry, List.filterMap_nil, h, List.append_nil]
  · rcases hquiet with hquiet | hquiet
    · exact absurd hopcode hquiet
    · exact absurd himm (Bool.eq_false_iff.1 hquiet)

theorem logged_of_assign {m : Meeting} {s : Site} {p : Nat × String} (hopcode : s.instruction.opcode = .assertEq)
    (h : assign sc place m s.instruction d = .ok p d') : Logged sc [⟨s, d.memory⟩] d d' := by
  unfold assign at h
  by_cases hres : s.instruction.res = .op1
  · rw [if_pos hres] at h
    have hquiet : s.instruction.op1Source ≠ .imm → s.instruction.equalsImmediate = false := fun hsource => by
      simp [Instruction.equalsImmediate, hsource]
    cases hsource : s.instruction.op1Source with
    | imm =>
      rw [hsource] at h
      exact logged_of_assignImmediate hopcode (by simp [Instruction.equalsImmediate, hres, hsource]) h
    | op0 =>
      rw [hsource] at h
      exact .quiet (.inr (hquiet (by simp [hsource]))) (silent_assignLoad _ _ _ _ _ h)
    | ap =>
      rw [hsource] at h
      exact .quiet (.inr (hquiet (by simp [hsource]))) (silent_assignCopy _ _ _ _ _ h)
    | fp =>
      rw [hsource] at h
      exact .quiet (.inr (hquiet (by simp [hsource]))) (silent_assignCopy _ _ _ _ _ h)
  · rw [if_neg hres] at h
    refine .quiet (.inr (by simp [Instruction.equalsImmediate, hres])) ?_
    refine silent_bind (silent_ofOutcome _) (fun op => ?_) _ _ _ h
    split
    · exact silent_assignCellImmediate _ _ _
    · exact silent_assignCells _ _ _

theorem logged_of_body {returns : Nat} {s : Site} {last : Bool} {text : String}
    (h : body sc place returns s last d = .ok text d') : Logged sc [⟨s, d.memory⟩] d d' := by
  unfold body at h
  cases hopcode : s.instruction.opcode with
  | assertEq =>
    rw [hopcode] at h
    obtain ⟨_, d₁, hequality, h⟩ := Run.bind_eq_ok.1 h
    have hrest : d'.assertions = d₁.assertions := by
      refine silent_bind (silent_ofOutcome _) (fun n => silent_bind ?_ fun _ => silent_pure _) _ _ _ h
      exact silent_modify fun _ => rfl
    unfold assertEq at hequality
    obtain ⟨m, _, hmeeting, hequality⟩ := Run.bind_eq_ok.1 hequality
    obtain rfl := eq_of_meeting hmeeting
    obtain ⟨p, d₂, hassign, hequality⟩ := Run.bind_eq_ok.1 hequality
    have hplaced : d₁.assertions = d₂.assertions :=
      silent_bind silent_currentBlock (fun _ => silent_bind (silent_updateVariable _ _) fun _ => silent_pure _)
        _ _ _ hequality
    have hlogged := logged_of_assign hopcode hassign
    exact ⟨by rw [hrest, hplaced, hlogged.assertions], hlogged.legible⟩
  | nop =>
    rw [hopcode] at h
    exact .quiet (.inl (by simp [hopcode])) (silent_nop _ _ _ _ h)
  | call =>
    rw [hopcode] at h
    exact .quiet (.inl (by simp [hopcode])) (silent_call _ _ _ _ h)
  | ret =>
    rw [hopcode] at h
    exact .quiet (.inl (by simp [hopcode])) (silent_ret _ _ _ _ _ h)

/-- What a statement notes can be told from the memory that it finds. -/
theorem logged_of_statement {returns : Nat} {s : Site} {last : Bool} {text : String}
    (h : statement sc place returns s last d = .ok text d') : Logged sc [⟨s, d.memory⟩] d d' := by
  obtain ⟨t, out, hbody⟩ := body_of_statement h
  have hlogged := logged_of_body hbody
  exact ⟨hlogged.assertions, hlogged.legible⟩

end Log

def sitesLog (sc : Scene) (place : Place) (returns : Nat) : List Site → Decompiler → List Moment
  | [], _ => []
  | s :: rest, d => ⟨s, d.memory⟩ ::
    (after? (statement sc place returns s false) d).elim [] (sitesLog sc place returns rest)

def blocksLog (sc : Scene) (f : Function) (function : Nat) : Nat → List Block → Decompiler → List Moment
  | _, [], _ => []
  | block, b :: rest, d =>
    sitesLog sc ⟨function, block⟩ f.returns.length b.sites { d with newInBlock := 0 } ++
      (after? (scanBlock sc f ⟨function, block⟩ b) d).elim [] (blocksLog sc f function (block + 1) rest)

def opening (sc : Scene) (index : Nat) (f : Function) : Step Unit := do
  modify fun d => { d with tabs := 0 }
  enter index f
  buildGraph sc index f
  let _ ← heading sc f
  indent 1

def functionLog (sc : Scene) (imported : Bool) (index : Nat) (f : Function) (d : Decompiler) : List Moment :=
  if f.isImport && !imported then []
  else (after? (opening sc index f) d).elim [] fun e => blocksLog sc f index 0 (e.blocksOf index) e

def functionsLog (sc : Scene) (imported : Bool) : Nat → List Function → Decompiler → List Moment
  | _, [], _ => []
  | index, f :: rest, d => functionLog sc imported index f d ++
      (after? (function sc true imported index f) d).elim [] (functionsLog sc imported (index + 1) rest)

/-- The statements of a first pass over the contract, in the order in which they are met. -/
def firstPassLog (sc : Scene) (imported : Bool) (graphs : List (Option FlowGraph)) : List Moment :=
  functionsLog sc imported 0 sc.functions (start graphs)

section Runs

variable {sc : Scene} {place : Place} {f : Function} {imported : Bool} {index : Nat} {d d' : Decompiler}

theorem logged_sites {returns : Nat} {sites : List Site} {u : Unit}
    (h : (sites.forM fun s => do let _ ← statement sc place returns s false) d = .ok u d') :
    Logged sc (sitesLog sc place returns sites d) d d' ∧
      (sitesLog sc place returns sites d).map (·.site) = sites := by
  induction sites generalizing d with
  | nil =>
    obtain ⟨-, rfl⟩ := Run.pure_eq_ok.1 h
    exact ⟨.nil rfl, rfl⟩
  | cons s sites ih =>
    obtain ⟨_, d₁, hone, h⟩ := Run.bind_eq_ok.1 h
    obtain ⟨text, _, hs, hpure⟩ := Run.bind_eq_ok.1 hone
    obtain ⟨-, rfl⟩ := Run.pure_eq_ok.1 hpure
    obtain ⟨hlogged, hsites⟩ := ih h
    unfold sitesLog
    rw [after?_eq_some_iff.2 ⟨_, hs⟩]
    exact ⟨(logged_of_statement hs).append hlogged, by rw [List.map_cons]; exact congrArg _ hsites⟩

theorem logged_blocks {function block : Nat} {blocks : List Block} {u : Unit}
    (h : scanBlocks sc f function block blocks d = .ok u d') :
    Logged sc (blocksLog sc f function block blocks d) d d' ∧
      (blocksLog sc f function block blocks d).map (·.site) = blocks.flatMap (·.sites) := by
  induction blocks generalizing d block with
  | nil =>
    obtain ⟨-, rfl⟩ := Run.pure_eq_ok.1 h
    exact ⟨.nil rfl, rfl⟩
  | cons b blocks ih =>
    obtain ⟨_, d₁, hscan, h⟩ := Run.bind_eq_ok.1 h
    obtain ⟨hrest, hsites⟩ := ih h
    unfold blocksLog
    rw [after?_eq_some_iff.2 ⟨_, hscan⟩]
    unfold scanBlock at hscan
    rw [Run.modify_bind, Run.get_bind] at hscan
    obtain ⟨_, d₂, hwalk, hscan⟩ := Run.bind_eq_ok.1 hscan
    obtain ⟨hone, hfirst⟩ := logged_sites hwalk
    have hblock : Logged sc
        (sitesLog sc ⟨function, block⟩ f.returns.length b.sites { d with newInBlock := 0 }) d d₁ := by
      obtain rfl := Run.modify_eq_ok.1 hscan
      exact ⟨hone.assertions, hone.legible⟩
    refine ⟨hblock.append hrest, ?_⟩
    rw [List.map_append, hfirst, List.flatMap_cons]
    exact congrArg _ hsites

/-- The function has been entered, and no statement has been met since. -/
structure Entered (index : Nat) (f : Function) (d e : Decompiler) : Prop where
  memory : e.memory = d.memory.enter (some index) f.parameterNames d.nextBlock
  assertions : e.assertions = d.assertions
  firstPass : e.firstPass = d.firstPass

/-- A first pass over a function walks over the blocks that its opening has cut. -/
theorem entered_of_function {text : String} (h : function sc true imported index f d = .ok text d') :
    if f.isImport && !imported then Entered index f d d'
    else ∃ e, opening sc index f d = .ok () e ∧ Entered index f d e ∧
      (∃ g next n, FlowGraph.build sc.printer f.name f.sites next = .ok g n ∧
        e.graphs = d.graphs.set index (some g)) ∧
      scanBlocks sc f index 0 (e.blocksOf index) e = .ok () d' := by
  unfold function at h
  unfold enter at h
  rw [Run.modify_bind, Run.modify_bind] at h
  dsimp only at h
  by_cases hskip : (f.isImport && !imported) = true
  · rw [if_pos hskip] at h ⊢
    obtain ⟨-, rfl⟩ := Run.pure_eq_ok.1 h
    exact ⟨rfl, rfl, rfl⟩
  rw [if_neg hskip] at h ⊢
  rw [Run.get_bind, Run.get_bind] at h
  obtain ⟨_, _, hgraph, h⟩ := Run.bind_eq_ok.1 h
  obtain ⟨head, _, hhead, h⟩ := Run.bind_eq_ok.1 h
  obtain ⟨_, e, hindent, h⟩ := Run.bind_eq_ok.1 h
  have hopening : opening sc index f d = .ok () e := by
    unfold opening enter
    rw [Run.modify_bind, Run.modify_bind]
    exact Run.bind_eq_ok.2 ⟨_, _, hgraph, Run.bind_eq_ok.2 ⟨_, _, hhead, hindent⟩⟩
  rw [Run.get_bind] at h
  obtain ⟨_, _, hscan, h⟩ := Run.bind_eq_ok.1 h
  obtain ⟨-, rfl⟩ := Run.pure_eq_ok.1 h
  obtain ⟨g, n, hbuild, rfl⟩ := eq_of_buildGraph hgraph
  obtain rfl := eq_of_heading hhead
  obtain rfl := indent_eq_ok.1 hindent
  exact ⟨_, hopening, ⟨rfl, rfl, rfl⟩, ⟨g, _, n, hbuild, rfl⟩, hscan⟩

theorem logged_function {text : String} (hindex : index < d.graphs.length)
    (h : function sc true imported index f d = .ok text d') :
    Logged sc (functionLog sc imported index f d) d d' ∧
      (functionLog sc imported index f d).map (·.site) = if f.isImport && !imported then [] else f.sites := by
  have hfunction := entered_of_function h
  unfold functionLog
  by_cases hskip : (f.isImport && !imported) = true
  · rw [if_pos hskip] at hfunction ⊢
    rw [if_pos hskip]
    exact ⟨.nil hfunction.assertions, rfl⟩
  · rw [if_neg hskip] at hfunction ⊢
    rw [if_neg hskip]
    obtain ⟨e, hopening, hentered, ⟨g, next, n, hbuild, hgraphs⟩, hscan⟩ := hfunction
    have hsites := flatMap_sites_of_build hbuild hindex hgraphs
    rw [after?_eq_some_iff.2 ⟨_, hopening⟩]
    obtain ⟨hlogged, hwalked⟩ := logged_blocks hscan
    exact ⟨⟨by rw [hlogged.assertions, hentered.assertions]; rfl, hlogged.legible⟩, hwalked.trans hsites⟩

/-- The functions that are walked: all, or all but the imported ones. -/
def walked (imported : Bool) (fs : List Function) : List Function := fs.filter fun f => !(f.isImport && !imported)

theorem logged_functions {fs : List Function} {texts : List String} (hindex : index + fs.length ≤ d.graphs.length)
    (h : functions sc true imported index fs d = .ok texts d') :
    Logged sc (functionsLog sc imported index fs d) d d' ∧
      (functionsLog sc imported index fs d).map (·.site) = (walked imported fs).flatMap (·.sites) := by
  induction fs generalizing index d texts with
  | nil =>
    obtain ⟨-, rfl⟩ := Run.pure_eq_ok.1 h
    exact ⟨.nil rfl, rfl⟩
  | cons f fs ih =>
    rw [List.length_cons] at hindex
    unfold functions at h
    obtain ⟨text, d₁, hfunction, h⟩ := Run.bind_eq_ok.1 h
    obtain ⟨rest, _, hrest, h⟩ := Run.bind_eq_ok.1 h
    obtain ⟨-, rfl⟩ := Run.pure_eq_ok.1 h
    have hgraphs := (performed_of_function (by omega) hfunction).graphs
    obtain ⟨hone, hfirst⟩ := logged_function (by omega) hfunction
    obtain ⟨hlater, hsites⟩ := ih (by omega) hrest
    unfold functionsLog
    rw [after?_eq_some_iff.2 ⟨_, hfunction⟩]
    refine ⟨hone.append hlater, ?_⟩
    rw [List.map_append, hfirst]
    change _ ++ (functionsLog sc imported (index + 1) fs d₁).map (·.site) = _
    rw [hsites]
    unfold walked
    by_cases hskip : (f.isImport && !imported) = true
    · rw [if_pos hskip, List.filter_cons_of_neg (by simp [hskip]), List.nil_append]
    · rw [if_neg hskip, List.filter_cons_of_pos (by simp [hskip]), List.flatMap_cons]

theorem logged_program {graphs : List (Option FlowGraph)} {text : String}
    (hgraphs : sc.functions.length ≤ graphs.length) (h : program sc true imported (start graphs) = .ok text d) :
    Logged sc (firstPassLog sc imported graphs) (start graphs) d ∧
      (firstPassLog sc imported graphs).map (·.site) = (walked imported sc.functions).flatMap (·.sites) := by
  unfold program at h
  obtain ⟨texts, _, hfunctions, h⟩ := Run.bind_eq_ok.1 h
  obtain ⟨-, rfl⟩ := Run.pure_eq_ok.1 h
  exact logged_functions (by rw [Nat.zero_add]; exact hgraphs) hfunctions

end Runs

end Decompiler

end Cairoscope
