import Cairoscope.Proofs.Equality
import Cairoscope.Proofs.FirstPass
import Cairoscope.Proofs.Operations

/-! The memory operations of a statement. They can be read off the code: which cells a statement looks up,
which variables it appends and how far it moves `ap` does not depend on what earlier statements have
found, nor on the pass. -/

namespace Cairoscope

open Memory (Operation)

def Scene.calleeAt (sc : Scene) (s : Site) : Option (Nat × Function) :=
  s.callee.bind fun name => do
    let index ← sc.functions.findIdx? fun f => f.name == name
    return (index, ← sc.functions[index]?)

def lookBelow : Nat → List Operation
  | 0 => []
  | n + 1 => .get .ap (-(n + 1 : Nat)) :: lookBelow n

namespace Decompiler

def equalityOperations (i : Instruction) : List Operation :=
  let dst := .get i.dstRegister i.off0
  let op0 := .get i.op0Register i.off1
  let op1 := .get (op1Register i.op1Source) i.off2
  if i.res = .op1 then
    match i.op1Source with
    | .imm => [dst]
    | .op0 => [dst, op0]
    | _ => [dst, op1]
  else
    match i.op1Source with
    | .imm => [dst, op0]
    | _ => [dst, op0, op1]

def apRise (sc : Scene) (i : Instruction) : Int :=
  match apStep sc i with
  | .ok n => max 0 n
  | .error _ => 0

theorem apRise_nonneg (sc : Scene) (i : Instruction) : 0 ≤ apRise sc i := by
  unfold apRise
  split
  · exact Int.le_max_left 0 _
  · exact Int.le_refl 0

/-- One new variable for each result. -/
def pushResults (callee : Nat) (returns : List String) : List Operation :=
  returns.flatMap fun name => [.new (some name) (some callee) none true false, .moveAp 1]

/-- Looks up the cells below `ap` from the topmost down, from the cell `i` on. -/
def lookResults : Nat → List String → List Operation
  | _, [] => []
  | i, _ :: rest => .get .ap (-(i + 1 : Nat)) :: lookResults (i + 1) rest

def callOperations (index : Nat) (callee : Function) : List Operation :=
  lookBelow callee.explicit.length ++
    (pushResults index callee.returns.names ++ lookResults 0 callee.returns.names)

def statementOperations (sc : Scene) (returns : Nat) (s : Site) : List Operation :=
  match s.instruction.opcode with
  | .assertEq => equalityOperations s.instruction ++ [.moveAp (apRise sc s.instruction)]
  | .nop => if s.instruction.pcUpdate = .jnz then [.get .ap s.instruction.off0] else []
  | .call => match s.instruction.imm, sc.calleeAt s with
    | some _, some (index, callee) => callOperations index callee
    | _, _ => []
  | .ret => lookBelow returns

structure Performed (ops : List Operation) (d d' : Decompiler) : Prop where
  memory : (d.memory.performAll ops).Alike d'.memory
  graphs : d'.graphs.length = d.graphs.length

theorem Performed.trans {ops ops' : List Operation} {d d' d'' : Decompiler} (h : Performed ops d d')
    (h' : Performed ops' d' d'') : Performed (ops ++ ops') d d'' := by
  refine ⟨?_, h'.graphs.trans h.graphs⟩
  rw [Memory.performAll_append]
  exact (h.memory.performAll ops').trans h'.memory

theorem Performed.of_eq {d d' : Decompiler} (hmemory : d'.memory = d.memory)
    (hgraphs : d'.graphs.length = d.graphs.length) : Performed [] d d' :=
  ⟨hmemory ▸ .refl _, hgraphs⟩

def Performs {α : Type} (ops : List Operation) (x : Step α) : Prop :=
  ∀ d a d', x d = .ok a d' → Performed ops d d'

section Steps

variable {α β : Type} {sc : Scene} {place : Place} {ops ops' : List Operation}

theorem performs_pure (a : α) : Performs [] (pure a) := by
  intro d b d' h
  obtain ⟨-, rfl⟩ := Run.pure_eq_ok.1 h
  exact .of_eq rfl rfl

theorem performs_bind {x : Step α} {f : α → Step β} (hx : Performs ops x)
    (hf : ∀ a, Performs ops' (f a)) : Performs (ops ++ ops') (x >>= f) := by
  intro d b d' h
  obtain ⟨a, d₁, hxd, hfd⟩ := Run.bind_eq_ok.1 h
  exact (hx _ _ _ hxd).trans (hf a _ _ _ hfd)

/-- A step that performs nothing, before others. -/
theorem performs_idle_bind {x : Step α} {f : α → Step β} (hx : Performs [] x)
    (hf : ∀ a, Performs ops (f a)) : Performs ops (x >>= f) := performs_bind hx hf

/-- A step that performs nothing, after others. -/
theorem performs_bind_idle {x : Step α} {f : α → Step β} (hx : Performs ops x)
    (hf : ∀ a, Performs [] (f a)) : Performs ops (x >>= f) := by
  have h := performs_bind hx hf
  rwa [List.append_nil] at h

theorem performs_throw (e : Fault) : Performs ops (throw e : Step α) := fun _ _ _ h =>
  absurd h Run.throw_ne_ok

theorem performs_of_eq {x : Step α} (hx : ∀ {d a d'}, x d = .ok a d' → d = d') : Performs [] x := by
  intro d a d' h
  obtain rfl := hx h
  exact .of_eq rfl rfl

theorem performs_get : Performs [] get := performs_of_eq fun h => (Run.get_eq_ok.1 h).2

theorem performs_ofOutcome (o : Outcome α) : Performs [] (Run.ofOutcome o) :=
  performs_of_eq fun h => (Run.ofOutcome_eq_ok.1 h).2

theorem performs_ofOutcome_bind {o : Outcome α} {f : α → Step β}
    (hf : ∀ a, o = .ok a → Performs ops (f a)) : Performs ops (Run.ofOutcome o >>= f) := by
  intro d b d' h
  obtain ⟨a, _, hout, h⟩ := Run.bind_eq_ok.1 h
  obtain ⟨ho, rfl⟩ := Run.ofOutcome_eq_ok.1 hout
  exact hf a ho _ _ _ h

theorem performs_modify {f : Decompiler → Decompiler} (hf : ∀ d, Performed ops d (f d)) :
    Performs ops (modify f) := by
  intro d b d' h
  obtain rfl := Run.modify_eq_ok.1 h
  exact hf d

theorem performs_idle {f : Decompiler → Decompiler} (hmemory : ∀ d, (f d).memory = d.memory)
    (hgraphs : ∀ d, (f d).graphs = d.graphs) : Performs [] (modify f) :=
  performs_modify fun d => .of_eq (hmemory d) (congrArg List.length (hgraphs d))

theorem performs_cell (r : Register) (offset : Int) : Performs [.get r offset] (cell r offset) := by
  intro d n d' h
  unfold cell at h
  rw [Run.get_bind] at h
  obtain ⟨⟨m, a⟩, _, hout, h⟩ := Run.bind_eq_ok.1 h
  obtain ⟨haccess, rfl⟩ := Run.ofOutcome_eq_ok.1 hout
  obtain ⟨_, _, hset, h⟩ := Run.bind_eq_ok.1 h
  obtain rfl := Run.set_eq_ok.1 hset
  obtain ⟨-, rfl⟩ := Run.pure_eq_ok.1 h
  refine ⟨?_, rfl⟩
  rw [Memory.performAll_cons, Memory.perform_get_of_access haccess]
  exact .refl m

theorem performs_updateVariable {f : Variable → Variable} (hf : ∀ v, (f v).name = v.name) (n : Nat) :
    Performs [] (updateVariable n f) :=
  performs_modify fun d => ⟨.update hf d.memory n, rfl⟩

theorem performs_nameOf (n : Nat) : Performs [] (nameOf n) :=
  performs_of_eq fun h => (nameOf_eq_ok.1 h).2

theorem performs_namesOf (ns : List Nat) : Performs [] (namesOf ns) := performs_of_eq eq_of_namesOf

theorem performs_mergedAt (place : Place) : Performs [] (mergedAt place) :=
  performs_of_eq eq_of_mergedAt

theorem performs_currentBlock (place : Place) : Performs [] (currentBlock place) :=
  performs_of_eq fun h => (currentBlock_eq_ok.1 h).2

theorem performs_line (colour data : String) : Performs [] (line sc colour data) :=
  performs_of_eq fun h => (line_eq_ok.1 h).2

theorem performs_indent (n : Int) : Performs [] (indent n) :=
  performs_idle (fun _ => rfl) fun _ => rfl

theorem performs_define (n : Nat) (x : Value) : Performs [] (define n x) := by
  apply performs_updateVariable
  intro v
  split <;> rfl

theorem performs_forM {γ : Type} {f : γ → Step Unit} {g : γ → List Operation}
    (hf : ∀ c, Performs (g c) (f c)) (cs : List γ) : Performs (cs.flatMap g) (cs.forM f) := by
  induction cs with
  | nil => exact performs_pure _
  | cons c cs ih => exact performs_bind (hf c) fun _ => ih

theorem performs_cell_bind {f : Nat → Step β} (r : Register) (offset : Int)
    (hf : ∀ n, Performs ops (f n)) : Performs (.get r offset :: ops) (cell r offset >>= f) :=
  performs_bind (performs_cell r offset) hf

theorem performs_assertMark (n : Nat) : Performs [] (assertMark n) := performs_of_eq eq_of_assertMark

theorem performs_source (m : Meeting) (n : Nat) : Performs [] (m.source n) :=
  performs_of_eq fun h => (pick_of_source h).2

theorem performs_written (colour : String) (f : String → String) (n : Nat) :
    Performs [] (nameOf n >>= fun name => line sc colour (f name) >>= fun out => pure (n, out)) :=
  performs_idle_bind (performs_nameOf _) fun _ =>
    performs_idle_bind (performs_line _ _) fun _ => performs_pure _

theorem performs_assignImmediate (i : Instruction) :
    Performs [.get i.dstRegister i.off0] (assignImmediate sc i) := by
  unfold assignImmediate
  refine performs_idle_bind (performs_ofOutcome _) fun reading => ?_
  refine performs_idle_bind (performs_ofOutcome _) fun numeral => ?_
  refine performs_cell_bind _ _ fun dst => performs_idle_bind (performs_assertMark _) fun mark => ?_
  refine performs_idle_bind (performs_define _ _) fun _ => ?_
  refine performs_idle_bind (performs_nameOf _) fun name => ?_
  refine performs_idle_bind (performs_line _ _) fun text => ?_
  dsimp only
  by_cases hmark : mark ≠ ""
  · rw [if_pos hmark]
    exact performs_idle_bind (performs_idle (fun _ => rfl) fun _ => rfl) fun _ => performs_pure _
  · rw [if_neg hmark]
    exact performs_pure _

theorem performs_assignLoad (m : Meeting) (i : Instruction) :
    Performs [.get i.dstRegister i.off0, .get i.op0Register i.off1] (assignLoad sc m i) := by
  unfold assignLoad
  refine performs_cell_bind _ _ fun dst => performs_idle_bind (performs_assertMark _) fun mark => ?_
  refine performs_cell_bind _ _ fun n => performs_idle_bind (performs_source _ _) fun base => ?_
  exact performs_idle_bind (performs_define _ _) fun _ => performs_written _ _ _

theorem performs_assignCopy (m : Meeting) (i : Instruction) :
    Performs [.get i.dstRegister i.off0, .get (op1Register i.op1Source) i.off2]
      (assignCopy sc m i) := by
  unfold assignCopy
  refine performs_cell_bind _ _ fun dst => performs_idle_bind (performs_assertMark _) fun mark => ?_
  refine performs_cell_bind _ _ fun n => performs_idle_bind (performs_source _ _) fun source => ?_
  exact performs_idle_bind (performs_define _ _) fun _ => performs_written _ _ _

theorem performs_assignCells (m : Meeting) (op : String) (i : Instruction) :
    Performs [.get i.dstRegister i.off0, .get i.op0Register i.off1,
      .get (op1Register i.op1Source) i.off2] (assignCells sc m op i) := by
  unfold assignCells
  refine performs_cell_bind _ _ fun dst => performs_idle_bind (performs_assertMark _) fun mark => ?_
  refine performs_cell_bind _ _ fun n => performs_idle_bind (performs_source _ _) fun left => ?_
  refine performs_cell_bind _ _ fun n => performs_idle_bind (performs_source _ _) fun right => ?_
  exact performs_idle_bind (performs_define _ _) fun _ => performs_written _ _ _

theorem performs_assignCellImmediate (m : Meeting) (op : String) (i : Instruction) :
    Performs [.get i.dstRegister i.off0, .get i.op0Register i.off1]
      (assignCellImmediate sc place m op i) := by
  unfold assignCellImmediate
  refine performs_cell_bind _ _ fun dst => performs_idle_bind (performs_assertMark _) fun mark => ?_
  refine performs_cell_bind _ _ fun n => performs_idle_bind ?_ fun left => ?_
  · exact performs_of_eq fun h => (pick_of_immediateSource h).2
  have hend : ∀ text, Performs [] (nameOf dst >>= fun name =>
      line sc sc.printer.palette.green (mark ++ name ++ " = " ++ left.text ++ " " ++ text) >>= fun out =>
        (modify fun d => { d with newInBlock := d.newInBlock + 1 }) >>= fun _ => pure (dst, out)) :=
    fun text => performs_idle_bind (performs_nameOf _) fun _ =>
      performs_idle_bind (performs_line _ _) fun _ =>
        performs_idle_bind (performs_idle (fun _ => rfl) fun _ => rfl) fun _ => performs_pure _
  cases Field.small (i.imm.getD 0) sc.printer.prime with
  | ok k => exact performs_idle_bind (performs_define _ _) fun _ => hend _
  | error e => exact hend _

theorem performs_assign (m : Meeting) (i : Instruction) :
    Performs (equalityOperations i) (assign sc place m i) := by
  unfold assign equalityOperations
  split_ifs
  · have hcopy : Performs _ (assignCopy sc m i) := performs_assignCopy m i
    cases hsource : i.op1Source with
    | imm => exact performs_assignImmediate i
    | op0 => exact performs_assignLoad m i
    | ap => rwa [hsource] at hcopy
    | fp => rwa [hsource] at hcopy
  · refine performs_idle_bind (performs_ofOutcome _) fun op => ?_
    have hcells : Performs _ (assignCells sc m op i) := performs_assignCells m op i
    cases hsource : i.op1Source with
    | imm => exact performs_assignCellImmediate m op i
    | op0 => rwa [hsource] at hcells
    | ap => rwa [hsource] at hcells
    | fp => rwa [hsource] at hcells

theorem performs_assertEq (i : Instruction) :
    Performs (equalityOperations i) (assertEq sc place i) := by
  unfold assertEq
  refine performs_idle_bind (performs_of_eq eq_of_meeting) fun m => ?_
  refine performs_bind_idle (performs_assign m i) fun p => ?_
  refine performs_idle_bind (performs_currentBlock _) fun b => ?_
  refine performs_idle_bind (performs_updateVariable (by intro v; rfl) _) fun _ => performs_pure _

theorem performs_branch (s : Site) :
    Performs [.get .ap s.instruction.off0] (branch sc place s) := by
  unfold branch
  refine performs_cell_bind _ _ fun tested => ?_
  refine performs_idle_bind (performs_modify fun d => ?_) fun _ => ?_
  · exact .of_eq rfl (length_graphs_withBlock d place _)
  refine performs_idle_bind (performs_line _ _) fun head => ?_
  refine performs_idle_bind (performs_nameOf _) fun name => ?_
  refine performs_idle_bind (performs_updateVariable (by intro v; rfl) _) fun _ => ?_
  refine performs_idle_bind (performs_indent _) fun _ => ?_
  refine performs_idle_bind (performs_idle (fun _ => rfl) fun _ => rfl) fun _ => ?_
  split
  · exact performs_throw _
  · refine performs_idle_bind (performs_ofOutcome _) fun n => ?_
    dsimp only
    split_ifs
    · exact performs_idle_bind (performs_idle (fun _ => rfl) fun _ => rfl) fun _ => performs_pure _
    · exact performs_pure _

theorem performs_relativeJump (imm : Int) (s : Site) : Performs [] (relativeJump sc imm s) := by
  unfold relativeJump
  refine performs_idle_bind performs_get fun d => ?_
  split_ifs
  · refine performs_idle_bind (performs_indent _) fun _ => ?_
    refine performs_idle_bind (performs_line _ _) fun text => ?_
    refine performs_idle_bind (performs_indent _) fun _ => ?_
    refine performs_idle_bind (performs_ofOutcome _) fun n => ?_
    exact performs_idle_bind (performs_idle (fun _ => rfl) fun _ => rfl) fun _ => performs_pure _
  · exact performs_line _ _

theorem performs_nop (s : Site) :
    Performs (if s.instruction.pcUpdate = .jnz then [.get .ap s.instruction.off0] else [])
      (nop sc place s) := by
  unfold nop
  dsimp only
  cases s.instruction.pcUpdate with
  | jnz => exact performs_branch s
  | jump => exact performs_pure _
  | jumpRel =>
    cases s.instruction.imm with
    | none => exact performs_pure _
    | some imm => exact performs_relativeJump imm s
  | regular =>
    cases s.instruction.imm with
    | some imm => exact performs_pure _
    | none =>
      rw [if_neg (by decide)]
      dsimp only
      split_ifs
      · exact performs_line _ _
      · exact performs_pure _

theorem performs_callArguments (n : Nat) : Performs (lookBelow n) (callArguments place n) := by
  induction n with
  | zero => exact performs_pure _
  | succ n ih =>
    unfold callArguments
    refine performs_idle_bind (performs_currentBlock _) fun b => performs_idle_bind performs_get fun d => ?_
    have hrest : ∀ numbers : List Nat, Performs (lookBelow (n + 1)) (do
        let number ← cell .ap (-(n + 1 : Nat))
        let argument ← if numbers.contains number then
            do pure (CallArgument.merged numbers, phiText (← namesOf numbers))
          else do pure (CallArgument.single number, ← nameOf number)
        return argument :: (← callArguments place n)) := by
      intro numbers
      refine performs_cell_bind _ _ fun number => ?_
      dsimp only
      split_ifs
      · refine performs_idle_bind (performs_namesOf _) fun names => ?_
        exact performs_idle_bind (performs_pure _) fun _ => performs_bind_idle ih fun _ => performs_pure _
      · refine performs_idle_bind (performs_nameOf _) fun name => ?_
        exact performs_idle_bind (performs_pure _) fun _ => performs_bind_idle ih fun _ => performs_pure _
    dsimp only
    split_ifs
    · exact performs_idle_bind (performs_mergedAt _) hrest
    · exact hrest []

theorem performs_assignResults (callee : Nat) (returns : List String) (arguments : List CallArgument)
    (i : Nat) (names : List String) :
    Performs (lookResults i names) (assignResults place callee returns arguments i names) := by
  induction names generalizing i with
  | nil => exact performs_pure _
  | cons name names ih =>
    unfold assignResults
    refine performs_cell_bind _ _ fun number => performs_idle_bind (performs_currentBlock _) fun b => ?_
    refine performs_idle_bind performs_get fun d => ?_
    refine performs_idle_bind (performs_updateVariable (by intro v; rfl) _) fun _ => ?_
    refine performs_idle_bind (performs_nameOf _) fun text => ?_
    exact performs_bind_idle (ih _) fun _ => performs_pure _

theorem performs_pushResults (callee : Nat) (returns : List String) :
    Performs (pushResults callee returns) (returns.forM fun name => modify fun d => { d with
      memory := d.memory.push fun v =>
        { v with label := some name, function := some callee, isResult := true } }) := by
  apply performs_forM
  intro name
  exact performs_modify fun d => ⟨.refl _, rfl⟩

theorem performs_callFunction (index : Nat) (callee : Function) :
    Performs (callOperations index callee) (callFunction sc place index callee) := by
  unfold callFunction callOperations
  refine performs_bind (performs_callArguments _) fun arguments => ?_
  refine performs_bind (performs_pushResults _ _) fun _ => ?_
  dsimp only
  split_ifs with hnone
  · rw [List.isEmpty_iff.1 hnone]
    refine performs_idle_bind (performs_line _ _) fun head => ?_
    refine performs_idle_bind (performs_pure _) fun text => ?_
    exact performs_idle_bind (performs_idle (fun _ => rfl) fun _ => rfl) fun _ => performs_pure _
  · refine performs_bind_idle (performs_assignResults _ _ _ _ _) fun names => ?_
    refine performs_idle_bind (performs_line _ _) fun head => ?_
    refine performs_idle_bind (performs_pure _) fun text => ?_
    exact performs_idle_bind (performs_idle (fun _ => rfl) fun _ => rfl) fun _ => performs_pure _

theorem performs_call (s : Site) :
    Performs (match s.instruction.imm, sc.calleeAt s with
      | some _, some (index, callee) => callOperations index callee
      | _, _ => []) (call sc place s) := by
  unfold call Scene.calleeAt
  dsimp only
  cases s.instruction.imm with
  | none => exact performs_line _ _
  | some imm =>
    refine performs_idle_bind (performs_ofOutcome _) fun offset => ?_
    generalize s.callee.bind _ = callee
    cases callee with
    | some p => exact performs_callFunction p.1 p.2
    | none =>
      refine performs_idle_bind (performs_line _ _) fun text => ?_
      change Performs [] _
      cases sc.printer.labelAt? offset with
      | some label => exact performs_idle_bind (performs_line _ _) fun _ => performs_pure _
      | none => exact performs_pure _

theorem performs_returnNames (n : Nat) : Performs (lookBelow n) (returnNames n) := by
  induction n with
  | zero => exact performs_pure _
  | succ n ih =>
    unfold returnNames
    refine performs_cell_bind _ _ fun number => ?_
    refine performs_idle_bind (performs_updateVariable (by intro v; rfl) _) fun _ => ?_
    refine performs_idle_bind (performs_nameOf _) fun name => ?_
    exact performs_bind_idle ih fun _ => performs_pure _

theorem performs_ret (returns : Nat) (last : Bool) :
    Performs (lookBelow returns) (ret sc returns last) := by
  unfold ret
  refine performs_bind_idle ?_ fun text => ?_
  · unfold returnText
    dsimp only
    split_ifs with hnone
    · rw [hnone]
      exact performs_idle_bind (performs_line _ _) fun _ => performs_pure _
    · refine performs_idle_bind (performs_line _ _) fun head => ?_
      exact performs_bind_idle (performs_returnNames _) fun _ => performs_pure _
  · split_ifs
    · refine performs_idle_bind (performs_idle (fun _ => rfl) fun _ => rfl) fun _ => ?_
      exact performs_idle_bind (performs_line _ _) fun _ => performs_pure _
    · exact performs_pure _

theorem performs_body (returns : Nat) (s : Site) (last : Bool) :
    Performs (statementOperations sc returns s) (body sc place returns s last) := by
  unfold body statementOperations
  cases s.instruction.opcode with
  | assertEq =>
    refine performs_bind (performs_assertEq _) fun text => performs_ofOutcome_bind fun n hn => ?_
    have hrise : apRise sc s.instruction = max 0 n := by
      unfold apRise
      rw [hn]
    rw [hrise]
    exact performs_bind_idle (performs_modify fun d => ⟨.refl _, rfl⟩) fun _ => performs_pure _
  | nop => exact performs_nop s
  | call => exact performs_call s
  | ret => exact performs_ret returns last

/-- What a statement does to the memory, in either pass. -/
theorem performs_statement (returns : Nat) (s : Site) (last : Bool) :
    Performs (statementOperations sc returns s) (statement sc place returns s last) := by
  intro d text d' h
  obtain ⟨t, out, hbody⟩ := body_of_statement h
  have htabs : Performed [] d { d with tabs := t } := .of_eq rfl rfl
  exact htabs.trans (performs_body returns s last _ _ _ hbody)

end Steps

end Decompiler

end Cairoscope
