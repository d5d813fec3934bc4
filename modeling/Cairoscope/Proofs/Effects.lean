import Cairoscope.Proofs.Equality
import Cairoscope.Proofs.FirstPass
import Mathlib.Logic.Relation

/-! What a statement can do to the state. Every statement is a row of small effects, and there are few
kinds of them; an invariant of decompilation is one that each kind keeps. -/

namespace Cairoscope

open Relation (ReflTransGen)

inductive Memory.Change (function : Nat) : Memory → Memory → Prop
  | reach {m m' : Memory} {r : Register} {offset : Int} {a : Access}
      (h : m.access r offset = .ok (m', a)) : Change function m m'
  | move (m : Memory) (n : Int) : Change function m (m.moveAp n)
  /-- A variable for a result of a call. -/
  | append (m : Memory) (callee : Nat) (name : String) : Change function m
      (m.push fun v => { v with label := some name, function := some callee, isResult := true })
  | receive (m : Memory) (n : Nat) (block : Option Nat) (call : CallResult) : Change function m
      (m.update n fun v => { v with function := some function, block, value := some (.result call) })
  /-- An equality gives its variable a value unless it has one. -/
  | equal (m : Memory) (n : Nat) (value : Option Value) (block : Option Nat) : Change function m
      (m.update n fun v => { v with value := v.value.or value, function := some function, block })
  | test (m : Memory) (n : Nat) : Change function m
      (m.update n fun v => { v with function := some function })
  | hand (m : Memory) (n : Nat) : Change function m
      (m.update n fun v => { v with isReturned := true })

namespace Decompiler

inductive Effect (place : Place) (d : Decompiler) : Decompiler → Prop
  | idle {d' : Decompiler} (hmemory : d'.memory = d.memory) (hgraphs : d'.graphs = d.graphs) :
      Effect place d d'
  | change {m : Memory} (h : Memory.Change place.function d.memory m) :
      Effect place d { d with memory := m }
  | condition (n : Nat) :
      Effect place d (d.withBlock place fun b => { b with condition := some n })

/-- Whenever the step ends well, it was a row of effects. -/
def Does {α : Type} (place : Place) (x : Step α) : Prop :=
  ∀ d a d', x d = .ok a d' → ReflTransGen (Effect place) d d'

section Steps

variable {α β : Type} {sc : Scene} {place : Place}

theorem does_of_eq {x : Step α} (hx : ∀ {d a d'}, x d = .ok a d' → d = d') : Does place x := by
  intro d a d' h
  obtain rfl := hx h
  exact .refl

theorem does_pure (a : α) : Does place (pure a) := does_of_eq fun h => (Run.pure_eq_ok.1 h).2

theorem does_throw (e : Fault) : Does place (throw e : Step α) := fun _ _ _ h =>
  absurd h Run.throw_ne_ok

theorem does_bind {x : Step α} {f : α → Step β} (hx : Does place x) (hf : ∀ a, Does place (f a)) :
    Does place (x >>= f) := by
  intro d b d' h
  obtain ⟨a, d₁, hxd, hfd⟩ := Run.bind_eq_ok.1 h
  exact (hx _ _ _ hxd).trans (hf a _ _ _ hfd)

theorem does_get : Does place get := does_of_eq fun h => (Run.get_eq_ok.1 h).2

theorem does_ofOutcome (o : Outcome α) : Does place (Run.ofOutcome o) :=
  does_of_eq fun h => (Run.ofOutcome_eq_ok.1 h).2

theorem does_modify {f : Decompiler → Decompiler} (hf : ∀ d, Effect place d (f d)) :
    Does place (modify f) := by
  intro d b d' h
  obtain rfl := Run.modify_eq_ok.1 h
  exact .single (hf d)

theorem does_idle {f : Decompiler → Decompiler} (hmemory : ∀ d, (f d).memory = d.memory)
    (hgraphs : ∀ d, (f d).graphs = d.graphs) : Does place (modify f) :=
  does_modify fun d => .idle (hmemory d) (hgraphs d)

theorem does_cell (r : Register) (offset : Int) : Does place (cell r offset) := by
  intro d n d' h
  unfold cell at h
  rw [Run.get_bind] at h
  obtain ⟨⟨m, a⟩, _, hout, h⟩ := Run.bind_eq_ok.1 h
  obtain ⟨haccess, rfl⟩ := Run.ofOutcome_eq_ok.1 hout
  obtain ⟨_, _, hset, h⟩ := Run.bind_eq_ok.1 h
  obtain rfl := Run.set_eq_ok.1 hset
  obtain ⟨-, rfl⟩ := Run.pure_eq_ok.1 h
  exact .single (.change (.reach haccess))

theorem does_nameOf (n : Nat) : Does place (nameOf n) := does_of_eq fun h => (nameOf_eq_ok.1 h).2

theorem does_namesOf (ns : List Nat) : Does place (namesOf ns) := does_of_eq eq_of_namesOf

theorem does_mergedAt (p : Place) : Does place (mergedAt p) := does_of_eq eq_of_mergedAt

theorem does_currentBlock (p : Place) : Does place (currentBlock p) :=
  does_of_eq fun h => (currentBlock_eq_ok.1 h).2

theorem does_assertMark (n : Nat) : Does place (assertMark n) := does_of_eq eq_of_assertMark

theorem does_source (m : Meeting) (n : Nat) : Does place (m.source n) :=
  does_of_eq fun h => (pick_of_source h).2

theorem does_line (colour data : String) : Does place (line sc colour data) :=
  does_of_eq fun h => (line_eq_ok.1 h).2

theorem does_indent (n : Int) : Does place (indent n) := does_idle (fun _ => rfl) fun _ => rfl

theorem does_forM {γ : Type} {f : γ → Step Unit} (hf : ∀ c, Does place (f c)) (cs : List γ) :
    Does place (cs.forM f) := by
  induction cs with
  | nil => exact does_pure _
  | cons c cs ih => exact does_bind (hf c) fun _ => ih

-- Equalities. A shape of equality ends with the value of its cell, and only afterwards is the cell given to
-- the function.

/-- The step writes to the cell that it returns, and to no other, after some effects. -/
def Settles (place : Place) (x : Step (Nat × String)) : Prop :=
  ∀ d p d', x d = .ok p d' → ∃ e value, ReflTransGen (Effect place) d e ∧ d'.graphs = e.graphs ∧
    d'.memory = e.memory.update p.1 fun v => { v with value := v.value.or value }

theorem settles_bind {x : Step α} {f : α → Step (Nat × String)} (hx : Does place x)
    (hf : ∀ a, Settles place (f a)) : Settles place (x >>= f) := by
  intro d p d' h
  obtain ⟨a, d₁, hxd, hfd⟩ := Run.bind_eq_ok.1 h
  obtain ⟨e, value, heffects, hrest⟩ := hf a _ _ _ hfd
  exact ⟨e, value, (hx _ _ _ hxd).trans heffects, hrest⟩

/-- The step returns this cell and writes to none. -/
def Names (n : Nat) (x : Step (Nat × String)) : Prop :=
  ∀ d p d', x d = .ok p d' → p.1 = n ∧ d'.memory = d.memory ∧ d'.graphs = d.graphs

theorem names_written (colour : String) (f : String → String) (n : Nat) :
    Names n (nameOf n >>= fun name => line sc colour (f name) >>= fun out => pure (n, out)) := by
  rintro d ⟨k, text⟩ d' h
  obtain ⟨rfl, rfl⟩ := eq_of_written h
  exact ⟨rfl, rfl, rfl⟩

theorem names_pure (n : Nat) (text : String) : Names n (pure (n, text)) := by
  intro d p d' h
  obtain ⟨rfl, rfl⟩ := Run.pure_eq_ok.1 h
  exact ⟨rfl, rfl, rfl⟩

theorem names_counted {f : Decompiler → Decompiler} (hmemory : ∀ d, (f d).memory = d.memory)
    (hgraphs : ∀ d, (f d).graphs = d.graphs) (n : Nat) (text : String) :
    Names n (modify f >>= fun _ => pure (n, text)) := by
  intro d p d' h
  rw [Run.modify_bind] at h
  obtain ⟨rfl, rfl⟩ := Run.pure_eq_ok.1 h
  exact ⟨rfl, hmemory d, hgraphs d⟩

theorem names_bind {x : Step α} {f : α → Step (Nat × String)} {n : Nat}
    (hx : ∀ {d a d'}, x d = .ok a d' → d = d') (hf : ∀ a, Names n (f a)) : Names n (x >>= f) := by
  intro d p d' h
  obtain ⟨a, _, hxd, hfd⟩ := Run.bind_eq_ok.1 h
  obtain rfl := hx hxd
  exact hf a _ _ _ hfd

theorem settles_define {n : Nat} {rest : Step (Nat × String)} (hrest : Names n rest) (x : Value) :
    Settles place (define n x >>= fun _ => rest) := by
  intro d p d' h
  obtain ⟨_, _, hdefine, h⟩ := Run.bind_eq_ok.1 h
  obtain rfl := updateVariable_eq_ok.1 hdefine
  obtain ⟨hn, hmemory, hgraphs⟩ := hrest _ _ _ h
  refine ⟨d, some x, .refl, hgraphs, ?_⟩
  rw [hmemory, hn]
  refine congrArg (d.memory.update n) (funext fun v => ?_)
  obtain ⟨_, _, _, _, _, _, _, value⟩ := v
  cases value with
  | none => rfl
  | some y => rfl

theorem settles_of_names {n : Nat} {rest : Step (Nat × String)} (hrest : Names n rest) :
    Settles place rest := by
  intro d p d' h
  obtain ⟨hn, hmemory, hgraphs⟩ := hrest _ _ _ h
  refine ⟨d, none, .refl, hgraphs, hmemory.trans ?_⟩
  have hid : (fun v : Variable => { v with value := v.value.or none }) = id := by
    funext v
    simp
  rw [hid, Memory.update, List.modify_id]

theorem settles_assignImmediate (i : Instruction) : Settles place (assignImmediate sc i) := by
  unfold assignImmediate
  refine settles_bind (does_ofOutcome _) fun reading => ?_
  refine settles_bind (does_ofOutcome _) fun numeral => ?_
  refine settles_bind (does_cell _ _) fun dst => settles_bind (does_assertMark _) fun mark => ?_
  refine settles_define ?_ _
  refine names_bind (fun h => (nameOf_eq_ok.1 h).2) fun name => ?_
  refine names_bind (fun h => (line_eq_ok.1 h).2) fun text => ?_
  dsimp only
  by_cases hmark : mark ≠ ""
  · rw [if_pos hmark]
    exact names_counted (by intro d; rfl) (by intro d; rfl) _ _
  · rw [if_neg hmark]
    exact names_pure _ _

theorem settles_assignLoad (m : Meeting) (i : Instruction) : Settles place (assignLoad sc m i) := by
  unfold assignLoad
  refine settles_bind (does_cell _ _) fun dst => settles_bind (does_assertMark _) fun mark => ?_
  refine settles_bind (does_cell _ _) fun n => settles_bind (does_source _ _) fun base => ?_
  exact settles_define (names_written _ _ _) _

theorem settles_assignCopy (m : Meeting) (i : Instruction) : Settles place (assignCopy sc m i) := by
  unfold assignCopy
  refine settles_bind (does_cell _ _) fun dst => settles_bind (does_assertMark _) fun mark => ?_
  refine settles_bind (does_cell _ _) fun n => settles_bind (does_source _ _) fun source => ?_
  exact settles_define (names_written _ _ _) _

theorem settles_assignCells (m : Meeting) (op : String) (i : Instruction) :
    Settles place (assignCells sc m op i) := by
  unfold assignCells
  refine settles_bind (does_cell _ _) fun dst => settles_bind (does_assertMark _) fun mark => ?_
  refine settles_bind (does_cell _ _) fun n => settles_bind (does_source _ _) fun left => ?_
  refine settles_bind (does_cell _ _) fun n => settles_bind (does_source _ _) fun right => ?_
  exact settles_define (names_written _ _ _) _

theorem settles_assignCellImmediate (m : Meeting) (op : String) (i : Instruction) :
    Settles place (assignCellImmediate sc place m op i) := by
  unfold assignCellImmediate
  refine settles_bind (does_cell _ _) fun dst => settles_bind (does_assertMark _) fun mark => ?_
  refine settles_bind (does_cell _ _) fun n => settles_bind ?_ fun left => ?_
  · exact does_of_eq fun h => (pick_of_immediateSource h).2
  have hend : ∀ text, Names dst (nameOf dst >>= fun name =>
      line sc sc.printer.palette.green (mark ++ name ++ " = " ++ left.text ++ " " ++ text) >>= fun out =>
        (modify fun d => { d with newInBlock := d.newInBlock + 1 }) >>= fun _ => pure (dst, out)) := by
    intro text
    refine names_bind (fun h => (nameOf_eq_ok.1 h).2) fun name => ?_
    refine names_bind (fun h => (line_eq_ok.1 h).2) fun out => ?_
    exact names_counted (by intro d; rfl) (by intro d; rfl) _ _
  cases Field.small (i.imm.getD 0) sc.printer.prime with
  | ok k => exact settles_define (hend _) _
  | error e => exact settles_of_names (hend _)

theorem settles_assign (m : Meeting) (i : Instruction) : Settles place (assign sc place m i) := by
  unfold assign
  split_ifs
  · split
    · exact settles_assignImmediate i
    · exact settles_assignLoad m i
    · exact settles_assignCopy m i
  · refine settles_bind (does_ofOutcome _) fun op => ?_
    split
    · exact settles_assignCellImmediate m op i
    · exact settles_assignCells m op i

theorem does_assertEq (i : Instruction) : Does place (assertEq sc place i) := by
  unfold assertEq
  refine does_bind (does_of_eq eq_of_meeting) fun m => ?_
  intro d text d' h
  obtain ⟨p, d₁, hassign, h⟩ := Run.bind_eq_ok.1 h
  obtain ⟨e, value, heffects, hgraphs, hmemory⟩ := settles_assign m i _ _ _ hassign
  obtain ⟨b, _, hb, h⟩ := Run.bind_eq_ok.1 h
  obtain ⟨-, rfl⟩ := currentBlock_eq_ok.1 hb
  obtain ⟨_, _, hupdate, h⟩ := Run.bind_eq_ok.1 h
  obtain rfl := updateVariable_eq_ok.1 hupdate
  obtain ⟨-, rfl⟩ := Run.pure_eq_ok.1 h
  -- the two writes to the cell are one change
  refine (heffects.tail (.change (.equal e.memory p.1 value (b.map (·.id))))).tail (.idle ?_ hgraphs)
  change d₁.memory.update p.1 _ = _
  rw [hmemory, Memory.update, Memory.update, List.modify_modify_eq]
  rfl

theorem does_branch (s : Site) : Does place (branch sc place s) := by
  unfold branch
  refine does_bind (does_cell _ _) fun tested => ?_
  refine does_bind (does_modify fun d => .condition tested) fun _ => ?_
  refine does_bind (does_line _ _) fun head => does_bind (does_nameOf _) fun name => ?_
  refine does_bind (does_modify fun d => .change (.test d.memory tested)) fun _ => ?_
  refine does_bind (does_indent _) fun _ => ?_
  refine does_bind (does_idle (fun _ => rfl) fun _ => rfl) fun _ => ?_
  split
  · exact does_throw _
  · refine does_bind (does_ofOutcome _) fun n => ?_
    dsimp only
    split_ifs
    · exact does_bind (does_idle (fun _ => rfl) fun _ => rfl) fun _ => does_pure _
    · exact does_pure _

theorem does_relativeJump (imm : Int) (s : Site) : Does place (relativeJump sc imm s) := by
  unfold relativeJump
  refine does_bind does_get fun d => ?_
  split_ifs
  · refine does_bind (does_indent _) fun _ => does_bind (does_line _ _) fun text => ?_
    refine does_bind (does_indent _) fun _ => does_bind (does_ofOutcome _) fun n => ?_
    exact does_bind (does_idle (fun _ => rfl) fun _ => rfl) fun _ => does_pure _
  · exact does_line _ _

theorem does_nop (s : Site) : Does place (nop sc place s) := by
  unfold nop
  dsimp only
  split
  · exact does_branch s
  · exact does_relativeJump _ s
  · split_ifs
    · exact does_line _ _
    · exact does_pure _
  · exact does_pure _

theorem does_callArguments (n : Nat) : Does place (callArguments place n) := by
  induction n with
  | zero => exact does_pure _
  | succ n ih =>
    unfold callArguments
    refine does_bind (does_currentBlock _) fun b => does_bind does_get fun d => ?_
    have hrest : ∀ numbers : List Nat, Does place (do
        let number ← cell .ap (-(n + 1 : Nat))
        let argument ← if numbers.contains number then
            do pure (CallArgument.merged numbers, phiText (← namesOf numbers))
          else do pure (CallArgument.single number, ← nameOf number)
        return argument :: (← callArguments place n)) := by
      intro numbers
      refine does_bind (does_cell _ _) fun number => ?_
      dsimp only
      split_ifs
      · refine does_bind (does_namesOf _) fun names => ?_
        exact does_bind (does_pure _) fun _ => does_bind ih fun _ => does_pure _
      · refine does_bind (does_nameOf _) fun name => ?_
        exact does_bind (does_pure _) fun _ => does_bind ih fun _ => does_pure _
    dsimp only
    split_ifs
    · exact does_bind (does_mergedAt _) hrest
    · exact hrest []

theorem does_assignResults (callee : Nat) (returns : List String) (arguments : List CallArgument)
    (i : Nat) (names : List String) :
    Does place (assignResults place callee returns arguments i names) := by
  induction names generalizing i with
  | nil => exact does_pure _
  | cons name names ih =>
    unfold assignResults
    refine does_bind (does_cell _ _) fun number => does_bind (does_currentBlock _) fun b => ?_
    refine does_bind does_get fun d => ?_
    refine does_bind (does_modify fun d => .change (.receive d.memory number _ _)) fun _ => ?_
    exact does_bind (does_nameOf _) fun text => does_bind (ih _) fun _ => does_pure _

theorem does_callFunction (index : Nat) (callee : Function) :
    Does place (callFunction sc place index callee) := by
  unfold callFunction
  refine does_bind (does_callArguments _) fun arguments => ?_
  refine does_bind (does_forM (fun name => ?_) _) fun _ => ?_
  · exact does_modify fun d => .change (.append d.memory index name)
  dsimp only
  split_ifs
  · refine does_bind (does_line _ _) fun head => does_bind (does_pure _) fun text => ?_
    exact does_bind (does_idle (fun _ => rfl) fun _ => rfl) fun _ => does_pure _
  · refine does_bind (does_assignResults _ _ _ _ _) fun names => ?_
    refine does_bind (does_line _ _) fun head => does_bind (does_pure _) fun text => ?_
    exact does_bind (does_idle (fun _ => rfl) fun _ => rfl) fun _ => does_pure _

theorem does_call (s : Site) : Does place (call sc place s) := by
  unfold call
  dsimp only
  split
  · exact does_line _ _
  · refine does_bind (does_ofOutcome _) fun offset => ?_
    split
    · exact does_callFunction _ _
    · refine does_bind (does_line _ _) fun text => ?_
      split
      · exact does_bind (does_line _ _) fun label => does_pure _
      · exact does_pure _

theorem does_returnNames (n : Nat) : Does place (returnNames n) := by
  induction n with
  | zero => exact does_pure _
  | succ n ih =>
    unfold returnNames
    refine does_bind (does_cell _ _) fun number => ?_
    refine does_bind (does_modify fun d => .change (.hand d.memory number)) fun _ => ?_
    exact does_bind (does_nameOf _) fun name => does_bind ih fun _ => does_pure _

theorem does_ret (returns : Nat) (last : Bool) : Does place (ret sc returns last) := by
  unfold ret
  refine does_bind ?_ fun text => ?_
  · unfold returnText
    dsimp only
    split_ifs
    · exact does_bind (does_line _ _) fun _ => does_pure _
    · refine does_bind (does_line _ _) fun head => ?_
      exact does_bind (does_returnNames _) fun _ => does_pure _
  · split_ifs
    · refine does_bind (does_idle (fun _ => rfl) fun _ => rfl) fun _ => ?_
      exact does_bind (does_line _ _) fun _ => does_pure _
    · exact does_pure _

theorem does_body (returns : Nat) (s : Site) (last : Bool) :
    Does place (body sc place returns s last) := by
  unfold body
  cases s.instruction.opcode with
  | assertEq =>
    refine does_bind (does_assertEq _) fun text => does_bind (does_ofOutcome _) fun n => ?_
    exact does_bind (does_modify fun d => .change (.move d.memory _)) fun _ => does_pure _
  | nop => exact does_nop s
  | call => exact does_call s
  | ret => exact does_ret returns last

theorem does_statement (returns : Nat) (s : Site) (last : Bool) :
    Does place (statement sc place returns s last) := by
  intro d text d' h
  obtain ⟨t, out, hbody⟩ := body_of_statement h
  have htabs : Effect place d { d with tabs := t } := .idle rfl rfl
  exact .head htabs (does_body returns s last _ _ _ hbody)

end Steps

end Decompiler

end Cairoscope
