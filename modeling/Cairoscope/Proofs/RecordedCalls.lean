import Cairoscope.Proofs.Assertions
import Cairoscope.Proofs.CallResults

/-! The calls that a first pass records. A result of a call names the call and its arguments; each such record was
made by a call statement, and its arguments are the cells below `ap` at that moment, one for each explicit
argument of the callee. -/

namespace Cairoscope

namespace Memory

/-- A call that the second memory records was recorded in the first, or is one of `new`. -/
def Gains (new : CallResult → Prop) (m m' : Memory) : Prop :=
  ∀ v ∈ m'.cells, ∀ c, v.value = some (.result c) → (∃ w ∈ m.cells, w.value = some (.result c)) ∨ new c

namespace Gains

variable {new new' : CallResult → Prop} {m m' m'' : Memory}

theorem refl (new : CallResult → Prop) (m : Memory) : Gains new m m := fun v hv _ hc => .inl ⟨v, hv, hc⟩

theorem trans (h : Gains new m m') (h' : Gains new m' m'') : Gains new m m'' := by
  intro v hv c hc
  rcases h' v hv c hc with ⟨w, hw, hwc⟩ | hnew
  · exact h w hw c hwc
  · exact .inr hnew

theorem mono (h : Gains new m m') (hnew : ∀ c, new c → new' c) : Gains new' m m' :=
  fun v hv c hc => (h v hv c hc).imp_right (hnew c)

theorem of_grows {values : Nat → Value → Prop} (h : Grows values m m')
    (hvalues : ∀ q c, ¬values q (.result c)) : Gains new m m' := by
  intro v hv c hc
  obtain ⟨q, hq⟩ := List.getElem?_of_mem hv
  rcases h.value q v _ hq hc with ⟨w, hw, hwc⟩ | hvalue
  · exact .inl ⟨w, List.mem_of_getElem? hw, hwc⟩
  · exact absurd hvalue (hvalues q c)

/-- The one change that records a call. -/
theorem update {n : Nat} {f : Variable → Variable} {call : CallResult} (hcall : new call)
    (hf : ∀ v, (f v).value = some (.result call)) : Gains new m (m.update n f) := by
  intro v hv c hc
  obtain ⟨q, hq⟩ := List.getElem?_of_mem hv
  rw [getElem?_update] at hq
  split_ifs at hq
  · obtain ⟨w, -, rfl⟩ := Option.map_eq_some_iff.1 hq
    obtain rfl : call = c := by simpa [hf] using hc
    exact .inr hcall
  · exact .inl ⟨v, List.mem_of_getElem? hq, hc⟩

end Gains

end Memory

namespace Decompiler

/-- What a step does, as far as the recorded calls and the pass are concerned. -/
structure Gained (new : CallResult → Prop) (d d' : Decompiler) : Prop where
  memory : d.memory.Gains new d'.memory
  firstPass : d'.firstPass = d.firstPass

theorem Gained.refl (new : CallResult → Prop) (d : Decompiler) : Gained new d d := ⟨.refl _ _, rfl⟩

theorem Gained.trans {new : CallResult → Prop} {d d' d'' : Decompiler} (h : Gained new d d')
    (h' : Gained new d' d'') : Gained new d d'' :=
  ⟨h.memory.trans h'.memory, h'.firstPass.trans h.firstPass⟩

theorem Gained.mono {new new' : CallResult → Prop} {d d' : Decompiler} (h : Gained new d d')
    (hnew : ∀ c, new c → new' c) : Gained new' d d' := ⟨h.memory.mono hnew, h.firstPass⟩

theorem Gained.of_grows {new : CallResult → Prop} {d d' : Decompiler}
    (hmemory : d.memory.Grows (fun _ _ => False) d'.memory) (hfirst : d'.firstPass = d.firstPass) :
    Gained new d d' := ⟨.of_grows hmemory fun _ _ h => h, hfirst⟩

/-- Whenever the step ends well, it has recorded no calls but `new` ones. -/
def Gaining {α : Type} (new : CallResult → Prop) (x : Step α) : Prop :=
  ∀ d a d', x d = .ok a d' → Gained new d d'

section Steps

variable {α β : Type} {sc : Scene} {place : Place} {new : CallResult → Prop}

theorem gaining_of_eq {x : Step α} (hx : ∀ {d a d'}, x d = .ok a d' → d = d') : Gaining new x := by
  intro d a d' h
  obtain rfl := hx h
  exact .refl new d

theorem gaining_pure (a : α) : Gaining new (pure a) := gaining_of_eq fun h => (Run.pure_eq_ok.1 h).2

theorem gaining_throw (e : Fault) : Gaining new (throw e : Step α) := fun _ _ _ h => absurd h Run.throw_ne_ok

theorem gaining_bind {x : Step α} {f : α → Step β} (hx : Gaining new x) (hf : ∀ a, Gaining new (f a)) :
    Gaining new (x >>= f) := by
  intro d b d' h
  obtain ⟨a, d₁, hxd, hfd⟩ := Run.bind_eq_ok.1 h
  exact (hx _ _ _ hxd).trans (hf a _ _ _ hfd)

theorem gaining_modify {f : Decompiler → Decompiler} (hf : ∀ d, Gained new d (f d)) :
    Gaining new (modify f) := by
  intro d u d' h
  obtain rfl := Run.modify_eq_ok.1 h
  exact hf d

theorem gaining_idle {f : Decompiler → Decompiler} (hmemory : ∀ d, (f d).memory = d.memory)
    (hfirst : ∀ d, (f d).firstPass = d.firstPass) : Gaining new (modify f) :=
  gaining_modify fun d => .of_grows (.of_cells_eq (by rw [hmemory]) (by rw [hmemory])) (hfirst d)

theorem gaining_cell (r : Register) (offset : Int) : Gaining new (cell r offset) := by
  intro d n d' h
  obtain ⟨m, hwidens, -, rfl⟩ := cellAt_of_cell h
  exact .of_grows hwidens.grows rfl

theorem gaining_nameOf (n : Nat) : Gaining new (nameOf n) := gaining_of_eq fun h => (nameOf_eq_ok.1 h).2

theorem gaining_line (colour data : String) : Gaining new (line sc colour data) :=
  gaining_of_eq fun h => (line_eq_ok.1 h).2

theorem gaining_ofOutcome (o : Outcome α) : Gaining new (Run.ofOutcome o) :=
  gaining_of_eq fun h => (Run.ofOutcome_eq_ok.1 h).2

theorem gaining_indent (n : Int) : Gaining new (indent n) := gaining_idle (fun _ => rfl) fun _ => rfl

theorem gaining_forM {γ : Type} {f : γ → Step Unit} (hf : ∀ c, Gaining new (f c)) (cs : List γ) :
    Gaining new (cs.forM f) := by
  induction cs with
  | nil => exact gaining_pure _
  | cons c cs ih => exact gaining_bind (hf c) fun _ => ih

theorem gaining_assertEq (i : Instruction) : Gaining new (assertEq sc place i) := by
  intro d text d' h
  obtain ⟨mt, _, hm, -⟩ := Run.bind_eq_ok.1 h
  obtain rfl := eq_of_meeting hm
  obtain ⟨dst, value, hassigned⟩ := assigned_of_assertEq hm h
  refine ⟨.of_grows hassigned.records.grows ?_, ?_⟩
  · rintro q c ⟨-, hvalue⟩
    have hassigns := hassigned.records.assigns
    rw [hvalue] at hassigns
    cases hassigns
  · obtain ⟨m, n, as, rfl⟩ := hassigned.rest
    rfl

theorem gaining_branch (s : Site) : Gaining new (branch sc place s) := by
  unfold branch
  refine gaining_bind (gaining_cell _ _) fun tested => ?_
  refine gaining_bind (gaining_idle (fun _ => rfl) fun _ => rfl) fun _ => ?_
  refine gaining_bind (gaining_line _ _) fun head => gaining_bind (gaining_nameOf _) fun name => ?_
  refine gaining_bind (gaining_modify fun d => ?_) fun _ => ?_
  · exact .of_grows (.update_of_value_eq (fun _ => rfl) fun _ => rfl) rfl
  refine gaining_bind (gaining_indent _) fun _ => ?_
  refine gaining_bind (gaining_idle (fun _ => rfl) fun _ => rfl) fun _ => ?_
  split
  · exact gaining_throw _
  · refine gaining_bind (gaining_ofOutcome _) fun n => ?_
    dsimp only
    split_ifs
    · exact gaining_bind (gaining_idle (fun _ => rfl) fun _ => rfl) fun _ => gaining_pure _
    · exact gaining_pure _

theorem gaining_relativeJump (imm : Int) (s : Site) : Gaining new (relativeJump sc imm s) := by
  unfold relativeJump
  refine gaining_bind (gaining_of_eq fun h => (Run.get_eq_ok.1 h).2) fun d => ?_
  split_ifs
  · refine gaining_bind (gaining_indent _) fun _ => gaining_bind (gaining_line _ _) fun text => ?_
    refine gaining_bind (gaining_indent _) fun _ => gaining_bind (gaining_ofOutcome _) fun n => ?_
    exact gaining_bind (gaining_idle (fun _ => rfl) fun _ => rfl) fun _ => gaining_pure _
  · exact gaining_line _ _

theorem gaining_nop (s : Site) : Gaining new (nop sc place s) := by
  unfold nop
  dsimp only
  split
  · exact gaining_branch s
  · exact gaining_relativeJump _ s
  · split_ifs
    · exact gaining_line _ _
    · exact gaining_pure _
  · exact gaining_pure _

theorem gaining_assignResults (callee : Nat) (returns : List String) (arguments : List CallArgument) (i : Nat)
    (names : List String) : Gaining (fun c => c.function = callee ∧ c.arguments = arguments)
      (assignResults place callee returns arguments i names) := by
  induction names generalizing i with
  | nil => exact gaining_pure _
  | cons name names ih =>
    unfold assignResults
    refine gaining_bind (gaining_cell _ _) fun number => ?_
    refine gaining_bind (gaining_of_eq fun h => (currentBlock_eq_ok.1 h).2) fun b => ?_
    refine gaining_bind (gaining_of_eq fun h => (Run.get_eq_ok.1 h).2) fun d => ?_
    refine gaining_bind (gaining_modify fun e => ⟨.update ⟨rfl, rfl⟩ fun _ => rfl, rfl⟩) fun _ => ?_
    exact gaining_bind (gaining_nameOf _) fun text => gaining_bind (ih _) fun _ => gaining_pure _

/-- In a first pass the arguments of a call are the cells below `ap`, from the deepest up. -/
theorem passed_of_callArguments {n : Nat} {arguments : List (CallArgument × String)} {d d' : Decompiler}
    (hfirst : d.firstPass = true) (h : callArguments place n d = .ok arguments d') :
    Gained new d d' ∧ (arguments.map (·.1)).length = n ∧
      ∀ (i : Nat) (a : CallArgument), (arguments.map (·.1))[i]? = some a →
        ∃ k, a = .single k ∧ (0 ≤ d.memory.ap - n + i → (k : Int) = d.memory.ap - n + i) := by
  induction n generalizing d arguments with
  | zero =>
    obtain ⟨rfl, rfl⟩ := Run.pure_eq_ok.1 h
    exact ⟨.refl new d, rfl, by simp⟩
  | succ n ih =>
    unfold callArguments at h
    rw [Run.bind_of_ok (currentBlock_eq_ok.2 ⟨rfl, rfl⟩), Run.get_bind] at h
    dsimp only at h
    rw [if_neg (by simp [hfirst])] at h
    obtain ⟨_, _, hnone, h⟩ := Run.bind_eq_ok.1 h
    obtain ⟨rfl, rfl⟩ := Run.pure_eq_ok.1 hnone
    obtain ⟨number, _, hcell, h⟩ := Run.bind_eq_ok.1 h
    obtain ⟨m, hwidens, hat, rfl⟩ := cellAt_of_cell hcell
    rw [if_neg (by simp)] at h
    obtain ⟨name, _, hname, h⟩ := Run.bind_eq_ok.1 h
    obtain ⟨-, rfl⟩ := nameOf_eq_ok.1 hname
    obtain ⟨_, _, hsingle, h⟩ := Run.bind_eq_ok.1 h
    obtain ⟨rfl, rfl⟩ := Run.pure_eq_ok.1 hsingle
    obtain ⟨rest, _, hrest, h⟩ := Run.bind_eq_ok.1 h
    obtain ⟨rfl, rfl⟩ := Run.pure_eq_ok.1 h
    obtain ⟨hgained, hlength, hpassed⟩ := ih (d := { d with memory := m }) hfirst hrest
    have hap : m.ap = d.memory.ap := hwidens.registers .ap
    dsimp only at hpassed
    rw [hap] at hpassed
    have hwidened : Gained new d { d with memory := m } := .of_grows hwidens.grows rfl
    refine ⟨hwidened.trans hgained, by simpa using hlength, fun i a ha => ?_⟩
    cases i with
    | zero =>
      obtain rfl : CallArgument.single number = a := by simpa using ha
      refine ⟨number, rfl, fun hp => ?_⟩
      have hnumber := hat.number
      change 0 ≤ d.memory.ap + _ → _ = d.memory.ap + _ at hnumber
      omega
    | succ i =>
      obtain ⟨k, rfl, hk⟩ := hpassed i a (by simpa using ha)
      exact ⟨k, rfl, by omega⟩

/-- The call is what the statement at this moment makes: its arguments are the cells below `ap`, one for each
explicit argument of the callee. -/
structure Passes (sc : Scene) (μ : Moment) (callee : Function) (c : CallResult) : Prop where
  known : sc.calleeAt μ.site = some (c.function, callee)
  length : c.arguments.length = callee.explicit.length
  argument : ∀ (i : Nat) (a : CallArgument), c.arguments[i]? = some a → ∃ k, a = .single k ∧
    (0 ≤ μ.memory.ap - callee.explicit.length + i → (k : Int) = μ.memory.ap - callee.explicit.length + i)

theorem Passes.callee {μ : Moment} {callee : Function} {c : CallResult} (h : Passes sc μ callee c) :
    sc.functions[c.function]? = some callee := by
  have hknown := h.known
  simp only [Scene.calleeAt, Option.bind_eq_bind, Option.bind_eq_some_iff] at hknown
  obtain ⟨name, -, index, -, f, hf, hpair⟩ := hknown
  cases hpair
  exact hf

theorem gained_of_callFunction {s : Site} {index : Nat} {callee : Function} {d d' : Decompiler} {text : String}
    (hcallee : sc.calleeAt s = some (index, callee)) (hfirst : d.firstPass = true)
    (h : callFunction sc place index callee d = .ok text d') :
    Gained (fun c => ∃ callee, Passes sc ⟨s, d.memory⟩ callee c) d d' := by
  unfold callFunction at h
  obtain ⟨arguments, d₁, harguments, h⟩ := Run.bind_eq_ok.1 h
  obtain ⟨hgained, hlength, hpassed⟩ := passed_of_callArguments hfirst harguments
  have hrest : Gained (fun c => c.function = index ∧ c.arguments = arguments.map (·.1)) d₁ d' := by
    refine gaining_bind (gaining_forM (fun name => gaining_modify fun d => ?_) _) (fun _ => ?_) _ _ _ h
    · exact .of_grows (.push (fun _ => rfl) fun _ => rfl) rfl
    dsimp only
    split_ifs
    · refine gaining_bind (gaining_line _ _) fun head => gaining_bind (gaining_pure _) fun text => ?_
      exact gaining_bind (gaining_idle (fun _ => rfl) fun _ => rfl) fun _ => gaining_pure _
    · refine gaining_bind (gaining_assignResults _ _ _ _ _) fun names => ?_
      refine gaining_bind (gaining_line _ _) fun head => gaining_bind (gaining_pure _) fun text => ?_
      exact gaining_bind (gaining_idle (fun _ => rfl) fun _ => rfl) fun _ => gaining_pure _
  refine hgained.trans (hrest.mono ?_)
  rintro c ⟨rfl, hc⟩
  exact ⟨callee, hcallee, hc ▸ hlength, hc ▸ hpassed⟩

theorem gained_of_call {s : Site} {d d' : Decompiler} {text : String} (hfirst : d.firstPass = true)
    (h : call sc place s d = .ok text d') :
    Gained (fun c => ∃ callee, Passes sc ⟨s, d.memory⟩ callee c) d d' := by
  unfold call at h
  dsimp only at h
  cases himm : s.instruction.imm with
  | none =>
    rw [himm] at h
    exact gaining_line _ _ _ _ _ h
  | some imm =>
    rw [himm] at h
    obtain ⟨offset, _, hsmall, h⟩ := Run.bind_eq_ok.1 h
    obtain ⟨-, rfl⟩ := Run.ofOutcome_eq_ok.1 hsmall
    cases hcallee : sc.calleeAt s with
    | some p =>
      rw [Scene.calleeAt] at hcallee
      rw [hcallee] at h
      exact gained_of_callFunction hcallee hfirst h
    | none =>
      rw [Scene.calleeAt] at hcallee
      rw [hcallee] at h
      refine gaining_bind (gaining_line _ _) (fun text => ?_) _ _ _ h
      split
      · exact gaining_bind (gaining_line _ _) fun _ => gaining_pure _
      · exact gaining_pure _

/-- The one statement that records calls is a call, and what it records is that call. -/
theorem gained_of_statement {returns : Nat} {s : Site} {d d' : Decompiler} {text : String}
    (hfirst : d.firstPass = true) (h : statement sc place returns s false d = .ok text d') :
    Gained (fun c => ∃ callee, Passes sc ⟨s, d.memory⟩ callee c) d d' := by
  obtain ⟨t, out, hbody⟩ := body_of_statement h
  have hgained : Gained (fun c => ∃ callee, Passes sc ⟨s, d.memory⟩ callee c) { d with tabs := t } d' := by
    unfold body at hbody
    cases hopcode : s.instruction.opcode with
    | assertEq =>
      simp only [hopcode] at hbody
      refine gaining_bind (gaining_assertEq _) (fun text => ?_) _ _ _ hbody
      refine gaining_bind (gaining_ofOutcome _) fun n => ?_
      exact gaining_bind (gaining_modify fun e => .of_grows (.of_cells_eq rfl rfl) rfl) fun _ => gaining_pure _
    | nop =>
      simp only [hopcode] at hbody
      exact gaining_nop s _ _ _ hbody
    | call =>
      simp only [hopcode] at hbody
      exact gained_of_call (d := { d with tabs := t }) hfirst hbody
    | ret =>
      obtain ⟨hgrows, -, hsame⟩ := grows_of_statement hopcode h
      exact .of_grows hgrows hsame
  exact ⟨hgained.memory, hgained.firstPass⟩

end Steps

section Runs

variable {sc : Scene} {f : Function} {imported : Bool} {d d' : Decompiler}

def MadeIn (sc : Scene) (moments : List Moment) (c : CallResult) : Prop :=
  ∃ μ ∈ moments, ∃ callee, Passes sc μ callee c

theorem MadeIn.left {front : List Moment} {c : CallResult} (h : MadeIn sc front c) (back : List Moment) :
    MadeIn sc (front ++ back) c := by
  obtain ⟨μ, hμ, hpasses⟩ := h
  exact ⟨μ, List.mem_append_left back hμ, hpasses⟩

theorem MadeIn.right {back : List Moment} {c : CallResult} (h : MadeIn sc back c) (front : List Moment) :
    MadeIn sc (front ++ back) c := by
  obtain ⟨μ, hμ, hpasses⟩ := h
  exact ⟨μ, List.mem_append_right front hμ, hpasses⟩

theorem gained_append {front back : List Moment} {e : Decompiler} (h : Gained (MadeIn sc front) d e)
    (h' : Gained (MadeIn sc back) e d') : Gained (MadeIn sc (front ++ back)) d d' :=
  (h.mono fun _ hc => hc.left back).trans (h'.mono fun _ hc => hc.right front)

theorem gained_sites {place : Place} {returns : Nat} {sites : List Site} {u : Unit}
    (hfirst : d.firstPass = true)
    (h : (sites.forM fun s => do let _ ← statement sc place returns s false) d = .ok u d') :
    Gained (MadeIn sc (sitesLog sc place returns sites d)) d d' := by
  induction sites generalizing d with
  | nil =>
    obtain ⟨-, rfl⟩ := Run.pure_eq_ok.1 h
    exact .refl _ d
  | cons s sites ih =>
    obtain ⟨_, _, hone, h⟩ := Run.bind_eq_ok.1 h
    obtain ⟨text, d₁, hs, hpure⟩ := Run.bind_eq_ok.1 hone
    obtain ⟨-, rfl⟩ := Run.pure_eq_ok.1 hpure
    have hgained := gained_of_statement hfirst hs
    unfold sitesLog
    rw [after?_eq_some_iff.2 ⟨_, hs⟩]
    have hmade : Gained (MadeIn sc [⟨s, d.memory⟩]) d d₁ :=
      hgained.mono fun c hc => ⟨_, List.mem_singleton_self _, hc⟩
    exact gained_append hmade (ih (hgained.firstPass.trans hfirst) h)

theorem gained_blocks {function block : Nat} {blocks : List Block} {u : Unit} (hfirst : d.firstPass = true)
    (h : scanBlocks sc f function block blocks d = .ok u d') :
    Gained (MadeIn sc (blocksLog sc f function block blocks d)) d d' := by
  induction blocks generalizing d block with
  | nil =>
    obtain ⟨-, rfl⟩ := Run.pure_eq_ok.1 h
    exact .refl _ d
  | cons b blocks ih =>
    obtain ⟨_, d₁, hscan, h⟩ := Run.bind_eq_ok.1 h
    unfold blocksLog
    rw [after?_eq_some_iff.2 ⟨_, hscan⟩]
    unfold scanBlock at hscan
    rw [Run.modify_bind, Run.get_bind] at hscan
    obtain ⟨_, d₂, hwalk, hscan⟩ := Run.bind_eq_ok.1 hscan
    have hwalked := gained_sites (d := { d with newInBlock := 0 }) hfirst hwalk
    have hblock : Gained (MadeIn sc
        (sitesLog sc ⟨function, block⟩ f.returns.length b.sites { d with newInBlock := 0 })) d d₁ := by
      obtain rfl := Run.modify_eq_ok.1 hscan
      exact ⟨hwalked.memory, hwalked.firstPass⟩
    exact gained_append hblock (ih (hblock.firstPass.trans hfirst) h)

theorem gained_of_entered {new : CallResult → Prop} {index : Nat} (h : Entered index f d d') : Gained new d d' := by
  refine .of_grows ?_ h.firstPass
  rw [h.memory]
  exact Memory.grows_enter _ d.memory (some index) f.parameterNames d.nextBlock

/-- A function is opened and its blocks are walked; one that is not walked is only entered. -/
theorem gained_function {index : Nat} {text : String} (hfirst : d.firstPass = true)
    (h : function sc true imported index f d = .ok text d') :
    Gained (MadeIn sc (functionLog sc imported index f d)) d d' := by
  have hfunction := entered_of_function h
  unfold functionLog
  by_cases hskip : (f.isImport && !imported) = true
  · rw [if_pos hskip] at hfunction ⊢
    exact gained_of_entered hfunction
  · rw [if_neg hskip] at hfunction ⊢
    obtain ⟨e, hopening, hentered, -, hscan⟩ := hfunction
    rw [after?_eq_some_iff.2 ⟨_, hopening⟩]
    exact (gained_of_entered hentered).trans (gained_blocks (hentered.firstPass.trans hfirst) hscan)

theorem gained_functions {index : Nat} {fs : List Function} {texts : List String} (hfirst : d.firstPass = true)
    (h : functions sc true imported index fs d = .ok texts d') :
    Gained (MadeIn sc (functionsLog sc imported index fs d)) d d' := by
  induction fs generalizing index d texts with
  | nil =>
    obtain ⟨-, rfl⟩ := Run.pure_eq_ok.1 h
    exact .refl _ d
  | cons f fs ih =>
    unfold functions at h
    obtain ⟨text, d₁, hfunction, h⟩ := Run.bind_eq_ok.1 h
    obtain ⟨rest, _, hrest, h⟩ := Run.bind_eq_ok.1 h
    obtain ⟨-, rfl⟩ := Run.pure_eq_ok.1 h
    have hgained := gained_function hfirst hfunction
    unfold functionsLog
    rw [after?_eq_some_iff.2 ⟨_, hfunction⟩]
    exact gained_append hgained (ih (hgained.firstPass.trans hfirst) hrest)

/-- Each call that the memory records after a first pass was made in it. -/
theorem madeIn_of_program {graphs : List (Option FlowGraph)} {text : String}
    (h : program sc true imported (start graphs) = .ok text d) {v : Variable} (hv : v ∈ d.memory.cells)
    {c : CallResult} (hc : v.value = some (.result c)) : MadeIn sc (firstPassLog sc imported graphs) c := by
  unfold program at h
  obtain ⟨texts, _, hfunctions, h⟩ := Run.bind_eq_ok.1 h
  obtain ⟨-, rfl⟩ := Run.pure_eq_ok.1 h
  rcases (gained_functions rfl hfunctions).memory v hv c hc with ⟨w, hw, -⟩ | hmade
  · cases hw
  · exact hmade

end Runs

end Decompiler

end Cairoscope
