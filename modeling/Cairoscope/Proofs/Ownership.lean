import Cairoscope.Proofs.Effects
import Cairoscope.Proofs.Modes

/-! Which function a variable belongs to. Where imported functions are only entered, every variable that
has a computed value belongs to a function with code of its own: the statement that gives the value takes
the variable over, and so do those that test it or receive it from a call. -/

namespace Cairoscope

def Variable.computed? (v : Variable) : Option Value :=
  match v.value with
  | some (.result _) => none
  | value => value

namespace Memory

def Owned (owns : Nat → Prop) (m : Memory) : Prop :=
  ∀ v ∈ m.cells, ∀ x, v.computed? = some x → ∃ i, v.function = some i ∧ owns i

variable {owns : Nat → Prop} {m m' : Memory}

theorem Owned.growTo (h : m.Owned owns) (n : Nat) : (m.growTo n).Owned owns := by
  intro v hv x hx
  rw [cells_growTo] at hv
  rcases List.mem_append.1 hv with hold | hnew
  · exact h v hold x hx
  · obtain ⟨i, -, rfl⟩ := List.mem_map.1 hnew
    simp [Variable.computed?, Variable.blank] at hx

theorem Owned.push (h : m.Owned owns) {f : Variable → Variable} (hf : ∀ v, (f v).value = v.value) :
    (m.push f).Owned owns := by
  intro v hv x hx
  rcases List.mem_append.1 hv with hold | hnew
  · exact h v hold x hx
  · obtain rfl := List.mem_singleton.1 hnew
    simp [Variable.computed?, hf, Variable.blank] at hx

/-- A change that gives a variable to one of the functions, or leaves it and its value where they are. -/
theorem Owned.update (h : m.Owned owns) (n : Nat) {f : Variable → Variable}
    (hf : ∀ v x, (f v).computed? = some x → (∃ i, (f v).function = some i ∧ owns i) ∨
      (v.computed? = some x ∧ (f v).function = v.function)) : (m.update n f).Owned owns := by
  intro v hv x hx
  obtain ⟨q, hq⟩ := List.getElem?_of_mem hv
  rw [getElem?_update] at hq
  split_ifs at hq
  · obtain ⟨w, hw, rfl⟩ := Option.map_eq_some_iff.1 hq
    rcases hf w x hx with howns | ⟨hold, hsame⟩
    · exact howns
    · rw [hsame]
      exact h w (List.mem_of_getElem? hw) x hold
  · exact h v (List.mem_of_getElem? hq) x hx

theorem Owned.enter (h : m.Owned owns) (function : Option Nat) (arguments : List String)
    (block : Nat) : (m.enter function arguments block).Owned owns := by
  have hfold : ∀ (names : List String) {m : Memory}, m.Owned owns → (names.foldl (fun m name =>
      m.push fun v => { v with label := some name, function, block := some block, isArgument := true })
      m).Owned owns := by
    intro names
    induction names with
    | nil => exact fun hm => hm
    | cons name names ih =>
      intro m hm
      apply ih
      exact hm.push fun _ => rfl
  have hframe := (hfold arguments h).push
    (f := fun v => { v with label := some "callers_function_frame", block := some block }) fun _ => rfl
  exact hframe.push
    (f := fun v => { v with label := some "return_instruction", block := some block }) fun _ => rfl

structure InOrder (owns : Nat → Prop) (m : Memory) : Prop where
  aligned : m.Aligned
  owned : m.Owned owns

theorem InOrder.change {function : Nat} (hfunction : owns function) (h : m.InOrder owns)
    (hchange : Change function m m') : m'.InOrder owns := by
  cases hchange with
  | reach haccess =>
    obtain ⟨-, n, rfl⟩ := growTo_of_reach haccess
    exact ⟨aligned_growTo h.aligned n, h.owned.growTo n⟩
  | move n => exact ⟨aligned_moveAp h.aligned n, h.owned⟩
  | append callee name =>
    exact ⟨aligned_push h.aligned fun _ => rfl, h.owned.push fun _ => rfl⟩
  | receive n block call =>
    refine ⟨aligned_update h.aligned n fun _ => rfl, h.owned.update n fun v x hx => ?_⟩
    exact Or.inl ⟨function, rfl, hfunction⟩
  | equal n value block =>
    refine ⟨aligned_update h.aligned n fun _ => rfl, h.owned.update n fun v x hx => ?_⟩
    exact Or.inl ⟨function, rfl, hfunction⟩
  | test n =>
    refine ⟨aligned_update h.aligned n fun _ => rfl, h.owned.update n fun v x hx => ?_⟩
    exact Or.inl ⟨function, rfl, hfunction⟩
  | hand n =>
    refine ⟨aligned_update h.aligned n fun _ => rfl, h.owned.update n fun v x hx => ?_⟩
    exact Or.inr ⟨hx, rfl⟩

end Memory

def Scene.HasCode (sc : Scene) (index : Nat) : Prop :=
  ∃ f, sc.functions[index]? = some f ∧ f.isImport = false

namespace Decompiler

variable {sc : Scene} {owns : Nat → Prop} {d d' : Decompiler}

theorem inOrder_of_effect {place : Place} (hplace : owns place.function)
    (hd : d.memory.InOrder owns) (h : Effect place d d') : d'.memory.InOrder owns := by
  cases h with
  | idle hmemory _ => rwa [hmemory]
  | change hchange => exact hd.change hplace hchange
  | condition n => exact hd

theorem inOrder_of_effects {place : Place} (hplace : owns place.function)
    (hd : d.memory.InOrder owns) (h : Relation.ReflTransGen (Effect place) d d') :
    d'.memory.InOrder owns := by
  induction h with
  | refl => exact hd
  | tail _ heffect ih => exact inOrder_of_effect hplace ih heffect

theorem inOrder_of_scanBlocks {f : Function} {index block : Nat} {blocks : List Block} {u : Unit}
    (hindex : owns index) (hd : d.memory.InOrder owns)
    (h : scanBlocks sc f index block blocks d = .ok u d') : d'.memory.InOrder owns := by
  apply of_scanBlocks (P := fun _ e => e.memory.InOrder owns) _ _ _ [] hd h
  · intro block s rest e text e' he hs
    have hplace : owns (Place.mk index block).function := hindex
    exact inOrder_of_effects hplace he (does_statement _ s false _ _ _ hs)
  · exact fun he => he
  · exact fun _ _ he => he

theorem inOrder_of_function {index : Nat} {f : Function} {text : String}
    (hindex : f.isImport = false → owns index) (hd : d.memory.InOrder owns)
    (h : function sc true false index f d = .ok text d') : d'.memory.InOrder owns := by
  obtain ⟨e, hmemory, h⟩ := passes_of_function h
  have hentered : e.memory.InOrder owns := by
    rw [hmemory]
    have hgrows := Memory.grows_enter (fun _ _ => False) d.memory (some index) f.parameterNames d.nextBlock
    exact ⟨hgrows.aligned hd.aligned, hd.owned.enter _ _ _⟩
  cases hcode : f.isImport with
  | true =>
    rw [hcode] at h
    obtain ⟨rfl, -⟩ := h
    exact hentered
  | false =>
    rw [hcode] at h
    obtain ⟨g, next, n, e', -, -, hscan, rfl⟩ := h
    exact inOrder_of_scanBlocks (hindex hcode) hentered hscan

theorem inOrder_of_functions {fs : List Function} {k : Nat} {texts : List String}
    (hfs : ∀ i f, fs[i]? = some f → f.isImport = false → owns (k + i)) (hd : d.memory.InOrder owns)
    (h : functions sc true false k fs d = .ok texts d') : d'.memory.InOrder owns := by
  induction fs generalizing k d texts with
  | nil =>
    obtain ⟨-, rfl⟩ := Run.pure_eq_ok.1 h
    exact hd
  | cons f fs ih =>
    unfold functions at h
    obtain ⟨text, d₁, hfunction, h⟩ := Run.bind_eq_ok.1 h
    obtain ⟨rest, _, hrest, h⟩ := Run.bind_eq_ok.1 h
    obtain ⟨-, rfl⟩ := Run.pure_eq_ok.1 h
    refine ih (fun i f' hf' hcode => ?_) (inOrder_of_function (hfs 0 f rfl) hd hfunction) hrest
    have hnext := hfs (i + 1) f' hf' hcode
    rwa [Nat.add_comm i 1, ← Nat.add_assoc] at hnext

/-- After a first pass without the imported functions, computed values belong to functions with code. -/
theorem inOrder_of_program {graphs : List (Option FlowGraph)} {text : String}
    (h : program sc true false (start graphs) = .ok text d) : d.memory.InOrder sc.HasCode := by
  obtain ⟨texts, h⟩ := functions_of_program h
  apply inOrder_of_functions _ _ h
  · intro i f hf hcode
    rw [Nat.zero_add]
    exact ⟨f, hf, hcode⟩
  · exact ⟨Memory.aligned_empty, by simp [Memory.Owned, start, Memory.empty]⟩

end Decompiler

end Cairoscope
