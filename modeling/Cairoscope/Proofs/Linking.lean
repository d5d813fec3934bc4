import Cairoscope.DataFlow.Graph
import Cairoscope.Proofs.Ownership
import Mathlib.Data.List.Count

/-! How a data-flow graph gets its edges. Variable after variable has its turn, and an edge is only ever
added to the node of the variable whose turn it is. What leads to a node is therefore what the turn of
its own variable has added. -/

namespace Cairoscope

def DataEdge.constant? (e : DataEdge) : Option Nat :=
  match e.source with
  | .constant k => some k
  | .node _ => none

def VariableNode.key (n : VariableNode) : Nat × Nat × String := (n.function, n.number, n.name)

namespace DataFlow

variable {g g' : DataFlow} {a b s t fn : Nat} {v : Variable} {x : Value}

def keys (g : DataFlow) : List (Nat × Nat × String) := g.nodes.map VariableNode.key

def edgesBetween (g : DataFlow) (a b : Nat) : Nat :=
  g.edges.countP fun e => e.source = .node a ∧ e.target = b

/-- The values of the constants with an edge to a node, in the order of the edges. -/
def constantsInto (g : DataFlow) (b : Nat) : List Int :=
  g.edges.filterMap fun e =>
    if e.target = b then e.constant?.bind fun k => (g.constants[k]?).map (·.value) else none

theorem mem_placesOf {function : Option Nat} {ns : List Nat} :
    a ∈ g.placesOf function ns ↔
      ∃ n, g.nodes[a]? = some n ∧ some n.function = function ∧ n.number ∈ ns := by
  unfold placesOf
  rw [List.mem_filter, List.mem_range]
  constructor
  · rintro ⟨hlt, hmatch⟩
    rw [List.getElem?_eq_getElem hlt] at hmatch ⊢
    exact ⟨_, rfl, by simpa using hmatch⟩
  · rintro ⟨n, hn, hfunction, hnumber⟩
    exact ⟨(List.getElem?_eq_some_iff.1 hn).1, by simp [hn, hfunction, hnumber]⟩

theorem nodup_placesOf (g : DataFlow) (function : Option Nat) (ns : List Nat) :
    (g.placesOf function ns).Nodup := List.nodup_range.filter _

/-- Edges do not matter for the search. -/
theorem placesOf_congr (h : g'.keys = g.keys) (function : Option Nat) (ns : List Nat) :
    g'.placesOf function ns = g.placesOf function ns := by
  have hlength : g'.nodes.length = g.nodes.length := by
    simpa [keys] using congrArg List.length h
  unfold placesOf
  rw [hlength]
  apply List.filter_congr
  intro i hi
  have hi' := List.mem_range.1 hi
  have hkey : (g'.nodes[i]?).map VariableNode.key = (g.nodes[i]?).map VariableNode.key := by
    rw [← List.getElem?_map, ← List.getElem?_map]
    exact congrArg (·[i]?) h
  rw [List.getElem?_eq_getElem (hlength ▸ hi'), List.getElem?_eq_getElem hi'] at hkey ⊢
  simp only [Option.map_some, Option.some.injEq, VariableNode.key, Prod.mk.injEq] at hkey
  simp only [hkey.1, hkey.2.1]

@[simp] theorem keys_connect (g : DataFlow) (s t fn : Nat) : (g.connect s t fn).keys = g.keys := by
  unfold keys connect
  apply List.ext_getElem?
  intro i
  simp only [List.getElem?_map, List.getElem?_modify]
  cases g.nodes[i]? with
  | none => simp
  | some n => by_cases hs : s = i <;> by_cases ht : t = i <;> simp [hs, ht, VariableNode.key]

@[simp] theorem edgesBetween_connect (g : DataFlow) (s t fn a b : Nat) :
    (g.connect s t fn).edgesBetween a b = g.edgesBetween a b + if s = a ∧ t = b then 1 else 0 := by
  unfold edgesBetween connect
  rw [List.countP_append, List.countP_singleton]
  simp

@[simp] theorem constantsInto_connect (g : DataFlow) (s t fn b : Nat) :
    (g.connect s t fn).constantsInto b = g.constantsInto b := by
  unfold constantsInto connect
  simp [DataEdge.constant?]

@[simp] theorem edgesBetween_addConstant (g : DataFlow) (v : Variable) (t fn : Nat) (n : Int) (a b : Nat) :
    (g.addConstant v t fn n).edgesBetween a b = g.edgesBetween a b := by
  unfold edgesBetween addConstant
  simp

/-- Each constant has one edge, and both nodes of an edge know it. -/
structure Consistent (g : DataFlow) : Prop where
  fresh : g.edges.filterMap DataEdge.constant? = List.range g.constants.length
  children : ∀ a n, g.nodes[a]? = some n → ∀ b, n.children.count b = g.edgesBetween a b
  parents : ∀ a n, g.nodes[a]? = some n → ∀ b, n.parents.count b = g.edgesBetween b a

theorem Consistent.constantsInto_addConstant (h : g.Consistent) (v : Variable) (t fn : Nat) (n : Int)
    (b : Nat) : (g.addConstant v t fn n).constantsInto b =
      g.constantsInto b ++ if t = b then [n] else [] := by
  unfold constantsInto addConstant
  dsimp only
  rw [List.filterMap_append]
  congr 1
  · apply List.filterMap_congr
    intro e he
    cases hk : e.constant? with
    | none => simp
    | some k =>
      -- the constant of an older edge is an older one
      have hlt : k < g.constants.length := by
        rw [← List.mem_range, ← h.fresh]
        exact List.mem_filterMap.2 ⟨e, he, hk⟩
      simp [List.getElem?_append_left hlt]
  · by_cases ht : t = b <;> simp [DataEdge.constant?, ht]

theorem Consistent.addConstant (h : g.Consistent) (v : Variable) (t fn : Nat) (n : Int) :
    (g.addConstant v t fn n).Consistent := by
  refine ⟨?_, fun a m hm b => ?_, fun a m hm b => ?_⟩
  · unfold DataFlow.addConstant
    dsimp only
    rw [List.filterMap_append, h.fresh, List.length_append, List.length_singleton, List.range_succ]
    rfl
  · rw [edgesBetween_addConstant]
    exact h.children a m hm b
  · rw [edgesBetween_addConstant]
    exact h.parents a m hm b

theorem getElem?_nodes_connect {n : VariableNode} (h : (g.connect s t fn).nodes[a]? = some n) :
    ∃ m, g.nodes[a]? = some m ∧ n.children = m.children ++ (if s = a then [t] else []) ∧
      n.parents = m.parents ++ if t = a then [s] else [] := by
  unfold connect at h
  simp only [List.getElem?_modify] at h
  cases hm : g.nodes[a]? with
  | none => simp [hm] at h
  | some m =>
    refine ⟨m, rfl, ?_⟩
    by_cases hs : s = a <;> by_cases ht : t = a <;> simp [hm, hs, ht] at h <;> simp [← h, hs, ht]

theorem Consistent.connect (h : g.Consistent) (s t fn : Nat) : (g.connect s t fn).Consistent := by
  refine ⟨?_, fun a n hn b => ?_, fun a n hn b => ?_⟩
  · unfold DataFlow.connect
    dsimp only
    rw [List.filterMap_append, h.fresh]
    simp [DataEdge.constant?]
  · obtain ⟨m, hm, hchildren, -⟩ := getElem?_nodes_connect hn
    rw [hchildren, List.count_append, h.children a m hm, edgesBetween_connect]
    by_cases hs : s = a <;> simp [hs, List.count_singleton]
  · obtain ⟨m, hm, -, hparents⟩ := getElem?_nodes_connect hn
    rw [hparents, List.count_append, h.parents a m hm, edgesBetween_connect]
    by_cases ht : t = a <;> simp [ht, List.count_singleton]

/-- What was added leads to one node: edges from these nodes and constants with these values. -/
structure Draws (t : Nat) (sources : List Nat) (ns : List Int) (g g' : DataFlow) : Prop where
  keys : g'.keys = g.keys
  consistent : g.Consistent → g'.Consistent
  between : ∀ a b, g'.edgesBetween a b = g.edgesBetween a b + if t = b then sources.count a else 0
  into : g.Consistent → ∀ b, g'.constantsInto b = g.constantsInto b ++ if t = b then ns else []
  edges : ∀ e ∈ g'.edges, e ∈ g.edges ∨ (e.target = t ∧ ∀ a, e.source = .node a → a ∈ sources)

theorem Draws.refl (t : Nat) (g : DataFlow) : Draws t [] [] g g :=
  ⟨rfl, id, by simp, by simp, fun _ he => Or.inl he⟩

theorem Draws.trans {sources sources' : List Nat} {ns ns' : List Int} {g'' : DataFlow}
    (h : Draws t sources ns g g') (h' : Draws t sources' ns' g' g'') :
    Draws t (sources ++ sources') (ns ++ ns') g g'' := by
  refine ⟨h'.keys.trans h.keys, fun hg => h'.consistent (h.consistent hg), fun a b => ?_,
    fun hg b => ?_, fun e he => ?_⟩
  · rw [h'.between, h.between, List.count_append]
    split_ifs <;> omega
  · rw [h'.into (h.consistent hg), h.into hg]
    split_ifs <;> simp
  · rcases h'.edges e he with hold | ⟨ht, hnew⟩
    · rcases h.edges e hold with hold | ⟨ht, hnew⟩
      · exact Or.inl hold
      · exact Or.inr ⟨ht, fun a ha => List.mem_append_left _ (hnew a ha)⟩
    · exact Or.inr ⟨ht, fun a ha => List.mem_append_right _ (hnew a ha)⟩

theorem draws_connect (g : DataFlow) (s t fn : Nat) : Draws t [s] [] g (g.connect s t fn) := by
  refine ⟨keys_connect g s t fn, fun hg => hg.connect s t fn, fun a b => ?_, by simp, fun e he => ?_⟩
  · rw [edgesBetween_connect, List.count_singleton]
    by_cases ht : t = b <;> simp [ht]
  · rcases List.mem_append.1 he with hold | hnew
    · exact Or.inl hold
    · obtain rfl := List.mem_singleton.1 hnew
      exact Or.inr ⟨rfl, fun a ha => by simpa using ha.symm⟩

theorem draws_addConstant (g : DataFlow) (v : Variable) (t fn : Nat) (n : Int) :
    Draws t [] [n] g (g.addConstant v t fn n) := by
  refine ⟨rfl, fun hg => hg.addConstant v t fn n, by simp, fun hg b => ?_, fun e he => ?_⟩
  · exact hg.constantsInto_addConstant v t fn n b
  · rcases List.mem_append.1 he with hold | hnew
    · exact Or.inl hold
    · obtain rfl := List.mem_singleton.1 hnew
      exact Or.inr ⟨rfl, fun a ha => by simp at ha⟩

theorem draws_foldl_connect (t fn : Nat) (sources : List Nat) (g : DataFlow) :
    Draws t sources [] g (sources.foldl (fun g s => g.connect s t fn) g) := by
  induction sources generalizing g with
  | nil => exact Draws.refl t g
  | cons s sources ih => exact (draws_connect g s t fn).trans (ih _)

theorem draws_foldl_addConstant (v : Variable) (t fn : Nat) (ns : List Int) (g : DataFlow) :
    Draws t [] ns g (ns.foldl (fun g n => g.addConstant v t fn n) g) := by
  induction ns generalizing g with
  | nil => exact Draws.refl t g
  | cons n ns ih => exact (draws_addConstant g v t fn n).trans (ih _)

def sourcesOf (g : DataFlow) (v : Variable) (x : Value) : List Nat :=
  x.variableOperands.flatMap (g.placesOf v.function)

theorem addEdges_eq_ok {more : List Nat} (h : g.placesOf v.function [v.number] = t :: more) :
    ∃ g', addEdges v x g = .ok () g' ∧ Draws t (g.sourcesOf v x) (integersOf x) g g' := by
  unfold addEdges
  rw [Run.get_bind, h]
  dsimp only
  rw [Run.modify_bind]
  refine ⟨_, Run.modify_eq_ok.2 rfl, ?_⟩
  have hsources := draws_foldl_connect t (v.function.getD 0) (g.sourcesOf v x) g
  have hintegers := hsources.trans (draws_foldl_addConstant v t (v.function.getD 0) (integersOf x) _)
  rwa [List.append_nil, List.nil_append] at hintegers

/-- A node counts once for each operand that it is one of. -/
theorem count_sourcesOf (g : DataFlow) (v : Variable) (x : Value) (a : Nat) :
    (g.sourcesOf v x).count a = x.variableOperands.countP fun ns => a ∈ g.placesOf v.function ns := by
  unfold sourcesOf
  induction x.variableOperands with
  | nil => rfl
  | cons ns operands ih =>
    rw [List.flatMap_cons, List.count_append, ih, List.countP_cons]
    by_cases ha : a ∈ g.placesOf v.function ns
    · rw [List.count_eq_one_of_mem (nodup_placesOf g v.function ns) ha]
      simp [ha, Nat.add_comm]
    · simp [List.count_eq_zero_of_not_mem ha, ha]

def Targeted (g : DataFlow) (cs : List Variable) : Prop :=
  ∀ v ∈ cs, ∀ x, v.computed? = some x → g.placesOf v.function [v.number] ≠ []

/-- No computed variable in the list has this node. -/
def Spared (g : DataFlow) (cs : List Variable) (b : Nat) : Prop :=
  ∀ v ∈ cs, ∀ x, v.computed? = some x → b ∉ g.placesOf v.function [v.number]

theorem Targeted.congr {cs : List Variable} (h : g.Targeted cs) (hkeys : g'.keys = g.keys) :
    g'.Targeted cs := by
  intro v hv x hx
  rw [placesOf_congr hkeys]
  exact h v hv x hx

theorem Spared.congr {cs : List Variable} (h : g.Spared cs b) (hkeys : g'.keys = g.keys) :
    g'.Spared cs b := by
  intro v hv x hx
  rw [placesOf_congr hkeys]
  exact h v hv x hx

theorem sourcesOf_congr (h : g'.keys = g.keys) (v : Variable) (x : Value) :
    g'.sourcesOf v x = g.sourcesOf v x := by
  unfold sourcesOf
  rw [funext (placesOf_congr h v.function)]

/-- What the turns of some variables have done: the nodes are the same, and an edge that is new leads to
a variable among them. -/
structure Drawn (cs : List Variable) (g g' : DataFlow) : Prop where
  keys : g'.keys = g.keys
  consistent : g.Consistent → g'.Consistent
  frame : ∀ b, g.Spared cs b → (∀ a, g'.edgesBetween a b = g.edgesBetween a b) ∧
    (g.Consistent → g'.constantsInto b = g.constantsInto b)
  edges : ∀ e ∈ g'.edges, e ∈ g.edges ∨
    ∃ v ∈ cs, ∃ x, v.computed? = some x ∧ e.target ∈ g.placesOf v.function [v.number] ∧
      ∀ a, e.source = .node a → a ∈ g.sourcesOf v x

theorem Drawn.refl (cs : List Variable) (g : DataFlow) : Drawn cs g g :=
  ⟨rfl, id, fun _ _ => ⟨fun _ => rfl, fun _ => rfl⟩, fun _ he => Or.inl he⟩

theorem Drawn.trans {cs cs' : List Variable} {g'' : DataFlow} (h : Drawn cs g g')
    (h' : Drawn cs' g' g'') : Drawn (cs ++ cs') g g'' := by
  refine ⟨h'.keys.trans h.keys, fun hg => h'.consistent (h.consistent hg), fun b hb => ?_,
    fun e he => ?_⟩
  · obtain ⟨hbetween, hinto⟩ := h.frame b fun v hv => hb v (List.mem_append_left cs' hv)
    have hspared : g.Spared cs' b := fun v hv => hb v (List.mem_append_right cs hv)
    obtain ⟨hbetween', hinto'⟩ := h'.frame b (hspared.congr h.keys)
    exact ⟨fun a => (hbetween' a).trans (hbetween a),
      fun hg => (hinto' (h.consistent hg)).trans (hinto hg)⟩
  · rcases h'.edges e he with hold | ⟨v, hv, x, hx, htarget, hsource⟩
    · rcases h.edges e hold with hold | ⟨v, hv, x, hx, hrest⟩
      · exact Or.inl hold
      · exact Or.inr ⟨v, List.mem_append_left _ hv, x, hx, hrest⟩
    · rw [placesOf_congr h.keys] at htarget
      rw [sourcesOf_congr h.keys] at hsource
      exact Or.inr ⟨v, List.mem_append_right _ hv, x, hx, htarget, hsource⟩

theorem Draws.drawn (hx : v.computed? = some x) (ht : t ∈ g.placesOf v.function [v.number])
    (h : Draws t (g.sourcesOf v x) (integersOf x) g g') : Drawn [v] g g' := by
  refine ⟨h.keys, h.consistent, fun b hb => ?_, fun e he => ?_⟩
  · have hne : t ≠ b := by
      rintro rfl
      exact hb v (List.mem_singleton_self v) x hx ht
    exact ⟨fun a => by rw [h.between, if_neg hne, Nat.add_zero],
      fun hg => by rw [h.into hg, if_neg hne, List.append_nil]⟩
  · rcases h.edges e he with hold | ⟨rfl, hsource⟩
    · exact Or.inl hold
    · exact Or.inr ⟨v, List.mem_singleton_self v, x, hx, ht, hsource⟩

def linkOperands (v : Variable) : Build Unit :=
  match v.computed? with
  | none => pure ()
  | some x => addEdges v x

theorem linkOperands_of_computed (hx : v.computed? = some x) : linkOperands v = addEdges v x := by
  unfold linkOperands
  rw [hx]

theorem linkOperands_of_not_computed (hx : v.computed? = none) : linkOperands v = pure () := by
  unfold linkOperands
  rw [hx]

theorem drawn_linkOperands (htargeted : g.Targeted [v]) :
    ∃ g', linkOperands v g = .ok () g' ∧ Drawn [v] g g' := by
  cases hx : v.computed? with
  | none =>
    rw [linkOperands_of_not_computed hx]
    exact ⟨g, rfl, Drawn.refl [v] g⟩
  | some x =>
    obtain ⟨t, more, hplaces⟩ :=
      List.exists_cons_of_ne_nil (htargeted v (List.mem_singleton_self v) x hx)
    obtain ⟨g', hrun, hdraws⟩ := addEdges_eq_ok (x := x) hplaces
    rw [linkOperands_of_computed hx]
    exact ⟨g', hrun, hdraws.drawn hx (by simp [hplaces])⟩

theorem drawn_forM {cs : List Variable} (htargeted : g.Targeted cs) :
    ∃ g', cs.forM linkOperands g = .ok () g' ∧ Drawn cs g g' := by
  induction cs generalizing g with
  | nil => exact ⟨g, rfl, Drawn.refl [] g⟩
  | cons v cs ih =>
    have hfirst : g.Targeted [v] := fun w hw =>
      htargeted w (List.mem_singleton.1 hw ▸ List.mem_cons_self)
    have hrest : g.Targeted cs := fun w hw => htargeted w (List.mem_cons_of_mem v hw)
    obtain ⟨g₁, hstep, hdrawn⟩ := drawn_linkOperands hfirst
    obtain ⟨g₂, hrun, hdrawn'⟩ := ih (hrest.congr hdrawn.keys)
    refine ⟨g₂, ?_, hdrawn.trans hdrawn'⟩
    exact Run.bind_eq_ok.2 ⟨(), g₁, hstep, hrun⟩

/-- What leads to the node of a variable in the end, when no other variable has the node. -/
theorem into_of_forM {front back : List Variable} {g₀ : DataFlow} (hg : g.Consistent)
    (htargeted : g.Targeted (front ++ v :: back)) (hx : v.computed? = some x)
    (ht : g.placesOf v.function [v.number] = [t]) (hspared : g.Spared (front ++ back) t)
    (hrun : (front ++ v :: back).forM linkOperands g = .ok () g₀) :
    (∀ a, g₀.edgesBetween a t = g.edgesBetween a t + (g.sourcesOf v x).count a) ∧
      g₀.constantsInto t = g.constantsInto t ++ integersOf x := by
  have hfront : g.Targeted front := fun w hw => htargeted w (List.mem_append_left _ hw)
  have hback : g.Targeted back := fun w hw =>
    htargeted w (List.mem_append_right _ (List.mem_cons_of_mem v hw))
  have hspared₁ : g.Spared front t := fun w hw => hspared w (List.mem_append_left _ hw)
  have hspared₃ : g.Spared back t := fun w hw => hspared w (List.mem_append_right _ hw)
  -- the turns before, the turn of the variable itself, and the turns after
  obtain ⟨g₁, hrun₁, hdrawn₁⟩ := drawn_forM hfront
  obtain ⟨g₂, hrun₂, hdraws⟩ := addEdges_eq_ok (x := x) ((placesOf_congr hdrawn₁.keys _ _).trans ht)
  rw [sourcesOf_congr hdrawn₁.keys] at hdraws
  have hkeys₂ : g₂.keys = g.keys := hdraws.keys.trans hdrawn₁.keys
  obtain ⟨g₃, hrun₃, hdrawn₃⟩ := drawn_forM (hback.congr hkeys₂)
  have hall : (front ++ v :: back).forM linkOperands g = .ok () g₃ := by
    change (forM (front ++ v :: back) linkOperands : Build Unit) g = _
    rw [List.forM_append]
    refine Run.bind_eq_ok.2 ⟨(), g₁, hrun₁, Run.bind_eq_ok.2 ⟨(), g₂, ?_, hrun₃⟩⟩
    rw [linkOperands_of_computed hx]
    exact hrun₂
  obtain rfl : g₃ = g₀ := by simpa using hall.symm.trans hrun
  obtain ⟨hbetween₁, hinto₁⟩ := hdrawn₁.frame t hspared₁
  obtain ⟨hbetween₃, hinto₃⟩ := hdrawn₃.frame t (hspared₃.congr hkeys₂)
  have hg₁ := hdrawn₁.consistent hg
  refine ⟨fun a => ?_, ?_⟩
  · rw [hbetween₃, hdraws.between, if_pos rfl, hbetween₁]
  · rw [hinto₃ (hdraws.consistent hg₁), hdraws.into hg₁, if_pos rfl, hinto₁ hg]

/-- What the turns of variables leave as it is. -/
structure Frame (g g' : DataFlow) : Prop where
  functions : g'.functions = g.functions
  cells : g'.cells = g.cells
  keys : g'.keys = g.keys

theorem Frame.trans {g'' : DataFlow} (h : Frame g g') (h' : Frame g' g'') : Frame g g'' :=
  ⟨h'.functions.trans h.functions, h'.cells.trans h.cells, h'.keys.trans h.keys⟩

theorem frame_connect (g : DataFlow) (s t fn : Nat) : Frame g (g.connect s t fn) :=
  ⟨rfl, rfl, keys_connect g s t fn⟩

theorem frame_addConstant (g : DataFlow) (v : Variable) (t fn : Nat) (n : Int) :
    Frame g (g.addConstant v t fn n) := ⟨rfl, rfl, rfl⟩

theorem frame_foldl {α : Type} {step : DataFlow → α → DataFlow} (hstep : ∀ g a, Frame g (step g a))
    (as : List α) (g : DataFlow) : Frame g (as.foldl step g) := by
  induction as generalizing g with
  | nil => exact ⟨rfl, rfl, rfl⟩
  | cons a as ih => exact (hstep g a).trans (ih _)

theorem frame_linkOperands (h : linkOperands v g = .ok () g') : Frame g g' := by
  cases hx : v.computed? with
  | none =>
    rw [linkOperands_of_not_computed hx] at h
    obtain ⟨-, rfl⟩ := Run.pure_eq_ok.1 h
    exact ⟨rfl, rfl, rfl⟩
  | some x =>
    rw [linkOperands_of_computed hx] at h
    unfold addEdges at h
    rw [Run.get_bind] at h
    cases hplaces : g.placesOf v.function [v.number] with
    | nil =>
      rw [hplaces] at h
      exact absurd h Run.throw_ne_ok
    | cons t more =>
      rw [hplaces] at h
      dsimp only at h
      rw [Run.modify_bind] at h
      obtain rfl := Run.modify_eq_ok.1 h
      have hsources := frame_foldl (fun g s => frame_connect g s t (v.function.getD 0))
        (x.variableOperands.flatMap (g.placesOf v.function)) g
      exact hsources.trans
        (frame_foldl (fun g n => frame_addConstant g v t (v.function.getD 0) n) (integersOf x) _)

theorem frame_forM {cs : List Variable} (h : cs.forM linkOperands g = .ok () g') : Frame g g' := by
  refine Run.rel_of_forM (R := Frame) (fun _ => ⟨rfl, rfl, rfl⟩) Frame.trans ?_ h
  intro v g g' hstep
  exact frame_linkOperands hstep

end DataFlow

end Cairoscope
