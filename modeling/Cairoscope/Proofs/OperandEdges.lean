import Cairoscope.Proofs.Linking
import Cairoscope.Proofs.Meaning

/-! The data-flow graph is the operand relation. What a value is computed from is read off its shape. After
a first pass every computed variable has a node, and has it to itself, so its turn is the only one that
draws to the node. -/

namespace Cairoscope

/-- What a value is computed from: lists of variables of which one each is meant, and integers. A result of a call
is not computed. -/
inductive Value.ComputedFrom : Value → List (List Nat) → List Int → Prop
  | integer (n : Int) : ComputedFrom (.integer n) [] [n]
  | copy (ns : List Nat) : ComputedFrom (.copy ns) [ns] []
  | load (base : List Nat) (offset : Int) : ComputedFrom (.load base offset) [base] [offset]
  | cells (ls : List Nat) (op : Operator) (rs : List Nat) :
      ComputedFrom (.combined (.cells ls) op (.cells rs)) [ls, rs] []
  | cellsInteger (ls : List Nat) (op : Operator) (n : Int) :
      ComputedFrom (.combined (.cells ls) op (.integer n)) [ls] [n]
  | integerCells (n : Int) (op : Operator) (rs : List Nat) :
      ComputedFrom (.combined (.integer n) op (.cells rs)) [rs] [n]
  | integers (l : Int) (op : Operator) (r : Int) :
      ComputedFrom (.combined (.integer l) op (.integer r)) [] [l, r]

theorem Value.computedFrom_operands {x : Value} (h : ∀ c, x ≠ .result c) :
    x.ComputedFrom x.variableOperands (DataFlow.integersOf x) := by
  cases x with
  | integer n => exact .integer n
  | copy ns => exact .copy ns
  | load base offset => exact .load base offset
  | result call => exact absurd rfl (h call)
  | combined l op r =>
    cases l with
    | cells ls =>
      cases r with
      | cells rs => exact .cells ls op rs
      | integer n => exact .cellsInteger ls op n
    | integer n =>
      cases r with
      | cells rs => exact .integerCells n op rs
      | integer k => exact .integers n op k

theorem Value.ComputedFrom.operands_eq {x : Value} {lists : List (List Nat)} {ns : List Int}
    (h : x.ComputedFrom lists ns) : lists = x.variableOperands ∧ ns = DataFlow.integersOf x := by
  cases h <;> exact ⟨rfl, rfl⟩

theorem Variable.computed?_eq_some_iff {v : Variable} {x : Value} :
    v.computed? = some x ↔ v.value = some x ∧ ∃ lists ns, x.ComputedFrom lists ns := by
  unfold computed?
  cases hx : v.value with
  | none => simp
  | some y =>
    constructor
    · intro h
      have hcall : ∀ c, y ≠ .result c := by
        rintro c rfl
        cases h
      obtain rfl : y = x := by
        cases y with
        | result c => exact absurd rfl (hcall c)
        | _ => exact Option.some.inj h
      exact ⟨rfl, _, _, Value.computedFrom_operands hcall⟩
    · rintro ⟨h, lists, ns, hfrom⟩
      obtain rfl := Option.some.inj h
      cases hfrom <;> rfl

namespace DataFlow

variable {g : DataFlow} {v : Variable} {x : Value}

def unlinked (functions : List Function) (m : Memory) : DataFlow :=
  let g := { ofMemory functions m with nodes := (ofMemory functions m).nodesOf }
  { g with calls := g.callsOf }

theorem create_eq (functions : List Function) (m : Memory) :
    create (ofMemory functions m) = m.cells.forM linkOperands (unlinked functions m) := by
  unfold create
  rw [Run.modify_bind, Run.modify_bind, Run.get_bind]
  refine congrFun (congrArg m.cells.forM (funext fun v => ?_)) _
  unfold linkOperands Variable.computed?
  cases v.value with
  | none => rfl
  | some x => cases x <;> rfl

theorem frame_create {functions : List Function} {m : Memory}
    (h : create (ofMemory functions m) = .ok () g) : Frame (unlinked functions m) g := by
  rw [create_eq] at h
  exact frame_forM h

def IsNodeOf (g : DataFlow) (v : Variable) (j : Nat) : Prop :=
  ∃ n, g.nodes[j]? = some n ∧ n.name = v.name ∧ some n.function = v.function

section Nodes

variable {functions : List Function} {m : Memory}

theorem exists_cell_of_node {n : VariableNode} (h : n ∈ (unlinked functions m).nodes) :
    ∃ w ∈ m.cells, n.key.2 = (w.number, w.name) ∧ some n.function = w.function ∧
      n.children = [] ∧ n.parents = [] := by
  obtain ⟨w, hw, hnode⟩ := List.mem_filterMap.1 h
  simp only [Option.bind_eq_bind, Option.bind_eq_some_iff] at hnode
  obtain ⟨i, hi, f, -, hnode⟩ := hnode
  split_ifs at hnode
  obtain rfl := Option.some.inj hnode
  exact ⟨w, hw, rfl, hi.symm, rfl, rfl⟩

theorem exists_node_of_cell {i : Nat} {f : Function} (hv : v ∈ m.cells) (hi : v.function = some i)
    (hf : functions[i]? = some f) (hcode : f.isImport = false) :
    ∃ n ∈ (unlinked functions m).nodes, n.key = (i, v.number, v.name) := by
  refine ⟨⟨v.number, v.name, (ofMemory functions m).labelFor i v.name, i, v.isArgument, v.isReturned, 0,
    [], []⟩, List.mem_filterMap.2 ⟨v, hv, ?_⟩, rfl⟩
  simp [hi, ofMemory, hf, hcode]

theorem consistent_unlinked (functions : List Function) (m : Memory) :
    (unlinked functions m).Consistent := by
  refine ⟨rfl, fun a n hn b => ?_, fun a n hn b => ?_⟩
  · obtain ⟨w, -, -, -, hchildren, -⟩ := exists_cell_of_node (List.mem_of_getElem? hn)
    rw [hchildren]
    rfl
  · obtain ⟨w, -, -, -, -, hparents⟩ := exists_cell_of_node (List.mem_of_getElem? hn)
    rw [hparents]
    rfl

theorem map_filterMap_sublist {α β γ : Type} {f : α → Option β} {p : α → γ} {q : β → γ}
    (hf : ∀ a b, f a = some b → q b = p a) (as : List α) :
    List.Sublist ((as.filterMap f).map q) (as.map p) := by
  induction as with
  | nil => simp
  | cons a as ih =>
    cases ha : f a with
    | none =>
      rw [List.filterMap_cons_none ha]
      exact ih.cons (p a)
    | some b =>
      rw [List.filterMap_cons_some ha, List.map_cons, List.map_cons, hf a b ha]
      exact ih.cons_cons (p a)

/-- Numbers are places in the memory, so no two variables share one. -/
theorem nodup_cell_numbers (hm : m.Aligned) : (m.cells.map (·.number)).Nodup := by
  have hcells : m.cells.map (·.number) = List.range m.cells.length := by
    apply List.ext_getElem
    · simp
    · intro q h₁ h₂
      rw [List.getElem_map, List.getElem_range]
      exact hm.number q _ (List.getElem?_eq_getElem _)
  rw [hcells]
  exact List.nodup_range

theorem nodup_numbers (hm : m.Aligned) : ((unlinked functions m).nodes.map (·.number)).Nodup := by
  have hsub : List.Sublist ((unlinked functions m).nodes.map (·.number)) (m.cells.map (·.number)) := by
    refine map_filterMap_sublist (fun w n hnode => ?_) m.cells
    simp only [Option.bind_eq_bind, Option.bind_eq_some_iff] at hnode
    obtain ⟨i, -, f, -, hnode⟩ := hnode
    split_ifs at hnode
    rw [← Option.some.inj hnode]
  exact (nodup_cell_numbers hm).sublist hsub

variable {n n' : VariableNode} {i j : Nat} (hkeys : g.keys = (unlinked functions m).keys)

include hkeys

theorem exists_cell_at (hn : g.nodes[j]? = some n) :
    ∃ w ∈ m.cells, n.number = w.number ∧ n.name = w.name ∧ some n.function = w.function := by
  have hkey : (unlinked functions m).keys[j]? = some n.key := by
    rw [← hkeys, keys, List.getElem?_map, hn, Option.map_some]
  rw [keys, List.getElem?_map, Option.map_eq_some_iff] at hkey
  obtain ⟨n₀, hn₀, hsame⟩ := hkey
  obtain ⟨w, hw, hpair, hfunction, -⟩ := exists_cell_of_node (List.mem_of_getElem? hn₀)
  rw [hsame] at hpair
  have hown : n₀.function = n.function := congrArg Prod.fst hsame
  rw [hown] at hfunction
  exact ⟨w, hw, congrArg Prod.fst hpair, congrArg Prod.snd hpair, hfunction⟩

theorem place_unique (hm : m.Aligned) (hi : g.nodes[i]? = some n) (hj : g.nodes[j]? = some n')
    (hnumber : n.number = n'.number) : i = j := by
  have hnumbers : g.nodes.map (·.number) = (unlinked functions m).nodes.map (·.number) := by
    have hmap := congrArg (List.map (·.2.1)) hkeys
    rwa [keys, keys, List.map_map, List.map_map] at hmap
  have hnodup : (g.nodes.map (·.number)).Nodup := hnumbers ▸ nodup_numbers hm
  have hlt : i < (g.nodes.map (·.number)).length := by
    rw [List.length_map]
    exact (List.getElem?_eq_some_iff.1 hi).1
  apply (List.getElem?_inj hlt hnodup).1
  rw [List.getElem?_map, List.getElem?_map, hi, hj, Option.map_some, Option.map_some, hnumber]

theorem number_eq_of_name_eq (hn : g.nodes[j]? = some n) (hname : n.name = v.name) :
    n.number = v.number := by
  obtain ⟨w, -, hnumber, hname', -⟩ := exists_cell_at hkeys hn
  rw [hnumber]
  exact Variable.nameOf_inj (hname'.symm.trans hname)

/-- The search for the node of a variable finds it and no other. -/
theorem placesOf_eq_singleton (hm : m.Aligned) (h : g.IsNodeOf v j) :
    g.placesOf v.function [v.number] = [j] := by
  obtain ⟨n, hn, hname, hfunction⟩ := h
  have hnumber := number_eq_of_name_eq hkeys hn hname
  have hmem : j ∈ g.placesOf v.function [v.number] :=
    mem_placesOf.2 ⟨n, hn, hfunction, by simp [hnumber]⟩
  have honly : ∀ i ∈ g.placesOf v.function [v.number], i = j := by
    intro i hi
    obtain ⟨n', hn', -, hnumber'⟩ := mem_placesOf.1 hi
    exact place_unique hkeys hm hn' hn ((List.mem_singleton.1 hnumber').trans hnumber.symm)
  have hrepeat := List.eq_replicate_of_mem honly
  have hnodup := nodup_placesOf g v.function [v.number]
  rw [hrepeat, List.nodup_replicate] at hnodup
  rw [hrepeat, Nat.le_antisymm hnodup (List.length_pos_of_mem hmem)]
  rfl

theorem isNodeOf_of_mem_placesOf (hm : m.Aligned) (hv : v ∈ m.cells)
    (h : j ∈ g.placesOf v.function [v.number]) : g.IsNodeOf v j := by
  obtain ⟨n, hn, hfunction, hnumber⟩ := mem_placesOf.1 h
  obtain ⟨w, hw, hnumber', hname, -⟩ := exists_cell_at hkeys hn
  have hsame : w.number = v.number := hnumber'.symm.trans (List.mem_singleton.1 hnumber)
  obtain ⟨p, hp⟩ := List.getElem?_of_mem hv
  obtain ⟨q, hq⟩ := List.getElem?_of_mem hw
  rw [hm.number p v hp, hm.number q w hq] at hsame
  obtain rfl : w = v := Option.some.inj (hq.symm.trans (hsame ▸ hp))
  exact ⟨n, hn, hname, hfunction⟩

theorem existsUnique_isNodeOf (hm : m.Aligned) {f : Function} (hv : v ∈ m.cells)
    (hi : v.function = some i) (hf : functions[i]? = some f) (hcode : f.isImport = false) :
    ∃! j, g.IsNodeOf v j := by
  obtain ⟨n₀, hn₀, hkey₀⟩ := exists_node_of_cell hv hi hf hcode
  obtain ⟨j, hj⟩ := List.getElem?_of_mem hn₀
  have hkey : g.keys[j]? = some (i, v.number, v.name) := by
    rw [hkeys, keys, List.getElem?_map, hj, Option.map_some, hkey₀]
  rw [keys, List.getElem?_map, Option.map_eq_some_iff] at hkey
  obtain ⟨n, hn, hkey⟩ := hkey
  simp only [VariableNode.key, Prod.mk.injEq] at hkey
  have hnode : g.IsNodeOf v j := ⟨n, hn, hkey.2.2, by rw [hkey.1, hi]⟩
  refine ⟨j, hnode, fun k hk => ?_⟩
  have hsingle := placesOf_eq_singleton hkeys hm hk
  rw [placesOf_eq_singleton hkeys hm hnode] at hsingle
  exact (List.cons.inj hsingle).1.symm

end Nodes

/-- Names find the variables that numbers find. -/
theorem name_mem_iff {m : Memory} (hm : m.Aligned) (hv : v ∈ m.cells) (ns : List Nat) :
    v.name ∈ ns.map m.nameOf ↔ v.number ∈ ns := by
  obtain ⟨q, hq⟩ := List.getElem?_of_mem hv
  have hown : m.nameOf v.number = v.name := by
    rw [hm.number q v hq, Memory.nameOf, hq]
  rw [List.mem_map]
  constructor
  · rintro ⟨k, hk, hname⟩
    have hnumber : k = v.number := by
      unfold Memory.nameOf at hname
      cases hw : m.cells[k]? with
      | none =>
        rw [hw] at hname
        exact Variable.nameOf_inj hname
      | some w =>
        rw [hw] at hname
        rw [← hm.number k w hw]
        exact Variable.nameOf_inj hname
    exact hnumber ▸ hk
  · exact fun hmem => ⟨v.number, hmem, hown⟩

/-- The graph shows what each computed value is computed from, and nothing else. -/
structure DrawsOperands (g : DataFlow) (sc : Scene) (m : Memory) : Prop where
  owned : ∀ v ∈ m.cells, ∀ x lists ns, v.value = some x → x.ComputedFrom lists ns →
    ∃ i, v.function = some i ∧ sc.HasCode i
  node : ∀ v ∈ m.cells, ∀ i, v.function = some i → sc.HasCode i → ∃! j, g.IsNodeOf v j
  /-- One edge for each operand, from each node of the function that has one of its names. -/
  operands : ∀ v ∈ m.cells, ∀ x lists ns, v.value = some x → x.ComputedFrom lists ns →
    ∀ j, g.IsNodeOf v j → ∀ i n, g.nodes[i]? = some n → g.edgesBetween i j = lists.countP fun ls =>
      some n.function = v.function ∧ n.name ∈ ls.map m.nameOf
  integers : ∀ v ∈ m.cells, ∀ x lists ns, v.value = some x → x.ComputedFrom lists ns →
    ∀ j, g.IsNodeOf v j → g.constantsInto j = ns
  /-- Each constant has one edge. -/
  fresh : g.edges.filterMap DataEdge.constant? = List.range g.constants.length
  only : ∀ e ∈ g.edges, (∃ v ∈ m.cells, ∃ x lists ns, v.value = some x ∧ x.ComputedFrom lists ns ∧
    g.IsNodeOf v e.target) ∧ ∀ i, e.source = .node i → i < g.nodes.length
  children : ∀ a n, g.nodes[a]? = some n → ∀ b, n.children.count b = g.edgesBetween a b
  parents : ∀ a n, g.nodes[a]? = some n → ∀ b, n.parents.count b = g.edgesBetween b a

/-- Each computed variable has its node to itself, so what leads to the node are its operands. -/
theorem into_of_create {functions : List Function} {m : Memory} {j : Nat} (hm : m.Aligned)
    (htargeted : (unlinked functions m).Targeted m.cells)
    (hrun : m.cells.forM linkOperands (unlinked functions m) = .ok () g)
    (hkeys : g.keys = (unlinked functions m).keys) (hv : v ∈ m.cells) (hx : v.computed? = some x)
    (hj : g.IsNodeOf v j) :
    (∀ a, g.edgesBetween a j = (g.sourcesOf v x).count a) ∧ g.constantsInto j = integersOf x := by
  have hplaces : (unlinked functions m).placesOf v.function [v.number] = [j] := by
    rw [← placesOf_congr hkeys, placesOf_eq_singleton hkeys hm hj]
  obtain ⟨n, hn, hname, -⟩ := hj
  have hnumber := number_eq_of_name_eq hkeys hn hname
  obtain ⟨front, back, hsplit⟩ := List.append_of_mem hv
  have hnodup := nodup_cell_numbers hm
  rw [hsplit] at htargeted hrun hnodup
  rw [List.map_append, List.map_cons, List.nodup_middle, List.nodup_cons, ← List.map_append] at hnodup
  have hspared : (unlinked functions m).Spared (front ++ back) j := by
    intro w hw y _ hmem
    rw [← placesOf_congr hkeys] at hmem
    obtain ⟨n', hn', -, hnumber'⟩ := mem_placesOf.1 hmem
    obtain rfl : n = n' := Option.some.inj (hn.symm.trans hn')
    have hsame : w.number = v.number := (List.mem_singleton.1 hnumber').symm.trans hnumber
    exact hnodup.1 (hsame ▸ List.mem_map_of_mem hw)
  obtain ⟨hbetween, hinto⟩ :=
    into_of_forM (consistent_unlinked functions m) htargeted hx hplaces hspared hrun
  refine ⟨fun a => ?_, hinto⟩
  rw [hbetween, sourcesOf_congr hkeys]
  exact Nat.zero_add _

theorem targeted_of_program {sc : Scene} {graphs : List (Option FlowGraph)} {text : String} {d : Decompiler}
    (h : Decompiler.program sc true false (.start graphs) = .ok text d) :
    (unlinked sc.functions d.memory).Targeted d.memory.cells := by
  obtain ⟨hm, howned⟩ := Decompiler.inOrder_of_program h
  intro v hv x hx
  obtain ⟨i, hi, f, hf, hcode⟩ := howned v hv x hx
  obtain ⟨j, hj, -⟩ := existsUnique_isNodeOf rfl hm hv hi hf hcode
  rw [placesOf_eq_singleton rfl hm hj]
  exact List.cons_ne_nil j []

theorem exists_create_of_program {sc : Scene} {graphs : List (Option FlowGraph)} {text : String} {d : Decompiler}
    (h : Decompiler.program sc true false (.start graphs) = .ok text d) :
    ∃ g, create (ofMemory sc.functions d.memory) = .ok () g := by
  obtain ⟨g, hrun, -⟩ := drawn_forM (targeted_of_program h)
  exact ⟨g, (create_eq sc.functions d.memory).trans hrun⟩

/-- After a first pass without the imported functions, the graph of the memory can be made, and it is
the operand relation. -/
theorem create_draws_operands {sc : Scene} {graphs : List (Option FlowGraph)} {text : String}
    {d : Decompiler} (h : Decompiler.program sc true false (.start graphs) = .ok text d) :
    ∃ g, create (ofMemory sc.functions d.memory) = .ok () g ∧ g.DrawsOperands sc d.memory := by
  obtain ⟨hm, howned⟩ := Decompiler.inOrder_of_program h
  have htargeted := targeted_of_program h
  obtain ⟨g, hrun, hdrawn⟩ := drawn_forM htargeted
  have hkeys := hdrawn.keys
  have hconsistent := hdrawn.consistent (consistent_unlinked sc.functions d.memory)
  have hcomputed : ∀ {v : Variable} {x : Value} {lists : List (List Nat)} {ns : List Int},
      v.value = some x → x.ComputedFrom lists ns → v.computed? = some x := fun hx hfrom =>
    Variable.computed?_eq_some_iff.2 ⟨hx, _, _, hfrom⟩
  refine ⟨g, (create_eq sc.functions d.memory).trans hrun, fun v hv x lists ns hx hfrom => ?_, ?_,
    fun v hv x lists ns hx hfrom j hj i n hn => ?_, fun v hv x lists ns hx hfrom j hj => ?_,
    hconsistent.fresh, fun e he => ?_, hconsistent.children, hconsistent.parents⟩
  · exact howned v hv x (hcomputed hx hfrom)
  · rintro v hv i hi ⟨f, hf, hcode⟩
    exact existsUnique_isNodeOf hkeys hm hv hi hf hcode
  · rw [(into_of_create hm htargeted hrun hkeys hv (hcomputed hx hfrom) hj).1, count_sourcesOf,
      ← hfrom.operands_eq.1]
    apply List.countP_congr
    intro ls _
    obtain ⟨w, hw, hnumber, hname, -⟩ := exists_cell_at hkeys hn
    simp only [decide_eq_true_eq, mem_placesOf, hn, Option.some.injEq, exists_eq_left']
    rw [hname, name_mem_iff hm hw ls, hnumber]
  · rw [(into_of_create hm htargeted hrun hkeys hv (hcomputed hx hfrom) hj).2, hfrom.operands_eq.2]
  · rcases hdrawn.edges e he with hold | ⟨v, hv, x, hx, htarget, hsource⟩
    · cases hold
    rw [← placesOf_congr hkeys] at htarget
    obtain ⟨hvalue, lists, ns, hfrom⟩ := Variable.computed?_eq_some_iff.1 hx
    refine ⟨⟨v, hv, x, lists, ns, hvalue, hfrom, isNodeOf_of_mem_placesOf hkeys hm hv htarget⟩,
      fun i hi => ?_⟩
    have hmem := hsource i hi
    rw [← sourcesOf_congr hkeys] at hmem
    obtain ⟨ls, -, hplace⟩ := List.mem_flatMap.1 hmem
    obtain ⟨n, hn, -⟩ := mem_placesOf.1 hplace
    exact (List.getElem?_eq_some_iff.1 hn).1

/-- An imported function, which is entered and called but not walked. -/
def libraryFunction : Function where
  name := "library"
  id := 0
  start := 0
  stop := 2
  sites := [.pushing 0 .fp .imm .op1 (-1) 1 (some 1), .returning 2]
  implicit := []
  explicit := [(.number 0, ⟨"n", .str "felt"⟩)]
  returns := [(.number 0, ⟨"r", .str "felt"⟩)]
  decorators := .arr []
  isImport := true
  entryPoint := false

/-- A number made from the argument, the sum of the two, and a call of the imported function. -/
def sumsAndCalls : Function where
  name := "main"
  id := 1
  start := 3
  stop := 8
  sites := [.pushing 3 .fp .imm .add (-3) 1 (some 1), .pushing 5 .ap .fp .add (-1) (-3) none,
    .calling 6 (-6) "library", .returning 8]
  implicit := []
  explicit := [(.number 0, ⟨"x", .str "felt"⟩)]
  returns := []
  decorators := .arr []
  isImport := false
  entryPoint := true

def importScene : Scene := ⟨[libraryFunction, sumsAndCalls], ⟨.plain, Field.defaultPrime, []⟩⟩

/-- The argument `v3_x` has one edge to the number `v6` that is made from it, and so has the constant 1. -/
theorem create_draws_operands_import : ∃ text d g v w i j,
    Decompiler.program importScene true false (.start [none, none]) = .ok text d ∧
      create (ofMemory importScene.functions d.memory) = .ok () g ∧ g.DrawsOperands importScene d.memory ∧
      d.memory.cells[3]? = some v ∧ v.name = "v3_x" ∧ g.IsNodeOf v i ∧
      d.memory.cells[6]? = some w ∧ w.name = "v6" ∧ g.IsNodeOf w j ∧
      w.value = some (.combined (.cells [3]) .addition (.integer 1)) ∧
      g.edgesBetween i j = 1 ∧ g.constantsInto j = [1] := by
  obtain ⟨text, d, hrun, hseen⟩ := Decompiler.exists_run (x := Decompiler.program importScene true false)
    (d := .start [none, none])
    (f := fun d => [3, 6].map fun q => (d.memory.cells[q]?).map fun v => (v.name, v.function, v.value))
    (b := [some ("v3_x", some 1, none),
      some ("v6", some 1, some (.combined (.cells [3]) .addition (.integer 1)))]) (by decide +kernel)
  simp only [List.map_cons, List.map_nil, List.cons.injEq, Prod.mk.injEq, Option.map_eq_some_iff] at hseen
  obtain ⟨⟨v, hv, hvname, hvfunction, -⟩, ⟨w, hw, hwname, hwfunction, hwvalue⟩, -⟩ := hseen
  obtain ⟨g, hcreate, hdraws⟩ := create_draws_operands hrun
  have hcode : importScene.HasCode 1 := ⟨sumsAndCalls, rfl, rfl⟩
  obtain ⟨i, hi, -⟩ := hdraws.node v (List.mem_of_getElem? hv) 1 hvfunction hcode
  obtain ⟨j, hj, -⟩ := hdraws.node w (List.mem_of_getElem? hw) 1 hwfunction hcode
  refine ⟨text, d, g, v, w, i, j, hrun, hcreate, hdraws, hv, hvname, hi, hw, hwname, hj, hwvalue, ?_,
    hdraws.integers w (List.mem_of_getElem? hw) _ _ _ hwvalue (.cellsInteger _ _ _) j hj⟩
  obtain ⟨n, hn, hname, hfunction⟩ := hi
  rw [hdraws.operands w (List.mem_of_getElem? hw) _ _ _ hwvalue (.cellsInteger _ _ _) j hj i n hn]
  simp [hfunction, hname, hvfunction, hwfunction, Memory.nameOf, hv]

end DataFlow

end Cairoscope
