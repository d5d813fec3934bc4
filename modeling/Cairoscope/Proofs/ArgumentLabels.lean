import Cairoscope.DataFlow.Drawing
import Cairoscope.Proofs.CallEdges
import Cairoscope.Proofs.OperandEdges
import Cairoscope.Proofs.RecordedCalls

/-! The labels on the edges into a call. A call takes one variable for each explicit argument of its callee, and the
edge of the argument in place `i` has the parameter in place `i` as its label. Parameters are counted from the
implicit ones on, so the label names the argument exactly when the callee has no implicit arguments. -/

namespace Cairoscope

def Dot.Digraph.boxed (g : Dot.Digraph) : List (String × String × Option String) :=
  g.clusters.flatMap fun b => b.items.filterMap Dot.Item.edge?

namespace DataFlow

variable {g : DataFlow} {tail head parameter label : String}

theorem inCluster_eq_ok {function : Nat} {item : Dot.Item} {p : Placed} (h : g.inCluster function item = .ok p) :
    p.1 ∈ g.drawnNames ∧ p.2 = item := by
  unfold inCluster at h
  dsimp only at h
  split_ifs at h with hdrawn
  cases h
  exact ⟨by simpa using hdrawn, rfl⟩

/-- The item is in its place in the picture as an edge with this label. -/
def Placed.IsEdge (p : Placed) (g : DataFlow) (tail head : String) (label : Option String) : Prop :=
  p.1 ∈ g.drawnNames ∧ p.2.edge? = some (tail, head, label)

theorem mem_boxed {pic : Dot.Digraph} {placed : List Placed} {label : Option String} (hitems : g.items = .ok placed)
    (h : g.digraph = .ok pic) :
    (tail, head, label) ∈ pic.boxed ↔ ∃ p ∈ placed, p.IsEdge g tail head label := by
  unfold digraph at h
  obtain ⟨_, hitems', h⟩ := Outcome.bind_eq_ok.1 h
  obtain rfl : placed = _ := by simpa using hitems.symm.trans hitems'
  obtain rfl := Outcome.pure_eq_ok.1 h
  unfold Dot.Digraph.boxed
  simp only [List.mem_flatMap, List.mem_mergeSort, List.mem_map, exists_exists_and_eq_and, List.mem_filterMap]
  constructor
  · rintro ⟨name, hname, item, hitem, hedge⟩
    simp only [clusterOf, List.mem_cons, List.mem_map, List.mem_filter, beq_iff_eq] at hitem
    rcases hitem with rfl | rfl | ⟨p, ⟨hp, rfl⟩, rfl⟩
    · cases hedge
    · cases hedge
    · exact ⟨p, hp, hname, hedge⟩
  · rintro ⟨p, hp, hname, hedge⟩
    refine ⟨p.1, hname, p.2, ?_, hedge⟩
    simp only [clusterOf, List.mem_cons, List.mem_map, List.mem_filter, beq_iff_eq]
    exact .inr (.inr ⟨p, ⟨hp, rfl⟩, rfl⟩)

/-- The edges of the arguments of a call are found by their places. -/
theorem mem_argumentItems {c : CallResult} {callee : Function} (hcallee : g.functions[c.function]? = some callee) :
    (∃ item ∈ g.argumentItems c label, item.edge? = some (tail, head, some parameter)) ↔ head = label ∧
      ∃ (i k : Nat) (n : VariableNode), c.arguments[i]? = some (.single k) ∧
        callee.parameterNames[i]? = some parameter ∧ g.nodes.find? (fun n => n.number == k) = some n ∧
        tail = n.name := by
  unfold argumentItems
  simp only [hcallee, Option.map_some, Option.getD_some, List.mem_filterMap]
  constructor
  · rintro ⟨item, ⟨⟨argument, q⟩, hzip, hitem⟩, hedge⟩
    obtain ⟨i, hi⟩ := List.getElem?_of_mem hzip
    obtain ⟨hargument, hq⟩ := List.getElem?_zip_eq_some.1 hi
    cases argument with
    | merged _ => cases hitem
    | single k =>
      obtain ⟨n, hn, hitem⟩ := Option.bind_eq_some_iff.1 hitem
      cases hitem
      cases hedge
      exact ⟨rfl, i, k, n, hargument, hq, hn, rfl⟩
  · rintro ⟨rfl, i, k, n, hargument, hparameter, hn, rfl⟩
    have hzip : (c.arguments.zip callee.parameterNames)[i]? = some (.single k, parameter) :=
      List.getElem?_zip_eq_some.2 ⟨hargument, hparameter⟩
    refine ⟨.edge n.name head (some parameter) [("fontname", font)], ⟨_, List.mem_of_getElem? hzip, ?_⟩, rfl⟩
    exact Option.bind_eq_some_iff.2 ⟨n, hn, rfl⟩

theorem labelled_callItems_iff {v : Variable} {c : CallResult} {placed : List Placed}
    (h : g.callItems v c = .ok placed) :
    (∃ p ∈ placed, p.IsEdge g tail head (some parameter)) ↔
      ∃ item ∈ g.argumentItems c (g.callLabel c), item.edge? = some (tail, head, some parameter) := by
  constructor
  · rintro ⟨p, hp, -, hedge⟩
    obtain ⟨item, hitem, hplace⟩ := Outcome.exists_of_mem_mapM h hp
    rw [(inCluster_eq_ok hplace).2] at hedge
    rcases List.mem_cons.1 hitem with rfl | hitem
    · cases hedge
    · exact ⟨item, hitem, hedge⟩
  · rintro ⟨item, hitem, hedge⟩
    obtain ⟨p, hp, hplace⟩ := Outcome.exists_mem_of_mapM h (List.mem_cons_of_mem _ hitem)
    obtain ⟨hdrawn, rfl⟩ := inCluster_eq_ok hplace
    exact ⟨p, hp, hdrawn, hedge⟩

theorem unlabelled_of_edgeItem {e : DataEdge} {placed : List Placed} {p : Placed} (h : g.edgeItem e = .ok placed)
    (hp : p ∈ placed) : ∃ tail head, p.2.edge? = some (tail, head, none) := by
  unfold edgeItem at h
  split at h
  · split_ifs at h
    · obtain rfl := Outcome.pure_eq_ok.1 h
      cases hp
    · obtain ⟨_, hplace, h⟩ := Outcome.bind_eq_ok.1 h
      obtain rfl := Outcome.pure_eq_ok.1 h
      obtain rfl := List.mem_singleton.1 hp
      rw [(inCluster_eq_ok hplace).2]
      exact ⟨_, _, rfl⟩
  · obtain rfl := Outcome.pure_eq_ok.1 h
    cases hp

/-- A labelled edge leads into a call. -/
theorem labelled_iff {placed : List Placed} (h : g.items = .ok placed) :
    (∃ p ∈ placed, p.IsEdge g tail head (some parameter)) ↔ ∃ v ∈ g.cells, ∃ c, v.value = some (.result c) ∧
      ∃ item ∈ g.argumentItems c (g.callLabel c), item.edge? = some (tail, head, some parameter) := by
  unfold items at h
  obtain ⟨calls, hcalls, h⟩ := Outcome.bind_eq_ok.1 h
  obtain ⟨nodes, hnodes, h⟩ := Outcome.bind_eq_ok.1 h
  obtain ⟨constants, hconstants, h⟩ := Outcome.bind_eq_ok.1 h
  obtain ⟨callNodes, hcallNodes, h⟩ := Outcome.bind_eq_ok.1 h
  obtain ⟨edges, hedges, h⟩ := Outcome.bind_eq_ok.1 h
  obtain rfl := Outcome.pure_eq_ok.1 h
  constructor
  · rintro ⟨p, hp, hdrawn, hedge⟩
    simp only [List.mem_append, List.mem_flatten] at hp
    rcases hp with (((⟨ps, hps, hp⟩ | hp) | hp) | hp) | ⟨ps, hps, hp⟩
    · obtain ⟨v, hv, hitems⟩ := Outcome.exists_of_mem_mapM hcalls hps
      split at hitems
      next c hc => exact ⟨v, hv, c, hc, (labelled_callItems_iff hitems).1 ⟨p, hp, hdrawn, hedge⟩⟩
      next =>
        obtain rfl := Outcome.pure_eq_ok.1 hitems
        cases hp
    · obtain ⟨n, -, hn⟩ := Outcome.exists_of_mem_mapM hnodes hp
      unfold nodeItem at hn
      obtain ⟨colour, -, hn⟩ := Outcome.bind_eq_ok.1 hn
      rw [(inCluster_eq_ok hn).2] at hedge
      cases hedge
    · obtain ⟨n, -, hn⟩ := Outcome.exists_of_mem_mapM hconstants hp
      rw [(inCluster_eq_ok hn).2] at hedge
      cases hedge
    · obtain ⟨n, -, hn⟩ := Outcome.exists_of_mem_mapM hcallNodes hp
      rw [(inCluster_eq_ok hn).2] at hedge
      cases hedge
    · obtain ⟨e, -, he⟩ := Outcome.exists_of_mem_mapM hedges hps
      obtain ⟨_, _, hunlabelled⟩ := unlabelled_of_edgeItem he hp
      rw [hunlabelled] at hedge
      cases hedge
  · rintro ⟨v, hv, c, hc, hargument⟩
    obtain ⟨ps, hps, hitems⟩ := Outcome.exists_mem_of_mapM hcalls hv
    rw [hc] at hitems
    obtain ⟨p, hp, hedge⟩ := (labelled_callItems_iff hitems).2 hargument
    refine ⟨p, ?_, hedge⟩
    simp only [List.mem_append, List.mem_flatten]
    exact .inl (.inl (.inl (.inl ⟨ps, hps, hp⟩)))

/-- The memory records the call, and the variable is what it takes in place `i`. The variable is drawn: it belongs to
a function with code. -/
structure Argument (sc : Scene) (m : Memory) (c : CallResult) (callee : Function) (i : Nat) (w : Variable) : Prop where
  recorded : ∃ v ∈ m.cells, v.value = some (.result c)
  callee : sc.functions[c.function]? = some callee
  passed : c.arguments[i]? = some (.single w.number)
  cell : w ∈ m.cells
  drawn : ∃ j, w.function = some j ∧ sc.HasCode j

section Nodes

variable {sc : Scene} {m : Memory} {k : Nat} {name : String}

theorem mem_keys_unlinked {j : Nat} : (j, k, name) ∈ (unlinked sc.functions m).keys ↔
    ∃ w ∈ m.cells, w.number = k ∧ w.name = name ∧ w.function = some j ∧ sc.HasCode j := by
  constructor
  · intro h
    obtain ⟨n, hn, hkey⟩ := List.mem_map.1 h
    obtain ⟨w, hw, hnode⟩ := List.mem_filterMap.1 hn
    simp only [Option.bind_eq_bind, Option.bind_eq_some_iff] at hnode
    obtain ⟨i, hi, f, hf, hnode⟩ := hnode
    split_ifs at hnode with himport
    obtain rfl := Option.some.inj hnode
    obtain ⟨rfl, rfl, rfl⟩ : i = j ∧ w.number = k ∧ w.name = name := by simpa [VariableNode.key] using hkey
    exact ⟨w, hw, rfl, rfl, hi, f, hf, by simpa using himport⟩
  · rintro ⟨w, hw, rfl, rfl, hj, f, hf, hcode⟩
    obtain ⟨n, hn, hkey⟩ := exists_node_of_cell hw hj hf hcode
    exact List.mem_map.2 ⟨n, hn, hkey⟩

/-- The search for a node by its number finds the variable with that number. -/
theorem find?_number_iff (hm : m.Aligned) (hkeys : g.keys = (unlinked sc.functions m).keys) :
    (∃ n, g.nodes.find? (fun n => n.number == k) = some n ∧ name = n.name) ↔
      ∃ w ∈ m.cells, w.number = k ∧ (∃ j, w.function = some j ∧ sc.HasCode j) ∧ name = w.name := by
  have hcell : ∀ n ∈ g.nodes, ∃ w ∈ m.cells, w.number = n.number ∧ w.name = n.name ∧
      w.function = some n.function ∧ sc.HasCode n.function := by
    intro n hn
    have hkey : n.key ∈ g.keys := List.mem_map_of_mem hn
    rw [hkeys] at hkey
    exact mem_keys_unlinked.1 hkey
  constructor
  · rintro ⟨n, hfind, rfl⟩
    obtain rfl : n.number = k := by simpa using List.find?_some hfind
    obtain ⟨w, hw, hnumber, hname, hdrawn⟩ := hcell n (List.mem_of_find?_eq_some hfind)
    exact ⟨w, hw, hnumber, ⟨_, hdrawn⟩, hname.symm⟩
  · rintro ⟨w, hw, rfl, ⟨j, hj, hcode⟩, rfl⟩
    have hkey := mem_keys_unlinked.2 ⟨w, hw, rfl, rfl, hj, hcode⟩
    rw [← hkeys] at hkey
    obtain ⟨n₀, hn₀, hkey⟩ := List.mem_map.1 hkey
    have hsome : (g.nodes.find? fun n => n.number == w.number).isSome := by
      refine List.find?_isSome.2 ⟨n₀, hn₀, ?_⟩
      have hnumber : n₀.number = w.number := congrArg (·.2.1) hkey
      simp [hnumber]
    obtain ⟨n, hfind⟩ := Option.isSome_iff_exists.1 hsome
    obtain ⟨w', hw', hnumber, hname, -⟩ := hcell n (List.mem_of_find?_eq_some hfind)
    have hsame : n.number = w.number := by simpa using List.find?_some hfind
    obtain rfl : w' = w := Memory.eq_of_number_eq hm hw' hw (hnumber.trans hsame)
    exact ⟨n, hfind, hname⟩

end Nodes

/-- The parameter in the place of an explicit argument is the argument itself if there are no implicit ones. -/
theorem label_eq_of_no_implicit {f : Function} {i : Nat} (h : f.implicit = []) :
    f.parameterNames[i]? = f.explicit.names[i]? := by
  unfold Function.parameterNames
  rw [h]
  rfl

/-- With distinct names of parameters, an implicit argument shifts all labels. -/
theorem no_implicit_of_label_eq {f : Function} {i : Nat} {p : String} (hnodup : f.parameterNames.Nodup)
    (hlabel : f.parameterNames[i]? = some p) (hname : f.explicit.names[i]? = some p) : f.implicit = [] := by
  have hshifted : f.parameterNames[f.implicit.names.length + i]? = some p := by
    unfold Function.parameterNames
    rw [List.getElem?_append_right (Nat.le_add_right _ _), Nat.add_sub_cancel_left, hname]
  have hlt : i < f.parameterNames.length := (List.getElem?_eq_some_iff.1 hlabel).1
  have hplace := (List.getElem?_inj hlt hnodup).1 (hlabel.trans hshifted.symm)
  have hlength : f.implicit.length = f.implicit.names.length := (List.length_map _).symm
  exact List.eq_nil_of_length_eq_zero (by omega)

/-- What the picture of the graph shows of the arguments of calls: which edges have labels, and for each argument the
call statement that takes it, its label and its own name. -/
structure ShowsArguments (sc : Scene) (graphs : List (Option FlowGraph)) (m : Memory) (g : DataFlow)
    (pic : Dot.Digraph) : Prop where
  labelled : ∀ tail head parameter, (tail, head, some parameter) ∈ pic.boxed ↔ ∃ c callee i w,
    Argument sc m c callee i w ∧ tail = w.name ∧ head = g.callLabel c ∧ callee.parameterNames[i]? = some parameter
  argument : ∀ c callee i w, Argument sc m c callee i w →
    (∃ μ ∈ Decompiler.firstPassLog sc false graphs, Decompiler.Passes sc μ callee c) ∧
    ∃ label name, (w.name, g.callLabel c, some label) ∈ pic.boxed ∧ callee.parameterNames[i]? = some label ∧
      callee.explicit.names[i]? = some name ∧ (callee.implicit = [] → label = name) ∧
      (callee.parameterNames.Nodup → label = name → callee.implicit = [])

section Pictures

variable {sc : Scene} {graphs : List (Option FlowGraph)} {text : String} {d : Decompiler}

theorem labelled_iff_argument {pic : Dot.Digraph} {placed : List Placed}
    (h : Decompiler.program sc true false (.start graphs) = .ok text d)
    (hcreate : create (ofMemory sc.functions d.memory) = .ok () g) (hitems : g.items = .ok placed)
    (hpic : g.digraph = .ok pic) :
    (tail, head, some parameter) ∈ pic.boxed ↔ ∃ c callee i w, Argument sc d.memory c callee i w ∧
      tail = w.name ∧ head = g.callLabel c ∧ callee.parameterNames[i]? = some parameter := by
  obtain ⟨hfunctions, hcells, hkeys⟩ := frame_create hcreate
  change g.functions = sc.functions at hfunctions
  change g.cells = d.memory.cells at hcells
  have hm := (Decompiler.inOrder_of_program h).aligned
  have hcalled : ∀ v ∈ d.memory.cells, ∀ c, v.value = some (.result c) →
      ∃ callee, sc.functions[c.function]? = some callee := by
    intro v hv c hc
    obtain ⟨μ, -, callee, hpasses⟩ := Decompiler.madeIn_of_program h hv hc
    exact ⟨callee, hpasses.callee⟩
  rw [mem_boxed hitems hpic, labelled_iff hitems, hcells]
  constructor
  · rintro ⟨v, hv, c, hc, hargument⟩
    obtain ⟨callee, hcallee⟩ := hcalled v hv c hc
    have hcallee' : g.functions[c.function]? = some callee := hfunctions ▸ hcallee
    obtain ⟨rfl, i, k, n, hpassed, hparameter, hnode⟩ := (mem_argumentItems hcallee').1 hargument
    obtain ⟨w, hw, rfl, hdrawn, hname⟩ := (find?_number_iff hm hkeys).1 ⟨n, hnode⟩
    exact ⟨c, callee, i, w, ⟨⟨v, hv, hc⟩, hcallee, hpassed, hw, hdrawn⟩, hname, rfl, hparameter⟩
  · rintro ⟨c, callee, i, w, ⟨⟨v, hv, hc⟩, hcallee, hpassed, hw, hdrawn⟩, hname, rfl, hparameter⟩
    obtain ⟨n, hnode⟩ := (find?_number_iff hm hkeys).2 ⟨w, hw, rfl, hdrawn, hname⟩
    have hcallee' : g.functions[c.function]? = some callee := hfunctions ▸ hcallee
    exact ⟨v, hv, c, hc, (mem_argumentItems hcallee').2 ⟨rfl, i, _, n, hpassed, hparameter, hnode⟩⟩

/-- After a first pass the graph can be made, and wherever it can be drawn, an argument is labelled with the parameter
in its place, counted from the first implicit one. -/
theorem argument_labels_shifted (h : Decompiler.program sc true false (.start graphs) = .ok text d) :
    ∃ g, create (ofMemory sc.functions d.memory) = .ok () g ∧
      ∀ pic, g.digraph = .ok pic → ShowsArguments sc graphs d.memory g pic := by
  obtain ⟨g, hcreate⟩ := exists_create_of_program h
  refine ⟨g, hcreate, fun pic hpic => ?_⟩
  obtain ⟨placed, hitems, -⟩ := Outcome.bind_eq_ok.1 hpic
  refine ⟨fun _ _ _ => labelled_iff_argument h hcreate hitems hpic, fun c callee i w hargument => ?_⟩
  obtain ⟨v, hv, hc⟩ := hargument.recorded
  obtain ⟨μ, hμ, callee', hpasses⟩ := Decompiler.madeIn_of_program h hv hc
  obtain rfl : callee' = callee := Option.some.inj (hpasses.callee.symm.trans hargument.callee)
  refine ⟨⟨μ, hμ, hpasses⟩, ?_⟩
  have hplace : i < callee'.explicit.names.length := by
    have hlt := (List.getElem?_eq_some_iff.1 hargument.passed).1
    rwa [hpasses.length, ← List.length_map] at hlt
  have hplace' : i < callee'.parameterNames.length := by
    rw [Function.parameterNames, List.length_append]
    exact Nat.lt_add_left _ hplace
  have hname := List.getElem?_eq_getElem hplace
  have hlabel := List.getElem?_eq_getElem hplace'
  refine ⟨_, _, ?_, hlabel, hname, fun hnone => ?_, fun hnodup hsame => ?_⟩
  · exact (labelled_iff_argument h hcreate hitems hpic).2 ⟨c, callee', i, w, hargument, rfl, rfl, hlabel⟩
  · exact Option.some.inj (hlabel.symm.trans ((label_eq_of_no_implicit hnone).trans hname))
  · exact no_implicit_of_label_eq hnodup hlabel (hsame ▸ hname)

end Pictures

def withImplicit : Function where
  name := "withdraw"
  id := 0
  start := 0
  stop := 1
  sites := [.pushing 0 .fp .fp .op1 (-1) (-3) none, .returning 1]
  implicit := [(.number 0, ⟨"balance", .str "felt"⟩)]
  explicit := [(.number 0, ⟨"amount", .str "felt"⟩)]
  returns := [(.number 0, ⟨"r", .str "felt"⟩)]
  decorators := .arr []
  isImport := false
  entryPoint := false

def callsWithImplicit : Function where
  name := "main"
  id := 1
  start := 2
  stop := 8
  sites := [.pushing 2 .fp .imm .op1 (-1) 1 (some 7), .pushing 4 .fp .imm .op1 (-1) 1 (some 5),
    .calling 6 (-6) "withdraw", .returning 8]
  implicit := []
  explicit := []
  returns := []
  decorators := .arr []
  isImport := false
  entryPoint := true

def implicitScene : Scene := ⟨[withImplicit, callsWithImplicit], ⟨.plain, Field.defaultPrime, []⟩⟩

def withdrawal : CallResult := ⟨0, 0, "r", [.single 8], 0⟩

/-- The amount is labelled as the balance. -/
theorem argument_labels_shifted_implicit : ∃ text d g pic,
    Decompiler.program implicitScene true false (.start [none, none]) = .ok text d ∧
    create (ofMemory implicitScene.functions d.memory) = .ok () g ∧ g.digraph = .ok pic ∧
    ShowsArguments implicitScene [none, none] d.memory g pic ∧
    (∃ w, Argument implicitScene d.memory withdrawal withImplicit 0 w ∧
      (w.name, g.callLabel withdrawal, some "balance") ∈ pic.boxed) ∧
    withImplicit.explicit.names = ["amount"] := by
  have hrun : (EStateM.run' (Decompiler.program implicitScene true false >>= fun _ => get) (.start [none, none])).any
      (fun d => decide ((∃ v ∈ d.memory.cells, v.value = some (.result withdrawal)) ∧
        ∃ w ∈ d.memory.cells, w.number = 8 ∧ w.function = some 1) &&
      (EStateM.run' (create >>= fun _ => get) (ofMemory implicitScene.functions d.memory)).any fun g =>
        g.digraph.toOption.isSome) = true := by
    decide +kernel
  obtain ⟨d, hstate, hrun⟩ := (Option.any_eq_true _ _).1 hrun
  obtain ⟨_, hboth⟩ := Run.run'_eq_some.1 hstate
  obtain ⟨text, e, hprogram, hget⟩ := Run.bind_eq_ok.1 hboth
  obtain ⟨rfl, -⟩ : e = d ∧ _ := Run.get_eq_ok.1 hget
  obtain ⟨hcells, hdrawn⟩ := Bool.and_eq_true_iff.1 hrun
  obtain ⟨hrecorded, w, hw, hnumber, hfunction⟩ := of_decide_eq_true hcells
  obtain ⟨g, hcreate, hshows⟩ := argument_labels_shifted hprogram
  have hgraph : EStateM.run' (create >>= fun _ => get) (ofMemory implicitScene.functions e.memory) = some g :=
    Run.run'_eq_some.2 ⟨g, Run.bind_eq_ok.2 ⟨(), g, hcreate, rfl⟩⟩
  rw [hgraph] at hdrawn
  have hargument : Argument implicitScene _ withdrawal withImplicit 0 w :=
    ⟨hrecorded, rfl, by rw [hnumber]; rfl, hw, 1, hfunction, callsWithImplicit, rfl, rfl⟩
  cases hpic : g.digraph with
  | error e => simp [hpic, Except.toOption] at hdrawn
  | ok pic =>
    have hedge := ((hshows pic hpic).labelled _ _ "balance").2 ⟨_, _, 0, w, hargument, rfl, rfl, rfl⟩
    exact ⟨text, _, g, pic, hprogram, hcreate, hpic, hshows pic hpic, ⟨w, hargument, hedge⟩, rfl⟩

end DataFlow

end Cairoscope
