import Cairoscope.Proofs.Equality
import Cairoscope.Proofs.FirstPass
import Cairoscope.Proofs.Meaning

/-! Straight-line code. Its flow graph has no edges, so no variables meet anywhere, and the first pass
is a chain of assignments that ends with a return. -/

namespace Cairoscope.Decompiler

variable {sc : Scene} {place : Place} {d d' : Decompiler}

structure Straight (index : Nat) (d : Decompiler) : Prop where
  firstPass : d.firstPass = true
  edges : ∀ b ∈ d.blocksOf index, b.edges = []

def nothingMeets : Meeting := ⟨[], ""⟩

theorem parentsAmong_eq_nil {blocks : List Block} (h : ∀ b ∈ blocks, b.edges = []) (b : Block) :
    FlowGraph.parentsAmong blocks b = [] := by
  unfold FlowGraph.parentsAmong
  rw [List.flatMap_eq_nil_iff]
  intro p hp
  simp [Block.targets, h p hp]

theorem meeting_of_straight (h : Straight place.function d) :
    meeting place d = .ok nothingMeets d := by
  have hparents : hasParents place d = .ok false d := by
    rw [hasParents_eq_ok]
    refine ⟨?_, rfl⟩
    cases (d.blocksOf place.function)[place.block]? with
    | none => rfl
    | some b =>
      dsimp only
      rw [parentsAmong_eq_nil h.edges]
      rfl
  unfold meeting
  rw [Run.get_bind, Run.bind_eq_ok]
  refine ⟨_, d, currentBlock_eq_ok.2 ⟨rfl, rfl⟩, ?_⟩
  rw [if_neg (by simp [h.firstPass]), Run.bind_eq_ok]
  refine ⟨false, d, hparents, ?_⟩
  rw [if_neg (by simp)]
  rfl

/-- An equality records its value and then moves `ap`, but never back. -/
theorem records_of_statement {returns : Nat} {s : Site} {last : Bool} {text : String}
    (hd : Straight place.function d) (hs : s.instruction.IsEquality)
    (h : statement sc place returns s last d = .ok text d') :
    ∃ m dst value n, Records sc.printer.prime nothingMeets s.instruction d.memory m dst value ∧
      apStep sc s.instruction = .ok n ∧ d'.memory = m.moveAp (max 0 n) ∧ d'.graphs = d.graphs ∧
      d'.firstPass = d.firstPass := by
  obtain ⟨t, out, hbody⟩ := body_of_statement h
  unfold body at hbody
  simp only [hs.opcode] at hbody
  obtain ⟨line, d₁, heq, hbody⟩ := Run.bind_eq_ok.1 hbody
  have hmeet : meeting place { d with tabs := t } = .ok nothingMeets { d with tabs := t } :=
    meeting_of_straight ⟨hd.firstPass, hd.edges⟩
  obtain ⟨dst, value, hassigned⟩ := assigned_of_assertEq hmeet heq
  obtain ⟨n, _, hn, hbody⟩ := Run.bind_eq_ok.1 hbody
  obtain ⟨hstep, rfl⟩ := Run.ofOutcome_eq_ok.1 hn
  obtain ⟨_, _, hmodify, hbody⟩ := Run.bind_eq_ok.1 hbody
  obtain rfl := Run.modify_eq_ok.1 hmodify
  obtain ⟨-, rfl⟩ := Run.pure_eq_ok.1 hbody
  refine ⟨d₁.memory, dst, value, n, hassigned.records, hstep, rfl, ?_, ?_⟩
  · obtain ⟨m, k, as, rfl⟩ := hassigned.rest
    rfl
  · obtain ⟨m, k, as, rfl⟩ := hassigned.rest
    rfl

theorem grows_of_returnNames {n : Nat} {names : List String}
    (h : returnNames n d = .ok names d') :
    ∃ m, d.memory.Grows (fun _ _ => False) m ∧ { d with memory := m } = d' := by
  induction n generalizing d d' names with
  | zero =>
    obtain ⟨-, rfl⟩ := Run.pure_eq_ok.1 h
    exact ⟨d.memory, Memory.Grows.refl _ _, rfl⟩
  | succ n ih =>
    obtain ⟨k, _, hcell, h⟩ := Run.bind_eq_ok.1 h
    obtain ⟨m, hwidens, -, rfl⟩ := cellAt_of_cell hcell
    obtain ⟨_, _, hupdate, h⟩ := Run.bind_eq_ok.1 h
    obtain rfl := updateVariable_eq_ok.1 hupdate
    obtain ⟨name, _, hname, h⟩ := Run.bind_eq_ok.1 h
    obtain ⟨-, rfl⟩ := nameOf_eq_ok.1 hname
    obtain ⟨rest, _, hrest, h⟩ := Run.bind_eq_ok.1 h
    obtain ⟨m', hgrows, rfl⟩ := ih hrest
    obtain ⟨-, rfl⟩ := Run.pure_eq_ok.1 h
    refine ⟨m', (hwidens.grows.trans ?_).trans hgrows, rfl⟩
    exact Memory.Grows.update_of_value_eq (fun _ => rfl) fun _ => rfl

/-- A return marks variables at most. -/
theorem grows_of_statement {returns : Nat} {s : Site} {text : String}
    (hs : s.instruction.opcode = .ret) (h : statement sc place returns s false d = .ok text d') :
    d.memory.Grows (fun _ _ => False) d'.memory ∧ d'.graphs = d.graphs ∧
      d'.firstPass = d.firstPass := by
  obtain ⟨t, out, hbody⟩ := body_of_statement h
  unfold body at hbody
  simp only [hs] at hbody
  unfold ret at hbody
  obtain ⟨text', d₁, htext, hbody⟩ := Run.bind_eq_ok.1 hbody
  obtain ⟨-, rfl⟩ := Run.pure_eq_ok.1 hbody
  unfold returnText at htext
  split at htext
  · obtain ⟨head, _, hline, htext⟩ := Run.bind_eq_ok.1 htext
    obtain ⟨-, rfl⟩ := line_eq_ok.1 hline
    obtain ⟨-, rfl⟩ := Run.pure_eq_ok.1 htext
    exact ⟨Memory.Grows.refl _ _, rfl, rfl⟩
  · obtain ⟨head, _, hline, htext⟩ := Run.bind_eq_ok.1 htext
    obtain ⟨-, rfl⟩ := line_eq_ok.1 hline
    obtain ⟨names, _, hnames, htext⟩ := Run.bind_eq_ok.1 htext
    obtain ⟨m, hgrows, rfl⟩ := grows_of_returnNames hnames
    obtain ⟨-, rfl⟩ := Run.pure_eq_ok.1 htext
    exact ⟨hgrows, rfl, rfl⟩

theorem blocksOf_congr {d d' : Decompiler} (h : d'.graphs = d.graphs) (index : Nat) :
    d'.blocksOf index = d.blocksOf index := by
  unfold blocksOf
  rw [h]

/-- What is left of straight-line code. -/
def Line (rest : List Site) : Prop :=
  rest = [] ∨ ∃ front last, rest = front ++ [last] ∧ (∀ s ∈ front, s.instruction.IsEquality) ∧
    last.instruction.opcode = .ret

theorem line_cons {s : Site} {rest : List Site} (h : Line (s :: rest)) :
    (s.instruction.IsEquality ∧ Line rest) ∨ (s.instruction.opcode = .ret ∧ rest = []) := by
  rcases h with h | ⟨front, last, hsplit, hequality, hret⟩
  · cases h
  · cases front with
    | nil =>
      obtain ⟨rfl, rfl⟩ := List.cons.inj hsplit
      exact Or.inr ⟨hret, rfl⟩
    | cons t front =>
      obtain ⟨rfl, rfl⟩ := List.cons.inj hsplit
      refine Or.inl ⟨hequality s (by simp), Or.inr ⟨front, last, rfl, fun t ht => ?_, hret⟩⟩
      exact hequality t (by simp [ht])

theorem regular_of_straightLine {f : Function} (h : f.StraightLine) :
    ∀ s ∈ f.sites, s.instruction.isReturn = true ∨ s.instruction.pcUpdate = .regular := by
  obtain ⟨front, last, hsplit, hequality, hret⟩ := h
  intro s hs
  rw [hsplit] at hs
  rcases List.mem_append.1 hs with hs | hs
  · exact Or.inr (hequality s hs).pc
  · rw [List.mem_singleton.1 hs]
    exact Or.inl (by simp [Instruction.isReturn, hret])

theorem Straight.congr {index : Nat} (h : Straight index d) (hgraphs : d'.graphs = d.graphs)
    (hpass : d'.firstPass = d.firstPass) : Straight index d' :=
  ⟨by rw [hpass, h.firstPass], by rw [blocksOf_congr hgraphs]; exact h.edges⟩

theorem Straight.withBlock {index : Nat} (h : Straight index d) (place : Place) (ns : List Nat) :
    Straight index (d.withBlock place fun b => { b with allocated := ns }) := by
  refine ⟨h.firstPass, ?_⟩
  have hmap := map_blocksOf_withBlock (f := fun b => { b with allocated := ns }) (g := (·.edges))
    (fun _ => rfl) d place index
  intro b hb
  obtain ⟨c, hc, hbc⟩ := List.mem_map.1 (hmap ▸ List.mem_map_of_mem hb)
  rw [← hbc]
  exact h.edges c hc

theorem blocksOf_set {index : Nat} {g : FlowGraph} {graphs : List (Option FlowGraph)}
    (hgraphs : d.graphs = graphs.set index (some g)) :
    d.blocksOf index = if index < graphs.length then g.blocks else [] := by
  unfold blocksOf
  rw [hgraphs]
  split_ifs with hindex
  · rw [List.getElem?_set_self hindex]
  · rw [List.getElem?_eq_none (by rw [List.length_set]; omega)]

/-- The new graph of a function has its instructions in order, and no edges if the code never jumps.
Where there is no place for the graph, there are no blocks. -/
theorem blocks_of_cut {index next n : Nat} {f : Function} {blocks : List Block} {g : FlowGraph}
    {graphs : List (Option FlowGraph)} (hcut : FlowGraph.cut next f.sites = .ok (blocks, n))
    (hg : g.blocks = FlowGraph.markPhi blocks) (hgraphs : d.graphs = graphs.set index (some g)) :
    (d.blocksOf index).flatMap (·.sites) = (if index < graphs.length then f.sites else []) ∧
      (f.StraightLine → ∀ b ∈ d.blocksOf index, b.edges = []) := by
  rw [blocksOf_set hgraphs, hg]
  split_ifs with hindex
  · constructor
    · rw [List.flatMap_def, FlowGraph.map_markPhi _ fun _ _ => rfl, ← List.flatMap_def,
        FlowGraph.flatMap_sites_of_cut hcut]
    · intro hline b hb
      have hnone := FlowGraph.edges_of_cut_of_regular hcut (regular_of_straightLine hline)
      have hmap := FlowGraph.map_markPhi (·.edges) (fun _ _ => rfl) blocks
      obtain ⟨c, hc, hbc⟩ := List.mem_map.1 (hmap ▸ List.mem_map_of_mem hb)
      rw [← hbc]
      exact hnone c hc
  · exact ⟨rfl, fun _ b hb => by cases hb⟩

/-- A property `Q` of the code to come and of the memory, on the way through straight-line code. -/
structure OnLine (Q : List Site → Memory → Prop) (index : Nat) (rest : List Site) (d : Decompiler) :
    Prop where
  line : Line rest
  holds : Q rest d.memory
  straight : Straight index d

/-- Every equality and the return keep `Q`. -/
structure Kept (sc : Scene) (Q : List Site → Memory → Prop) : Prop where
  equality : ∀ {s rest m m' dst value n}, s.instruction.IsEquality → Q (s :: rest) m →
    Records sc.printer.prime nothingMeets s.instruction m m' dst value →
    apStep sc s.instruction = .ok n → Q rest (m'.moveAp (max 0 n))
  ret : ∀ {s m m'}, s.instruction.opcode = .ret → Q [s] m → m.Grows (fun _ _ => False) m' → Q [] m'

variable {Q : List Site → Memory → Prop}

theorem OnLine.statement (place : Place) {returns : Nat} {s : Site} {rest : List Site}
    {text : String} (hkept : Kept sc Q) (hd : OnLine Q place.function (s :: rest) d)
    (h : statement sc place returns s false d = .ok text d') :
    OnLine Q place.function rest d' := by
  rcases line_cons hd.line with ⟨hi, hrest⟩ | ⟨hret, rfl⟩
  · obtain ⟨m, dst, value, n, hrecords, hstep, hmem, hgraphs, hpass⟩ :=
      records_of_statement hd.straight hi h
    refine ⟨hrest, ?_, hd.straight.congr hgraphs hpass⟩
    rw [hmem]
    exact hkept.equality hi hd.holds hrecords hstep
  · obtain ⟨hgrows, hgraphs, hpass⟩ := grows_of_statement hret h
    exact ⟨Or.inl rfl, hkept.ret hret hd.holds hgrows, hd.straight.congr hgraphs hpass⟩

/-- What the instructions of straight-line code keep holds after it. Without a place for the graph
none of them is scanned. -/
theorem of_straightLine {index : Nat} {f : Function} {text : String}
    (hkept : Kept sc Q) (hline : f.StraightLine) (hfirst : d.firstPass = true)
    (henter : Q f.sites (d.memory.enter (some index) f.parameterNames d.nextBlock))
    (h : function sc true true index f d = .ok text d') :
    Q (if index < d.graphs.length then [] else f.sites) d'.memory ∧ d'.firstPass = true := by
  obtain ⟨e, blocks, next, n, hcut, hmemory, ⟨g, hg, hgraphs⟩, hpass, -, hscan⟩ :=
    scanned_of_function h
  obtain ⟨hsites, hedges⟩ := blocks_of_cut hcut hg hgraphs
  have hstart : OnLine Q index ((e.blocksOf index).flatMap (·.sites) ++
      if index < d.graphs.length then [] else f.sites) e := by
    have hall : (if index < d.graphs.length then f.sites else []) ++
        (if index < d.graphs.length then [] else f.sites) = f.sites := by
      split_ifs
      · exact List.append_nil _
      · rfl
    rw [hsites, hall]
    exact ⟨Or.inr hline, by rw [hmemory]; exact henter, by rw [hpass, hfirst], hedges hline⟩
  have hend : OnLine Q index (if index < d.graphs.length then [] else f.sites) d' := by
    refine of_scanBlocks (P := OnLine Q index) ?_ ?_ ?_ _ hstart hscan
    · intro block s rest e text e' he hs
      exact OnLine.statement ⟨index, block⟩ hkept he hs
    · intro rest e he
      exact ⟨he.line, he.holds, he.straight.congr rfl rfl⟩
    · intro rest e place ns he
      exact ⟨he.line, he.holds, he.straight.withBlock place ns⟩
  exact ⟨hend.holds, hend.straight.firstPass⟩

end Cairoscope.Decompiler
