import Cairoscope.Decompiler.Program
import Cairoscope.Proofs.Cells

/-! What the steps of a decompilation do to its state, when they end well. Each step is said once, as
an equation or by the ways it can go; later proofs do not open the steps again. -/

namespace Cairoscope.Decompiler

variable {sc : Scene} {place : Place} {d d' : Decompiler}

def after? {α : Type} (x : Step α) (d : Decompiler) : Option Decompiler :=
  (x >>= fun _ => get : Step Decompiler).run' d

theorem after?_eq_some_iff {α : Type} {x : Step α} {d d' : Decompiler} :
    after? x d = some d' ↔ ∃ a, x d = .ok a d' := by
  have hget : (∃ a, x d = .ok a d') ↔ (x >>= fun _ => get : Step Decompiler) d = .ok d' d' := by
    rw [Run.bind_eq_ok]
    constructor
    · rintro ⟨a, h⟩
      exact ⟨a, d', h, Run.get_eq_ok.2 ⟨rfl, rfl⟩⟩
    · rintro ⟨a, _, h, hstate⟩
      obtain ⟨rfl, -⟩ := Run.get_eq_ok.1 hstate
      exact ⟨a, h⟩
  rw [hget]
  unfold after? EStateM.run' EStateM.run
  cases hrun : (x >>= fun _ => get : Step Decompiler) d with
  | error e e' => simp
  | ok a e =>
    obtain ⟨_, _, -, hstate⟩ := Run.bind_eq_ok.1 hrun
    obtain ⟨rfl, rfl⟩ := Run.get_eq_ok.1 hstate
    simp

/-- What a step leaves, found by evaluation. -/
theorem exists_run {α β : Type} {x : Step α} {d : Decompiler} {f : Decompiler → β} {b : β}
    (h : (after? x d).map f = some b) : ∃ a d', x d = .ok a d' ∧ f d' = b := by
  obtain ⟨d', hd', hf⟩ := Option.map_eq_some_iff.1 h
  obtain ⟨a, hrun⟩ := after?_eq_some_iff.1 hd'
  exact ⟨a, d', hrun, hf⟩

theorem cellAt_of_cell {r : Register} {offset : Int} {n : Nat} (h : cell r offset d = .ok n d') :
    ∃ m, d.memory.Widens m ∧ d.memory.CellAt m r offset n ∧ { d with memory := m } = d' := by
  unfold cell at h
  rw [Run.get_bind] at h
  obtain ⟨⟨m, a⟩, _, hout, h⟩ := Run.bind_eq_ok.1 h
  obtain ⟨haccess, rfl⟩ := Run.ofOutcome_eq_ok.1 hout
  obtain ⟨_, _, hset, h⟩ := Run.bind_eq_ok.1 h
  obtain rfl := Run.set_eq_ok.1 hset
  obtain ⟨rfl, rfl⟩ := Run.pure_eq_ok.1 h
  obtain ⟨hwidens, hcell⟩ := Memory.cellAt_of_access haccess
  exact ⟨m, hwidens, hcell, rfl⟩

theorem nameOf_eq_ok {n : Nat} {s : String} :
    nameOf n d = .ok s d' ↔ d.memory.nameOf n = s ∧ d = d' := by
  unfold nameOf
  rw [Run.get_bind, Run.pure_eq_ok]

theorem updateVariable_eq_ok {n : Nat} {f : Variable → Variable} {u : Unit} :
    updateVariable n f d = .ok u d' ↔ { d with memory := d.memory.update n f } = d' :=
  Run.modify_eq_ok

theorem line_eq_ok {colour data s : String} :
    line sc colour data d = .ok s d' ↔ lineAt sc d.tabs colour data = s ∧ d = d' := by
  unfold line
  rw [Run.get_bind, Run.pure_eq_ok]

theorem indent_eq_ok {n : Int} {u : Unit} :
    indent n d = .ok u d' ↔ { d with tabs := d.tabs + n } = d' :=
  Run.modify_eq_ok

theorem currentBlock_eq_ok {b : Option Block} :
    currentBlock place d = .ok b d' ↔ (d.blocksOf place.function)[place.block]? = b ∧ d = d' := by
  unfold currentBlock
  rw [Run.get_bind, Run.pure_eq_ok]

theorem hasParents_eq_ok {p : Bool} :
    hasParents place d = .ok p d' ↔ (match (d.blocksOf place.function)[place.block]? with
      | some b => !(FlowGraph.parentsAmong (d.blocksOf place.function) b).isEmpty
      | none => false) = p ∧ d = d' := by
  unfold hasParents
  rw [Run.get_bind]
  exact Run.pure_eq_ok

theorem eq_of_assertMark {n : Nat} {s : String} (h : assertMark n d = .ok s d') : d = d' := by
  unfold assertMark hasValue at h
  obtain ⟨_, _, hhas, h⟩ := Run.bind_eq_ok.1 h
  rw [Run.get_bind] at hhas
  obtain ⟨-, rfl⟩ := Run.pure_eq_ok.1 hhas
  exact (Run.pure_eq_ok.1 h).2

theorem eq_of_namesOf {ns : List Nat} {s : List String} (h : namesOf ns d = .ok s d') : d = d' := by
  unfold namesOf at h
  rw [Run.get_bind] at h
  exact (Run.pure_eq_ok.1 h).2

theorem eq_of_mergedAt {ns : List Nat} (h : mergedAt place d = .ok ns d') : d = d' := by
  unfold mergedAt at h
  rw [Run.get_bind] at h
  cases hb : (d.blocksOf place.function)[place.block]? with
  | some b =>
    simp only [hb] at h
    exact (Run.ofOutcome_eq_ok.1 h).2
  | none =>
    simp only [hb] at h
    exact (Run.pure_eq_ok.1 h).2

theorem eq_of_meeting {m : Meeting} (h : meeting place d = .ok m d') : d = d' := by
  unfold meeting at h
  rw [Run.get_bind] at h
  obtain ⟨b, _, hb, h⟩ := Run.bind_eq_ok.1 h
  obtain ⟨-, rfl⟩ := currentBlock_eq_ok.1 hb
  split at h
  · obtain ⟨ns, _, hmerged, h⟩ := Run.bind_eq_ok.1 h
    obtain rfl := eq_of_mergedAt hmerged
    obtain ⟨names, _, hnames, h⟩ := Run.bind_eq_ok.1 h
    obtain rfl := eq_of_namesOf hnames
    exact (Run.pure_eq_ok.1 h).2
  · obtain ⟨p, _, hp, h⟩ := Run.bind_eq_ok.1 h
    obtain ⟨-, rfl⟩ := hasParents_eq_ok.1 hp
    split at h
    · obtain ⟨ns, _, hmerged, h⟩ := Run.bind_eq_ok.1 h
      obtain rfl := eq_of_mergedAt hmerged
      obtain ⟨names, _, hnames, h⟩ := Run.bind_eq_ok.1 h
      obtain rfl := eq_of_namesOf hnames
      exact (Run.pure_eq_ok.1 h).2
    · exact (Run.pure_eq_ok.1 h).2

/-- Where `define` is used, the cell has a value afterwards: the given one, if it had none. -/
theorem grows_of_define {n : Nat} {x : Value} {u : Unit} (hn : n < d.memory.size)
    (h : define n x d = .ok u d') :
    ∃ m, d.memory.Grows (fun q y => q = n ∧ y = x) m ∧
      (∀ r, m.registerAt r = d.memory.registerAt r) ∧
      (∃ v y, m.cells[n]? = some v ∧ v.value = some y) ∧ { d with memory := m } = d' := by
  refine ⟨_, ?_, fun r => ?_, ?_, updateVariable_eq_ok.1 h⟩
  · refine Memory.Grows.update (fun v => ?_) (fun v y hy => ?_) (fun v y hy => ?_)
    · split <;> rfl
    · rw [hy]; exact hy
    · split at hy
      · exact Or.inl hy
      · obtain rfl : x = y := by simpa using hy
        exact Or.inr ⟨rfl, rfl⟩
  · cases r with
    | ap => rfl
    | fp => rfl
  · obtain ⟨v, hv⟩ : ∃ v, d.memory.cells[n]? = some v := ⟨_, List.getElem?_eq_getElem hn⟩
    rw [Memory.getElem?_update, if_pos rfl, hv]
    cases hvalue : v.value with
    | some y => exact ⟨v, y, by simp [hvalue], hvalue⟩
    | none => exact ⟨{ v with value := some x }, x, by simp [hvalue], rfl⟩

theorem map_modify {α β : Type} {f : α → α} {g : α → β} (hf : ∀ a, g (f a) = g a) (as : List α)
    (i : Nat) : (as.modify i f).map g = as.map g := by
  apply List.ext_getElem
  · simp
  · intro j h₁ h₂
    rw [List.getElem_map, List.getElem_map, List.getElem_modify]
    split_ifs
    · exact hf _
    · rfl

/-- What a change of a block leaves alone in the block, it leaves alone in all blocks. -/
theorem map_blocksOf_withBlock {α : Type} {f : Block → Block} {g : Block → α}
    (hf : ∀ b, g (f b) = g b) (d : Decompiler) (place : Place) (index : Nat) :
    ((d.withBlock place f).blocksOf index).map g = (d.blocksOf index).map g := by
  unfold withBlock withGraph blocksOf
  dsimp only
  rw [List.getElem?_modify]
  split_ifs with hindex
  · cases d.graphs[index]? with
    | none => rfl
    | some o =>
      cases o with
      | none => rfl
      | some graph =>
        exact map_modify hf graph.blocks place.block
  · simp

theorem length_graphs_withBlock (d : Decompiler) (place : Place) (f : Block → Block) :
    (d.withBlock place f).graphs.length = d.graphs.length := by
  simp [withBlock, withGraph]

end Cairoscope.Decompiler
