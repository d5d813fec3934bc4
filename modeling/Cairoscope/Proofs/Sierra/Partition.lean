import Cairoscope.Proofs.Sierra.Declarations
import Cairoscope.Proofs.Sierra.Stretches

/-! The functions of a source and its statements. A function has the statements from its start up to the start of the
next one, so the functions together have all statements from the first start on. A source in which some function would
have none does not load. -/

namespace Cairoscope.Sierra

section Runs

variable {α : Type} {l : List α} {a b : Nat} {starts : List Nat}

/-- The runs of a list from each start up to the next one, the last run up to the end. -/
def runs (l : List α) : List Nat → List (List α)
  | [] => []
  | [a] => [l.drop a]
  | a :: b :: starts => l.extract a b :: runs l (b :: starts)

theorem getElem?_runs (l : List α) (starts : List Nat) (i : Nat) :
    (runs l starts)[i]? = starts[i]?.map fun a => l.extract a (starts[i + 1]?.getD l.length) := by
  fun_induction runs l starts generalizing i with
  | case1 => simp
  | case2 a =>
    cases i with
    | zero => simp [List.take_of_length_le]
    | succ i => simp
  | case3 a b starts ih =>
    cases i with
    | zero => simp
    | succ i => simpa using ih i

/-- The runs follow one another without a gap. -/
theorem flatten_runs (l : List α) (h : (a :: starts).Pairwise (· < ·)) :
    (runs l (a :: starts)).flatten = l.drop a := by
  induction starts generalizing a with
  | nil => simp [runs]
  | cons b starts ih =>
    obtain ⟨hfirst, hrest⟩ := List.pairwise_cons.1 h
    have hab : a < b := hfirst b List.mem_cons_self
    rw [runs, List.flatten_cons, ih hrest]
    calc l.extract a b ++ l.drop b = (l.drop a).take (b - a) ++ (l.drop a).drop (b - a) := by
          rw [List.drop_drop, Nat.add_sub_cancel' hab.le]
      _ = l.drop a := List.take_append_drop _ _

theorem lt_of_extract_ne_nil (h : l.extract a b ≠ []) : a < b ∧ a < l.length := by
  rw [← List.length_pos_iff, List.length_take, List.length_drop] at h
  omega

end Runs

/-- In a list that is numbered from 0 the statements between two offsets are a run. -/
theorem filter_offsets_eq_extract {l : List Statement} (h : l.map (·.offset) = List.range l.length) (a b : Int) :
    (l.filter fun s => decide (a ≤ s.offset) && decide ((s.offset : Int) < b)) =
      l.extract a.toNat b.toNat := by
  have hat : ∀ (i : Nat) (hi : i < l.length), l[i].offset = i := by
    intro i hi
    have hsame : (l.map (·.offset))[i]? = (List.range l.length)[i]? := by rw [h]
    simpa [hi] using hsame
  have hbefore : ∀ s ∈ l.take a.toNat, ¬(decide (a ≤ s.offset) && decide ((s.offset : Int) < b)) = true := by
    intro s hs
    obtain ⟨i, hi, rfl⟩ := List.mem_take_iff_getElem.1 hs
    rw [hat, Bool.and_eq_true, decide_eq_true_eq, decide_eq_true_eq]
    omega
  have hwithin : ∀ s ∈ l.extract a.toNat b.toNat,
      (decide (a ≤ s.offset) && decide ((s.offset : Int) < b)) = true := by
    intro s hs
    obtain ⟨i, hi, rfl⟩ := List.mem_take_iff_getElem.1 hs
    rw [List.getElem_drop, hat, Bool.and_eq_true, decide_eq_true_eq, decide_eq_true_eq]
    omega
  have hafter : ∀ s ∈ (l.drop a.toNat).drop (b.toNat - a.toNat),
      ¬(decide (a ≤ s.offset) && decide ((s.offset : Int) < b)) = true := by
    intro s hs
    rw [List.drop_drop] at hs
    obtain ⟨i, hi, rfl⟩ := List.mem_drop_iff_getElem.1 hs
    rw [hat, Bool.and_eq_true, decide_eq_true_eq, decide_eq_true_eq]
    omega
  have hsplit : l = l.take a.toNat ++
      (l.extract a.toNat b.toNat ++ (l.drop a.toNat).drop (b.toNat - a.toNat)) := by
    rw [List.take_append_drop, List.take_append_drop]
  conv_lhs => rw [hsplit]
  rw [List.filter_append, List.filter_append, List.filter_eq_nil_iff.2 hbefore, List.filter_eq_self.2 hwithin,
    List.filter_eq_nil_iff.2 hafter, List.nil_append, List.append_nil]

def Source.starts (src : Source) : List Int := src.functions.map (·.start)

/-- Where the function at a place ends: at the start of the next one, and the last one with the statements. -/
def Source.stopAt (src : Source) (i : Nat) : Nat := (src.starts[i + 1]?.map Int.toNat).getD src.commands.length

namespace Program

variable {text : String} {src : Source} {p p' : Program}

/-- Each function ends where the next one starts, and the last one with the statements. -/
theorem stop_of_arrange (h : arrange p = .ok () p') {i : Nat} {f : Function} (hf : p'.functions[i]? = some f) :
    f.stop = some ((p'.functions.map (·.start))[i + 1]?.getD (p'.statements.length : Int)) := by
  obtain ⟨hstatements, -, hlength, -, hall⟩ := functions_of_addAllBlocks (addBlocks_of_arrange h).2
  have hstarts : p'.functions.map (·.start) = p.functions.map (·.start) := by
    have hbare := congrArg (List.map Function.start) (bare_of_arrange h).1
    rw [List.map_map, List.map_map] at hbare
    exact hbare
  have hi : i < p.functions.length := by
    have hbound := (List.getElem?_eq_some_iff.1 hf).1
    simpa [hlength, withStops] using hbound
  obtain ⟨g, hg, hstop⟩ : ∃ g, ((withStops p.functions p.statements.length).map
      (withStatements p.statements))[i]? = some g ∧
      g.stop = some ((p.functions.map (·.start))[i + 1]?.getD (p.statements.length : Int)) := by
    simp only [withStops, List.getElem?_map, List.getElem?_mapIdx, List.getElem?_eq_getElem hi]
    exact ⟨_, rfl, rfl⟩
  obtain ⟨blocks, -, hf'⟩ := hall i g (Nat.zero_le i) (by omega) hg
  obtain rfl := Option.some.inj (hf.symm.trans hf')
  rw [hstarts, hstatements]
  exact hstop

theorem functions_ne_nil_of_load (h : load text p = .ok () p') : p'.functions ≠ [] := by
  obtain ⟨-, -, -, -, -, q, -, -, -, -, harrange⟩ := steps_of_load h
  obtain ⟨hne, -⟩ := addBlocks_of_arrange harrange
  have hbare := congrArg List.length (bare_of_arrange harrange).1
  rw [List.length_map, List.length_map] at hbare
  rwa [← List.length_pos_iff, hbare, List.length_pos_iff]

section Loaded

variable (hread : Source.read? text = some src) (hload : load text .empty = .ok () p)

include hread hload

theorem starts_of_load : p.functions.map (·.start) = src.starts := by
  have hbare := congrArg (List.map Function.start) (declared_of_load hread hload).functions
  rw [List.map_map, List.map_map] at hbare
  exact hbare

/-- A loaded function has the run of the statements from its start up to its end, and that is not empty. -/
theorem statements_of_load {i : Nat} {f : Function} (hf : p.functions[i]? = some f) :
    f.statements ≠ [] ∧ f.statements = p.statements.extract f.start.toNat (src.stopAt i) := by
  obtain ⟨src', hread', hloaded⟩ := loaded_of_load hload
  obtain rfl := Option.some.inj (hread.symm.trans hread')
  have harranged := hloaded.functions f (List.mem_of_getElem? hf)
  obtain ⟨first, rest, hne, -⟩ := Function.blocks_eq harranged.blocks
  obtain ⟨stop, hstop, hstatements⟩ := harranged.statements
  obtain ⟨-, -, -, -, -, q, -, -, -, -, harrange⟩ := steps_of_load hload
  have hnext := stop_of_arrange harrange hf
  rw [hstop, starts_of_load hread hload, hloaded.length] at hnext
  have hstopAt : stop.toNat = src.stopAt i := by
    rw [Option.some.inj hnext, Source.stopAt]
    cases src.starts[i + 1]? <;> rfl
  refine ⟨by simp [hne], ?_⟩
  rw [hstatements, filter_offsets_eq_extract hloaded.offsets, hstopAt]

theorem map_statements_of_load :
    p.functions.map (·.statements) = runs p.statements (src.starts.map Int.toNat) := by
  obtain ⟨src', hread', hloaded⟩ := loaded_of_load hload
  obtain rfl := Option.some.inj (hread.symm.trans hread')
  refine List.ext_getElem? fun i => ?_
  rw [getElem?_runs, List.getElem?_map, List.getElem?_map, List.getElem?_map, hloaded.length]
  have hstart : src.starts[i]? = p.functions[i]?.map (·.start) := by
    rw [← starts_of_load hread hload, List.getElem?_map]
  rw [hstart]
  cases hf : p.functions[i]? with
  | none => rfl
  | some f => exact congrArg some (statements_of_load hread hload hf).2

/-- The functions of a source that loads start one after the other, all of them before its end. -/
theorem starts_increasing_of_load :
    (src.starts.map Int.toNat).Pairwise (· < ·) ∧ ∀ a ∈ src.starts, a < src.commands.length := by
  obtain ⟨src', hread', hloaded⟩ := loaded_of_load hload
  obtain rfl := Option.some.inj (hread.symm.trans hread')
  have hbounds : ∀ i a, src.starts[i]? = some a → a.toNat < src.stopAt i ∧ a.toNat < src.commands.length := by
    intro i a ha
    rw [← starts_of_load hread hload, List.getElem?_map] at ha
    obtain ⟨f, hf, rfl⟩ := Option.map_eq_some_iff.1 ha
    obtain ⟨hne, hrun⟩ := statements_of_load hread hload hf
    rw [hrun] at hne
    simpa [hloaded.length] using lt_of_extract_ne_nil hne
  refine ⟨List.isChain_iff_pairwise.1 (List.isChain_iff_getElem.2 fun i hi => ?_), fun a ha => ?_⟩
  · rw [List.length_map] at hi
    have hfirst := (hbounds i _ (List.getElem?_eq_getElem (by omega))).1
    simpa [Source.stopAt, hi] using hfirst
  · obtain ⟨i, hi⟩ := List.mem_iff_getElem?.1 ha
    have := (hbounds i a hi).2
    omega

/-- A loaded source has the statements of its commands in their order. The one at place `k` has taken offset `k` from
the counter, which has counted all of them. Each function has the run of them from its start up to the start of the
next function, the last one up to the end, and no run is empty: that alone makes the starts increase and stay below
the number of statements. One after the other the runs are the statements from the first start on, so they are all of
them exactly when it is not after 0. -/
theorem functions_partition_statements :
    (p.nextOffset = p.statements.length ∧ p.statements.length = src.commands.length ∧
      ∀ k c, src.commands[k]? = some c →
        ∃ a, Records k c a ∧ p.statements[k]? = some ⟨k, c.text, a⟩) ∧
    (p.functions.length = src.functions.length ∧ ∀ i d, src.functions[i]? = some d →
      ∃ f, p.functions[i]? = some f ∧ f.bare = d.entered ∧ f.statements ≠ [] ∧
        f.statements = p.statements.extract d.start.toNat (src.stopAt i)) ∧
    (src.starts.Pairwise (· < ·) ∧ ∀ a ∈ src.starts, a < src.commands.length) ∧
    ∃ first, src.starts.head? = some first ∧
      p.functions.flatMap (·.statements) = p.statements.drop first.toNat ∧
      (p.functions.flatMap (·.statements) = p.statements ↔ first ≤ 0) := by
  obtain ⟨src', hread', hloaded⟩ := loaded_of_load hload
  obtain rfl := Option.some.inj (hread.symm.trans hread')
  have hstarts := starts_of_load hread hload
  obtain ⟨hincreasing, hbelow⟩ := starts_increasing_of_load hread hload
  refine ⟨⟨hloaded.nextOffset, hloaded.length, hloaded.recorded⟩, ⟨?_, fun i d hd => ?_⟩, ⟨?_, hbelow⟩, ?_⟩
  · simpa [Source.starts] using congrArg List.length hstarts
  · obtain ⟨f, hf, hbare⟩ := (declared_of_load hread hload).function hd
    obtain ⟨hne, hrun⟩ := statements_of_load hread hload hf
    have hstart : f.start = d.start := congrArg Function.start hbare
    exact ⟨f, hf, hbare, hne, hstart ▸ hrun⟩
  · exact (List.pairwise_map.1 hincreasing).imp fun hlt => by omega
  · obtain ⟨first, rest, hfirst⟩ : ∃ first rest, src.starts = first :: rest := by
      refine List.exists_cons_of_ne_nil fun hnil => functions_ne_nil_of_load hload ?_
      rwa [← hstarts, List.map_eq_nil_iff] at hnil
    rw [hfirst] at hincreasing hbelow
    have hall : p.functions.flatMap (·.statements) = p.statements.drop first.toNat := by
      rw [List.flatMap_def, map_statements_of_load hread hload, hfirst]
      exact flatten_runs _ hincreasing
    refine ⟨first, by rw [hfirst]; rfl, hall, ?_⟩
    rw [hall]
    constructor
    · intro heq
      have hlength := congrArg List.length heq
      rw [List.length_drop, hloaded.length] at hlength
      have := hbelow first List.mem_cons_self
      omega
    · intro hle
      rw [Int.toNat_of_nonpos hle, List.drop_zero]

end Loaded

/-- A function of two statements and one of a single statement. -/
def twoFunctions : String :=
  "libfunc drop = drop;\ndrop([0]) -> ();\nreturn([1]);\nreturn();\nmain@0() -> ();\nempty@2() -> ();\n"

theorem functions_partition_two : ∃ src p, Source.read? twoFunctions = some src ∧
    load twoFunctions .empty = .ok () p ∧ src.starts = [0, 2] ∧
    p.functions.map (fun f => f.statements.map (·.offset)) = [[0, 1], [2]] ∧
    p.functions.flatMap (·.statements) = p.statements := by
  obtain ⟨p, hload, hruns⟩ := exists_load twoFunctions
    (fun p => decide (p.functions.map (fun f => f.statements.map (·.offset)) = [[0, 1], [2]])) (by decide +kernel)
  obtain ⟨src, hread, -⟩ := loaded_of_load hload
  have hstarts : (Source.read? twoFunctions).map (·.starts) = some [0, 2] := by decide +kernel
  rw [hread] at hstarts
  have hstarts : src.starts = [0, 2] := by simpa using hstarts
  obtain ⟨-, -, -, first, hfirst, -, hall⟩ := functions_partition_statements hread hload
  obtain rfl : 0 = first := by simpa [hstarts] using hfirst
  exact ⟨src, p, hread, hload, hstarts, of_decide_eq_true hruns, hall.2 le_rfl⟩

end Program

end Cairoscope.Sierra
