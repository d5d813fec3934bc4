import Cairoscope.Proofs.Passes

/-! The frame of a function that has just been entered. Its variables are appended at the end of the
memory, but looked up from `fp`, which is counted on from where the code before has left `ap`: they are
found there if and only if that code has left `ap` at the end of the memory. -/

namespace Cairoscope

namespace Memory

theorem Appends.getElem?_label {labels : List (Option String)} {m m' : Memory} (h : Appends labels m m')
    {i : Nat} (label : Option String) (hlabel : labels[i]? = some label) :
    ∃ v, m'.cells[m.size + i]? = some v ∧ v.label = label := by
  obtain ⟨-, new, hcells, -, rfl⟩ := h
  rw [List.getElem?_map, Option.map_eq_some_iff] at hlabel
  obtain ⟨v, hv, rfl⟩ := hlabel
  refine ⟨v, ?_, rfl⟩
  rw [hcells, size, List.getElem?_append_right (Nat.le_add_right _ _), Nat.add_sub_cancel_left]
  exact hv

theorem totalRise_nonneg {ops : List Operation} (h : ∀ op ∈ ops, 0 ≤ op.rise) :
    0 ≤ totalRise ops := by
  induction ops with
  | nil => exact Int.le_refl 0
  | cons op ops ih =>
    exact Int.add_nonneg (h op List.mem_cons_self) (ih fun op' hop' => h op' (List.mem_cons_of_mem op hop'))

/-- The look-up of a cell of the new frame, by the place that `ap` had before. -/
theorem access_enter {m : Memory} {p : Nat} (hp : m.ap = p) (function : Option Nat)
    (arguments : List String) (block i : Nat) :
    (m.enter function arguments block).access .fp (i - arguments.length - 2) =
      .ok ((m.enter function arguments block).growTo (p + i + 1),
        ⟨decide ((m.enter function arguments block).size ≤ p + i), p + i⟩) := by
  apply access_eq
  rw [registerAt_enter, hp]
  omega

/-- In a memory with numbered cells, a look-up of the frame gives the cell that was appended for it if
and only if `ap` stood at the end. -/
theorem access_frame {m : Memory} (hm : m.Aligned) (hap : 0 ≤ m.ap) (function : Option Nat)
    (arguments : List String) (block : Nat) {i : Nat} {l : String}
    (hl : (frameLabels arguments)[i]? = some l) :
    ∃ v m' a w, (m.enter function arguments block).cells[m.size + i]? = some v ∧ v.label = some l ∧
      (m.enter function arguments block).access .fp (i - arguments.length - 2) = .ok (m', a) ∧
      m'.cells[a.number]? = some w ∧ (w = v ↔ m.ap = m.size) ∧
      (w = v → a.isNew = false ∧ m' = m.enter function arguments block) := by
  obtain ⟨p, hp⟩ := Int.eq_ofNat_of_zero_le hap
  have happends := Appends.enter m function arguments block
  have haccess := access_enter hp function arguments block i
  generalize m.enter function arguments block = e at happends haccess ⊢
  obtain ⟨v, hv, hlabel⟩ := happends.getElem?_label (some l)
    (by rw [List.getElem?_map, hl]; rfl)
  have hfront : e.cells <+: (e.growTo (p + i + 1)).cells := (Appends.growTo e _).isPrefix
  have hgrown : (e.growTo (p + i + 1)).Aligned := aligned_growTo (happends.aligned hm) _
  have hw : p + i < (e.growTo (p + i + 1)).size := by
    rw [size_growTo]
    omega
  have hsame := eq_iff_number_eq hgrown hfront hv (List.getElem?_eq_getElem hw)
  refine ⟨v, _, _, _, hv, hlabel, haccess, List.getElem?_eq_getElem hw, ?_, ?_⟩
  · rw [eq_comm, hsame, hp]
    omega
  · intro heq
    have hplace := hsame.1 heq.symm
    have hbound : m.size + i < e.size := (List.getElem?_eq_some_iff.1 hv).1
    exact ⟨decide_eq_false (by omega), growTo_of_le (by omega)⟩

end Memory

namespace Decompiler

open Memory (Operation)

/-- No first pass moves `ap` down. -/
theorem rise_programOperations_nonneg (sc : Scene) (imported : Bool) (fs : List Function) :
    ∀ op ∈ programOperations sc true imported fs, 0 ≤ op.rise := by
  intro op hop
  obtain ⟨f, -, hop⟩ := List.mem_flatMap.1 hop
  rcases List.mem_cons.1 hop with rfl | hop
  · exact Int.natCast_nonneg (f.parameterNames.length + 2)
  rw [if_pos rfl] at hop
  split_ifs at hop
  · cases hop
  · exact (inFrame_passOperations sc f op hop).rise_nonneg

theorem ap_nonneg_of_functions {sc : Scene} {imported : Bool} {fs : List Function}
    {graphs : List (Option FlowGraph)} {texts : List String} {d : Decompiler}
    (hgraphs : fs.length ≤ graphs.length)
    (h : functions sc true imported 0 fs (start graphs) = .ok texts d) : 0 ≤ d.memory.ap := by
  rw [(alike_of_functions hgraphs h).ap, Memory.ap_performAll]
  exact Int.add_nonneg (Int.le_refl 0)
    (Memory.totalRise_nonneg (rise_programOperations_nonneg sc imported fs))

/-- A function that a first pass reaches finds the variables of its new frame if and only if the code
before has left `ap` at the end of the memory. Otherwise no look-up of an argument, of the caller's frame
or of the return address gives the variable that was appended for it. -/
theorem frame_found_iff_ap_at_end {sc : Scene} {imported : Bool} {graphs : List (Option FlowGraph)}
    {index : Nat} {texts : List String} {d : Decompiler}
    (hgraphs : graphs.length = sc.functions.length) (hindex : index < sc.functions.length)
    (hbefore : functions sc true imported 0 (sc.functions.take index) (start graphs) = .ok texts d) :
    ∃ e, enter index sc.functions[index] d = .ok () e ∧
      ∀ i l, (Memory.frameLabels sc.functions[index].parameterNames)[i]? = some l →
        ∃ v m a w, e.memory.cells[d.memory.size + i]? = some v ∧ v.label = some l ∧
          e.memory.access .fp (i - sc.functions[index].parameterNames.length - 2) = .ok (m, a) ∧
          m.cells[a.number]? = some w ∧
          (w = v ↔ d.memory.ap = d.memory.size) ∧
          (w = v → a.isNew = false ∧ m = e.memory) := by
  have hcount : (sc.functions.take index).length ≤ graphs.length := by
    rw [List.length_take]
    omega
  have haligned := aligned_of_functions hcount hbefore
  exact ⟨_, rfl, fun i l hl =>
    Memory.access_frame haligned (ap_nonneg_of_functions hcount hbefore) _ _ _ hl⟩

/-- It leaves its own cell at the end of the memory, and `ap` below it. -/
def writesAbove : Function where
  name := "first"
  id := 0
  start := 0
  stop := 2
  sites := [.setting 0 .ap 0 5, .returning 2]
  implicit := []
  explicit := []
  returns := []
  decorators := .arr []
  isImport := false
  entryPoint := true

def takesArgument : Function where
  name := "second"
  id := 1
  start := 3
  stop := 5
  sites := [.setting 3 .fp (-3) 7, .returning 5]
  implicit := []
  explicit := [(.number 0, ⟨"x", .str "felt"⟩)]
  returns := []
  decorators := .arr []
  isImport := false
  entryPoint := true

def frameScene : Scene := ⟨[writesAbove, takesArgument], ⟨.plain, Field.defaultPrime, []⟩⟩

/-- The argument of the second function is the variable `v3_x`, but `[fp - 3]` is `v2`, which the first
function wrote. -/
theorem argument_missed : ∃ texts d e v m a w,
    functions frameScene true true 0 (frameScene.functions.take 1) (start [none, none]) = .ok texts d ∧
      enter 1 takesArgument d = .ok () e ∧ e.memory.cells[3]? = some v ∧ v.label = some "x" ∧
      e.memory.access .fp (-3) = .ok (m, a) ∧ m.cells[a.number]? = some w ∧ w ≠ v := by
  obtain ⟨texts, d, hrun, hends⟩ := exists_run (x := functions frameScene true true 0 (frameScene.functions.take 1))
    (d := start [none, none]) (f := fun d => (d.memory.ap, d.memory.size)) (b := (2, 3)) (by decide +kernel)
  obtain ⟨hap, hsize⟩ := Prod.mk.inj hends
  obtain ⟨e, he, hframe⟩ := frame_found_iff_ap_at_end rfl (by decide) hrun
  obtain ⟨v, m, a, w, hv, hlabel, haccess, hw, hfound, -⟩ := hframe 0 "x" rfl
  rw [hsize] at hv
  refine ⟨texts, d, e, v, m, a, w, hrun, he, hv, hlabel, haccess, hw, fun hsame => ?_⟩
  have hend := hfound.1 hsame
  rw [hap, hsize] at hend
  cases hend

end Decompiler

end Cairoscope
