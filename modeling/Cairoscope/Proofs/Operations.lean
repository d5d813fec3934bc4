import Cairoscope.Decompiler.State
import Cairoscope.Proofs.Cells
import Mathlib.Data.List.Nodup

/-! Runs of memory operations: look-ups, new variables, entered functions and moves of the registers, in
any order. Cells are only ever appended, each with its place as its number, so no two variables share a
name and a position that is not negative is one cell for good. A negative position counts from the end:
it is another cell as soon as cells have been appended. -/

namespace Cairoscope.Memory

inductive Operation
  | get (r : Register) (offset : Int)
  | new (label : Option String) (function block : Option Nat) (isResult isArgument : Bool)
  | enter (function : Option Nat) (arguments : List String) (block : Nat)
  | moveAp (n : Int)
  | moveFp (n : Int)

/-- A look-up that fails leaves the memory as it was. -/
def perform (m : Memory) : Operation → Memory
  | .get r offset => match m.access r offset with
    | .ok (m', _) => m'
    | .error _ => m
  | .new label function block isResult isArgument =>
    m.allocate fun v => { v with label, function, block, isResult, isArgument }
  | .enter function arguments block => m.enter function arguments block
  | .moveAp n => m.moveAp n
  | .moveFp n => m.moveFp n

def performAll (m : Memory) (ops : List Operation) : Memory := ops.foldl perform m

@[simp] theorem performAll_nil (m : Memory) : m.performAll [] = m := rfl

@[simp] theorem performAll_cons (m : Memory) (op : Operation) (ops : List Operation) :
    m.performAll (op :: ops) = (m.perform op).performAll ops := rfl

theorem performAll_append (m : Memory) (ops ops' : List Operation) :
    m.performAll (ops ++ ops') = (m.performAll ops).performAll ops' := List.foldl_append

section Access

variable {m : Memory} {r : Register} {offset : Int}

theorem access_eq {p : Nat} (hp : m.registerAt r + offset = p) :
    m.access r offset = .ok (m.growTo (p + 1), ⟨decide (m.size ≤ p), p⟩) := by
  unfold access reach
  rw [hp, if_neg (by omega)]
  dsimp only
  rw [Int.toNat_natCast]
  split_ifs with hin
  · rw [growTo_of_le hin, decide_eq_false (by omega)]
  · rw [decide_eq_true (by omega)]

theorem access_eq_of_neg {n : Nat} (hneg : m.registerAt r + offset < 0)
    (hn : m.registerAt r + offset + m.size = n) : m.access r offset = .ok (m, ⟨false, n⟩) := by
  unfold access reach
  rw [if_pos hneg]
  dsimp only
  rw [hn, if_neg (by omega), Int.toNat_natCast]

theorem access_eq_error (hlow : m.registerAt r + offset < -m.size) :
    m.access r offset = .error .outOfRange := by
  unfold access reach
  rw [if_pos (by omega)]
  dsimp only
  rw [if_pos (by omega)]

/-- Whether or not it succeeds, a look-up makes sure of all cells up to its position. -/
theorem perform_get (m : Memory) (r : Register) (offset : Int) :
    m.perform (.get r offset) = m.growTo (m.registerAt r + offset + 1).toNat := by
  change (match m.access r offset with
    | .ok (m', _) => m'
    | .error _ => m) = _
  rcases Int.lt_or_le (m.registerAt r + offset) 0 with hneg | hpos
  · rw [growTo_of_le (n := (m.registerAt r + offset + 1).toNat) (by omega)]
    rcases Int.lt_or_le (m.registerAt r + offset) (-m.size) with hlow | hin
    · rw [access_eq_error hlow]
    · rw [access_eq_of_neg (n := (m.registerAt r + offset + m.size).toNat) hneg (by omega)]
  · rw [access_eq (p := (m.registerAt r + offset).toNat) (by omega)]
    dsimp only
    congr 1
    omega

end Access

/-- The labels of a new frame, from the deepest cell up. -/
def frameLabels (arguments : List String) : List String :=
  arguments ++ ["callers_function_frame", "return_instruction"]

def labelsOf (m : Memory) : Operation → List (Option String)
  | .get r offset => List.replicate ((m.registerAt r + offset + 1).toNat - m.size) none
  | .new label _ _ _ _ => [label]
  | .enter _ arguments _ => (frameLabels arguments).map some
  | .moveAp _ => []
  | .moveFp _ => []

/-- The first memory became the second by appending variables with these labels, numbered on from the
counter. -/
def Appends (labels : List (Option String)) (m m' : Memory) : Prop :=
  m'.counter = m.counter + labels.length ∧ ∃ new, m'.cells = m.cells ++ new ∧
    new.map (·.number) = List.range' m.counter labels.length ∧ new.map (·.label) = labels

namespace Appends

variable {labels labels' : List (Option String)} {m m' m'' : Memory}

theorem of_cells_eq (h : m'.cells = m.cells) (hcounter : m'.counter = m.counter) : Appends [] m m' :=
  ⟨hcounter, [], by simp [h], rfl, rfl⟩

theorem size_eq (h : Appends labels m m') : m'.size = m.size + labels.length := by
  obtain ⟨-, new, hcells, -, rfl⟩ := h
  unfold size
  rw [hcells, List.length_append, List.length_map]

theorem counter_eq (h : Appends labels m m') (hcells : m'.cells = m.cells) : m'.counter = m.counter := by
  have hsize := h.size_eq
  unfold size at hsize
  rw [hcells] at hsize
  rw [h.1]
  omega

theorem trans (h : Appends labels m m') (h' : Appends labels' m' m'') :
    Appends (labels ++ labels') m m'' := by
  obtain ⟨hcounter, new, hcells, hnumbers, hlabels⟩ := h
  obtain ⟨hcounter', new', hcells', hnumbers', hlabels'⟩ := h'
  refine ⟨?_, new ++ new', by rw [hcells', hcells, List.append_assoc], ?_, ?_⟩
  · rw [hcounter', hcounter, List.length_append, Nat.add_assoc]
  · rw [List.map_append, hnumbers, hnumbers', hcounter, List.length_append, List.range'_append_1]
  · rw [List.map_append, hlabels, hlabels']

theorem isPrefix (h : Appends labels m m') : m.cells <+: m'.cells := by
  obtain ⟨-, new, hcells, -⟩ := h
  exact ⟨new, hcells.symm⟩

theorem aligned (h : Appends labels m m') (hm : m.Aligned) : m'.Aligned := by
  have hsize := h.size_eq
  obtain ⟨hcounter, new, hcells, hnumbers, -⟩ := h
  refine ⟨by rw [hcounter, hsize, hm.counter], fun q v hv => ?_⟩
  rw [hcells] at hv
  rcases Nat.lt_or_ge q m.size with hq | hq
  · rw [List.getElem?_append_left hq] at hv
    exact hm.number q v hv
  · rw [List.getElem?_append_right hq] at hv
    have hnumber : (new.map (·.number))[q - m.size]? = some v.number := by
      rw [List.getElem?_map]
      exact congrArg (Option.map (·.number)) hv
    rw [hnumbers] at hnumber
    obtain ⟨_, hplace⟩ := List.getElem?_eq_some_iff.1 hnumber
    rw [List.getElem_range', hm.counter] at hplace
    omega

theorem growTo (m : Memory) (n : Nat) :
    Appends (List.replicate (n - m.size) none) m (m.growTo n) := by
  refine ⟨?_, _, cells_growTo m n, ?_, ?_⟩
  · rw [counter_growTo, List.length_replicate]
  · rw [List.map_map, List.length_replicate]
    exact List.map_id _
  · rw [List.map_map]
    exact List.map_const'.trans (by rw [List.length_range'])

theorem allocate {f : Variable → Variable} (label : Option String)
    (hnumber : ∀ v, (f v).number = v.number) (hlabel : ∀ v, (f v).label = label) :
    Appends [label] m (m.allocate f) :=
  ⟨rfl, _, rfl, by simp [hnumber, Variable.blank], by simp [hlabel]⟩

theorem push {f : Variable → Variable} (label : Option String)
    (hnumber : ∀ v, (f v).number = v.number) (hlabel : ∀ v, (f v).label = label) :
    Appends [label] m (m.push f) := (allocate label hnumber hlabel).trans (of_cells_eq rfl rfl)

theorem pushAll {f : String → Variable → Variable} (hnumber : ∀ l v, (f l v).number = v.number)
    (hlabel : ∀ l v, (f l v).label = some l) (names : List String) (m : Memory) :
    Appends (names.map some) m (names.foldl (fun m name => m.push (f name)) m) := by
  induction names generalizing m with
  | nil => exact of_cells_eq rfl rfl
  | cons name names ih => exact (push _ (hnumber name) (hlabel name)).trans (ih _)

theorem enter (m : Memory) (function : Option Nat) (arguments : List String) (block : Nat) :
    Appends ((frameLabels arguments).map some) m (m.enter function arguments block) := by
  rw [frameLabels, List.map_append]
  refine (pushAll (f := fun name v =>
    { v with label := some name, function, block := some block, isArgument := true })
    (fun _ _ => rfl) (fun _ _ => rfl) arguments m).trans ?_
  refine (push (f := fun v =>
    { v with label := some "callers_function_frame", block := some block })
    _ (fun _ => rfl) fun _ => rfl).trans ?_
  exact (push (f := fun v => { v with label := some "return_instruction", block := some block })
    _ (fun _ => rfl) fun _ => rfl).trans (of_cells_eq rfl rfl)

end Appends

/-- All that an operation does to the cells. -/
theorem appends_perform (m : Memory) (op : Operation) :
    Appends (m.labelsOf op) m (m.perform op) := by
  cases op with
  | get r offset =>
    rw [perform_get]
    exact Appends.growTo m _
  | new label function block isResult isArgument => exact Appends.allocate label (fun _ => rfl) fun _ => rfl
  | enter function arguments block => exact Appends.enter m function arguments block
  | moveAp n => exact Appends.of_cells_eq rfl rfl
  | moveFp n => exact Appends.of_cells_eq rfl rfl

theorem appends_performAll (m : Memory) (ops : List Operation) :
    ∃ labels, Appends labels m (m.performAll ops) := by
  induction ops generalizing m with
  | nil => exact ⟨[], Appends.of_cells_eq rfl rfl⟩
  | cons op ops ih =>
    obtain ⟨labels, h⟩ := ih (m.perform op)
    exact ⟨_, (appends_perform m op).trans h⟩

theorem aligned_performAll (ops : List Operation) : (empty.performAll ops).Aligned := by
  obtain ⟨labels, h⟩ := appends_performAll empty ops
  exact h.aligned aligned_empty

def names (m : Memory) : List String := m.cells.map (·.name)

theorem nodup_names {m : Memory} (h : m.Aligned) : m.names.Nodup := by
  rw [names, List.nodup_iff_pairwise_ne, List.pairwise_iff_getElem]
  intro i j hi hj hij hname
  rw [List.getElem_map, List.getElem_map] at hname
  have := name_inj h (List.getElem?_eq_getElem _) (List.getElem?_eq_getElem _) hname
  omega

/-- The same names in the same cells, and the counter and the registers in the same places. -/
structure Alike (m m' : Memory) : Prop where
  names : m'.names = m.names
  counter : m'.counter = m.counter
  ap : m'.ap = m.ap
  fp : m'.fp = m.fp

theorem length_names (m : Memory) : m.names.length = m.size := by simp [names, size]

theorem Appends.names_eq {labels : List (Option String)} {m m' : Memory} (h : Appends labels m m') :
    m'.names = m.names ++ List.zipWith Variable.nameOf (List.range' m.counter labels.length) labels := by
  obtain ⟨-, new, hcells, hnumbers, rfl⟩ := h
  rw [names, hcells, List.map_append, ← hnumbers, List.zipWith_map, List.zipWith_self]
  rfl

def Operation.rise : Operation → Int
  | .enter _ arguments _ => arguments.length + 2
  | .moveAp n => n
  | _ => 0

theorem ap_perform (m : Memory) (op : Operation) : (m.perform op).ap = m.ap + op.rise := by
  cases op with
  | get r offset =>
    rw [perform_get]
    exact (registerAt_growTo m _ .ap).trans (Int.add_zero _).symm
  | new label function block isResult isArgument => exact (Int.add_zero _).symm
  | enter function arguments block =>
    exact (registerAt_enter m function arguments block .ap).trans (Int.add_assoc _ _ _)
  | moveAp n => rfl
  | moveFp n => exact (Int.add_zero _).symm

def totalRise : List Operation → Int
  | [] => 0
  | op :: ops => op.rise + totalRise ops

theorem ap_performAll (m : Memory) (ops : List Operation) :
    (m.performAll ops).ap = m.ap + totalRise ops := by
  induction ops generalizing m with
  | nil => exact (Int.add_zero _).symm
  | cons op ops ih => rw [performAll_cons, ih, ap_perform, Int.add_assoc]; rfl

/-- What the code of a function can do: it enters no function, leaves `fp` alone and never moves `ap` down,
and all variables that it appends on purpose have labels. -/
def Operation.InFrame : Operation → Prop
  | .get _ _ => True
  | .new label _ _ _ _ => label.isSome
  | .moveAp n => 0 ≤ n
  | _ => False

theorem Operation.InFrame.rise_nonneg {op : Operation} (h : op.InFrame) : 0 ≤ op.rise := by
  cases op with
  | get r offset => exact Int.le_refl 0
  | new label function block isResult isArgument => exact Int.le_refl 0
  | enter function arguments block => exact False.elim h
  | moveAp n => exact h
  | moveFp n => exact False.elim h

theorem fp_performAll {ops : List Operation} (h : ∀ op ∈ ops, op.InFrame) (m : Memory) :
    (m.performAll ops).fp = m.fp := by
  induction ops generalizing m with
  | nil => rfl
  | cons op ops ih =>
    have hop : op.InFrame := h op (by simp)
    rw [performAll_cons, ih fun op' hop' => h op' (by simp [hop'])]
    cases op with
    | get r offset => rw [perform_get]; exact registerAt_growTo m _ .fp
    | new label function block isResult isArgument => rfl
    | enter function arguments block => exact False.elim hop
    | moveAp n => rfl
    | moveFp n => exact False.elim hop

namespace Alike

variable {m m' m'' : Memory}

theorem refl (m : Memory) : Alike m m := ⟨rfl, rfl, rfl, rfl⟩

theorem trans (h : Alike m m') (h' : Alike m' m'') : Alike m m'' :=
  ⟨h'.names.trans h.names, h'.counter.trans h.counter, h'.ap.trans h.ap, h'.fp.trans h.fp⟩

theorem size_eq (h : Alike m m') : m'.size = m.size := by
  rw [← length_names, h.names, length_names]

/-- A name tells the number. -/
theorem aligned (h : Alike m m') (hm : m.Aligned) : m'.Aligned := by
  refine ⟨by rw [h.counter, hm.counter, h.size_eq], fun q v hv => ?_⟩
  have hname : m.names[q]? = some v.name := by
    rw [← h.names, Memory.names, List.getElem?_map, hv]
    rfl
  rw [Memory.names, List.getElem?_map, Option.map_eq_some_iff] at hname
  obtain ⟨w, hw, hname⟩ := hname
  rw [← hm.number q w hw]
  exact (Variable.nameOf_inj hname).symm

theorem registerAt_eq (h : Alike m m') (r : Register) : m'.registerAt r = m.registerAt r := by
  cases r with
  | ap => exact h.ap
  | fp => exact h.fp

/-- Variables with the same labels are appended to both. -/
theorem appends {n n' : Memory} {labels : List (Option String)} (h : Alike m m')
    (hm : Appends labels m n) (hm' : Appends labels m' n') (hap : n'.ap = n.ap) (hfp : n'.fp = n.fp) :
    Alike n n' :=
  ⟨by rw [hm.names_eq, hm'.names_eq, h.names, h.counter], by rw [hm'.1, hm.1, h.counter], hap, hfp⟩

theorem enter (h : Alike m m') (function function' : Option Nat) (arguments : List String)
    (block block' : Nat) :
    Alike (m.enter function arguments block) (m'.enter function' arguments block') := by
  have hregister : ∀ r, (m'.enter function' arguments block').registerAt r =
      (m.enter function arguments block).registerAt r := by
    intro r
    rw [registerAt_enter, registerAt_enter, h.ap]
  exact h.appends (.enter m function arguments block) (.enter m' function' arguments block')
    (hregister .ap) (hregister .fp)

theorem perform (h : Alike m m') (op : Operation) : Alike (m.perform op) (m'.perform op) := by
  have hlabels : m'.labelsOf op = m.labelsOf op := by
    cases op with
    | get r offset => simp only [labelsOf, h.registerAt_eq, h.size_eq]
    | _ => rfl
  refine h.appends (appends_perform m op) (hlabels ▸ appends_perform m' op)
    (by rw [ap_perform, ap_perform, h.ap]) ?_
  cases op with
  | get r offset =>
    rw [perform_get, perform_get]
    exact (registerAt_growTo m' _ .fp).trans (h.fp.trans (registerAt_growTo m _ .fp).symm)
  | new label function block isResult isArgument => exact h.fp
  | enter function arguments block => exact (h.enter function function arguments block block).fp
  | moveAp n => exact h.fp
  | moveFp n => exact congrArg (· + n) h.fp

theorem performAll (h : Alike m m') (ops : List Operation) :
    Alike (m.performAll ops) (m'.performAll ops) := by
  induction ops generalizing m m' with
  | nil => exact h
  | cons op ops ih => exact ih (h.perform op)

theorem update {f : Variable → Variable} (hf : ∀ v, (f v).name = v.name) (m : Memory) (n : Nat) :
    Alike m (m.update n f) := by
  refine ⟨?_, rfl, rfl, rfl⟩
  apply List.ext_getElem?
  intro q
  rw [Memory.names, Memory.names, List.getElem?_map, List.getElem?_map, getElem?_update]
  split_ifs
  · cases m.cells[q]? with
    | none => rfl
    | some v => exact congrArg some (hf v)
  · rfl

end Alike

theorem perform_get_of_access {m m' : Memory} {r : Register} {offset : Int} {a : Access}
    (h : m.access r offset = .ok (m', a)) : m.perform (.get r offset) = m' := by
  change (match m.access r offset with
    | .ok (m', _) => m'
    | .error _ => m) = m'
  rw [h]

/-- A decompilation that fails to look up a cell stops in the state it had. -/
theorem cell_eq_error {d : Decompiler} {r : Register} {offset : Int} {e : Fault}
    (h : d.memory.access r offset = .error e) : Decompiler.cell r offset d = .error e d := by
  unfold Decompiler.cell
  rw [Run.get_bind, h]
  rfl

/-- After any operations the counter has counted the cells and the variables are numbered by them, no two
share a name, and each that has been there is where it was. A look-up at a position that is not negative
makes sure of the cells up to it and gives the one at it, again and again. A position too far below zero is
refused. -/
theorem memory_of_operations (ops : List Operation) :
    let m := empty.performAll ops
    m.counter = m.size ∧ (∀ (q : Nat) (v : Variable), m.cells[q]? = some v → v.number = q) ∧
      m.names.Nodup ∧
      (∀ earlier, earlier <+: ops → (empty.performAll earlier).cells <+: m.cells) ∧
      (∀ r offset (p : Nat), m.registerAt r + offset = p → ∃ m' isNew v,
        m.access r offset = .ok (m', ⟨isNew, p⟩) ∧ m.perform (.get r offset) = m' ∧
        m'.size = max m.size (p + 1) ∧ m'.cells[p]? = some v ∧ (isNew = true ↔ m.size ≤ p) ∧
        m'.access r offset = .ok (m', ⟨false, p⟩)) ∧
      ∀ r offset, m.registerAt r + offset < -m.size →
        m.access r offset = .error .outOfRange ∧ m.perform (.get r offset) = m ∧
        ∀ d : Decompiler, d.memory = m → Decompiler.cell r offset d = .error .outOfRange d := by
  intro m
  have haligned : m.Aligned := aligned_performAll ops
  refine ⟨haligned.counter, haligned.number, nodup_names haligned, ?_, ?_, ?_⟩
  · rintro earlier ⟨later, rfl⟩
    obtain ⟨labels, h⟩ := appends_performAll (empty.performAll earlier) later
    rw [← performAll_append] at h
    exact h.isPrefix
  · intro r offset p hp
    have hfirst := access_eq hp
    have hsize : (m.growTo (p + 1)).size = max m.size (p + 1) := size_growTo m (p + 1)
    obtain ⟨v, hv⟩ : ∃ v, (m.growTo (p + 1)).cells[p]? = some v :=
      ⟨_, List.getElem?_eq_getElem (show p < (m.growTo (p + 1)).size by omega)⟩
    refine ⟨_, _, v, hfirst, perform_get_of_access hfirst, hsize, hv, decide_eq_true_iff, ?_⟩
    -- the second time the cell is there
    rw [access_eq (m := m.growTo (p + 1)) (by rw [registerAt_growTo]; exact hp),
      growTo_of_le (by omega), decide_eq_false (by omega)]
  · intro r offset hlow
    have herror := access_eq_error hlow
    refine ⟨herror, ?_, fun d hd => cell_eq_error (hd ▸ herror)⟩
    rw [perform_get, growTo_of_le (by omega)]

/-- The cell that an access gives, by its position. -/
theorem number_of_access {m m' : Memory} {r : Register} {offset : Int} {a : Access}
    (h : m.access r offset = .ok (m', a)) :
    (a.number : Int) = if m.registerAt r + offset < 0 then m.registerAt r + offset + m.size
      else m.registerAt r + offset := by
  split_ifs with hneg
  · rcases Int.lt_or_le (m.registerAt r + offset) (-m.size) with hlow | hin
    · rw [access_eq_error hlow] at h
      cases h
    · rw [access_eq_of_neg (n := (m.registerAt r + offset + m.size).toNat) hneg (by omega)] at h
      obtain ⟨-, rfl⟩ : m = m' ∧ _ = a := by simpa using h
      exact Int.toNat_of_nonneg (by omega)
  · exact number_of_reach (by omega) h

/-- Two variables that were looked up, one after the other, are the same if and only if their cells are. -/
theorem eq_iff_number_eq {m m' : Memory} (hm : m'.Aligned) (hfront : m.cells <+: m'.cells) {p q : Nat}
    {v w : Variable} (hv : m.cells[p]? = some v) (hw : m'.cells[q]? = some w) : v = w ↔ p = q := by
  obtain ⟨new, hnew⟩ := hfront
  have hv' : m'.cells[p]? = some v := by
    rw [← hnew, List.getElem?_append_left (List.getElem?_eq_some_iff.1 hv).1, hv]
  constructor
  · rintro rfl
    rw [← hm.number p v hv', ← hm.number q v hw]
  · rintro rfl
    exact Option.some.inj (hv'.symm.trans hw)

/-- When two accesses of a run give the same variable. Positions that are not negative are told apart by
it and nothing else counts. A negative position is told by how far it is from the end, so one position
gives another variable once cells have been appended, and two positions can give one variable. -/
theorem same_variable_iff (before between : List Operation) {r r' : Register} {offset offset' : Int}
    {m₁ m₂ : Memory} {a b : Access} (h₁ : (empty.performAll before).access r offset = .ok (m₁, a))
    (h₂ : (m₁.performAll between).access r' offset' = .ok (m₂, b)) :
    let p := (empty.performAll before).registerAt r + offset
    let q := (m₁.performAll between).registerAt r' + offset'
    let n := (empty.performAll before).size
    let n' := (m₁.performAll between).size
    ∃ v w, m₁.cells[a.number]? = some v ∧ m₂.cells[b.number]? = some w ∧
      (0 ≤ p → 0 ≤ q → (v = w ↔ p = q)) ∧ (p < 0 → q < 0 → (v = w ↔ p + n = q + n')) ∧
      (p < 0 → 0 ≤ q → (v = w ↔ p + n = q)) ∧ (0 ≤ p → q < 0 → (v = w ↔ p = q + n')) := by
  intro p q n n'
  have hrun : m₂ = empty.performAll (before ++ .get r offset :: (between ++ [.get r' offset'])) := by
    rw [performAll_append, performAll_cons, perform_get_of_access h₁, performAll_append,
      performAll_cons, perform_get_of_access h₂, performAll_nil]
  have haligned : m₂.Aligned := hrun ▸ aligned_performAll _
  have hfront : m₁.cells <+: m₂.cells := by
    obtain ⟨labels, h⟩ := appends_performAll m₁ (between ++ [.get r' offset'])
    rw [performAll_append, performAll_cons, perform_get_of_access h₂, performAll_nil] at h
    exact h.isPrefix
  obtain ⟨v, hv⟩ : ∃ v, m₁.cells[a.number]? = some v :=
    ⟨_, List.getElem?_eq_getElem (growTo_of_reach h₁).1⟩
  obtain ⟨w, hw⟩ : ∃ w, m₂.cells[b.number]? = some w :=
    ⟨_, List.getElem?_eq_getElem (growTo_of_reach h₂).1⟩
  have ha : (a.number : Int) = if p < 0 then p + n else p := number_of_access h₁
  have hb : (b.number : Int) = if q < 0 then q + n' else q := number_of_access h₂
  refine ⟨v, w, hv, hw, ?_⟩
  rw [eq_iff_number_eq haligned hfront hv hw, ← Int.natCast_inj, ha, hb]
  refine ⟨fun hp hq => ?_, fun hp hq => ?_, fun hp hq => ?_, fun hp hq => ?_⟩
  · rw [if_neg (by omega), if_neg (by omega)]
  · rw [if_pos hp, if_pos hq]
  · rw [if_pos hp, if_neg (by omega)]
  · rw [if_neg (by omega), if_pos hq]

/-- In a frame without arguments the cell three below the frame is counted from the end, and is another
variable once a cell has been appended. -/
theorem variable_below_frame_changes : ∃ m₁ m₂ a b v w,
    (empty.performAll [.enter none [] 0]).access .fp (-3) = .ok (m₁, a) ∧
    (m₁.performAll [.get .ap 0]).access .fp (-3) = .ok (m₂, b) ∧
    (m₁.performAll [.get .ap 0]).registerAt .fp = (empty.performAll [.enter none [] 0]).registerAt .fp ∧
    m₁.cells[a.number]? = some v ∧ m₂.cells[b.number]? = some w ∧ v ≠ w := by
  have h₁ : (empty.performAll [.enter none [] 0]).access .fp (-3) =
      .ok (empty.performAll [.enter none [] 0], ⟨false, 1⟩) := rfl
  have h₂ : ((empty.performAll [.enter none [] 0]).performAll [.get .ap 0]).access .fp (-3) =
      .ok (empty.performAll [.enter none [] 0, .get .ap 0], ⟨false, 2⟩) := rfl
  obtain ⟨v, w, hv, hw, -, hneg, -⟩ := same_variable_iff [.enter none [] 0] [.get .ap 0] h₁ h₂
  refine ⟨_, _, _, _, v, w, h₁, h₂, rfl, hv, hw, fun heq => ?_⟩
  exact absurd ((hneg (by decide) (by decide)).1 heq) (by decide)

end Cairoscope.Memory
