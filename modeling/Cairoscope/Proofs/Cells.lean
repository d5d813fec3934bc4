import Cairoscope.Memory.Basic
import Cairoscope.Proofs.Numerals
import Cairoscope.Proofs.Outcome

/-! The cells of a memory. Access only ever appends blank variables, each variable stays in the cell
of its number, and a name leads back to the one cell that has it. -/

namespace Cairoscope

namespace Variable

/-- What follows the number in a name does not start with a digit. -/
def tail : Option String → List Char
  | some label => '_' :: label.toList
  | none => []

theorem toList_nameOf (number : Nat) (label : Option String) :
    (nameOf number label).toList = 'v' :: (Nat.toDigits 10 number ++ tail label) := by
  cases label with
  | none => simp [nameOf, tail, Nat.toList_repr]
  | some l => simp [nameOf, tail, Nat.toList_repr]

theorem takeWhile_name (number : Nat) (label : Option String) :
    (Nat.toDigits 10 number ++ tail label).takeWhile Char.isDigit = Nat.toDigits 10 number := by
  have hdigits : ∀ c ∈ Nat.toDigits 10 number, c.isDigit = true := fun c hc =>
    Nat.isDigit_of_mem_toDigits (by decide) (by decide) hc
  rw [List.takeWhile_append_of_pos hdigits]
  cases label with
  | none => simp [tail]
  | some l => simp [tail]

/-- Variables with different numbers have different names, whatever their labels. -/
theorem nameOf_inj {a b : Nat} {l l' : Option String} (h : nameOf a l = nameOf b l') : a = b := by
  have hlist := congrArg String.toList h
  rw [toList_nameOf, toList_nameOf] at hlist
  have hbody := (List.cons.inj hlist).2
  apply Text.toDigits_inj
  rw [← takeWhile_name a l, hbody, takeWhile_name]

end Variable

namespace Memory

theorem cells_pad (m : Memory) (k : Nat) :
    (m.pad k).cells = m.cells ++ (List.range' m.counter k).map Variable.blank := by
  induction k generalizing m with
  | zero => exact (List.append_nil _).symm
  | succ k ih =>
    rw [pad, ih, List.range'_succ, List.map_cons]
    simp [allocate]

theorem counter_pad (m : Memory) (k : Nat) : (m.pad k).counter = m.counter + k := by
  induction k generalizing m with
  | zero => rfl
  | succ k ih =>
    rw [pad, ih]
    exact Nat.add_right_comm _ _ _

theorem registerAt_pad (m : Memory) (k : Nat) (r : Register) : (m.pad k).registerAt r = m.registerAt r := by
  induction k generalizing m with
  | zero => rfl
  | succ k ih =>
    rw [pad, ih]
    cases r with
    | ap => rfl
    | fp => rfl

@[simp] theorem registerAt_growTo (m : Memory) (n : Nat) (r : Register) :
    (m.growTo n).registerAt r = m.registerAt r := registerAt_pad m _ r

theorem cells_growTo (m : Memory) (n : Nat) :
    (m.growTo n).cells = m.cells ++ (List.range' m.counter (n - m.size)).map Variable.blank := cells_pad m _

theorem counter_growTo (m : Memory) (n : Nat) : (m.growTo n).counter = m.counter + (n - m.size) :=
  counter_pad m _

theorem size_growTo (m : Memory) (n : Nat) : (m.growTo n).size = max m.size n := by
  rw [size, cells_growTo, List.length_append, List.length_map, List.length_range']
  change m.size + (n - m.size) = _
  omega

theorem growTo_of_le {m : Memory} {n : Nat} (h : n ≤ m.size) : m.growTo n = m := by
  rw [growTo, Nat.sub_eq_zero_of_le h, pad]

theorem getElem?_growTo (m : Memory) (n q : Nat) :
    (m.growTo n).cells[q]? = if q < m.size then m.cells[q]?
      else if q < n then some (Variable.blank (m.counter + (q - m.size))) else none := by
  rw [cells_growTo]
  unfold size
  split_ifs with h h'
  · exact List.getElem?_append_left h
  · rw [List.getElem?_append_right (by omega), List.getElem?_map, List.getElem?_range' (by omega)]
    simp
  · rw [List.getElem?_eq_none]
    simp only [List.length_append, List.length_map, List.length_range']
    omega

theorem getElem?_update (m : Memory) (n q : Nat) (f : Variable → Variable) :
    (m.update n f).cells[q]? = if n = q then m.cells[q]?.map f else m.cells[q]? := by
  unfold update
  rw [List.getElem?_modify]
  split_ifs <;> simp

@[simp] theorem size_update (m : Memory) (n : Nat) (f : Variable → Variable) :
    (m.update n f).size = m.size := by simp [update, size]

theorem size_push (m : Memory) (f : Variable → Variable) : (m.push f).size = m.size + 1 := by
  simp [push, allocate, moveAp, size]

theorem getElem?_push (m : Memory) (f : Variable → Variable) (q : Nat) :
    (m.push f).cells[q]? = if q = m.size then some (f (Variable.blank m.counter)) else m.cells[q]? := by
  unfold push allocate moveAp size
  split_ifs with h
  · subst h; simp
  · rcases Nat.lt_or_gt_of_ne h with hlt | hgt
    · exact List.getElem?_append_left hlt
    · rw [List.getElem?_eq_none (by rw [List.length_append]; exact hgt),
        List.getElem?_eq_none (by omega)]

/-- What is reached is a cell of the memory afterwards, which has grown by blank cells at most. -/
theorem growTo_of_reach {m m' : Memory} {p : Int} {a : Access} (h : m.reach p = .ok (m', a)) :
    a.number < m'.size ∧ ∃ n, m' = m.growTo n := by
  unfold reach at h
  dsimp only at h
  split_ifs at h with hneg hlow hin
  · obtain ⟨rfl, rfl⟩ : m = m' ∧ _ = a := by simpa using h
    exact ⟨by dsimp only; omega, 0, (growTo_of_le (Nat.zero_le _)).symm⟩
  · obtain ⟨rfl, rfl⟩ : m = m' ∧ _ = a := by simpa using h
    exact ⟨hin, 0, (growTo_of_le (Nat.zero_le _)).symm⟩
  · obtain ⟨rfl, rfl⟩ : m.growTo (p.toNat + 1) = m' ∧ _ = a := by simpa using h
    exact ⟨by rw [size_growTo]; dsimp only; omega, p.toNat + 1, rfl⟩

/-- A position that is not negative is the number of its cell. -/
theorem number_of_reach {m m' : Memory} {p : Int} {a : Access} (hp : 0 ≤ p)
    (h : m.reach p = .ok (m', a)) : (a.number : Int) = p := by
  unfold reach at h
  dsimp only at h
  rw [if_neg (by omega)] at h
  split_ifs at h with hin
  · obtain ⟨-, rfl⟩ : m = m' ∧ _ = a := by simpa using h
    exact Int.toNat_of_nonneg hp
  · obtain ⟨-, rfl⟩ : m.growTo (p.toNat + 1) = m' ∧ _ = a := by simpa using h
    exact Int.toNat_of_nonneg hp

/-- Each variable is in the cell of its number, and the counter has counted the cells. -/
structure Aligned (m : Memory) : Prop where
  counter : m.counter = m.size
  number : ∀ (q : Nat) (v : Variable), m.cells[q]? = some v → v.number = q

theorem aligned_empty : empty.Aligned := ⟨rfl, fun _ _ hv => by cases hv⟩

/-- Registers do not count. -/
theorem aligned_of_cells_eq {m m' : Memory} (h : m.Aligned) (hcells : m'.cells = m.cells)
    (hcounter : m'.counter = m.counter) : m'.Aligned := by
  refine ⟨?_, fun q v hv => ?_⟩
  · rw [hcounter, h.counter, size, size, hcells]
  · rw [hcells] at hv
    exact h.number q v hv

theorem aligned_moveAp {m : Memory} (h : m.Aligned) (n : Int) : (m.moveAp n).Aligned :=
  aligned_of_cells_eq h rfl rfl

theorem aligned_growTo {m : Memory} (h : m.Aligned) (n : Nat) : (m.growTo n).Aligned := by
  refine ⟨?_, fun q v hv => ?_⟩
  · rw [counter_growTo, size_growTo, h.counter]
    omega
  · rw [getElem?_growTo] at hv
    split_ifs at hv
    · exact h.number q v hv
    · obtain rfl : Variable.blank (m.counter + (q - m.size)) = v := by simpa using hv
      change m.counter + (q - m.size) = q
      rw [h.counter]
      omega

theorem aligned_update {m : Memory} (h : m.Aligned) (n : Nat) {f : Variable → Variable}
    (hf : ∀ v, (f v).number = v.number) : (m.update n f).Aligned := by
  refine ⟨h.counter.trans (size_update m n f).symm, fun q v hv => ?_⟩
  rw [getElem?_update] at hv
  split_ifs at hv
  · obtain ⟨w, hw, rfl⟩ := Option.map_eq_some_iff.1 hv
    rw [hf]; exact h.number q w hw
  · exact h.number q v hv

theorem aligned_push {m : Memory} (h : m.Aligned) {f : Variable → Variable}
    (hf : ∀ v, (f v).number = v.number) : (m.push f).Aligned := by
  refine ⟨(congrArg (· + 1) h.counter).trans (size_push m f).symm, fun q v hv => ?_⟩
  rw [getElem?_push] at hv
  split_ifs at hv with hq
  · obtain rfl : f (Variable.blank m.counter) = v := by simpa using hv
    rw [hf, hq]; exact h.counter
  · exact h.number q v hv

theorem eq_of_number_eq {m : Memory} (h : m.Aligned) {v w : Variable} (hv : v ∈ m.cells) (hw : w ∈ m.cells)
    (hnumber : v.number = w.number) : v = w := by
  obtain ⟨p, hp⟩ := List.mem_iff_getElem?.1 hv
  obtain ⟨q, hq⟩ := List.mem_iff_getElem?.1 hw
  rw [h.number p v hp, h.number q w hq] at hnumber
  subst hnumber
  exact Option.some.inj (hp.symm.trans hq)

def positionNamed? (m : Memory) (name : String) : Option Nat :=
  m.cells.findIdx? fun v => v.name == name

theorem name_inj {m : Memory} (h : m.Aligned) {p q : Nat} {v w : Variable}
    (hv : m.cells[p]? = some v) (hw : m.cells[q]? = some w) (hname : v.name = w.name) : p = q := by
  rw [← h.number p v hv, ← h.number q w hw]
  exact Variable.nameOf_inj hname

theorem positionNamed?_eq_some {m : Memory} (h : m.Aligned) {q : Nat} {v : Variable}
    (hv : m.cells[q]? = some v) : m.positionNamed? v.name = some q := by
  unfold positionNamed?
  obtain ⟨hlt, rfl⟩ := List.getElem?_eq_some_iff.1 hv
  rw [List.findIdx?_eq_some_iff_getElem]
  refine ⟨hlt, by simp, fun j hj => ?_⟩
  simp only [beq_iff_eq]
  intro hname
  have := name_inj h (List.getElem?_eq_getElem (by omega)) hv hname
  omega

/-- The name that a value shows for a number leads to the cell of that number. -/
theorem positionNamed?_nameOf {m : Memory} (h : m.Aligned) {q : Nat} (hq : q < m.size) :
    m.positionNamed? (m.nameOf q) = some q := by
  obtain ⟨v, hv⟩ : ∃ v, m.cells[q]? = some v := ⟨_, List.getElem?_eq_getElem hq⟩
  rw [nameOf, hv]
  exact positionNamed?_eq_some h hv

def reads (m : Memory) (stack : Int → Int) (n : Nat) : Option Int :=
  if n < m.size then some (stack n) else none

/-- The variables read by their name: a number stands for the name that is shown for it, and the name
for the position of the variable that has it. -/
def readsNamed (m : Memory) (stack : Int → Int) (n : Nat) : Option Int :=
  (m.positionNamed? (m.nameOf n)).map fun q => stack q

theorem readsNamed_eq {m : Memory} (h : m.Aligned) (stack : Int → Int) :
    m.readsNamed stack = m.reads stack := by
  funext n
  unfold readsNamed reads
  split_ifs with hn
  · rw [positionNamed?_nameOf h hn]
    rfl
  · have hnone : m.positionNamed? (m.nameOf n) = none := by
      rw [nameOf, List.getElem?_eq_none (Nat.le_of_not_lt hn)]
      unfold positionNamed?
      rw [List.findIdx?_eq_none_iff]
      intro v hv
      obtain ⟨q, hq⟩ := List.getElem?_of_mem hv
      rw [beq_eq_false_iff_ne]
      -- a variable of that name would have the number `n`, and so stand in the cell `n`
      intro hname
      have hnumber : v.number = n := Variable.nameOf_inj hname
      rw [h.number q v hq] at hnumber
      exact hn (hnumber ▸ (List.getElem?_eq_some_iff.1 hq).1)
    rw [hnone]
    rfl

/-- The first memory became the second: it lost no cell and no value, and each value that came to a
cell is one of `new`. -/
structure Grows (new : Nat → Value → Prop) (m m' : Memory) : Prop where
  size_le : m.size ≤ m'.size
  aligned : m.Aligned → m'.Aligned
  kept : ∀ (q : Nat) (v : Variable) (x : Value), m.cells[q]? = some v → v.value = some x →
    ∃ w, m'.cells[q]? = some w ∧ w.value = some x
  value : ∀ (q : Nat) (v : Variable) (x : Value), m'.cells[q]? = some v → v.value = some x →
    (∃ w, m.cells[q]? = some w ∧ w.value = some x) ∨ new q x

namespace Grows

variable {new new' : Nat → Value → Prop} {m m' m'' : Memory}

theorem refl (new : Nat → Value → Prop) (m : Memory) : Grows new m m :=
  ⟨Nat.le_refl _, id, fun _ v _ hv hx => ⟨v, hv, hx⟩, fun _ v _ hv hx => Or.inl ⟨v, hv, hx⟩⟩

theorem of_cells_eq (h : m'.cells = m.cells) (hcounter : m'.counter = m.counter) : Grows new m m' := by
  refine ⟨Nat.le_of_eq (by unfold size; rw [h]), fun ha => aligned_of_cells_eq ha h hcounter, ?_, ?_⟩
  · intro q v x hv hx
    exact ⟨v, by rw [h, hv], hx⟩
  · intro q v x hv hx
    exact Or.inl ⟨v, by rw [← h, hv], hx⟩

theorem trans (h : Grows new m m') (h' : Grows new m' m'') : Grows new m m'' := by
  refine ⟨Nat.le_trans h.size_le h'.size_le, fun ha => h'.aligned (h.aligned ha), ?_, ?_⟩
  · intro q v x hv hx
    obtain ⟨w, hw, hwx⟩ := h.kept q v x hv hx
    exact h'.kept q w x hw hwx
  · intro q v x hv hx
    rcases h'.value q v x hv hx with ⟨w, hw, hwx⟩ | hnew
    · exact h.value q w x hw hwx
    · exact Or.inr hnew

theorem mono (h : Grows new m m') (hnew : ∀ q x, new q x → new' q x) : Grows new' m m' :=
  ⟨h.size_le, h.aligned, h.kept, fun q v x hv hx => (h.value q v x hv hx).imp_right (hnew q x)⟩

theorem growTo (new : Nat → Value → Prop) (m : Memory) (n : Nat) : Grows new m (m.growTo n) := by
  refine ⟨by rw [size_growTo]; exact Nat.le_max_left _ _, fun ha => aligned_growTo ha n, ?_, ?_⟩
  · intro q v x hv hx
    have hq : q < m.size := (List.getElem?_eq_some_iff.1 hv).1
    exact ⟨v, by rw [getElem?_growTo, if_pos hq, hv], hx⟩
  · intro q v x hv hx
    rw [getElem?_growTo] at hv
    split_ifs at hv
    · exact Or.inl ⟨v, hv, hx⟩
    · obtain rfl : Variable.blank (m.counter + (q - m.size)) = v := by simpa using hv
      cases hx

/-- A change of variables that gives one at most a value that is new, and takes none away. -/
theorem update {n : Nat} {f : Variable → Variable} (hnumber : ∀ v, (f v).number = v.number)
    (hkept : ∀ v x, v.value = some x → (f v).value = some x)
    (hvalue : ∀ v x, (f v).value = some x → v.value = some x ∨ new n x) :
    Grows new m (m.update n f) := by
  refine ⟨Nat.le_of_eq (size_update m n f).symm, fun ha => aligned_update ha n hnumber, ?_, ?_⟩
  · intro q v x hv hx
    rw [getElem?_update, hv]
    split_ifs
    · exact ⟨f v, rfl, hkept v x hx⟩
    · exact ⟨v, rfl, hx⟩
  · intro q v x hv hx
    rw [getElem?_update] at hv
    split_ifs at hv with hn
    · subst hn
      obtain ⟨w, hw, rfl⟩ := Option.map_eq_some_iff.1 hv
      rcases hvalue w x hx with hold | hnew
      · exact Or.inl ⟨w, hw, hold⟩
      · exact Or.inr hnew
    · exact Or.inl ⟨v, hv, hx⟩

/-- A change that leaves values alone. -/
theorem update_of_value_eq {n : Nat} {f : Variable → Variable}
    (hnumber : ∀ v, (f v).number = v.number) (hvalue : ∀ v, (f v).value = v.value) :
    Grows new m (m.update n f) :=
  update hnumber (fun v x hx => by rw [hvalue, hx]) (fun v x hx => Or.inl (by rw [← hvalue, hx]))

theorem push {f : Variable → Variable} (hnumber : ∀ v, (f v).number = v.number)
    (hvalue : ∀ v, (f v).value = v.value) : Grows new m (m.push f) := by
  refine ⟨by rw [size_push]; omega, fun ha => aligned_push ha hnumber, ?_, ?_⟩
  · intro q v x hv hx
    have hq : q ≠ m.size := Nat.ne_of_lt (List.getElem?_eq_some_iff.1 hv).1
    exact ⟨v, by rw [getElem?_push, if_neg hq, hv], hx⟩
  · intro q v x hv hx
    rw [getElem?_push] at hv
    split_ifs at hv
    · obtain rfl : f (Variable.blank m.counter) = v := by simpa using hv
      rw [hvalue] at hx
      cases hx
    · exact Or.inl ⟨v, hv, hx⟩

end Grows

theorem grows_enter (new : Nat → Value → Prop) (m : Memory) (function : Option Nat)
    (arguments : List String) (block : Nat) :
    Grows new m (m.enter function arguments block) := by
  have hfold : ∀ (names : List String) (m : Memory), Grows new m (names.foldl (fun m name =>
      m.push fun v => { v with label := some name, function, block := some block, isArgument := true })
      m) := by
    intro names
    induction names with
    | nil => intro m; exact Grows.refl _ m
    | cons name names ih =>
      intro m
      refine Grows.trans ?_ (ih _)
      exact Grows.push (fun _ => rfl) fun _ => rfl
  have hframe := (hfold arguments m).trans (Grows.push
    (f := fun v => { v with label := some "callers_function_frame", block := some block })
    (fun _ => rfl) fun _ => rfl)
  have hreturn := hframe.trans (Grows.push
    (f := fun v => { v with label := some "return_instruction", block := some block })
    (fun _ => rfl) fun _ => rfl)
  exact hreturn.trans (Grows.of_cells_eq rfl rfl)

/-- Both registers of a new frame stand above the arguments and two more cells. -/
theorem registerAt_enter (m : Memory) (function : Option Nat) (arguments : List String) (block : Nat)
    (r : Register) : (m.enter function arguments block).registerAt r = m.ap + arguments.length + 2 := by
  have hfold : ∀ (names : List String) (m : Memory), (names.foldl (fun m name =>
      m.push fun v => { v with label := some name, function, block := some block, isArgument := true })
      m).ap = m.ap + names.length := by
    intro names
    induction names with
    | nil => intro m; simp
    | cons name names ih =>
      intro m
      rw [List.foldl_cons, ih, List.length_cons]
      change m.ap + 1 + (names.length : Int) = _
      omega
  have hap : (m.enter function arguments block).ap = m.ap + arguments.length + 1 + 1 := by
    rw [← hfold arguments m]
    rfl
  cases r with
  | ap => exact hap.trans (by omega)
  | fp => exact hap.trans (by omega)

/-- More cells at most: no value came, and the registers stand where they were. -/
structure Widens (m m' : Memory) : Prop where
  grows : Grows (fun _ _ => False) m m'
  registers : ∀ r, m'.registerAt r = m.registerAt r

theorem Widens.trans {m m' m'' : Memory} (h : Widens m m') (h' : Widens m' m'') : Widens m m'' :=
  ⟨h.grows.trans h'.grows, fun r => by rw [h'.registers, h.registers]⟩

/-- The cell at an offset: it is there afterwards, and a position that is not negative is its number. -/
structure CellAt (m m' : Memory) (r : Register) (offset : Int) (n : Nat) : Prop where
  lt : n < m'.size
  number : 0 ≤ m.registerAt r + offset → (n : Int) = m.registerAt r + offset

theorem CellAt.mono {m₀ m m' m'' : Memory} {r : Register} {offset : Int} {n : Nat}
    (h : CellAt m m' r offset n) (hregisters : m.registerAt r = m₀.registerAt r)
    (hsize : m'.size ≤ m''.size) : CellAt m₀ m'' r offset n :=
  ⟨Nat.lt_of_lt_of_le h.lt hsize, by rw [← hregisters]; exact h.number⟩

theorem cellAt_of_access {m m' : Memory} {r : Register} {offset : Int} {a : Access}
    (h : m.access r offset = .ok (m', a)) : Widens m m' ∧ CellAt m m' r offset a.number := by
  obtain ⟨hlt, n, rfl⟩ := growTo_of_reach h
  exact ⟨⟨Grows.growTo _ m n, registerAt_growTo m n⟩, hlt, fun hp => number_of_reach hp h⟩

end Memory

end Cairoscope
