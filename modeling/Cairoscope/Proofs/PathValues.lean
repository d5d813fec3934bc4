import Cairoscope.Proofs.MergedOperands

/-! What a path says about the integers of the variables: the values recorded for the variables on it, and the
outcomes of the tests on it. The problem of a path holds of exactly the integers that the path allows. -/

namespace Cairoscope

/-- The first candidate that is on the path. -/
def FirstOn (on : Nat → Prop) (candidates : List Nat) (n : Nat) : Prop :=
  ∃ before after, candidates = before ++ n :: after ∧ (∀ k ∈ before, ¬ on k) ∧ on n

theorem FirstOn.mem {on : Nat → Prop} {candidates : List Nat} {n : Nat} (h : FirstOn on candidates n) :
    n ∈ candidates := by
  obtain ⟨before, after, rfl, -⟩ := h
  simp

/-- A left operand is its first candidate on the path, and its first one where none is on the path. -/
inductive Operand.IsLeft (on : Nat → Prop) (a : Nat → Int) : Operand → Int → Prop
  | integer (n : Int) : IsLeft on a (.integer n) n
  | onPath {candidates : List Nat} {n : Nat} (first : FirstOn on candidates n) : IsLeft on a (.cells candidates) (a n)
  | offPath {n : Nat} {rest : List Nat} (off : ∀ k ∈ n :: rest, ¬ on k) : IsLeft on a (.cells (n :: rest)) (a n)

inductive Operand.IsRight (a : Nat → Int) : Operand → Int → Prop
  | integer (n : Int) : IsRight a (.integer n) n
  | cell (n : Nat) (rest : List Nat) : IsRight a (.cells (n :: rest)) (a n)

/-- The integer that a value is on a path. What is loaded or received from a call is not known. -/
inductive Value.Is (on : Nat → Prop) (a : Nat → Int) : Value → Int → Prop
  | integer (n : Int) : Is on a (.integer n) n
  | copy {candidates : List Nat} {n : Nat} (first : FirstOn on candidates n) : Is on a (.copy candidates) (a n)
  | combined {l r : Operand} {op : Operator} {x y : Int} (left : l.IsLeft on a x) (right : r.IsRight a y) :
      Is on a (.combined l op r) (op.apply x y)

namespace Symbolic

/-- Where only these variables are on the path, the value of one of them is this integer. -/
structure Prescribes (on : Variable → Prop) (a : Nat → Int) (v : Variable) (k : Int) : Prop where
  mem : on v
  value : ∃ x, v.value = some x ∧ x.Is (fun n => ∃ w, on w ∧ w.number = n) a k

section Congruence

variable {a b : Nat → Int}

theorem Term.eval_congr (t : Term) (h : ∀ n ∈ t.unknowns, a n = b n) : t.eval a = t.eval b := by
  induction t with
  | unknown n => exact h n List.mem_cons_self
  | integer n => rfl
  | sum l r ihl ihr =>
    rw [eval, eval, ihl fun n hn => h n (List.mem_append_left _ hn),
      ihr fun n hn => h n (List.mem_append_right _ hn)]
  | product l r ihl ihr =>
    rw [eval, eval, ihl fun n hn => h n (List.mem_append_left _ hn),
      ihr fun n hn => h n (List.mem_append_right _ hn)]

theorem Formula.holds_congr (f : Formula) (h : ∀ n ∈ f.unknowns, a n = b n) : f.Holds a ↔ f.Holds b := by
  unfold Holds
  rw [f.left.eval_congr fun n hn => h n (List.mem_append_left _ hn),
    f.right.eval_congr fun n hn => h n (List.mem_append_right _ hn)]

theorem Problem.holds_congr (p : Problem) (h : ∀ n ∈ p.unknowns, a n = b n) : p.Holds a ↔ p.Holds b :=
  forall₂_congr fun f hf => f.holds_congr fun n hn => h n (List.mem_flatMap.2 ⟨f, hf, hn⟩)

end Congruence

section Terms

variable {onPath : List Nat} {a : Nat → Int} {k : Int}

theorem find?_contains_eq_some_iff {candidates : List Nat} {n : Nat} :
    candidates.find? onPath.contains = some n ↔ FirstOn (· ∈ onPath) candidates n := by
  rw [List.find?_eq_some_iff_append]
  constructor
  · rintro ⟨hn, before, after, hsplit, hbefore⟩
    exact ⟨before, after, hsplit, fun k hk => by simpa using hbefore k hk, by simpa using hn⟩
  · rintro ⟨before, after, hsplit, hbefore, hn⟩
    exact ⟨by simpa using hn, before, after, hsplit, fun k hk => by simpa using hbefore k hk⟩

theorem isLeft_iff {o : Operand} {t : Term} (h : leftTerm onPath o = .ok t) :
    o.IsLeft (· ∈ onPath) a k ↔ t.eval a = k := by
  cases o with
  | integer n =>
    obtain rfl := Except.ok.inj h
    constructor
    · rintro ⟨⟩
      rfl
    · rintro rfl
      exact .integer n
  | cells candidates =>
    obtain ⟨n, hn, rfl⟩ := leftTerm_cells_eq_ok_iff.1 h
    constructor
    · intro hleft
      cases hleft with
      | onPath hfirst =>
        rw [find?_contains_eq_some_iff.2 hfirst] at hn
        obtain rfl := Option.some.inj hn
        rfl
      | @offPath k rest hoff =>
        have hnone : (k :: rest).find? onPath.contains = none :=
          List.find?_eq_none.2 fun j hj => by simpa using hoff j hj
        rw [hnone] at hn
        obtain rfl := Option.some.inj hn
        rfl
    · rintro rfl
      rcases Option.or_eq_some_iff.1 hn with hfound | ⟨hnone, hhead⟩
      · exact .onPath (find?_contains_eq_some_iff.1 hfound)
      · obtain ⟨rest, rfl⟩ := List.head?_eq_some_iff.1 hhead
        exact .offPath fun j hj => by simpa using List.find?_eq_none.1 hnone j hj

theorem isRight_iff {o : Operand} {t : Term} (h : rightTerm o = .ok t) : o.IsRight a k ↔ t.eval a = k := by
  cases isFirst_of_rightTerm h with
  | integer n =>
    constructor
    · rintro ⟨⟩
      rfl
    · rintro rfl
      exact .integer n
  | candidate n rest =>
    constructor
    · rintro ⟨⟩
      rfl
    · rintro rfl
      exact .cell n rest

theorem eval_operation (op : Operator) (t u : Term) (a : Nat → Int) :
    (operation op t u).eval a = op.apply (t.eval a) (u.eval a) := by
  cases op with
  | addition => exact Term.eval_add a t u
  | multiplication => exact Term.eval_mul a t u

/-- The equation of a variable says that the variable is its value, and there is one if the value is known. -/
theorem is_iff_of_equation {v : Variable} {x : Value} {o : Option Formula} (hx : v.value = some x)
    (h : equation onPath v = .ok o) :
    x.Is (· ∈ onPath) a k ↔ ∃ t, o = some ⟨.equal, .unknown v.number, t⟩ ∧ t.eval a = k := by
  cases x with
  | integer n =>
    simp only [equation, hx, Except.ok.injEq] at h
    subst h
    constructor
    · rintro ⟨⟩
      exact ⟨_, rfl, rfl⟩
    · rintro ⟨t, ⟨⟩, rfl⟩
      exact .integer n
  | copy candidates =>
    simp only [equation, hx, Except.ok.injEq] at h
    subst h
    constructor
    · rintro ⟨⟩
      rename_i n hfirst
      exact ⟨.unknown n, by rw [find?_contains_eq_some_iff.2 hfirst]; rfl, rfl⟩
    · rintro ⟨t, hfound, rfl⟩
      obtain ⟨n, hn, ⟨⟩⟩ := Option.map_eq_some_iff.1 hfound
      exact .copy (find?_contains_eq_some_iff.1 hn)
  | combined l op r =>
    obtain ⟨t, u, ht, hu, rfl⟩ := (equation_combined hx).1 h
    constructor
    · rintro ⟨⟩
      rename_i i j hl hr
      refine ⟨_, rfl, ?_⟩
      rw [eval_operation, (isLeft_iff ht).1 hl, (isRight_iff hu).1 hr]
    · rintro ⟨_, ⟨⟩, rfl⟩
      rw [eval_operation]
      exact .combined ((isLeft_iff ht).2 rfl) ((isRight_iff hu).2 rfl)
  | load | result =>
    simp only [equation, hx, Except.ok.injEq] at h
    subst h
    constructor
    · rintro ⟨⟩
    · rintro ⟨t, ⟨⟩, -⟩

theorem shape_of_equation {v : Variable} {f : Formula} (h : equation onPath v = .ok (some f)) :
    ∃ t, f = ⟨.equal, .unknown v.number, t⟩ := by
  unfold equation at h
  dsimp only at h
  split at h
  · exact ⟨_, (Option.some.inj (Except.ok.inj h)).symm⟩
  · obtain ⟨n, -, rfl⟩ := Option.map_eq_some_iff.1 (Except.ok.inj h)
    exact ⟨_, rfl⟩
  · obtain ⟨t, -, h⟩ := Outcome.bind_eq_ok.1 h
    obtain ⟨u, -, h⟩ := Outcome.bind_eq_ok.1 h
    exact ⟨_, (Option.some.inj (Outcome.pure_eq_ok.1 h)).symm⟩
  · cases h

end Terms

section Equations

variable {on : Variable → Prop} {vs : List Variable} {p : Problem} {a : Nat → Int}

theorem prescribes_iff_of_equation (hon : ∀ v, on v ↔ v ∈ vs) {v : Variable} (hv : v ∈ vs) {o : Option Formula}
    (h : equation (vs.map (·.number)) v = .ok o) {k : Int} :
    Prescribes on a v k ↔ ∃ t, o = some ⟨.equal, .unknown v.number, t⟩ ∧ t.eval a = k := by
  have hnumbers : (fun n => ∃ w, on w ∧ w.number = n) = (· ∈ vs.map (·.number)) := by
    funext n
    simp [hon]
  cases hx : v.value with
  | none =>
    constructor
    · rintro ⟨-, x, hsome, -⟩
      cases hx.symm.trans hsome
    · rintro ⟨t, rfl, -⟩
      simp [equation, hx] at h
  | some x =>
    rw [← is_iff_of_equation hx h, ← hnumbers]
    constructor
    · rintro ⟨-, y, hy, his⟩
      obtain rfl := Option.some.inj (hx.symm.trans hy)
      exact his
    · exact fun his => ⟨(hon v).2 hv, x, hx, his⟩

/-- Every equation is one of a variable on the path. -/
theorem exists_prescribes_of_mem (hon : ∀ v, on v ↔ v ∈ vs) (h : equations vs = .ok p) {f : Formula} (hf : f ∈ p) :
    ∃ v t, f = ⟨.equal, .unknown v.number, t⟩ ∧ ∀ a, Prescribes on a v (t.eval a) := by
  obtain ⟨found, hfound, hp⟩ := Outcome.bind_eq_ok.1 h
  obtain rfl := Outcome.pure_eq_ok.1 hp
  obtain ⟨o, ho, rfl⟩ := List.mem_filterMap.1 hf
  obtain ⟨v, hv, heq⟩ := Outcome.exists_of_mem_mapM hfound ho
  obtain ⟨t, rfl⟩ := shape_of_equation heq
  exact ⟨v, t, rfl, fun a => (prescribes_iff_of_equation hon hv heq).2 ⟨t, rfl, rfl⟩⟩

theorem prescribes_unique (hon : ∀ v, on v ↔ v ∈ vs) (h : equations vs = .ok p) {v : Variable} {k k' : Int}
    (hk : Prescribes on a v k) (hk' : Prescribes on a v k') : k = k' := by
  have hv := (hon v).1 hk.mem
  obtain ⟨o, ho, -⟩ := mem_equations_of_mem h hv
  obtain ⟨t, ht, rfl⟩ := (prescribes_iff_of_equation hon hv ho).1 hk
  obtain ⟨u, hu, rfl⟩ := (prescribes_iff_of_equation hon hv ho).1 hk'
  cases ht.symm.trans hu
  rfl

theorem holds_equations_iff (hon : ∀ v, on v ↔ v ∈ vs) (h : equations vs = .ok p) :
    p.Holds a ↔ ∀ v k, Prescribes on a v k → a v.number = k := by
  constructor
  · intro hholds v k hv
    obtain ⟨o, ho, hmem⟩ := mem_equations_of_mem h ((hon v).1 hv.mem)
    obtain ⟨t, rfl, rfl⟩ := (prescribes_iff_of_equation hon ((hon v).1 hv.mem) ho).1 hv
    exact hholds _ (hmem _ rfl)
  · intro hall f hf
    obtain ⟨v, t, rfl, hv⟩ := exists_prescribes_of_mem hon h hf
    exact hall v _ (hv a)

end Equations

namespace Subject

def Visits (s : Subject) (path : FlowGraph.Path) (b : Block) : Prop := ∃ i ∈ path, s.blocks[i]? = some b

def Reaches (s : Subject) (path : FlowGraph.Path) (offset : Int) : Prop :=
  ∃ b, s.Visits path b ∧ (b.start : Int) = offset

def IsArgument (s : Subject) (v : Variable) : Prop :=
  v ∈ s.memory.cells ∧ v.function = some s.function ∧ v.isArgument = true

/-- An argument of the function, or a variable of a block on the path. -/
def OnPath (s : Subject) (path : FlowGraph.Path) (v : Variable) : Prop :=
  s.IsArgument v ∨ ∃ b, s.Visits path b ∧ ∃ n ∈ b.allocated, s.memory.cells[n]? = some v

/-- The integers agree with the path. What a test asks for depends on which of its two targets the path leaves out. -/
structure Allows (s : Subject) (path : FlowGraph.Path) (a : Nat → Int) : Prop where
  assigned : ∀ v k, Prescribes (s.OnPath path) a v k → a v.number = k
  zero : ∀ b c first second, s.Visits path b → Tests b c first second → ¬ s.Reaches path first → a c = 0
  nonzero : ∀ b c first second, s.Visits path b → Tests b c first second → s.Reaches path first →
    ¬ s.Reaches path second → a c ≠ 0

variable {s : Subject} {path : FlowGraph.Path} {v : Variable}

theorem mem_blocksOn {b : Block} : b ∈ FlowGraph.blocksOn s.blocks path ↔ s.Visits path b := List.mem_filterMap

theorem arrives_iff {offset : Int} : Arrives (FlowGraph.blocksOn s.blocks path) offset ↔ s.Reaches path offset := by
  unfold Arrives Reaches
  simp only [mem_blocksOn]

theorem mem_arguments : v ∈ s.arguments ↔ s.IsArgument v := by
  simp [arguments, IsArgument]

theorem onPath_iff : s.OnPath path v ↔ v ∈ s.arguments ++ s.defined path := by
  rw [List.mem_append, mem_arguments, defined, List.mem_flatMap]
  simp only [mem_blocksOn, List.mem_filterMap]
  rfl

end Subject

theorem holds_branchFormulas_iff {onPath : List Block} (hnodup : (onPath.map fun b => (b.start : Int)).Nodup)
    {a : Nat → Int} : Problem.Holds (branchFormulas onPath) a ↔ ∀ b ∈ onPath, ∀ c first second,
      Tests b c first second → (¬ Arrives onPath first → a c = 0) ∧
        (Arrives onPath first → ¬ Arrives onPath second → a c ≠ 0) := by
  constructor
  · intro h b hb c first second htests
    have hasked : ∀ f, branchFormula onPath b = some f → f.Holds a :=
      fun f hf => h f (List.mem_filterMap.2 ⟨b, hb, hf⟩)
    refine ⟨fun hfirst => ?_, fun hfirst hsecond => ?_⟩
    · exact hasked (isZero c) ((branchFormula_eq_some_iff hnodup).2 ⟨c, _, _, htests, .inl ⟨rfl, hfirst⟩⟩)
    · exact hasked (isNonzero c)
        ((branchFormula_eq_some_iff hnodup).2 ⟨c, _, _, htests, .inr ⟨rfl, hfirst, hsecond⟩⟩)
  · intro h f hf
    obtain ⟨b, hb, hf⟩ := List.mem_filterMap.1 hf
    obtain ⟨c, first, second, htests, ⟨rfl, hfirst⟩ | ⟨rfl, hfirst, hsecond⟩⟩ :=
      (branchFormula_eq_some_iff hnodup).1 hf
    · exact (h b hb c first second htests).1 hfirst
    · exact (h b hb c first second htests).2 hfirst hsecond

/-- The problem of a path holds of the integers that agree with the path, and of no others. -/
theorem holds_branchProblem_iff {s : Subject} {ps : List FlowGraph.Path} {path : FlowGraph.Path} {p : Problem}
    (hps : FlowGraph.paths s.blocks = .ok ps) (hpath : path ∈ ps) (hp : branchProblem s path = .ok p)
    {a : Nat → Int} : p.Holds a ↔ s.Allows path a := by
  obtain ⟨assigned, hassigned, hp⟩ := Outcome.bind_eq_ok.1 hp
  obtain rfl := Outcome.pure_eq_ok.1 hp
  have hequations := holds_equations_iff (a := a) (fun _ => Subject.onPath_iff) hassigned
  have hbranches := holds_branchFormulas_iff (a := a) (FlowGraph.nodup_starts_of_paths hps hpath)
  simp only [Subject.mem_blocksOn, Subject.arrives_iff] at hbranches
  constructor
  · intro h
    have hfirst := hequations.1 fun f hf => h f (List.mem_append_left _ hf)
    have hsecond := hbranches.1 fun f hf => h f (List.mem_append_right _ hf)
    exact ⟨hfirst, fun b c first second hb htests => (hsecond b hb c first second htests).1,
      fun b c first second hb htests => (hsecond b hb c first second htests).2⟩
  · intro h f hf
    rcases List.mem_append.1 hf with hf | hf
    · exact hequations.2 h.assigned f hf
    · exact hbranches.2 (fun b hb c first second htests =>
        ⟨h.zero b c first second hb htests, h.nonzero b c first second hb htests⟩) f hf

end Symbolic

end Cairoscope
