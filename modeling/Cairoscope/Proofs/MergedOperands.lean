import Cairoscope.Proofs.Assertions
import Cairoscope.Proofs.Branches

/-! Operands that stand for several variables, in the equations of a path. A left operand becomes one of its
candidates that is on the path, if there is one. A right operand becomes its first candidate, whether or not that is
on the path. -/

namespace Cairoscope.Symbolic

variable {onPath : List Nat}

/-- What an operand is to become on a path: a candidate off the path only where all candidates are. -/
inductive Resolves (onPath : List Nat) : Operand → Term → Prop
  | integer (n : Int) : Resolves onPath (.integer n) (.integer n)
  | onPath {candidates : List Nat} {n : Nat} (candidate : n ∈ candidates) (on : n ∈ onPath) :
      Resolves onPath (.cells candidates) (.unknown n)
  | offPath {candidates : List Nat} {n : Nat} (candidate : n ∈ candidates) (off : ∀ m ∈ candidates, m ∉ onPath) :
      Resolves onPath (.cells candidates) (.unknown n)

def HasCandidate : Operand → Prop
  | .integer _ => True
  | .cells candidates => candidates ≠ []

/-- What an operand becomes without regard to the path. -/
inductive IsFirst : Operand → Term → Prop
  | integer (n : Int) : IsFirst (.integer n) (.integer n)
  | candidate (n : Nat) (rest : List Nat) : IsFirst (.cells (n :: rest)) (.unknown n)

/-- The first candidate is on the path if any is. -/
def FirstServes (onPath : List Nat) : Operand → Prop
  | .integer _ => True
  | .cells candidates => (∃ m ∈ candidates, m ∈ onPath) → ∃ n, candidates.head? = some n ∧ n ∈ onPath

theorem leftTerm_cells_eq_ok_iff {candidates : List Nat} {t : Term} :
    leftTerm onPath (.cells candidates) = .ok t ↔
      ∃ n, (candidates.find? onPath.contains).or candidates.head? = some n ∧ .unknown n = t := by
  unfold leftTerm
  dsimp only
  cases (candidates.find? onPath.contains).or candidates.head? with
  | none => simp
  | some n => simp

theorem resolves_of_leftTerm {o : Operand} {t : Term} (h : leftTerm onPath o = .ok t) : Resolves onPath o t := by
  cases o with
  | integer n =>
    obtain rfl := Except.ok.inj h
    exact .integer n
  | cells candidates =>
    obtain ⟨n, hn, rfl⟩ := leftTerm_cells_eq_ok_iff.1 h
    rcases Option.or_eq_some_iff.1 hn with hfound | ⟨hnone, hhead⟩
    · exact .onPath (List.mem_of_find?_eq_some hfound) (by simpa using List.find?_some hfound)
    · exact .offPath (List.mem_of_mem_head? hhead) (by simpa using hnone)

theorem isFirst_of_rightTerm {o : Operand} {t : Term} (h : rightTerm o = .ok t) : IsFirst o t := by
  unfold rightTerm at h
  split at h <;> cases h
  · exact .integer _
  · exact .candidate _ _

theorem IsFirst.resolves_iff {o : Operand} {t : Term} (h : IsFirst o t) :
    Resolves onPath o t ↔ FirstServes onPath o := by
  cases h with
  | integer n => exact ⟨fun _ => trivial, fun _ => .integer n⟩
  | candidate n rest =>
    constructor
    · rintro (_ | ⟨-, hon⟩ | ⟨-, hoff⟩)
      · exact fun _ => ⟨n, rfl, hon⟩
      · rintro ⟨m, hm, hon⟩
        exact absurd hon (hoff m hm)
    · intro hserves
      by_cases hany : ∃ m ∈ n :: rest, m ∈ onPath
      · obtain ⟨k, hk, hon⟩ := hserves hany
        obtain rfl := Option.some.inj hk
        exact .onPath List.mem_cons_self hon
      · exact .offPath List.mem_cons_self fun m hm hon => hany ⟨m, hm, hon⟩

theorem exists_leftTerm_iff {o : Operand} : (∃ t, leftTerm onPath o = .ok t) ↔ HasCandidate o := by
  cases o with
  | integer n => exact ⟨fun _ => trivial, fun _ => ⟨_, rfl⟩⟩
  | cells candidates =>
    simp only [leftTerm_cells_eq_ok_iff, HasCandidate]
    cases candidates with
    | nil => simp
    | cons n rest => cases (n :: rest).find? onPath.contains <;> simp

theorem exists_rightTerm_iff {o : Operand} : (∃ t, rightTerm o = .ok t) ↔ HasCandidate o := by
  unfold rightTerm HasCandidate
  split <;> simp

theorem equation_combined {v : Variable} {l r : Operand} {op : Operator} (hv : v.value = some (.combined l op r))
    {f : Option Formula} : equation onPath v = .ok f ↔ ∃ a b, leftTerm onPath l = .ok a ∧ rightTerm r = .ok b ∧
      f = some ⟨.equal, .unknown v.number, operation op a b⟩ := by
  unfold equation
  rw [hv]
  simp only [Outcome.bind_eq_ok, Outcome.pure_eq_ok]
  constructor
  · rintro ⟨a, ha, b, hb, rfl⟩
    exact ⟨a, b, ha, hb, rfl⟩
  · rintro ⟨a, b, ha, hb, rfl⟩
    exact ⟨a, ha, b, hb, rfl⟩

/-- A variable has an equation, or none, unless an operand has no candidate. -/
theorem exists_equation_iff {v : Variable} : (∃ f, equation onPath v = .ok f) ↔
    ∀ l op r, v.value = some (.combined l op r) → HasCandidate l ∧ HasCandidate r := by
  cases hvalue : v.value with
  | none => simp [equation, hvalue]
  | some value =>
    cases value with
    | combined l op r =>
      constructor
      · rintro ⟨f, hf⟩ _ _ _ ⟨⟩
        obtain ⟨a, b, ha, hb, -⟩ := (equation_combined hvalue).1 hf
        exact ⟨exists_leftTerm_iff.1 ⟨a, ha⟩, exists_rightTerm_iff.1 ⟨b, hb⟩⟩
      · intro h
        obtain ⟨hl, hr⟩ := h l op r rfl
        obtain ⟨a, ha⟩ := exists_leftTerm_iff.2 hl
        obtain ⟨b, hb⟩ := exists_rightTerm_iff.2 hr
        exact ⟨_, (equation_combined hvalue).2 ⟨a, b, ha, hb, rfl⟩⟩
    | _ => simp [equation, hvalue]

theorem mem_equations_of_mem {vs : List Variable} {p : Problem} (h : equations vs = .ok p) {v : Variable} (hv : v ∈ vs) :
    ∃ f, equation (vs.map (·.number)) v = .ok f ∧ ∀ x, f = some x → x ∈ p := by
  obtain ⟨found, hfound, hp⟩ := Outcome.bind_eq_ok.1 h
  obtain rfl := Outcome.pure_eq_ok.1 hp
  obtain ⟨f, hmem, hf⟩ := Outcome.exists_mem_of_mapM hfound hv
  exact ⟨f, hf, fun x hx => List.mem_filterMap.2 ⟨f, hmem, hx⟩⟩

/-- All variables of a path have their equations unless an operand has no candidate. In the equation of a sum or a
product the left operand is resolved along the path. The right operand is its first candidate, which is right exactly
when that is on the path or no candidate is. -/
theorem right_operand_resolved_iff (vs : List Variable) :
    ((∃ p, equations vs = .ok p) ↔
      ∀ v ∈ vs, ∀ l op r, v.value = some (.combined l op r) → HasCandidate l ∧ HasCandidate r) ∧
    ∀ p, equations vs = .ok p → ∀ v ∈ vs, ∀ l op r, v.value = some (.combined l op r) →
      ∃ a b, equation (vs.map (·.number)) v = .ok (some ⟨.equal, .unknown v.number, operation op a b⟩) ∧
        ⟨.equal, .unknown v.number, operation op a b⟩ ∈ p ∧ Resolves (vs.map (·.number)) l a ∧ IsFirst r b ∧
        (Resolves (vs.map (·.number)) r b ↔ FirstServes (vs.map (·.number)) r) := by
  refine ⟨?_, fun p hp v hv l op r hvalue => ?_⟩
  · exact Outcome.exists_bind_pure_iff.trans
      (Outcome.exists_mapM_iff.trans (forall₂_congr fun v _ => exists_equation_iff))
  · obtain ⟨f, hf, hmem⟩ := mem_equations_of_mem hp hv
    obtain ⟨a, b, ha, hb, rfl⟩ := (equation_combined hvalue).1 hf
    have hfirst := isFirst_of_rightTerm hb
    exact ⟨a, b, hf, hmem _ rfl, resolves_of_leftTerm ha, hfirst, hfirst.resolves_iff⟩

open Decompiler

def mergingFunction : Function := { alternatives with
  name := "merging"
  stop := 10
  sites := alternatives.sites.take 5 ++ [.pushing 9 .fp .ap .add (-3) (-1) none, .returning 10] }

def mergingScene : Scene := ⟨[mergingFunction], ⟨.plain, Field.defaultPrime, []⟩⟩

def secondAlternative (d : Decompiler) : List Variable :=
  let s : Subject := ⟨d.memory, 0, d.blocksOf 0⟩
  s.arguments ++ s.defined [1, 3, 4]

/-- On the path through the second alternative the sum is taken with the variable of the first one. -/
theorem sum_taken_off_path : ∃ text d v p, program mergingScene true true (start [none]) = .ok text d ∧
    v ∈ secondAlternative d ∧ v.value = some (.combined (.cells [0]) .addition (.cells [4, 5])) ∧
    (secondAlternative d).map (·.number) = [0, 3, 5, 6] ∧ equations (secondAlternative d) = .ok p ∧
    ⟨.equal, .unknown v.number, .sum (.unknown 0) (.unknown 4)⟩ ∈ p := by
  have hseen : (after? (program mergingScene true true) (start [none])).map (fun d =>
      (secondAlternative d).map fun v => (v.number, v.value)) =
      some [(0, none), (3, some (.copy [0])), (5, some (.integer 2)),
        (6, some (.combined (.cells [0]) .addition (.cells [4, 5])))] := by
    decide +kernel
  obtain ⟨d, hd, hseen⟩ := Option.map_eq_some_iff.1 hseen
  obtain ⟨text, hrun⟩ := after?_eq_some_iff.1 hd
  have hnumbers : (secondAlternative d).map (·.number) = [0, 3, 5, 6] := by
    have := congrArg (List.map Prod.fst) hseen
    rwa [List.map_map] at this
  have hsum : (6, some (.combined (.cells [0]) .addition (.cells [4, 5]))) ∈
      (secondAlternative d).map fun v => (v.number, v.value) := by simp [hseen]
  obtain ⟨v, hv, hpair⟩ := List.mem_map.1 hsum
  obtain ⟨-, hvalue⟩ := Prod.mk.inj hpair
  obtain ⟨hexists, hequation⟩ := right_operand_resolved_iff (secondAlternative d)
  obtain ⟨p, hp⟩ := hexists.2 fun w hw l op r hcombined => by
    have hmem := List.mem_map_of_mem (f := fun v : Variable => (v.number, v.value)) hw
    rw [hseen] at hmem
    simp only [hcombined, List.mem_cons, Prod.mk.injEq, Option.some.injEq, Value.combined.injEq, List.not_mem_nil,
      reduceCtorEq, and_false, false_or, or_false] at hmem
    obtain ⟨-, rfl, -, rfl⟩ := hmem
    exact ⟨by simp [HasCandidate], by simp [HasCandidate]⟩
  obtain ⟨a, b, -, hmem, hleft, hright, -⟩ := hequation p hp v hv _ _ _ hvalue
  refine ⟨text, d, v, p, hrun, hv, hvalue, hnumbers, hp, ?_⟩
  obtain rfl : a = .unknown 0 := by
    cases hleft with
    | onPath candidate _ => rw [List.mem_singleton.1 candidate]
    | offPath candidate _ => rw [List.mem_singleton.1 candidate]
  cases hright
  exact hmem

end Cairoscope.Symbolic
