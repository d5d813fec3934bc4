import Cairoscope.Proofs.Graphs
import Cairoscope.Proofs.Meaning
import Cairoscope.Proofs.Paths
import Cairoscope.Symbolic.Execution

/-! The outcomes of the branches along a path. A block asks for zero when the path leaves its first
target out, and for another value when the path leaves its second target out. The first target of a
conditional jump is the instruction after it, where the tested variable is zero, so a path that goes
on there asks for a value other than zero. -/

namespace Cairoscope.Symbolic

def isZero (c : Nat) : Formula := ⟨.equal, .unknown c, .integer 0⟩

def isNonzero (c : Nat) : Formula := ⟨.distinct, .unknown c, .integer 0⟩

def Arrives (onPath : List Block) (t : Int) : Prop := ∃ b ∈ onPath, (b.start : Int) = t

instance (onPath : List Block) (t : Int) : Decidable (Arrives onPath t) :=
  inferInstanceAs (Decidable (∃ b ∈ onPath, (b.start : Int) = t))

structure Tests (b : Block) (c : Nat) (first second : Int) : Prop where
  targets : b.targets = [first, second]
  condition : b.condition = some c

def MissesFirst (onPath : List Block) (c : Nat) : Prop :=
  ∃ b ∈ onPath, ∃ first second, Tests b c first second ∧ ¬ Arrives onPath first

def MissesSecond (onPath : List Block) (c : Nat) : Prop :=
  ∃ b ∈ onPath, ∃ first second, Tests b c first second ∧ Arrives onPath first ∧
    ¬ Arrives onPath second

variable {onPath : List Block}

/-- A path that comes to no offset twice arrives once or not at all. -/
theorem countP_start_eq_one (hnodup : (onPath.map fun b => (b.start : Int)).Nodup) (t : Int) :
    onPath.countP (fun b => (b.start : Int) == t) = 1 ↔ Arrives onPath t := by
  have hcount : onPath.countP (fun b => (b.start : Int) == t) =
      (onPath.map fun b => (b.start : Int)).count t := by
    rw [List.count, List.countP_map]
    rfl
  have hmem : Arrives onPath t ↔ t ∈ onPath.map fun b => (b.start : Int) := by
    unfold Arrives
    rw [List.mem_map]
  rw [hcount, hmem]
  constructor
  · intro hone
    exact List.count_pos_iff.1 (by omega)
  · exact List.count_eq_one_of_mem hnodup

theorem branchFormula_eq_some_iff (hnodup : (onPath.map fun b => (b.start : Int)).Nodup) {b : Block}
    {x : Formula} : branchFormula onPath b = some x ↔ ∃ c first second, Tests b c first second ∧
      ((x = isZero c ∧ ¬ Arrives onPath first) ∨
        (x = isNonzero c ∧ Arrives onPath first ∧ ¬ Arrives onPath second)) := by
  have harrives := countP_start_eq_one hnodup
  constructor
  · intro h
    unfold branchFormula at h
    split at h
    · rename_i first second c htargets hcondition
      refine ⟨c, first, second, ⟨htargets, hcondition⟩, ?_⟩
      simp only [harrives, ne_eq] at h
      split_ifs at h with hfirst hsecond
      · exact Or.inr ⟨(Option.some.inj h).symm, hfirst, hsecond⟩
      · exact Or.inl ⟨(Option.some.inj h).symm, hfirst⟩
    · cases h
  · rintro ⟨c, first, second, ⟨htargets, hcondition⟩, hcases⟩
    unfold branchFormula
    simp only [htargets, hcondition, harrives, ne_eq]
    rcases hcases with ⟨rfl, hfirst⟩ | ⟨rfl, hfirst, hsecond⟩
    · rw [if_pos hfirst]
      rfl
    · rw [if_neg (not_not.2 hfirst), if_pos hsecond]
      rfl

theorem isZero_mem_branchFormulas (hnodup : (onPath.map fun b => (b.start : Int)).Nodup) (c : Nat) :
    isZero c ∈ branchFormulas onPath ↔ MissesFirst onPath c := by
  unfold branchFormulas MissesFirst
  rw [List.mem_filterMap]
  simp only [branchFormula_eq_some_iff hnodup]
  constructor
  · rintro ⟨b, hb, c', first, second, htests, ⟨heq, hfirst⟩ | ⟨heq, -⟩⟩
    · obtain rfl : c = c' := by simpa [isZero] using heq
      exact ⟨b, hb, first, second, htests, hfirst⟩
    · simp [isZero, isNonzero] at heq
  · rintro ⟨b, hb, first, second, htests, hfirst⟩
    exact ⟨b, hb, c, first, second, htests, Or.inl ⟨rfl, hfirst⟩⟩

theorem isNonzero_mem_branchFormulas (hnodup : (onPath.map fun b => (b.start : Int)).Nodup)
    (c : Nat) : isNonzero c ∈ branchFormulas onPath ↔ MissesSecond onPath c := by
  unfold branchFormulas MissesSecond
  rw [List.mem_filterMap]
  simp only [branchFormula_eq_some_iff hnodup]
  constructor
  · rintro ⟨b, hb, c', first, second, htests, ⟨heq, -⟩ | ⟨heq, hfirst, hsecond⟩⟩
    · simp [isZero, isNonzero] at heq
    · obtain rfl : c = c' := by simpa [isNonzero] using heq
      exact ⟨b, hb, first, second, htests, hfirst, hsecond⟩
  · rintro ⟨b, hb, first, second, htests, hfirst, hsecond⟩
    exact ⟨b, hb, c, first, second, htests, Or.inr ⟨rfl, hfirst, hsecond⟩⟩

/-- No block of the path tests the variable with other targets than this one. -/
def OnlyTest (onPath : List Block) (b : Block) (c : Nat) : Prop :=
  ∀ b' ∈ onPath, b'.condition = some c → b'.targets = b.targets

section OnlyTest

variable {b : Block} {c : Nat} {before : List Int} {first second : Int}

theorem OnlyTest.targets_eq (honly : OnlyTest onPath b c) {b' : Block} {t u : Int} (hb' : b' ∈ onPath)
    (htests : Tests b' c t u) (htargets : b.targets = before ++ [first, second]) :
    before = [] ∧ first = t ∧ second = u := by
  have heq : before ++ [first, second] = [] ++ [t, u] := by
    rw [← htargets, ← honly b' hb' htests.condition, htests.targets]
    rfl
  obtain ⟨hbefore, hpair⟩ := List.append_inj' heq rfl
  exact ⟨hbefore, by simpa using hpair⟩

theorem missesFirst_iff_of_only (hb : b ∈ onPath) (hc : b.condition = some c)
    (htargets : b.targets = before ++ [first, second])
    (honly : OnlyTest onPath b c) :
    MissesFirst onPath c ↔ before = [] ∧ ¬ Arrives onPath first := by
  constructor
  · rintro ⟨b', hb', t, u, htests, hmiss⟩
    obtain ⟨rfl, rfl, -⟩ := honly.targets_eq hb' htests htargets
    exact ⟨rfl, hmiss⟩
  · rintro ⟨rfl, hmiss⟩
    exact ⟨b, hb, first, second, ⟨htargets, hc⟩, hmiss⟩

theorem missesSecond_iff_of_only (hb : b ∈ onPath) (hc : b.condition = some c)
    (htargets : b.targets = before ++ [first, second])
    (honly : OnlyTest onPath b c) :
    MissesSecond onPath c ↔ before = [] ∧ Arrives onPath first ∧ ¬ Arrives onPath second := by
  constructor
  · rintro ⟨b', hb', t, u, htests, hmiss⟩
    obtain ⟨rfl, rfl, rfl⟩ := honly.targets_eq hb' htests htargets
    exact ⟨rfl, hmiss⟩
  · rintro ⟨rfl, hmiss⟩
    exact ⟨b, hb, first, second, ⟨htargets, hc⟩, hmiss⟩

end OnlyTest

open Decompiler FlowGraph

/-- What a path asks for at a conditional jump. It asks for zero after the jump, and for another value
at the target of the jump, only where another test of the same variable asks for it. -/
theorem branch_outcomes_of_jnz {sc : Scene} {d₀ d : Decompiler} {text : String}
    (hrun : program sc true true d₀ = .ok text d) {index : Nat} {f : Function}
    (hf : sc.functions[index]? = some f) {ps : List Path} {path : Path}
    (hpaths : paths (d.blocksOf index) = .ok ps) (hpath : path ∈ ps)
    (honPath : blocksOn (d.blocksOf index) path = onPath) {i j : Nat} {b s : Block}
    (hstep : [i, j] <:+: path) (hb : (d.blocksOf index)[i]? = some b)
    (hs : (d.blocksOf index)[j]? = some s) {last : Site} {imm : Int} {c : Nat}
    (hlast : b.sites.getLast? = some last) (hnop : last.instruction.opcode = .nop)
    (hjnz : last.instruction.pcUpdate = .jnz) (himm : last.instruction.imm = some imm)
    (hc : b.condition = some c) :
    ∃ before, b.targets = before ++ [(last.offset : Int) + 2, last.offset + imm] ∧
      ((s.start : Int) = last.offset + 2 →
        ((isZero c ∈ branchFormulas onPath ∧ isNonzero c ∉ branchFormulas onPath) ↔
          MissesFirst onPath c ∧ ¬ MissesSecond onPath c) ∧
        (OnlyTest onPath b c → isZero c ∉ branchFormulas onPath ∧
          (isNonzero c ∈ branchFormulas onPath ↔
            before = [] ∧ ¬ Arrives onPath (last.offset + imm)))) ∧
      ((s.start : Int) = last.offset + imm →
        ((isNonzero c ∈ branchFormulas onPath ∧ isZero c ∉ branchFormulas onPath) ↔
          MissesSecond onPath c ∧ ¬ MissesFirst onPath c) ∧
        (OnlyTest onPath b c → isNonzero c ∉ branchFormulas onPath ∧
          (isZero c ∈ branchFormulas onPath ↔
            before = [] ∧ ¬ Arrives onPath (last.offset + 2)))) := by
  obtain ⟨next, n, blocks, hcut, hcode⟩ := code_of_program hrun hf (List.mem_of_getElem? hb)
  obtain ⟨b₀, hb₀, hsame⟩ := List.mem_map.1 hcode
  obtain ⟨-, hsites, hedges⟩ : b₀.start = b.start ∧ b₀.sites = b.sites ∧ b₀.edges = b.edges := by
    simpa [Block.code] using hsame
  obtain ⟨before, htargets⟩ := targets_of_cut_of_jnz hcut hb₀ (hsites ▸ hlast) hnop hjnz himm
  rw [Block.targets, hedges] at htargets
  have hnodup := nodup_starts_of_paths hpaths hpath
  rw [honPath] at hnodup
  have hon : ∀ {k : Nat} {b' : Block}, k ∈ [i, j] → (d.blocksOf index)[k]? = some b' →
      b' ∈ onPath :=
    fun hk hb' => honPath ▸ List.mem_filterMap.2 ⟨_, hstep.subset hk, hb'⟩
  have hbon : b ∈ onPath := hon (by simp) hb
  have hson : s ∈ onPath := hon (by simp) hs
  rw [isZero_mem_branchFormulas hnodup, isNonzero_mem_branchFormulas hnodup]
  refine ⟨before, htargets, fun hstart => ⟨Iff.rfl, fun honly => ?_⟩,
    fun hstart => ⟨Iff.rfl, fun honly => ?_⟩⟩
  · have harrives : Arrives onPath (last.offset + 2) := ⟨s, hson, hstart⟩
    rw [missesFirst_iff_of_only hbon hc htargets honly,
      missesSecond_iff_of_only hbon hc htargets honly]
    exact ⟨fun h => h.2 harrives, by simp [harrives]⟩
  · have harrives : Arrives onPath (last.offset + imm) := ⟨s, hson, hstart⟩
    rw [missesFirst_iff_of_only hbon hc htargets honly,
      missesSecond_iff_of_only hbon hc htargets honly]
    exact ⟨fun h => h.2.2 harrives, Iff.rfl⟩

/-- `if x == 0` with both alternatives. -/
def alternatives : Function where
  name := "alternatives"
  id := 0
  start := 0
  stop := 9
  sites := [.pushing 0 .fp .fp .op1 (-1) (-3) none, .jumping 1 .jnz 6,
    .pushing 3 .fp .imm .op1 (-1) 1 (some 1), .jumping 5 .jumpRel 4,
    .pushing 7 .fp .imm .op1 (-1) 1 (some 2), .returning 9]
  implicit := []
  explicit := [(.number 0, ⟨"x", .str "felt"⟩)]
  returns := []
  decorators := .arr []
  isImport := false
  entryPoint := true

def alternativesScene : Scene := ⟨[alternatives], ⟨.plain, Field.defaultPrime, []⟩⟩

structure BlockView where
  start : Nat
  targets : List Int
  condition : Option Nat
  last : Option (Nat × Instruction)
  deriving DecidableEq

def blockView (b : Block) : BlockView :=
  ⟨b.start, b.targets, b.condition, b.sites.getLast?.map fun s => (s.offset, s.instruction)⟩

/-- A first pass over both alternatives: the block that tests `x`, the alternative for zero and the
end are on one path. -/
theorem alternatives_run : ∃ text d b s e,
    program alternativesScene true true (start [none]) = .ok text d ∧
    paths (d.blocksOf 0) = .ok [[0], [1, 2, 4], [1, 3, 4]] ∧
    (d.blocksOf 0)[1]? = some b ∧ (d.blocksOf 0)[2]? = some s ∧ (d.blocksOf 0)[4]? = some e ∧
    blockView b = ⟨0, [3, 7], some 3, some (1, (Site.jumping 1 .jnz 6).instruction)⟩ ∧
    blockView s = ⟨3, [9], none, some (5, (Site.jumping 5 .jumpRel 4).instruction)⟩ ∧
    blockView e = ⟨9, [], none, some (9, (Site.returning 9).instruction)⟩ := by
  obtain ⟨text, d, hrun, hresult⟩ := exists_run (x := program alternativesScene true true) (d := start [none])
    (f := fun d => ((paths (d.blocksOf 0)).toOption, (d.blocksOf 0)[1]?.map blockView,
      (d.blocksOf 0)[2]?.map blockView, (d.blocksOf 0)[4]?.map blockView))
    (b := (some [[0], [1, 2, 4], [1, 3, 4]],
      some ⟨0, [3, 7], some 3, some (1, (Site.jumping 1 .jnz 6).instruction)⟩,
      some ⟨3, [9], none, some (5, (Site.jumping 5 .jumpRel 4).instruction)⟩,
      some ⟨9, [], none, some (9, (Site.returning 9).instruction)⟩)) (by decide +kernel)
  simp only [Prod.mk.injEq, Option.map_eq_some_iff] at hresult
  obtain ⟨hpaths, ⟨b, hb, hbview⟩, ⟨s, hs, hsview⟩, ⟨e, he, heview⟩⟩ := hresult
  refine ⟨text, d, b, s, e, hrun, ?_, hb, hs, he, hbview, hsview, heview⟩
  cases hp : paths (d.blocksOf 0) with
  | error e => simp [hp, Except.toOption] at hpaths
  | ok ps => simpa [hp, Except.toOption] using hpaths

theorem branch_outcomes_alternatives : ∃ text d b s last,
    program alternativesScene true true (start [none]) = .ok text d ∧
    paths (d.blocksOf 0) = .ok [[0], [1, 2, 4], [1, 3, 4]] ∧
    (d.blocksOf 0)[1]? = some b ∧ (d.blocksOf 0)[2]? = some s ∧
    b.sites.getLast? = some last ∧ last.offset = 1 ∧
    last.instruction = (Site.jumping 1 .jnz 6).instruction ∧ b.condition = some 3 ∧
    s.start = 3 ∧ isZero 3 ∉ branchFormulas (blocksOn (d.blocksOf 0) [1, 2, 4]) ∧
    isNonzero 3 ∈ branchFormulas (blocksOn (d.blocksOf 0) [1, 2, 4]) := by
  obtain ⟨text, d, b, s, e, hrun, hpaths, hb, hs, he, hbview, hsview, heview⟩ := alternatives_run
  simp only [blockView, BlockView.mk.injEq, Option.map_eq_some_iff, Prod.mk.injEq] at hbview
  obtain ⟨hbstart, hbtargets, hbcondition, last, hlast, hoffset, hinstruction⟩ := hbview
  obtain ⟨hsstart, -, hscondition, -⟩ := BlockView.mk.inj hsview
  obtain ⟨hestart, -, hecondition, -⟩ := BlockView.mk.inj heview
  have honPath : blocksOn (d.blocksOf 0) [1, 2, 4] = [b, s, e] := by simp [blocksOn, hb, hs, he]
  have honly : OnlyTest [b, s, e] b 3 := by
    intro b' hb' hcondition
    simp only [List.mem_cons, List.not_mem_nil, or_false] at hb'
    rcases hb' with rfl | rfl | rfl
    · rfl
    · simp [hscondition] at hcondition
    · simp [hecondition] at hcondition
  have hmisses : ¬ Arrives [b, s, e] 7 := by simp [Arrives, hbstart, hsstart, hestart]
  have himm : last.instruction.imm = some 6 := by rw [hinstruction]; rfl
  obtain ⟨before, htargets, hzero, -⟩ := branch_outcomes_of_jnz hrun rfl hpaths (by simp) honPath
    ⟨[], [4], rfl⟩ hb hs hlast (by rw [hinstruction]; rfl) (by rw [hinstruction]; rfl) himm
    hbcondition
  rw [hoffset] at htargets hzero
  obtain ⟨-, hasked⟩ := hzero (by rw [hsstart]; rfl)
  obtain ⟨hnot, hnonzero⟩ := hasked honly
  obtain ⟨hbefore, -⟩ := honly.targets_eq (by simp) ⟨hbtargets, hbcondition⟩ htargets
  refine ⟨text, d, b, s, last, hrun, hpaths, hb, hs, hlast, hoffset, hinstruction, hbcondition,
    hsstart, ?_, ?_⟩
  · rw [honPath]
    exact hnot
  · rw [honPath]
    exact hnonzero.2 ⟨hbefore, hmisses⟩

end Cairoscope.Symbolic
