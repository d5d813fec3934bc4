import Cairoscope.Proofs.Assertions
import Cairoscope.Proofs.Meaning
import Cairoscope.Symbolic.Execution

/-! What becomes of the assertions of a program in the problems of a symbolic execution: an immediate that is noted
has to be near zero, and then it is asked for on every path. -/

namespace Cairoscope

namespace Field

theorem small_eq_ok_iff {val prime n : Int} :
    small val prime = .ok n ↔ centered val prime = .ok n ∧ n.natAbs < decimalBound := by
  unfold small numeral
  simp only [Outcome.bind_eq_ok]
  constructor
  · rintro ⟨k, ⟨c, hc, h⟩, hsmall⟩
    split_ifs at h with hnear <;> obtain rfl := Outcome.pure_eq_ok.1 h
    · obtain rfl := Except.ok.inj hsmall
      exact ⟨hc, hnear⟩
    · cases hsmall
    · cases hsmall
  · rintro ⟨hc, hnear⟩
    exact ⟨.decimal n, ⟨n, hc, by rw [if_pos hnear]; rfl⟩, rfl⟩

theorem small_of_numeral {val prime : Int} {n : Numeral} (h : numeral val prime = .ok n) :
    small val prime = n.small := by
  unfold small
  rw [h]
  rfl

end Field

namespace Symbolic

open Decompiler

theorem exists_assertionFormulas_iff {as : List Assertion} :
    (∃ formulas, assertionFormulas as = .ok formulas) ↔ ∀ a ∈ as, ∃ n, a.value.small = .ok n := by
  unfold assertionFormulas
  rw [Outcome.exists_mapM_iff]
  exact forall₂_congr fun a _ => Outcome.exists_bind_pure_iff

theorem mem_of_assertionFormulas {as : List Assertion} {formulas : Problem}
    (h : assertionFormulas as = .ok formulas) {a : Assertion} (ha : a ∈ as) :
    ∃ n, a.value.small = .ok n ∧ ⟨.equal, .unknown a.number, .integer n⟩ ∈ formulas := by
  obtain ⟨formula, hmem, hone⟩ := Outcome.exists_mem_of_mapM h ha
  obtain ⟨n, hn, hformula⟩ := Outcome.bind_eq_ok.1 hone
  obtain rfl := Outcome.pure_eq_ok.1 hformula
  exact ⟨n, hn, hmem⟩

theorem assertionFormulas_of_requestProblem {s : Subject} {r : Request} {as : List Assertion}
    {path : FlowGraph.Path} {p : Problem} (h : requestProblem s r as path = .ok (some p)) :
    ∃ formulas, assertionFormulas as = .ok formulas ∧ formulas ⊆ p := by
  unfold requestProblem at h
  dsimp only at h
  split_ifs at h
  · obtain ⟨values, -, h⟩ := Outcome.bind_eq_ok.1 h
    obtain ⟨asserted, hasserted, h⟩ := Outcome.bind_eq_ok.1 h
    obtain ⟨fixed, -, h⟩ := Outcome.bind_eq_ok.1 h
    obtain rfl := Option.some.inj (Outcome.pure_eq_ok.1 h)
    exact ⟨asserted, hasserted, fun f hf => by simp [hf]⟩
  · cases h

/-- The immediate that an equality of the log asserts of its cell, with the cell. -/
def Asserts (μ : Moment) (dst : Nat) (imm : Int) : Prop :=
  μ.asserted? = some dst ∧ μ.site.instruction.equalsImmediate = true ∧ imm = μ.site.instruction.imm.getD 0

theorem entry?_eq_some_iff {prime : Int} {μ : Moment} {a : Assertion} :
    μ.entry? prime = some a ↔ ∃ imm, Asserts μ a.number imm ∧ Field.numeral imm prime = .ok a.value := by
  unfold Moment.entry? Asserts
  dsimp only
  constructor
  · intro h
    split at h
    · rename_i dst n hasserted hn
      split_ifs at h with himm
      obtain rfl := Option.some.inj h
      exact ⟨_, ⟨hasserted, himm, rfl⟩, hn⟩
    · cases h
  · rintro ⟨_, ⟨hasserted, himm, rfl⟩, hn⟩
    rw [hasserted, hn]
    exact if_pos himm

/-- The assertions of a first pass, read off the log of its statements. Of the equalities whose cell already has
a value those with an immediate are noted, with the cell and the immediate, and no others. They can be handed to a
problem exactly when each immediate is near zero modulo the prime. Then every problem of a path equates each cell
with its immediate, modulo the prime. -/
theorem asserted_immediates_reach_problems {sc : Scene} {graphs : List (Option FlowGraph)} {imported : Bool}
    {text : String} {d : Decompiler} (hgraphs : sc.functions.length ≤ graphs.length)
    (hrun : program sc true imported (start graphs) = .ok text d) :
    (firstPassLog sc imported graphs).map (·.site) = (walked imported sc.functions).flatMap (·.sites) ∧
    d.assertions = (firstPassLog sc imported graphs).filterMap (Moment.entry? sc.printer.prime) ∧
    (∀ μ ∈ firstPassLog sc imported graphs, ∀ dst, μ.asserted? = some dst →
      (μ.site.instruction.equalsImmediate = true →
        ∃ n, Field.numeral (μ.site.instruction.imm.getD 0) sc.printer.prime = .ok n ∧
          μ.entry? sc.printer.prime = some ⟨dst, n⟩) ∧
      (μ.site.instruction.equalsImmediate = false → μ.entry? sc.printer.prime = none)) ∧
    ((∃ formulas, assertionFormulas d.assertions = .ok formulas) ↔
      ∀ μ ∈ firstPassLog sc imported graphs, ∀ dst imm, Asserts μ dst imm →
        ∃ n, Field.centered imm sc.printer.prime = .ok n ∧ n.natAbs < Field.decimalBound) ∧
    ∀ s r path p, requestProblem s r d.assertions path = .ok (some p) →
      ∀ μ ∈ firstPassLog sc imported graphs, ∀ dst imm, Asserts μ dst imm →
        ∃ n, n ≡ imm [ZMOD sc.printer.prime] ∧ ⟨.equal, .unknown dst, .integer n⟩ ∈ p := by
  obtain ⟨hlogged, hsites⟩ := logged_program hgraphs hrun
  have hassertions : d.assertions = (firstPassLog sc imported graphs).filterMap (Moment.entry? sc.printer.prime) :=
    hlogged.assertions.trans (List.nil_append _)
  have hnoted : ∀ μ ∈ firstPassLog sc imported graphs, ∀ dst imm, Asserts μ dst imm →
      ∃ n, Field.numeral imm sc.printer.prime = .ok n ∧ μ.entry? sc.printer.prime = some ⟨dst, n⟩ := by
    rintro μ hμ dst imm ⟨hasserted, himm, rfl⟩
    obtain ⟨n, hn⟩ := hlogged.legible μ hμ (Moment.opcode_of_asserted? hasserted) himm
    exact ⟨n, hn, entry?_eq_some_iff.2 ⟨_, ⟨hasserted, himm, rfl⟩, hn⟩⟩
  have hmem : ∀ {a : Assertion}, a ∈ d.assertions ↔
      ∃ μ ∈ firstPassLog sc imported graphs, μ.entry? sc.printer.prime = some a := by
    rw [hassertions]
    exact List.mem_filterMap
  refine ⟨hsites, hassertions, fun μ hμ dst hdst => ⟨fun himm => hnoted μ hμ dst _ ⟨hdst, himm, rfl⟩,
    fun himm => Moment.entry?_eq_none (.inr himm)⟩, ?_, fun s r path p hp μ hμ dst imm hasserts => ?_⟩
  · rw [exists_assertionFormulas_iff]
    constructor
    · intro hall μ hμ dst imm hasserts
      obtain ⟨n, hn, hentry⟩ := hnoted μ hμ dst imm hasserts
      obtain ⟨k, hk⟩ := hall _ (hmem.2 ⟨μ, hμ, hentry⟩)
      exact ⟨k, Field.small_eq_ok_iff.1 ((Field.small_of_numeral hn).trans hk)⟩
    · intro hall a ha
      obtain ⟨μ, hμ, hentry⟩ := hmem.1 ha
      obtain ⟨imm, hasserts, hn⟩ := entry?_eq_some_iff.1 hentry
      obtain ⟨k, hk⟩ := hall μ hμ _ imm hasserts
      exact ⟨k, (Field.small_of_numeral hn).symm.trans (Field.small_eq_ok_iff.2 hk)⟩
  · obtain ⟨formulas, hformulas, hsubset⟩ := assertionFormulas_of_requestProblem hp
    obtain ⟨n, hn, hentry⟩ := hnoted μ hμ dst imm hasserts
    obtain ⟨k, hk, hformula⟩ := mem_of_assertionFormulas hformulas (hmem.2 ⟨μ, hμ, hentry⟩)
    exact ⟨k, Field.modEq_of_small ((Field.small_of_numeral hn).trans hk), hsubset hformula⟩

/-- A function of `x` that asserts of a cell with the value 5 that it equals `x`, and a large number. -/
def assertingFunction : Function where
  name := "main"
  id := 0
  start := 0
  stop := 5
  sites := [.pushing 0 .fp .imm .op1 (-1) 1 (some 5),
    { Site.setting 2 .ap (-1) 0 with instruction :=
      ⟨-1, -1, -3, 0, none, .ap, .fp, .fp, .op1, .regular, .regular, .regular, .assertEq⟩ },
    .setting 3 .ap (-1) (2 ^ 41), .returning 5]
  implicit := []
  explicit := [(.number 0, ⟨"x", .str "felt"⟩)]
  returns := []
  decorators := .arr []
  isImport := false
  entryPoint := true

def assertingScene : Scene := ⟨[assertingFunction], ⟨.plain, Field.defaultPrime, []⟩⟩

theorem asserted_copy_not_noted : ∃ text d, program assertingScene true true (start [none]) = .ok text d ∧
    (firstPassLog assertingScene true [none]).map Moment.asserted? = [none, some 3, some 3, none] ∧
    d.assertions = [⟨3, .hex (2 ^ 41)⟩] ∧
    ∀ s r path p, requestProblem s r d.assertions path ≠ .ok (some p) := by
  have hends : (after? (program assertingScene true true) (start [none])).isSome := by decide +kernel
  obtain ⟨d, hd⟩ := Option.isSome_iff_exists.1 hends
  obtain ⟨text, hrun⟩ := after?_eq_some_iff.1 hd
  obtain ⟨-, hassertions, -, -, -⟩ := asserted_immediates_reach_problems (by decide) hrun
  have hnoted : d.assertions = [⟨3, .hex (2 ^ 41)⟩] := hassertions.trans (by decide +kernel)
  refine ⟨text, d, hrun, by decide +kernel, hnoted, fun s r path p hp => ?_⟩
  obtain ⟨formulas, hok, -⟩ := assertionFormulas_of_requestProblem hp
  obtain ⟨n, hn⟩ := exists_assertionFormulas_iff.1 ⟨formulas, hok⟩ ⟨3, .hex (2 ^ 41)⟩ (by simp [hnoted])
  cases hn

end Symbolic

end Cairoscope
