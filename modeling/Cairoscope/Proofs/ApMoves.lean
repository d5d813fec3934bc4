import Cairoscope.Proofs.AssertedProblems
import Cairoscope.Proofs.ElementText
import Cairoscope.Proofs.Passes

/-! How far a statement moves `ap`. An equality moves it as the instruction says, as long as that is not
down; an instruction that asserts nothing never moves it, so a reservation of stack or a jump that pushes
leaves all later cells out of place. -/

namespace Cairoscope

/-- How far the machine moves `ap`: by the number nearest to zero that the immediate stands for, where the
immediate is what is added. -/
def Instruction.Advances (prime : Int) (i : Instruction) (n : Int) : Prop :=
  match i.apUpdate with
  | .regular => n = 0
  | .add1 => n = 1
  | .add2 => n = 2
  | .add => ∃ imm, i.imm = some imm ∧ Field.IsRepresentative prime imm n

namespace Memory

theorem totalRise_append (ops ops' : List Operation) :
    totalRise (ops ++ ops') = totalRise ops + totalRise ops' := by
  induction ops with
  | nil => exact (Int.zero_add _).symm
  | cons op ops ih => rw [List.cons_append, totalRise, totalRise, ih, Int.add_assoc]

end Memory

theorem Field.IsRepresentative.prime_pos {prime m c : Int} (h : IsRepresentative prime m c) :
    0 < prime := by
  obtain ⟨hlower, hupper⟩ := h.near
  omega

namespace Decompiler

theorem apStep_eq {sc : Scene} {i : Instruction} {k n : Int} (hk : apStep sc i = .ok k)
    (hn : i.Advances sc.printer.prime n) : k = n := by
  unfold apStep at hk
  unfold Instruction.Advances at hn
  cases hupdate : i.apUpdate with
  | regular =>
    rw [hupdate] at hk hn
    exact (Except.ok.inj hk).symm.trans hn.symm
  | add1 =>
    rw [hupdate] at hk hn
    exact (Except.ok.inj hk).symm.trans hn.symm
  | add2 =>
    rw [hupdate] at hk hn
    exact (Except.ok.inj hk).symm.trans hn.symm
  | add =>
    rw [hupdate] at hk hn
    obtain ⟨imm, himm, hrepresents⟩ := hn
    simp only [himm] at hk
    obtain ⟨hcentered, -⟩ := Field.small_eq_ok_iff.1 hk
    obtain ⟨c, hc, hc'⟩ := Field.exists_representative hrepresents.prime_pos imm
    obtain rfl := Except.ok.inj (hcentered.symm.trans hc)
    exact hc'.eq hrepresents

theorem totalRise_equalityOperations (i : Instruction) :
    Memory.totalRise (equalityOperations i) = 0 := by
  unfold equalityOperations
  dsimp only
  split_ifs <;> split <;> rfl

section Statement

variable {sc : Scene} {place : Place} {returns : Nat} {s : Site} {last : Bool} {d d' : Decompiler}
  {text : String}

theorem fp_of_statement (h : statement sc place returns s last d = .ok text d') :
    d'.memory.fp = d.memory.fp :=
  (performs_statement returns s last d text d' h).memory.fp.trans
    (Memory.fp_performAll (inFrame_statementOperations sc returns s) d.memory)

theorem ap_of_statement (h : statement sc place returns s last d = .ok text d') :
    d'.memory.ap = d.memory.ap + Memory.totalRise (statementOperations sc returns s) :=
  (performs_statement returns s last d text d' h).memory.ap.trans (Memory.ap_performAll _ _)

theorem totalRise_of_assertEq (hopcode : s.instruction.opcode = .assertEq) :
    Memory.totalRise (statementOperations sc returns s) = apRise sc s.instruction := by
  unfold statementOperations
  simp only [hopcode]
  rw [Memory.totalRise_append, totalRise_equalityOperations, Int.zero_add]
  exact Int.add_zero _

theorem totalRise_of_nop (hopcode : s.instruction.opcode = .nop) :
    Memory.totalRise (statementOperations sc returns s) = 0 := by
  unfold statementOperations
  simp only [hopcode]
  split_ifs <;> rfl

theorem apStep_of_statement (hopcode : s.instruction.opcode = .assertEq)
    (h : statement sc place returns s last d = .ok text d') :
    ∃ k, apStep sc s.instruction = .ok k := by
  obtain ⟨t, out, hbody⟩ := body_of_statement h
  unfold body at hbody
  simp only [hopcode] at hbody
  obtain ⟨_, _, -, hbody⟩ := Run.bind_eq_ok.1 hbody
  obtain ⟨k, _, hk, -⟩ := Run.bind_eq_ok.1 hbody
  exact ⟨k, (Run.ofOutcome_eq_ok.1 hk).1⟩

/-- An equality that ends well has read how far it moves `ap`. -/
theorem apRise_of_statement (hopcode : s.instruction.opcode = .assertEq)
    (h : statement sc place returns s last d = .ok text d') {n : Int}
    (hn : s.instruction.Advances sc.printer.prime n) : apRise sc s.instruction = max 0 n := by
  obtain ⟨k, hk⟩ := apStep_of_statement hopcode h
  unfold apRise
  rw [hk, apStep_eq hk hn]

/-- A statement that is no call and no return leaves `fp` alone. It moves `ap` as far as the machine does if
and only if it is an equality that does not move it down, or the machine leaves `ap` alone too. -/
theorem ap_tracked_iff
    (hopcode : s.instruction.opcode = .assertEq ∨ s.instruction.opcode = .nop)
    (h : statement sc place returns s last d = .ok text d') :
    d'.memory.fp = d.memory.fp ∧
      (s.instruction.opcode = .nop → d'.memory.ap = d.memory.ap) ∧
      ∀ n, s.instruction.Advances sc.printer.prime n →
        (s.instruction.opcode = .assertEq → d'.memory.ap = d.memory.ap + max 0 n) ∧
        (d'.memory.ap = d.memory.ap + n ↔
          if s.instruction.opcode = .assertEq then 0 ≤ n else n = 0) := by
  have hap := ap_of_statement h
  refine ⟨fp_of_statement h, fun hnop => ?_, fun n hn => ?_⟩
  · rw [hap, totalRise_of_nop hnop, Int.add_zero]
  rcases hopcode with hassert | hnop
  · rw [totalRise_of_assertEq hassert, apRise_of_statement hassert h hn] at hap
    refine ⟨fun _ => hap, ?_⟩
    rw [hap, if_pos hassert]
    omega
  · rw [totalRise_of_nop hnop, Int.add_zero] at hap
    refine ⟨fun hassert => absurd (hassert.symm.trans hnop) (by decide), ?_⟩
    rw [hap, if_neg (by rw [hnop]; decide)]
    omega

end Statement

/-- `ap += imm`, after `[ap] = imm` if it is an equality. -/
def addingToAp (opcode : Opcode) (imm : Int) : Site where
  offset := 0
  instruction := ⟨0, -1, 1, 0, some imm, .ap, .fp, .imm, .op1, .regular, .add, .regular, opcode⟩
  callTarget := 0
  callee := none
  reference := none
  hint := none

def bareScene : Scene := ⟨[], ⟨.plain, Field.defaultPrime, []⟩⟩

/-- A reservation of two cells leaves `ap` where it is, and so does an equality that moves it down by one;
one that moves it up by two is followed. -/
theorem ap_untracked_reservation :
    (∃ text d, statement bareScene ⟨0, 0⟩ 0 (addingToAp .nop 2) false (start []) = .ok text d ∧
      d.memory.ap ≠ (start []).memory.ap + 2) ∧
    (∃ text d, statement bareScene ⟨0, 0⟩ 0 (addingToAp .assertEq (Field.defaultPrime - 1)) false
        (start []) = .ok text d ∧ d.memory.ap ≠ (start []).memory.ap + -1) ∧
    (∃ text d, statement bareScene ⟨0, 0⟩ 0 (addingToAp .assertEq 2) false (start []) = .ok text d ∧
      d.memory.ap = (start []).memory.ap + 2) := by
  have hrun : ∀ s ∈ [addingToAp .nop 2, addingToAp .assertEq (Field.defaultPrime - 1),
      addingToAp .assertEq 2], ∃ text d, statement bareScene ⟨0, 0⟩ 0 s false (start []) = .ok text d := by
    have hends : ∀ s ∈ [addingToAp .nop 2, addingToAp .assertEq (Field.defaultPrime - 1),
        addingToAp .assertEq 2],
        (after? (statement bareScene ⟨0, 0⟩ 0 s false) (start [])).isSome := by decide +kernel
    intro s hs
    obtain ⟨d, hd⟩ := Option.isSome_iff_exists.1 (hends s hs)
    obtain ⟨text, hrun⟩ := after?_eq_some_iff.1 hd
    exact ⟨text, d, hrun⟩
  refine ⟨?_, ?_, ?_⟩
  · obtain ⟨text, d, h⟩ := hrun (addingToAp .nop 2) (by simp)
    obtain ⟨-, -, htracked⟩ := ap_tracked_iff (.inr rfl) h
    refine ⟨text, d, h, fun hap => ?_⟩
    have hzero := (htracked 2 ⟨2, rfl, Int.ModEq.refl 2, by decide⟩).2.1 hap
    exact absurd hzero (by decide)
  · obtain ⟨text, d, h⟩ := hrun (addingToAp .assertEq (Field.defaultPrime - 1)) (by simp)
    obtain ⟨-, -, htracked⟩ := ap_tracked_iff (.inl rfl) h
    refine ⟨text, d, h, fun hap => ?_⟩
    have hup := (htracked (-1) ⟨_, rfl, by decide, by decide⟩).2.1 hap
    exact absurd hup (by decide)
  · obtain ⟨text, d, h⟩ := hrun (addingToAp .assertEq 2) (by simp)
    obtain ⟨-, -, htracked⟩ := ap_tracked_iff (.inl rfl) h
    exact ⟨text, d, h, (htracked 2 ⟨2, rfl, Int.ModEq.refl 2, by decide⟩).2.2 (by decide)⟩

end Decompiler

end Cairoscope
