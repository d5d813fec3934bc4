import Cairoscope.Proofs.Decoding
import Mathlib.Data.Int.Bitwise

/-! Which words are instructions. Decoding makes eight checks on the flags and the immediate, and the first that
fails gives the fault. The fields of an instruction that passes them depend on one another. -/

namespace Cairoscope

structure Check where
  met : Bool
  fault : Fault

def Check.failure (c : Check) : Option Fault := if c.met then none else some c.fault

def firstFault (checks : List Check) : Option Fault := checks.findSome? Check.failure

theorem firstFault_eq_none_iff {cs : List Check} : firstFault cs = none ↔ ∀ c ∈ cs, c.met := by
  simp [firstFault, Check.failure]

namespace Outcome

variable {α β : Type}

def fault? : Outcome α → Option Fault
  | .ok _ => none
  | .error e => some e

theorem fault?_eq_none_iff {x : Outcome α} : x.fault? = none ↔ ∃ a, x = .ok a := by
  cases x <;> simp [fault?]

theorem fault?_eq_some_iff {x : Outcome α} {e : Fault} : x.fault? = some e ↔ x = .error e := by
  cases x <;> simp [fault?]

/-- A step that makes the first check, and the steps that make the others. -/
theorem fault?_bind {x : Outcome α} {f : α → Outcome β} {c : Check} {cs : List Check}
    (hx : x.fault? = c.failure) (hf : ∀ a, x = .ok a → (f a).fault? = firstFault cs) :
    (x >>= f).fault? = firstFault (c :: cs) := by
  rw [firstFault, List.findSome?_cons, ← hx]
  cases x with
  | error e => rfl
  | ok a => exact hf a rfl

/-- A refusal under a condition is a check too. -/
theorem fault?_guard {p : Prop} [Decidable p] {rest : Outcome β} {met : Bool} {e : Fault} {cs : List Check}
    (hmet : met ↔ ¬ p) (hrest : rest.fault? = firstFault cs) :
    (if p then (throw e : Outcome PUnit) >>= fun _ => rest else rest).fault? = firstFault (⟨met, e⟩ :: cs) := by
  rw [firstFault, List.findSome?_cons, Check.failure]
  by_cases hp : p
  · rw [if_pos hp, if_neg fun h => hmet.1 h hp]
    rfl
  · rw [if_neg hp, if_pos (hmet.2 hp)]
    exact hrest

end Outcome

namespace Instruction

def exclusive (flags : List Bool) : Check := ⟨flags.count true ≤ 1, .badFlags flags⟩

/-- The conditions on a word and its immediate, in the order in which they are checked. -/
def checks (word : Int) (imm : Option Int) : List Check :=
  let b (i : Nat) : Bool := word.testBit (48 + i)
  [exclusive [b 2, b 4, b 3],
   ⟨b 2 → imm.isSome, .immediateMissing⟩,
   exclusive [b 7, b 8, b 9],
   exclusive [b 5, b 6],
   ⟨b 9 → ¬ b 5 ∧ ¬ b 6, .jumpResult⟩,
   exclusive [b 10, b 11],
   exclusive [b 12, b 13, b 14],
   ⟨b 12 → ¬ b 10 ∧ ¬ b 11, .callApUpdate⟩]

theorem bit_eq_testBit (word : Int) (k : Nat) : bit word k = word.testBit k := by
  unfold bit
  cases word with
  | ofNat n =>
    change decide (((n >>> k : Nat) : Int) % 2 = 1) = n.testBit k
    rw [Nat.testBit_eq_decide_div_mod_eq, Nat.shiftRight_eq_div_pow]
    exact decide_eq_decide.2 (by omega)
  | negSucc n =>
    rw [Int.negSucc_shiftRight]
    change decide (Int.negSucc (n >>> k) % 2 = 1) = !n.testBit k
    rw [Nat.testBit_eq_decide_div_mod_eq, Nat.shiftRight_eq_div_pow, ← decide_not]
    exact decide_eq_decide.2 (by omega)

theorem fault?_op1SourceOf (imm ap fp : Bool) :
    (op1SourceOf imm ap fp).fault? = (exclusive [imm, ap, fp]).failure := by
  cases imm <;> cases ap <;> cases fp <;> rfl

theorem eq_imm_iff_of_op1SourceOf {imm ap fp : Bool} {source : Op1Source}
    (h : op1SourceOf imm ap fp = .ok source) : source = .imm ↔ imm := by
  cases imm <;> cases ap <;> cases fp <;> cases h <;> decide

theorem fault?_immediateFor {source : Op1Source} {reads : Bool} (h : source = .imm ↔ reads) (imm : Option Int) :
    (immediateFor source imm).fault? = (Check.mk (reads → imm.isSome) .immediateMissing).failure := by
  unfold immediateFor
  cases reads with
  | false => rw [if_neg (by simpa using h)]; rfl
  | true =>
    rw [if_pos (by simpa using h)]
    cases imm <;> rfl

theorem fault?_pcUpdateOf (jump jumpRel jnz : Bool) :
    (pcUpdateOf jump jumpRel jnz).fault? = (exclusive [jump, jumpRel, jnz]).failure := by
  cases jump <;> cases jumpRel <;> cases jnz <;> rfl

theorem eq_jnz_iff_of_pcUpdateOf {jump jumpRel jnz : Bool} {pc : PcUpdate}
    (h : pcUpdateOf jump jumpRel jnz = .ok pc) : pc = .jnz ↔ jnz := by
  cases jump <;> cases jumpRel <;> cases jnz <;> cases h <;> decide

theorem fault?_resOf (pc : PcUpdate) (add mul : Bool) :
    (resOf pc add mul).fault? = (exclusive [add, mul]).failure := by
  cases add <;> cases mul <;> rfl

theorem eq_unconstrained_iff_of_resOf {pc : PcUpdate} {add mul : Bool} {res : Res}
    (h : resOf pc add mul = .ok res) : res = .unconstrained ↔ pc = .jnz ∧ ¬ add ∧ ¬ mul := by
  cases add <;> cases mul <;> cases h <;> simp

theorem fault?_apUpdateOf (add add1 : Bool) :
    (apUpdateOf add add1).fault? = (exclusive [add, add1]).failure := by
  cases add <;> cases add1 <;> rfl

theorem eq_regular_iff_of_apUpdateOf {add add1 : Bool} {ap : ApUpdate} (h : apUpdateOf add add1 = .ok ap) :
    ap = .regular ↔ ¬ add ∧ ¬ add1 := by
  cases add <;> cases add1 <;> cases h <;> decide

theorem fault?_opcodeOf (call ret assertEq : Bool) :
    (opcodeOf call ret assertEq).fault? = (exclusive [call, ret, assertEq]).failure := by
  cases call <;> cases ret <;> cases assertEq <;> rfl

theorem eq_call_iff_of_opcodeOf {call ret assertEq : Bool} {opcode : Opcode}
    (h : opcodeOf call ret assertEq = .ok opcode) : opcode = .call ↔ call := by
  cases call <;> cases ret <;> cases assertEq <;> cases h <;> decide

/-- The fault of a word is that of the first check it fails. -/
theorem fault?_decode (word : Int) (imm : Option Int) :
    (decode word imm).fault? = firstFault (checks word imm) := by
  have hflag : ∀ i, word.testBit (48 + i) = flag word i := fun i => (bit_eq_testBit word _).symm
  simp only [checks, hflag]
  unfold decode
  -- one step of decoding and one check at a time; what later checks ask of a result is read off its flags
  refine Outcome.fault?_bind (fault?_op1SourceOf _ _ _) fun source hsource => ?_
  have himm := eq_imm_iff_of_op1SourceOf hsource
  refine Outcome.fault?_bind (fault?_immediateFor himm _) fun m _ => ?_
  refine Outcome.fault?_bind (fault?_pcUpdateOf _ _ _) fun pc hpc => ?_
  have hjnz := eq_jnz_iff_of_pcUpdateOf hpc
  refine Outcome.fault?_bind (fault?_resOf _ _ _) fun res hres => ?_
  have hopen := eq_unconstrained_iff_of_resOf hres
  dsimp only
  refine Outcome.fault?_guard ?_ ?_
  -- a conditional jump whose two result flags are clear has its result open
  · rw [decide_eq_true_iff, ne_eq, hopen, hjnz, not_and_not_right]
    exact ⟨fun h hset => ⟨hset, h hset⟩, fun h hset => (h hset).2⟩
  refine Outcome.fault?_bind (fault?_apUpdateOf _ _) fun ap hap => ?_
  have hregular := eq_regular_iff_of_apUpdateOf hap
  refine Outcome.fault?_bind (fault?_opcodeOf _ _ _) fun opcode hopcode => ?_
  have hcall := eq_call_iff_of_opcodeOf hopcode
  refine Outcome.fault?_guard ?_ rfl
  rw [decide_eq_true_iff, ne_eq, hregular, hcall, not_and_not_right]

/-- The offsets have 16 bits, and the fields of an instruction fit together. -/
structure Consistent (i : Instruction) : Prop where
  off0 : -2 ^ 15 ≤ i.off0 ∧ i.off0 < 2 ^ 15
  off1 : -2 ^ 15 ≤ i.off1 ∧ i.off1 < 2 ^ 15
  off2 : -2 ^ 15 ≤ i.off2 ∧ i.off2 < 2 ^ 15
  size : i.size = 2 ↔ i.op1Source = .imm
  res : i.res = .unconstrained ↔ i.pcUpdate = .jnz
  ap : i.apUpdate = .add2 ↔ i.opcode = .call
  frame : i.fpUpdate = .apPlus2 ↔ i.opcode = .call
  back : i.fpUpdate = .dst ↔ i.opcode = .ret

theorem offsetAt_bounds (word : Int) (k : Nat) : -2 ^ 15 ≤ offsetAt word k ∧ offsetAt word k < 2 ^ 15 := by
  unfold offsetAt
  omega

theorem Decodes.consistent {word : Int} {imm : Option Int} {i : Instruction} (h : Decodes word imm i) :
    i.Consistent where
  off0 := h.off0 ▸ offsetAt_bounds word 0
  off1 := h.off1 ▸ offsetAt_bounds word 16
  off2 := h.off2 ▸ offsetAt_bounds word 32
  size := by
    have himm := h.imm
    by_cases hsource : i.op1Source = .imm
    · rw [hsource, immediateFor_imm] at himm
      simp [size, hsource, himm.2, himm.1]
    · rw [immediateFor_of_ne hsource] at himm
      simp [size, hsource, ← Except.ok.inj himm]
  res := ⟨fun hres => ((eq_unconstrained_iff_of_resOf h.res).1 hres).1, h.jump⟩
  ap := by
    refine ⟨fun hap => by_contra fun hcall => ?_, h.call⟩
    have hread := h.ap
    rw [if_neg hcall, hap] at hread
    revert hread
    cases flag word 10 <;> cases flag word 11 <;> simp [apUpdateOf]
  frame := by
    rw [h.fp]
    cases i.opcode <;> simp [fpUpdateOf]
  back := by
    rw [h.fp]
    cases i.opcode <;> simp [fpUpdateOf]

/-- After a failed check the next word is read as an immediate, unless a group of flags was at fault. -/
theorem needsRetry_iff_of_firstFault {word : Int} {imm : Option Int} {e : Fault}
    (h : firstFault (checks word imm) = some e) : needsRetry e ↔ ∀ flags, e ≠ .badFlags flags := by
  obtain ⟨c, hc, hfailure⟩ := List.exists_of_findSome?_eq_some h
  obtain rfl : c.fault = e := by
    unfold Check.failure at hfailure
    split_ifs at hfailure
    exact Option.some.inj hfailure
  simp only [checks, List.mem_cons, List.not_mem_nil, or_false] at hc
  rcases hc with rfl | rfl | rfl | rfl | rfl | rfl | rfl | rfl <;> simp [exclusive, needsRetry]

/-- A word decodes exactly when it passes all checks; else the first check that it fails is the reason, and decides
whether it is tried again with the next word. The fields of what it decodes to fit together. -/
theorem decode_eq_ok_iff_checks (word : Int) (imm : Option Int) :
    ((∃ i, decode word imm = .ok i) ↔ ∀ c ∈ checks word imm, c.met) ∧
    (∀ e, decode word imm = .error e ↔ firstFault (checks word imm) = some e) ∧
    (∀ e, decode word imm = .error e → (needsRetry e ↔ ∀ flags, e ≠ .badFlags flags)) ∧
    ∀ i, decode word imm = .ok i → i.Consistent := by
  have hfault : ∀ e, decode word imm = .error e ↔ firstFault (checks word imm) = some e := by
    intro e
    rw [← Outcome.fault?_eq_some_iff, fault?_decode]
  refine ⟨?_, hfault, fun e he => needsRetry_iff_of_firstFault ((hfault e).1 he),
    fun i hi => (decodes_of_decode hi).consistent⟩
  rw [← Outcome.fault?_eq_none_iff, fault?_decode, firstFault_eq_none_iff]

/-- A word that reads an immediate and has the flags of two jumps fails for want of the immediate first, and for the
flags when there is one. A call by an immediate is accepted. -/
theorem decode_two_jumps_and_call :
    decode 0x184000000000000 none = .error .immediateMissing ∧
    decode 0x184000000000000 (some 1) = .error (.badFlags [true, true, false]) ∧
    ∃ i, decode 0x1104800180018000 (some 5) = .ok i ∧ i.Consistent ∧ i.opcode = .call := by
  have hcall : decode 0x1104800180018000 (some 5) = .ok ⟨0, 1, 1, 0x1104800180018000, some 5, .ap, .ap, .imm, .op1,
    .jumpRel, .add2, .apPlus2, .call⟩ := by decide
  refine ⟨((decode_eq_ok_iff_checks _ none).2.1 _).2 (by decide),
    ((decode_eq_ok_iff_checks _ (some 1)).2.1 _).2 (by decide), _, hcall, ?_, rfl⟩
  exact (decode_eq_ok_iff_checks _ (some 5)).2.2.2 _ hcall

end Instruction

end Cairoscope
