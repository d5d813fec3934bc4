import Cairoscope.Proofs.Decoding
import Mathlib.Data.Int.ModEq
import Mathlib.Tactic.Linarith

/-! The word of an instruction. Its three offsets and fifteen flags are the lowest 63 bits of every word that
decodes to it. So decoding looks at these bits only, and at all of them. -/

namespace Cairoscope

def Register.flag : Register → Bool
  | ap => false
  | fp => true

def Op1Source.flags : Op1Source → List Bool
  | imm => [true, false, false]
  | fp => [false, true, false]
  | ap => [false, false, true]
  | op0 => [false, false, false]

def Res.flags : Res → List Bool
  | add => [true, false]
  | mul => [false, true]
  | op1 => [false, false]
  | unconstrained => [false, false]

def PcUpdate.flags : PcUpdate → List Bool
  | jump => [true, false, false]
  | jumpRel => [false, true, false]
  | jnz => [false, false, true]
  | regular => [false, false, false]

def ApUpdate.flags : ApUpdate → List Bool
  | add => [true, false]
  | add1 => [false, true]
  | regular => [false, false]
  | add2 => [false, false]

def Opcode.flags : Opcode → List Bool
  | call => [true, false, false]
  | ret => [false, true, false]
  | assertEq => [false, false, true]
  | nop => [false, false, false]

namespace Instruction

def number : List Bool → Int
  | [] => 0
  | b :: bs => b.toInt + 2 * number bs

def flags (i : Instruction) : List Bool :=
  [i.dstRegister.flag, i.op0Register.flag] ++ i.op1Source.flags ++ i.res.flags ++ i.pcUpdate.flags ++
    i.apUpdate.flags ++ i.opcode.flags

/-- The word of an instruction: three offsets, each moved up to be a number of 16 bits, and the flags. -/
def encode (i : Instruction) : Int :=
  (i.off0 + 2 ^ 15) + 2 ^ 16 * (i.off1 + 2 ^ 15) + 2 ^ 32 * (i.off2 + 2 ^ 15) + 2 ^ 48 * number i.flags

theorem flags_of_op1SourceOf {imm ap fp : Bool} {source : Op1Source}
    (h : op1SourceOf imm ap fp = .ok source) : source.flags = [imm, fp, ap] := by
  cases imm <;> cases ap <;> cases fp <;> cases h <;> rfl

theorem flags_of_resOf {pc : PcUpdate} {add mul : Bool} {res : Res} (h : resOf pc add mul = .ok res) :
    res.flags = [add, mul] := by
  cases add <;> cases mul <;> cases h
  · split <;> rfl
  · rfl
  · rfl

theorem flags_of_pcUpdateOf {jump jumpRel jnz : Bool} {pc : PcUpdate}
    (h : pcUpdateOf jump jumpRel jnz = .ok pc) : pc.flags = [jump, jumpRel, jnz] := by
  cases jump <;> cases jumpRel <;> cases jnz <;> cases h <;> rfl

theorem flags_of_apUpdateOf {add add1 : Bool} {ap : ApUpdate} (h : apUpdateOf add add1 = .ok ap) :
    ap.flags = [add, add1] := by
  cases add <;> cases add1 <;> cases h <;> rfl

theorem flags_of_opcodeOf {call ret assertEq : Bool} {opcode : Opcode}
    (h : opcodeOf call ret assertEq = .ok opcode) : opcode.flags = [call, ret, assertEq] := by
  cases call <;> cases ret <;> cases assertEq <;> cases h <;> rfl

variable {word : Int} {imm : Option Int} {i : Instruction}

theorem Decodes.apUpdate_flags (h : Decodes word imm i) :
    i.apUpdate.flags = [flag word 10, flag word 11] := by
  rw [← flags_of_apUpdateOf h.ap]
  -- a call has neither flag, and is written as it was read
  split_ifs with hcall
  · rw [h.call hcall]
    rfl
  · rfl

theorem Decodes.flags_eq (h : Decodes word imm i) : i.flags = (List.range 15).map (flag word) := by
  have hregister : ∀ b : Bool, Register.flag (if b then .fp else .ap) = b := by decide
  rw [flags, h.dst, h.op0, hregister, hregister, flags_of_op1SourceOf h.source, flags_of_resOf h.res,
    flags_of_pcUpdateOf h.pc, h.apUpdate_flags, flags_of_opcodeOf h.opcode]
  rfl

theorem shiftRight_emod_succ (word : Int) (k n : Nat) :
    (word >>> k) % 2 ^ (n + 1) = (word >>> k) % 2 + 2 * ((word >>> (k + 1)) % 2 ^ n) := by
  have hhalf : word >>> (k + 1) = (word >>> k) / 2 := by
    rw [Int.shiftRight_add, Int.shiftRight_eq_div_pow _ 1]
    rfl
  rw [hhalf, pow_succ', Int.emod_def, Int.emod_def _ (2 ^ n), Int.ediv_ediv_of_nonneg (by decide)]
  have := Int.mul_ediv_add_emod (word >>> k) 2
  linarith

theorem number_bits (word : Int) (k n : Nat) :
    number ((List.range' k n).map (bit word)) = (word >>> k) % 2 ^ n := by
  induction n generalizing k with
  | zero => simp [number]
  | succ n ih =>
    have hbit : (bit word k).toInt = (word >>> k) % 2 := by
      unfold bit
      rcases Int.emod_two_eq (word >>> k) with h | h <;> simp [h]
    rw [List.range'_succ, List.map_cons, number, ih, hbit, shiftRight_emod_succ]

/-- The lowest 63 bits of a word are those of the instruction that it decodes to. -/
theorem Decodes.emod_eq (h : Decodes word imm i) : word % 2 ^ 63 = i.encode := by
  have hflags : number i.flags = (word >>> (48 : Nat)) % 2 ^ 15 := by
    rw [h.flags_eq, ← number_bits]
    rfl
  rw [encode, hflags, h.off0, h.off1, h.off2]
  simp only [offsetAt, Int.shiftRight_eq_div_pow]
  omega

section Congruence

variable {e₁ e₂ : Int}

theorem shiftRight_emod_congr {m : Nat} (h : e₁ ≡ e₂ [ZMOD 2 ^ m]) {k n : Nat} (hkn : k + n ≤ m) :
    (e₁ >>> k) % 2 ^ n = (e₂ >>> k) % 2 ^ n := by
  obtain ⟨q, hq⟩ := h.dvd
  obtain ⟨d, rfl⟩ := Nat.exists_eq_add_of_le hkn
  have hsplit : e₂ = e₁ + 2 ^ k * (2 ^ n * (2 ^ d * q)) := by
    rw [pow_add, pow_add] at hq
    linarith
  rw [Int.shiftRight_eq_div_pow, Int.shiftRight_eq_div_pow, hsplit, Nat.cast_pow, Nat.cast_ofNat,
    Int.add_mul_ediv_left _ _ (by positivity), Int.add_mul_emod_self_left]

theorem flag_congr (h : e₁ ≡ e₂ [ZMOD 2 ^ 63]) {i : Nat} (hi : i < 15) : flag e₁ i = flag e₂ i := by
  have hbit : (e₁ >>> (48 + i)) % 2 ^ 1 = (e₂ >>> (48 + i)) % 2 ^ 1 :=
    shiftRight_emod_congr h (by omega)
  unfold flag bit
  rw [pow_one] at hbit
  rw [hbit]

theorem offsetAt_congr (h : e₁ ≡ e₂ [ZMOD 2 ^ 63]) {k : Nat} (hk : k ≤ 47) :
    offsetAt e₁ k = offsetAt e₂ k := by
  have hbits : (e₁ >>> k) % 2 ^ 16 = (e₂ >>> k) % 2 ^ 16 := shiftRight_emod_congr h (by omega)
  exact congrArg (· - 0x8000) hbits

/-- The fields of an instruction that do not repeat its word. -/
def core (i : Instruction) : Instruction := { i with off3 := 0 }

theorem decode_congr (h : e₁ ≡ e₂ [ZMOD 2 ^ 63]) (imm : Option Int) :
    (decode e₁ imm).map core = (decode e₂ imm).map core := by
  unfold decode
  simp (disch := decide) only [flag_congr h, offsetAt_congr h]
  refine Outcome.map_bind_congr fun source => Outcome.map_bind_congr fun m => ?_
  refine Outcome.map_bind_congr fun pc => Outcome.map_bind_congr fun res => ?_
  by_cases hjump : pc = .jnz ∧ res ≠ .unconstrained
  · rw [if_pos hjump, if_pos hjump]
    rfl
  rw [if_neg hjump, if_neg hjump]
  refine Outcome.map_bind_congr fun ap => Outcome.map_bind_congr fun opcode => ?_
  by_cases hcall : opcode = .call ∧ ap ≠ .regular
  · rw [if_pos hcall, if_pos hcall]
    rfl
  · rw [if_neg hcall, if_neg hcall]
    rfl

/-- Two words that are the same modulo 2⁶³ decode to the same fields, or not at all for the same reason. Two words that
decode to the same fields are the same modulo 2⁶³. -/
theorem decode_injective_mod (e₁ e₂ : Int) :
    (e₁ ≡ e₂ [ZMOD 2 ^ 63] → ∀ imm, (decode e₁ imm).map core = (decode e₂ imm).map core) ∧
    ∀ imm₁ imm₂ i₁ i₂, decode e₁ imm₁ = .ok i₁ → decode e₂ imm₂ = .ok i₂ → core i₁ = core i₂ →
      e₁ ≡ e₂ [ZMOD 2 ^ 63] := by
  refine ⟨decode_congr, fun imm₁ imm₂ i₁ i₂ h₁ h₂ hcore => ?_⟩
  calc e₁ % 2 ^ 63 = i₁.encode := (decodes_of_decode h₁).emod_eq
    _ = (core i₁).encode := rfl
    _ = (core i₂).encode := by rw [hcore]
    _ = i₂.encode := rfl
    _ = e₂ % 2 ^ 63 := (decodes_of_decode h₂).emod_eq.symm

/-- `[ap] = 5; ap++` by its word, and by a negative word with the same lowest 63 bits. -/
theorem decode_push_negative :
    (decode 0x480680017fff8000 (some 5)).map core = (decode (0x480680017fff8000 - 2 ^ 63) (some 5)).map core ∧
    (∃ i₁ i₂, decode 0x480680017fff8000 (some 5) = .ok i₁ ∧
      decode (0x480680017fff8000 - 2 ^ 63) (some 5) = .ok i₂ ∧ core i₁ = core i₂ ∧ i₁.off3 ≠ i₂.off3) ∧
    (0x480680017fff8000 : Int) ≡ 0x480680017fff8000 - 2 ^ 63 [ZMOD 2 ^ 63] := by
  obtain ⟨hsame, hinjective⟩ := decode_injective_mod 0x480680017fff8000 (0x480680017fff8000 - 2 ^ 63)
  have h₁ : decode 0x480680017fff8000 (some 5) = .ok ⟨0, -1, 1, 0x480680017fff8000, some 5, .ap, .fp, .imm, .op1,
    .regular, .add1, .regular, .assertEq⟩ := by decide
  have h₂ : decode (0x480680017fff8000 - 2 ^ 63) (some 5) = .ok ⟨0, -1, 1, 0, some 5, .ap, .fp, .imm, .op1,
    .regular, .add1, .regular, .assertEq⟩ := by decide
  exact ⟨hsame (by decide) _, ⟨_, _, h₁, h₂, rfl, by decide⟩, hinjective _ _ _ _ h₁ h₂ rfl⟩

end Congruence

end Instruction

end Cairoscope
