import Cairoscope.Instruction.Decode
import Cairoscope.Proofs.Outcome

/-! What a decoded instruction says about its words. An instruction takes a second word exactly when
its second operand is an immediate; no other failed check is ever mended by reading one more word. -/

namespace Cairoscope.Instruction

theorem immediateFor_imm (n : Option Int) (m : Option Int) :
    immediateFor .imm n = .ok m ↔ n.isSome ∧ m = n := by
  cases n <;> simp [immediateFor, eq_comm]

theorem immediateFor_of_ne {source : Op1Source} (h : source ≠ .imm) (n : Option Int) :
    immediateFor source n = .ok none := by
  simp [immediateFor, h]

structure Decodes (word : Int) (imm : Option Int) (i : Instruction) : Prop where
  source : op1SourceOf (flag word 2) (flag word 4) (flag word 3) = .ok i.op1Source
  imm : immediateFor i.op1Source imm = .ok i.imm
  pc : pcUpdateOf (flag word 7) (flag word 8) (flag word 9) = .ok i.pcUpdate
  res : resOf i.pcUpdate (flag word 5) (flag word 6) = .ok i.res
  jump : i.pcUpdate = .jnz → i.res = .unconstrained
  ap : apUpdateOf (flag word 10) (flag word 11) = .ok (if i.opcode = .call then .regular else i.apUpdate)
  opcode : opcodeOf (flag word 12) (flag word 13) (flag word 14) = .ok i.opcode
  call : i.opcode = .call → i.apUpdate = .add2
  fp : i.fpUpdate = fpUpdateOf i.opcode
  dst : i.dstRegister = if flag word 0 then .fp else .ap
  op0 : i.op0Register = if flag word 1 then .fp else .ap
  off0 : i.off0 = offsetAt word 0
  off1 : i.off1 = offsetAt word 16
  off2 : i.off2 = offsetAt word 32

theorem decodes_of_decode {word : Int} {imm : Option Int} {i : Instruction}
    (h : decode word imm = .ok i) : Decodes word imm i := by
  unfold decode at h
  obtain ⟨source, hs, h⟩ := Outcome.bind_eq_ok.1 h
  obtain ⟨m, hm, h⟩ := Outcome.bind_eq_ok.1 h
  obtain ⟨pc, hpc, h⟩ := Outcome.bind_eq_ok.1 h
  obtain ⟨res, hres, h⟩ := Outcome.bind_eq_ok.1 h
  dsimp only at h
  by_cases hjump : pc = .jnz ∧ res ≠ .unconstrained
  · rw [if_pos hjump] at h
    obtain ⟨_, h, -⟩ := Outcome.bind_eq_ok.1 h
    exact absurd h Outcome.throw_ne_ok
  rw [if_neg hjump] at h
  obtain ⟨ap, hap, h⟩ := Outcome.bind_eq_ok.1 h
  obtain ⟨opcode, hopcode, h⟩ := Outcome.bind_eq_ok.1 h
  by_cases hcall : opcode = .call ∧ ap ≠ .regular
  · rw [if_pos hcall] at h
    obtain ⟨_, h, -⟩ := Outcome.bind_eq_ok.1 h
    exact absurd h Outcome.throw_ne_ok
  rw [if_neg hcall, Outcome.pure_eq_ok] at h
  subst h
  refine ⟨hs, hm, hpc, hres, fun hj => ?_, ?_, hopcode, fun hc => if_pos hc, rfl, rfl, rfl, rfl, rfl, rfl⟩
  · exact not_not.1 fun hne => hjump ⟨hj, hne⟩
  · by_cases hc : opcode = .call
    · rw [if_pos hc, ← not_not.1 fun hne => hcall ⟨hc, hne⟩]
      exact hap
    · rw [if_neg hc, if_neg hc]
      exact hap

/-- An instruction without an immediate is the same whatever word follows. -/
theorem decode_eq_of_source {word : Int} {source : Op1Source}
    (hs : op1SourceOf (flag word 2) (flag word 4) (flag word 3) = .ok source) (hne : source ≠ .imm)
    (m n : Option Int) : decode word m = decode word n := by
  unfold decode
  simp only [hs, bind, Except.bind, immediateFor_of_ne hne]

/-- The two ways to read an instruction at the front of the words. -/
inductive ReadsAs (word : Int) : List Int → Instruction → List Int → Prop
  | alone {i : Instruction} {rest : List Int} (source : i.op1Source ≠ .imm) (imm : i.imm = none)
      (decoded : decode word none = .ok i) : ReadsAs word rest i rest
  | withImmediate {i : Instruction} {next : Int} {rest : List Int} (source : i.op1Source = .imm)
      (imm : i.imm = some next) (decoded : decode word (some next) = .ok i) :
      ReadsAs word (next :: rest) i rest

theorem readsAs_of_decodeNext {word : Int} {rest rest' : List Int} {i : Instruction}
    (h : decodeNext word rest = .ok (i, rest')) : ReadsAs word rest i rest' := by
  unfold decodeNext at h
  split at h
  case h_1 j hj =>
    obtain ⟨rfl, rfl⟩ : j = i ∧ rest = rest' := by simpa using h
    have hne : j.op1Source ≠ .imm := by
      intro he
      have := (decodes_of_decode hj).imm
      rw [he, immediateFor_imm] at this
      simp at this
    have him := (decodes_of_decode hj).imm
    rw [immediateFor_of_ne hne] at him
    exact .alone hne (by simpa using him.symm) hj
  case h_2 e he =>
    split at h
    · split at h
      · cases h
      · rename_i next rest
        obtain ⟨j, hj, h⟩ := Outcome.bind_eq_ok.1 h
        obtain ⟨rfl, rfl⟩ : j = i ∧ rest = rest' := by simpa [pure, Except.pure] using h
        -- had the word no immediate, the first attempt would have given the same result
        have him : j.op1Source = .imm := by
          by_contra hne
          rw [decode_eq_of_source (decodes_of_decode hj).source hne none (some next), hj] at he
          cases he
        have hm := (decodes_of_decode hj).imm
        rw [him, immediateFor_imm] at hm
        exact .withImmediate him hm.2 hj
    · cases h

/-- What is read is what is taken off the words. -/
theorem ReadsAs.size_add_length {word : Int} {rest rest' : List Int} {i : Instruction}
    (h : ReadsAs word rest i rest') : i.size + rest'.length = rest.length + 1 := by
  cases h with
  | alone _ hi _ => simp [size, hi]; omega
  | withImmediate _ hi _ => simp [size, hi]; omega

end Cairoscope.Instruction
