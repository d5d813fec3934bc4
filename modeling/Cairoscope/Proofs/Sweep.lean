import Cairoscope.Artifact.Listing
import Cairoscope.Proofs.Decoding
import Cairoscope.Proofs.Documents
import Cairoscope.Proofs.Numerals
import Mathlib.Data.List.Pairwise

/-! The sweep over the code of an artifact is exact: its instructions lie side by side on the words,
each is decoded from the words it lies on, and each belongs to the function that was declared last
before it. -/

namespace Cairoscope.Artifact

open Instruction (ReadsAs)

/-- The code that a sweep from `offset` finds on the words. -/
inductive Swept (startAt : Nat → Option String) : Nat → List Int → List Placed → Prop
  | done (offset : Nat) : Swept startAt offset [] []
  | step {offset : Nat} {word : Int} {rest rest' : List Int} {i : Instruction} {code : List Placed}
      (reads : ReadsAs word rest i rest') (more : Swept startAt (offset + i.size) rest' code) :
      Swept startAt offset (word :: rest) (⟨offset, word, i, startAt offset⟩ :: code)

/-- Fuel for each word is enough, since each instruction takes one at least. -/
theorem swept_of_sweepFrom {startAt : Nat → Option String} {inside : Bool} {offset fuel : Nat}
    {words : List Int} {code : List Placed} (hfuel : words.length ≤ fuel)
    (h : sweepFrom startAt inside offset words fuel = .ok code) : Swept startAt offset words code := by
  induction fuel generalizing inside offset words code with
  | zero =>
    obtain rfl := List.eq_nil_of_length_eq_zero (Nat.le_zero.1 hfuel)
    obtain rfl : [] = code := by simpa [sweepFrom] using h
    exact .done offset
  | succ fuel ih =>
    cases words with
    | nil =>
      obtain rfl : [] = code := by simpa [sweepFrom] using h
      exact .done offset
    | cons word rest =>
      unfold sweepFrom at h
      obtain ⟨⟨i, rest'⟩, hread, h⟩ := Outcome.bind_eq_ok.1 h
      have hreads := Instruction.readsAs_of_decodeNext hread
      dsimp only at h
      split at h
      · obtain ⟨_, h, -⟩ := Outcome.bind_eq_ok.1 h
        exact absurd h Outcome.throw_ne_ok
      · obtain ⟨more, hmore, h⟩ := Outcome.bind_eq_ok.1 h
        rw [Outcome.pure_eq_ok] at h
        subst h
        have hsize := hreads.size_add_length
        have hpos : 0 < i.size := by unfold Instruction.size; split <;> omega
        rw [List.length_cons] at hfuel
        exact .step hreads (ih (by omega) hmore)

/-- Code is never swept before some function has started. -/
theorem opens_of_sweep {startAt : Nat → Option String} {words : List Int} {p : Placed}
    {code : List Placed} (h : sweep startAt words = .ok (p :: code)) : p.opens.isSome := by
  unfold sweep at h
  cases words with
  | nil => simp [sweepFrom] at h
  | cons word rest =>
    unfold sweepFrom at h
    obtain ⟨⟨i, rest'⟩, -, h⟩ := Outcome.bind_eq_ok.1 h
    dsimp only at h
    split at h
    · obtain ⟨_, h, -⟩ := Outcome.bind_eq_ok.1 h
      exact absurd h Outcome.throw_ne_ok
    · rename_i hopen
      obtain ⟨more, -, h⟩ := Outcome.bind_eq_ok.1 h
      rw [Outcome.pure_eq_ok] at h
      obtain ⟨rfl, -⟩ := List.cons.inj h
      cases hs : startAt 0 <;> simp_all

namespace Swept

variable {startAt : Nat → Option String} {offset : Nat} {words : List Int} {code : List Placed}

theorem opens_eq (h : Swept startAt offset words code) : ∀ p ∈ code, p.opens = startAt p.offset := by
  induction h with
  | done => simp
  | step _ _ ih => exact List.forall_mem_cons.2 ⟨rfl, ih⟩

theorem head_offset (h : Swept startAt offset words code) (hw : words ≠ []) :
    (code.map (·.offset)).head? = some offset := by
  cases h with
  | done => exact absurd rfl hw
  | step => rfl

/-- Each instruction lies inside the words that were swept. -/
theorem bounds (h : Swept startAt offset words code) :
    ∀ p ∈ code, offset ≤ p.offset ∧ p.offset + p.instruction.size ≤ offset + words.length := by
  induction h with
  | done => simp
  | step reads _ ih =>
    have hsize := reads.size_add_length
    refine List.forall_mem_cons.2 ⟨⟨Nat.le_refl _, ?_⟩, fun p hp => ?_⟩
    · simp only [List.length_cons]; omega
    · obtain ⟨h1, h2⟩ := ih p hp
      simp only [List.length_cons]; omega

/-- An instruction ends where the next one starts, or before. -/
theorem apart (h : Swept startAt offset words code) :
    code.Pairwise fun p q => p.offset + p.instruction.size ≤ q.offset := by
  induction h with
  | done => exact .nil
  | step _ more ih => exact .cons (fun q hq => (more.bounds q hq).1) ih

/-- Two different instructions are apart, whichever of them comes first. -/
theorem apart_of_ne (h : Swept startAt offset words code) {p q : Placed} (hp : p ∈ code)
    (hq : q ∈ code) (hne : p ≠ q) :
    p.offset + p.instruction.size ≤ q.offset ∨ q.offset + q.instruction.size ≤ p.offset := by
  induction h with
  | done => simp at hp
  | step _ more ih =>
    rcases List.mem_cons.1 hp with rfl | hp
    · rcases List.mem_cons.1 hq with rfl | hq
      · exact absurd rfl hne
      · exact Or.inl (more.bounds q hq).1
    · rcases List.mem_cons.1 hq with rfl | hq
      · exact Or.inr (more.bounds p hp).1
      · exact ih hp hq

theorem covered (h : Swept startAt offset words code) {j : Nat} (hj : offset ≤ j)
    (hj' : j < offset + words.length) :
    ∃ p ∈ code, p.offset ≤ j ∧ j < p.offset + p.instruction.size := by
  induction h with
  | done => simp at hj'; omega
  | @step offset word rest rest' i code reads _ ih =>
    by_cases hin : j < offset + i.size
    · exact ⟨_, List.mem_cons_self, hj, hin⟩
    · have hsize := reads.size_add_length
      rw [List.length_cons] at hj'
      obtain ⟨p, hp, h⟩ := ih (by omega) (by omega)
      exact ⟨p, List.mem_cons_of_mem _ hp, h⟩

theorem reads (h : Swept startAt offset words code) :
    ∀ p ∈ code, ∃ rest rest', words.drop (p.offset - offset) = p.word :: rest ∧
      ReadsAs p.word rest p.instruction rest' := by
  induction h with
  | done => simp
  | @step offset word rest rest' i code reads more ih =>
    refine List.forall_mem_cons.2 ⟨⟨rest, rest', by simp, reads⟩, fun p hp => ?_⟩
    obtain ⟨tail, tail', hdrop, hreads⟩ := ih p hp
    refine ⟨tail, tail', ?_, hreads⟩
    have hge := (more.bounds p hp).1
    have hlater : rest' = (word :: rest).drop i.size := by
      cases reads with
      | alone _ hi _ => simp [Instruction.size, hi]
      | withImmediate _ hi _ => simp [Instruction.size, hi]
    rw [← hdrop, hlater, List.drop_drop]
    congr 1
    omega

end Swept

/-- Instructions that lie side by side on the words: they start at the first word, and each word
lies under exactly one of them. -/
structure Tiles (words : List Int) (code : List Placed) : Prop where
  first : words ≠ [] → (code.map (·.offset)).head? = some 0
  increasing : (code.map (·.offset)).Pairwise (· < ·)
  within : ∀ p ∈ code, p.offset + p.instruction.size ≤ words.length
  covers : ∀ j < words.length, ∃! p, p ∈ code ∧ p.offset ≤ j ∧ j < p.offset + p.instruction.size

theorem Swept.tiles {startAt : Nat → Option String} {words : List Int} {code : List Placed}
    (h : Swept startAt 0 words code) : Tiles words code where
  first := h.head_offset
  increasing := by
    rw [List.pairwise_map]
    refine h.apart.imp fun {p q} hpq => ?_
    have : 0 < p.instruction.size := by unfold Instruction.size; split <;> omega
    omega
  within := fun p hp => by simpa using (h.bounds p hp).2
  covers := by
    intro j hj
    obtain ⟨p, hp, hlow, hhigh⟩ := h.covered (Nat.zero_le j) (by simpa using hj)
    refine ⟨p, ⟨hp, hlow, hhigh⟩, ?_⟩
    rintro q ⟨hq, hlow', hhigh'⟩
    by_contra hne
    have := h.apart_of_ne hq hp hne
    omega

/-- An instruction that is decoded from the words it lies on. -/
structure DecodedFrom (words : List Int) (p : Placed) : Prop where
  word : words[p.offset]? = some p.word
  size_eq_two_iff : p.instruction.size = 2 ↔ p.instruction.op1Source = .imm
  size_eq_one_iff : p.instruction.size = 1 ↔ p.instruction.op1Source ≠ .imm
  long : p.instruction.op1Source = .imm → ∃ next, words[p.offset + 1]? = some next ∧
    p.instruction.imm = some next ∧ Instruction.decode p.word (some next) = .ok p.instruction
  short : p.instruction.op1Source ≠ .imm →
    p.instruction.imm = none ∧ Instruction.decode p.word none = .ok p.instruction

theorem Swept.decodedFrom {startAt : Nat → Option String} {words : List Int} {code : List Placed}
    (h : Swept startAt 0 words code) : ∀ p ∈ code, DecodedFrom words p := by
  intro p hp
  obtain ⟨rest, rest', hdrop, hreads⟩ := h.reads p hp
  rw [Nat.sub_zero] at hdrop
  have hword : words[p.offset]? = some p.word := by
    rw [← Nat.add_zero p.offset, ← List.getElem?_drop, hdrop]; rfl
  have hnext : words[p.offset + 1]? = rest[0]? := by
    rw [← List.getElem?_drop, hdrop]; rfl
  cases hreads with
  | alone hs hi hd =>
    exact ⟨hword, by simp [Instruction.size, hi, hs], by simp [Instruction.size, hi, hs],
      fun he => absurd he hs, fun _ => ⟨hi, hd⟩⟩
  | withImmediate hs hi hd =>
    exact ⟨hword, by simp [Instruction.size, hi, hs], by simp [Instruction.size, hi, hs],
      fun _ => ⟨_, by simpa using hnext, hi, hd⟩, fun hne => absurd hs hne⟩

end Cairoscope.Artifact
