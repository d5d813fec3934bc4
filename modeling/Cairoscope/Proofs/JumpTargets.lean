import Cairoscope.Proofs.WellFormed
import Mathlib.Data.List.Nodup

/-! Where jumps go. The text of a jump reads its immediate as the number nearest to zero that it stands
for modulo the prime, and the edge of the jump takes the immediate as it is. The two agree exactly for
immediates that are their own nearest number; a jump back by an immediate close to the prime has an
edge that leads past the end of the function. -/

namespace Cairoscope

namespace Field

/-- The numbers nearest to zero modulo the prime. -/
def IsNear (prime n : Int) : Prop := -(prime / 2) ≤ n ∧ n < prime - prime / 2

instance (prime n : Int) : Decidable (IsNear prime n) :=
  inferInstanceAs (Decidable (-(prime / 2) ≤ n ∧ n < prime - prime / 2))

/-- The number nearest to zero that an element stands for. -/
structure IsRepresentative (prime m c : Int) : Prop where
  congruent : c ≡ m [ZMOD prime]
  near : IsNear prime c

theorem exists_representative {prime : Int} (hprime : 0 < prime) (m : Int) :
    ∃ c, centered m prime = .ok c ∧ IsRepresentative prime m c := by
  have hcentered : centered m prime = .ok ((m + prime / 2) % prime - prime / 2) := by
    unfold centered
    rw [if_neg hprime.ne', Int.fdiv_eq_ediv_of_nonneg _ (by decide),
      Int.fmod_eq_emod_of_nonneg _ hprime.le]
  refine ⟨_, hcentered, modEq_of_centered hcentered, ?_, ?_⟩
  · have := Int.emod_nonneg (m + prime / 2) hprime.ne'
    omega
  · have := Int.emod_lt_of_pos (m + prime / 2) hprime
    omega

/-- An element is given by its own representative exactly when it is given near zero. -/
theorem IsRepresentative.eq_iff {prime m c : Int} (h : IsRepresentative prime m c) :
    m = c ↔ IsNear prime m := by
  constructor
  · rintro rfl
    exact h.near
  · rintro ⟨hlower, hupper⟩
    obtain ⟨hlower', hupper'⟩ := h.near
    have hshift := eq_of_modEq (h.congruent.symm.add_right (prime / 2)) (by omega) (by omega)
    omega

theorem centered_of_numeral {prime m n : Int} (h : numeral m prime = .ok (.decimal n)) :
    centered m prime = .ok n := by
  unfold numeral at h
  obtain ⟨c, hc, h⟩ := Outcome.bind_eq_ok.1 h
  split_ifs at h
  · obtain rfl : c = n := by simpa using Outcome.pure_eq_ok.1 h
    exact hc
  · cases Outcome.pure_eq_ok.1 h
  · cases Outcome.pure_eq_ok.1 h

end Field

def Site.ShowsJump (p : Printer) (s : Site) (t : Int) : Prop :=
  ∃ front back, s.text p =
    .ok (front ++ p.piece p.palette.cyan ("# JMP " ++ Text.decimal t) ++ back)

def Instruction.jumpKind (i : Instruction) : EdgeKind :=
  if i.pcUpdate = .jnz then .conditionalFalse else .unconditional

theorem Instruction.jumpKind_cases (i : Instruction) :
    i.jumpKind = .conditionalFalse ∨ i.jumpKind = .unconditional := by
  unfold jumpKind
  split_ifs
  · exact Or.inl rfl
  · exact Or.inr rfl

/-- The line of an instruction without an opcode of its own has its text in the middle. -/
theorem Site.text_of_nop {p : Printer} {s : Site} {text : String}
    (hnop : s.instruction.opcode = .nop) (h : s.text p = .ok text) :
    ∃ front body back, s.nopText p = .ok body ∧ text = front ++ body ++ back := by
  unfold Site.text at h
  simp only [hnop] at h
  obtain ⟨body, hbody, h⟩ := Outcome.bind_eq_ok.1 h
  exact ⟨_, body, _, hbody, (Outcome.pure_eq_ok.1 h).symm⟩

section Jump

variable {s : Site} {m : Int} (hnop : s.instruction.opcode = .nop)
  (hpc : s.instruction.pcUpdate = .jumpRel ∨ s.instruction.pcUpdate = .jnz)
  (himm : s.instruction.imm = some m)

include hpc himm

theorem Site.nopText_of_jump {p : Printer} {body : String} (h : s.nopText p = .ok body) :
    ∃ n, Field.centered m p.prime = .ok n ∧
      body = p.piece p.palette.red s.instruction.pcUpdate.name ++
        p.piece p.palette.blue (Text.decimal n) ++ p.piece p.palette.cyan
          ("# JMP " ++ (p.labelAt? (n + s.offset)).getD (Text.decimal (n + s.offset))) := by
  have hjumps : s.instruction.pcUpdate ≠ .regular := by
    rcases hpc with hpc | hpc
    · simp [hpc]
    · simp [hpc]
  unfold nopText at h
  simp only [himm, if_neg hjumps] at h
  obtain ⟨numeral, hnumeral, h⟩ := Outcome.bind_eq_ok.1 h
  obtain ⟨n, hn, h⟩ := Outcome.bind_eq_ok.1 h
  cases numeral with
  | hex k => cases hn
  | decimal k =>
    obtain rfl := Except.ok.inj hn
    exact ⟨k, Field.centered_of_numeral hnumeral, (Outcome.pure_eq_ok.1 h).symm⟩

include hnop

/-- A jump shows the offset that its representative leads to, if it can be shown. -/
theorem Site.showsJump_of_text {p : Printer} {text : String} (htext : s.text p = .ok text) {c : Int}
    (hc : Field.centered m p.prime = .ok c) (hlabel : p.labelAt? (s.offset + c) = none) :
    s.ShowsJump p (s.offset + c) := by
  obtain ⟨front, body, back, hbody, rfl⟩ := text_of_nop hnop htext
  obtain ⟨n, hn, rfl⟩ := nopText_of_jump hpc himm hbody
  obtain rfl : c = n := Except.ok.inj (hc.symm.trans hn)
  rw [add_comm c, hlabel, Option.getD_none] at htext
  refine ⟨front ++ (p.piece p.palette.red s.instruction.pcUpdate.name ++
    p.piece p.palette.blue (Text.decimal c)), back, htext.trans (congrArg Except.ok ?_)⟩
  simp only [String.append_assoc]

end Jump

namespace FlowGraph

variable {sites : List Site} {blocks : List Block} {next n : Nat} {s : Site} {m : Int}

def IsJumpEdge (blocks : List Block) (s : Site) (e : Edge) : Prop :=
  ∃ b ∈ blocks, s ∈ b.sites ∧ e ∈ b.edges ∧ e.source = s.offset ∧ e.kind = s.instruction.jumpKind

theorem eq_of_offset_eq (hincreasing : sites.Pairwise fun x y => x.offset < y.offset) {x y : Site}
    (hx : x ∈ sites) (hy : y ∈ sites) (h : x.offset = y.offset) : x = y := by
  have hnodup : (sites.map (·.offset)).Nodup := List.pairwise_map.2 (hincreasing.imp fun h => h.ne)
  exact List.inj_on_of_nodup_map hnodup hx hy h

theorem isJumpEdge_iff (hcut : cut next sites = .ok (blocks, n))
    (hincreasing : sites.Pairwise fun x y => x.offset < y.offset) (hs : s ∈ sites)
    (hnop : s.instruction.opcode = .nop)
    (hpc : s.instruction.pcUpdate = .jumpRel ∨ s.instruction.pcUpdate = .jnz)
    (himm : s.instruction.imm = some m) {e : Edge} :
    IsJumpEdge blocks s e ↔ e = ⟨s.offset, s.offset + m, s.instruction.jumpKind⟩ := by
  have htarget : s.jumpsTo = s.offset + m := by rw [Site.jumpsTo, himm, Option.getD_some]
  constructor
  · rintro ⟨b, hb, -, he, hsource, hkind⟩
    obtain ⟨past, s', coming, hsites, -, hafter⟩ := edgeAfter_of_mem_edges hcut hb he
    have hs' : s' ∈ sites := by simp [hsites]
    cases hafter with
    | jump h =>
      obtain rfl := eq_of_offset_eq hincreasing hs' hs hsource
      rw [← htarget, ← hkind]
    | zero h => rcases s.instruction.jumpKind_cases with hk | hk <;> simp [hk] at hkind
    | nonzero h =>
      obtain rfl := eq_of_offset_eq hincreasing hs' hs hsource
      rw [← htarget, ← hkind]
    | falls h hnext hleads ht =>
      rcases s.instruction.jumpKind_cases with hk | hk <;> simp [hk] at hkind
  · rintro rfl
    obtain ⟨b, hb, hsb⟩ := exists_block_of_mem hcut hs
    obtain ⟨past, coming, -, hedges⟩ := mem_edges_of_mem hcut hb hsb
    refine ⟨b, hb, hsb, hedges _ ?_, rfl, rfl⟩
    rw [← htarget]
    rcases hpc with hpc | hpc
    · have hkind : s.instruction.jumpKind = .unconditional := by simp [Instruction.jumpKind, hpc]
      rw [hkind]
      exact .jump ⟨by simp [hnop], hpc, by simp [hnop]⟩
    · have hkind : s.instruction.jumpKind = .conditionalFalse := by simp [Instruction.jumpKind, hpc]
      rw [hkind]
      exact .nonzero ⟨by simp [hnop], hpc⟩

/-- The text of a jump shows the offset that the representative of its immediate leads to, while its edge
leads to the offset that the immediate itself leads to. They are the same, and the block there is
reached, exactly when the immediate is given near zero. -/
theorem jump_edge_agrees_iff {p : Printer} (hprime : 0 < p.prime)
    (hcut : cut next sites = .ok (blocks, n))
    (hincreasing : sites.Pairwise fun x y => x.offset < y.offset) (hs : s ∈ sites)
    (hnop : s.instruction.opcode = .nop)
    (hpc : s.instruction.pcUpdate = .jumpRel ∨ s.instruction.pcUpdate = .jnz)
    (himm : s.instruction.imm = some m) :
    ∃ c, Field.IsRepresentative p.prime m c ∧
      ((∃ text, s.text p = .ok text) → p.labelAt? (s.offset + c) = none →
        s.ShowsJump p (s.offset + c)) ∧
      (∀ e, IsJumpEdge blocks s e ↔ e = ⟨s.offset, s.offset + m, s.instruction.jumpKind⟩) ∧
      ((∃ e, IsJumpEdge blocks s e ∧ e.target = s.offset + c) ↔ Field.IsNear p.prime m) ∧
      ∀ y ∈ sites, (y.offset : Int) = s.offset + c →
        ((∃ e, IsJumpEdge blocks s e ∧ ∃ b ∈ blocks, b.sites.head? = some y ∧ e.target = b.start) ↔
          Field.IsNear p.prime m) := by
  obtain ⟨c, hc, hrepresents⟩ := Field.exists_representative hprime m
  have hedge : ∀ e, IsJumpEdge blocks s e ↔ e = ⟨s.offset, s.offset + m, s.instruction.jumpKind⟩ :=
    fun e => isJumpEdge_iff hcut hincreasing hs hnop hpc himm
  refine ⟨c, hrepresents, fun ⟨text, htext⟩ hlabel =>
    Site.showsJump_of_text hnop hpc himm htext hc hlabel, hedge, ?_, fun y hy hyc => ?_⟩
  · rw [← hrepresents.eq_iff]
    constructor
    · rintro ⟨e, he, htarget⟩
      obtain rfl := (hedge e).1 he
      exact add_left_cancel htarget
    · rintro rfl
      exact ⟨_, (hedge _).2 rfl, rfl⟩
  · rw [← hrepresents.eq_iff]
    constructor
    · rintro ⟨e, he, b, hb, hhead, htarget⟩
      obtain rfl := (hedge e).1 he
      rw [start_of_cut hcut hb hhead, hyc] at htarget
      exact add_left_cancel htarget
    · rintro rfl
      -- the target of the jump is a leader
      have hleads : (y.offset : Int) ∈ leaders sites := by
        refine mem_leaders.2 (Or.inr ⟨s, hs, by simp [hnop], by simp [hnop], m, himm, Or.inl ⟨?_, hyc⟩⟩)
        rcases hpc with hpc | hpc <;> simp [hpc]
      obtain ⟨b, hb, hhead⟩ := exists_block_of_leader hcut hy hleads
      exact ⟨_, (hedge _).2 rfl, b, hb, hhead, by rw [start_of_cut hcut hb hhead, hyc]⟩

/-- A loop that pushes for ever. -/
def pushLoop : List Site :=
  [.pushing 0 .fp .imm .op1 (-1) 1 (some 1), .jumping 2 .jumpRel (Field.defaultPrime - 2),
    .returning 4]

theorem pushLoop_edge_misses : ∃ blocks n s, cut 0 pushLoop = .ok (blocks, n) ∧ s ∈ pushLoop ∧
    s.ShowsJump ⟨.plain, Field.defaultPrime, []⟩ 0 ∧
    (∀ e, IsJumpEdge blocks s e ↔ e = ⟨2, Field.defaultPrime, .unconditional⟩) ∧
    ¬ ∃ e, IsJumpEdge blocks s e ∧ e.target = 0 := by
  obtain ⟨blocks, n, hcut⟩ : ∃ blocks n, cut 0 pushLoop = .ok (blocks, n) := ⟨_, _, rfl⟩
  have hs : .jumping 2 .jumpRel (Field.defaultPrime - 2) ∈ pushLoop := by simp [pushLoop]
  obtain ⟨c, hrepresents, hshows, hedge, hagrees, -⟩ :=
    jump_edge_agrees_iff (p := ⟨.plain, Field.defaultPrime, []⟩) (by decide) hcut (by decide) hs rfl
      (Or.inl rfl) rfl
  have hback : Field.IsRepresentative Field.defaultPrime (-2) c :=
    ⟨hrepresents.congruent.trans (by decide), hrepresents.near⟩
  obtain rfl : -2 = c := hback.eq_iff.2 (by decide)
  refine ⟨blocks, n, _, hcut, hs, hshows ⟨_, rfl⟩ rfl, hedge, fun hzero => ?_⟩
  exact absurd (hagrees.1 hzero) (by decide)

end FlowGraph

end Cairoscope
