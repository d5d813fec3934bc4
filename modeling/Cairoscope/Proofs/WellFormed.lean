import Cairoscope.Proofs.Meaning
import Cairoscope.Proofs.Sections

/-! Flow graphs are well formed: the blocks hold the instructions of the function in order, each starts
at its first instruction and has no leader further on, and an edge to an instruction of the function
leads to the start of a block. -/

namespace Cairoscope

def Instruction.JumpsByImmediate (i : Instruction) : Prop :=
  (i.pcUpdate = .jumpRel → i.opcode = .call ∨ i.opcode = .nop ∧ i.imm.isSome) ∧
    (i.pcUpdate = .jnz → i.opcode = .nop ∧ i.imm.isSome)

instance (i : Instruction) : Decidable i.JumpsByImmediate :=
  inferInstanceAs (Decidable
    ((i.pcUpdate = .jumpRel → i.opcode = .call ∨ i.opcode = .nop ∧ i.imm.isSome) ∧
      (i.pcUpdate = .jnz → i.opcode = .nop ∧ i.imm.isSome)))

theorem Instruction.JumpsByImmediate.nop {i : Instruction} (h : i.JumpsByImmediate)
    (hjump : i.JumpsAlways ∨ i.JumpsIf) : i.opcode = .nop ∧ ∃ imm, i.imm = some imm := by
  rw [← Option.isSome_iff_exists]
  rcases hjump with ⟨-, hpc, hcall⟩ | ⟨-, hpc⟩
  · exact (h.1 hpc).resolve_left hcall
  · exact h.2 hpc

namespace FlowGraph

/-- A jump makes a block start at its target, and a conditional one also after it. Calls and returns
are no jumps. -/
def MakesLeader (s : Site) (o : Int) : Prop :=
  s.instruction.opcode ≠ .call ∧ s.instruction.opcode ≠ .ret ∧
    ∃ imm, s.instruction.imm = some imm ∧
      (s.instruction.pcUpdate ≠ .regular ∧ o = s.offset + imm ∨
        s.instruction.pcUpdate = .jnz ∧ o = s.offset + 2)

/-- A block has to start at the offset. -/
def IsLeader (sites : List Site) (o : Int) : Prop := o = 0 ∨ ∃ s ∈ sites, MakesLeader s o

variable {sites : List Site} {blocks : List Block} {s : Site} {o : Int}

theorem mem_leadersOf : o ∈ leadersOf s ↔ MakesLeader s o := by
  unfold leadersOf MakesLeader
  dsimp only
  split_ifs with h
  · simp only [List.not_mem_nil, false_iff]
    tauto
  · obtain ⟨hcall, hret⟩ := not_or.1 h
    cases s.instruction.imm with
    | none => simp
    | some imm => cases s.instruction.pcUpdate <;> simp [hcall, hret]

theorem mem_leaders : o ∈ leaders sites ↔ IsLeader sites o := by
  simp [leaders, IsLeader, mem_leadersOf]

theorem jumpsTo_mem_leaders (hs : s ∈ sites) (himm : s.instruction.JumpsByImmediate)
    (hjump : s.instruction.JumpsAlways ∨ s.instruction.JumpsIf) : s.jumpsTo ∈ leaders sites := by
  obtain ⟨hnop, imm, hsome⟩ := himm.nop hjump
  have hpc : s.instruction.pcUpdate ≠ .regular := by
    rcases hjump with ⟨-, hpc, -⟩ | ⟨-, hpc⟩
    · simp [hpc]
    · simp [hpc]
  refine mem_leaders.2 (Or.inr ⟨s, hs, by simp [hnop], by simp [hnop], imm, hsome, Or.inl ⟨hpc, ?_⟩⟩)
  rw [Site.jumpsTo, hsome, Option.getD_some]

theorem after_mem_leaders (hs : s ∈ sites) (himm : s.instruction.JumpsByImmediate)
    (hjump : s.instruction.JumpsIf) : (s.offset : Int) + 2 ∈ leaders sites := by
  obtain ⟨hnop, imm, hsome⟩ := himm.nop (Or.inr hjump)
  exact mem_leaders.2 (Or.inr ⟨s, hs, by simp [hnop], by simp [hnop], imm, hsome,
    Or.inr ⟨hjump.2, rfl⟩⟩)

structure WellFormed (sites : List Site) (blocks : List Block) : Prop where
  joined : blocks.flatMap (·.sites) = sites
  start : ∀ b ∈ blocks, ∀ s, b.sites.head? = some s → b.start = s.offset
  inner : ∀ b ∈ blocks, ∀ s ∈ b.sites.tail, ¬ IsLeader sites s.offset
  edges : ∀ b ∈ blocks, ∀ e ∈ b.edges, ∀ s ∈ sites, e.target = s.offset →
    ∃ c ∈ blocks, c.sites.head? = some s ∧ (c.start : Int) = e.target

section Cut

variable {next n : Nat} (hcut : cut next sites = .ok (blocks, n))

include hcut

theorem start_of_cut {b : Block} (hb : b ∈ blocks) (hs : b.sites.head? = some s) :
    b.start = s.offset := by
  obtain ⟨before, after, hsection⟩ := isSection_of_mem hcut hb (List.mem_of_head? hs)
  simpa [hs] using hsection.start.symm

theorem target_mem_leaders (hjumps : ∀ s ∈ sites, s.instruction.JumpsByImmediate) {b : Block}
    (hb : b ∈ blocks) {e : Edge} (he : e ∈ b.edges) : e.target ∈ leaders sites := by
  obtain ⟨past, s, coming, hsites, -, hafter⟩ := edgeAfter_of_mem_edges hcut hb he
  have hs : s ∈ sites := by simp [hsites]
  cases hafter with
  | jump h => exact jumpsTo_mem_leaders hs (hjumps s hs) (Or.inl h)
  | zero h => exact after_mem_leaders hs (hjumps s hs) h
  | nonzero h => exact jumpsTo_mem_leaders hs (hjumps s hs) (Or.inr h)
  | falls h hnext hleads ht =>
    -- the target is that of an earlier jump
    obtain ⟨s', hs', hjump, rfl⟩ := exists_of_lastTarget ht
    have hs' : s' ∈ sites := by simp [hsites, hs']
    exact jumpsTo_mem_leaders hs' (hjumps s' hs') (Or.inl hjump)

theorem wellFormed_of_cut (hjumps : ∀ s ∈ sites, s.instruction.JumpsByImmediate) :
    WellFormed sites blocks where
  joined := flatMap_sites_of_cut hcut
  start := fun b hb s hs => start_of_cut hcut hb hs
  inner := by
    intro b hb s hs
    obtain ⟨before, after, hsection⟩ := isSection_of_mem hcut hb (List.mem_of_mem_tail hs)
    rw [← mem_leaders]
    exact hsection.inner s hs
  edges := by
    intro b hb e he s hs htarget
    have hleads : (s.offset : Int) ∈ leaders sites := htarget ▸ target_mem_leaders hcut hjumps hb he
    obtain ⟨c, hc, hhead⟩ := exists_block_of_leader hcut hs hleads
    exact ⟨c, hc, hhead, by rw [start_of_cut hcut hc hhead, htarget]⟩

end Cut

/-- The marks of phi blocks do not matter. -/
theorem WellFormed.markPhi (h : WellFormed sites blocks) : WellFormed sites (markPhi blocks) := by
  have hback : ∀ b ∈ FlowGraph.markPhi blocks, ∃ b₀ ∈ blocks,
      b₀.start = b.start ∧ b₀.sites = b.sites ∧ b₀.edges = b.edges := by
    intro b hb
    obtain ⟨i, hi, rfl⟩ := List.mem_mapIdx.1 hb
    exact ⟨blocks[i], List.getElem_mem hi, rfl, rfl, rfl⟩
  refine ⟨?_, fun b hb s hs => ?_, fun b hb s hs => ?_, fun b hb e he s hs htarget => ?_⟩
  · rw [List.flatMap_def, map_markPhi _ (fun _ _ => rfl), ← List.flatMap_def]
    exact h.joined
  · obtain ⟨b₀, hb₀, hstart, hsites, -⟩ := hback b hb
    rw [← hstart]
    exact h.start b₀ hb₀ s (hsites ▸ hs)
  · obtain ⟨b₀, hb₀, -, hsites, -⟩ := hback b hb
    exact h.inner b₀ hb₀ s (hsites ▸ hs)
  · obtain ⟨b₀, hb₀, -, -, hedges⟩ := hback b hb
    obtain ⟨c, hc, hhead, hstart⟩ := h.edges b₀ hb₀ e (hedges ▸ he) s hs htarget
    obtain ⟨i, hi, rfl⟩ := List.mem_iff_getElem.1 hc
    exact ⟨_, List.mem_mapIdx.2 ⟨i, hi, rfl⟩, hhead, hstart⟩

/-- The blocks of every function are well formed, and so are those of its graph when it can be drawn. -/
theorem blocks_wellFormed (hne : sites ≠ []) (hjumps : ∀ s ∈ sites, s.instruction.JumpsByImmediate)
    (next : Nat) : ∃ blocks n, cut next sites = .ok (blocks, n) ∧ WellFormed sites blocks ∧
      ∀ p function g m, build p function sites next = .ok g m → WellFormed sites g.blocks := by
  obtain ⟨s, rest, rfl⟩ := List.exists_cons_of_ne_nil hne
  refine ⟨_, _, rfl, wellFormed_of_cut rfl hjumps, fun p function g m hbuild => ?_⟩
  obtain ⟨blocks, hcut, hblocks⟩ := blocks_of_build hbuild
  rw [hblocks]
  exact (wellFormed_of_cut hcut hjumps).markPhi

/-- A branch with two alternatives, the second of which calls. -/
def twoWays : List Site :=
  [.pushing 0 .fp .fp .op1 (-1) (-3) none, .jumping 1 .jnz 6,
    .pushing 3 .fp .imm .op1 (-1) 1 (some 1), .jumping 5 .jumpRel 4, .calling 7 (-7) "twoWays",
    .returning 9]

theorem blocks_wellFormed_twoWays : (∀ s ∈ twoWays, s.instruction.JumpsByImmediate) ∧
    ∃ blocks n, cut 0 twoWays = .ok (blocks, n) ∧ WellFormed twoWays blocks ∧
      blocks.map (·.start) = [0, 0, 3, 7, 9] := by
  have hjumps : ∀ s ∈ twoWays, s.instruction.JumpsByImmediate := by decide
  obtain ⟨blocks, n, hcut, hformed, -⟩ := blocks_wellFormed (by simp [twoWays]) hjumps 0
  have hstarts : (cut 0 twoWays).map (fun r => r.1.map (·.start)) = .ok [0, 0, 3, 7, 9] := by
    decide
  rw [hcut] at hstarts
  exact ⟨hjumps, blocks, n, hcut, hformed, Except.ok.inj hstarts⟩

end FlowGraph

end Cairoscope
