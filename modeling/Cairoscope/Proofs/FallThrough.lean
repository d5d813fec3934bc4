import Cairoscope.Proofs.WellFormed
import Mathlib.Data.List.Nodup

/-! Where fall-through edges go. Control that runs off the end of a block goes on at the next
instruction, but the edge that the walk draws there leads to the target of the last relative jump before
it, and without such a jump there is no edge. So the edges are right exactly when that target is the
next instruction wherever a block runs into another. -/

namespace Cairoscope

namespace Instruction

/-- Neither a return nor, outside a call, a jump. -/
def StepsOn (i : Instruction) : Prop := i.opcode ≠ .ret ∧ (i.opcode = .call ∨ i.pcUpdate = .regular)

def JumpsAbsolutely (i : Instruction) : Prop :=
  i.opcode ≠ .ret ∧ i.opcode ≠ .call ∧ i.pcUpdate = .jump

theorem goesOn_iff (i : Instruction) :
    i.GoesOn ↔ (i.StepsOn ∧ i.pcUpdate ≠ .jnz) ∨ i.JumpsAbsolutely := by
  unfold GoesOn StepsOn JumpsAbsolutely
  cases i.pcUpdate with
  | regular => simp
  | jump =>
    by_cases hcall : i.opcode = .call
    · simp [hcall]
    · simp [hcall]
  | jumpRel => simp
  | jnz => simp

theorem JumpsAbsolutely.not_stepsOn {i : Instruction} (h : i.JumpsAbsolutely) : ¬ i.StepsOn := by
  rintro ⟨-, hcall | hregular⟩
  · exact h.2.1 hcall
  · simp [h.2.2] at hregular

end Instruction

namespace FlowGraph

/-- The block holds the instruction `x`, and `y` after it starts a block. -/
structure EndsBefore (sites : List Site) (blocks : List Block) (b : Block) (past : List Site)
    (x y : Site) : Prop where
  follows : ∃ coming, sites = past ++ x :: y :: coming
  holds : x ∈ b.sites
  starts : ∃ c ∈ blocks, c.sites.head? = some y

/-- Where control runs on from one block into the next an edge leads there, and no other edge falls
through. -/
structure FallsThrough (sites : List Site) (blocks : List Block) : Prop where
  complete : ∀ b ∈ blocks, ∀ past x y, EndsBefore sites blocks b past x y → x.instruction.StepsOn →
    ∃ e ∈ b.edges, e.kind = .fallthrough ∧ e.target = y.offset
  exact : ∀ b ∈ blocks, ∀ e ∈ b.edges, e.kind = .fallthrough →
    ∃ past x y, EndsBefore sites blocks b past x y ∧ x.instruction.StepsOn ∧ e.target = y.offset

variable {sites past past' coming coming' : List Site} {blocks : List Block} {next n : Nat}
  {b : Block} {x x' y y' : Site}

theorem nodup_of_increasing (h : sites.Pairwise fun x y => x.offset < y.offset) : sites.Nodup :=
  h.imp fun hlt heq => hlt.ne (congrArg Site.offset heq)

theorem split_unique (hnodup : sites.Nodup) (h : sites = past ++ x :: coming)
    (h' : sites = past' ++ x :: coming') : past = past' ∧ coming = coming' := by
  subst h
  have hnot : x ∉ past ++ coming := (List.nodup_cons.1 (List.nodup_middle.1 hnodup)).1
  rw [List.mem_append, not_or] at hnot
  obtain ⟨hpast, -, hcoming⟩ := (List.append_cons_inj_of_notMem hnot.1 hnot.2).1 h'
  exact ⟨hpast, hcoming⟩

section Cut

variable (hcut : cut next sites = .ok (blocks, n)) (hnodup : sites.Nodup)

include hcut hnodup

/-- After the first instruction, blocks start at leaders only. -/
theorem EndsBefore.leads (h : EndsBefore sites blocks b past x y) :
    (y.offset : Int) ∈ leaders sites := by
  obtain ⟨coming, hsites⟩ := h.follows
  obtain ⟨c, hc, hhead⟩ := h.starts
  obtain ⟨before, after, hsection⟩ := isSection_of_mem hcut hc (List.mem_of_head? hhead)
  obtain ⟨rest, hrest⟩ := List.head?_eq_some_iff.1 hhead
  have hfollows : sites = (past ++ [x]) ++ y :: coming := by simp [hsites]
  have hheads : sites = before ++ y :: (rest ++ after) := by simp [hsection.split, hrest]
  obtain ⟨hbefore, -⟩ := split_unique hnodup hfollows hheads
  rw [← start_of_cut hcut hc hhead]
  exact hsection.opens.resolve_left (by simp [← hbefore])

theorem EndsBefore.getLast? (hb : b ∈ blocks) (h : EndsBefore sites blocks b past x y) :
    b.sites.getLast? = some x := by
  obtain ⟨before, after, hsection⟩ := isSection_of_mem hcut hb h.holds
  obtain ⟨u, v, hrun⟩ := List.append_of_mem h.holds
  obtain ⟨coming, hsites⟩ := h.follows
  have hholds : sites = (before ++ u) ++ x :: (v ++ after) := by simp [hsection.split, hrun]
  obtain ⟨-, hafter⟩ := split_unique hnodup hsites hholds
  cases v with
  | nil => simp [hrun]
  | cons z v =>
    -- then `y` is a leader inside the block
    obtain ⟨rfl, -⟩ := List.cons.inj hafter
    refine absurd (h.leads hcut hnodup) (hsection.inner y ?_)
    rw [hrun]
    cases u <;> simp

theorem EndsBefore.unique (hb : b ∈ blocks) (h : EndsBefore sites blocks b past x y)
    (h' : EndsBefore sites blocks b past' x' y') : past = past' ∧ x = x' ∧ y = y' := by
  obtain rfl : x = x' :=
    Option.some.inj ((h.getLast? hcut hnodup hb).symm.trans (h'.getLast? hcut hnodup hb))
  obtain ⟨coming, hsites⟩ := h.follows
  obtain ⟨coming', hsites'⟩ := h'.follows
  obtain ⟨hpast, hcoming⟩ := split_unique hnodup hsites hsites'
  exact ⟨hpast, rfl, (List.cons.inj hcoming).1⟩

theorem fallthrough_mem_edges_iff (hb : b ∈ blocks) {o : Nat} {u : Int} :
    ⟨o, u, .fallthrough⟩ ∈ b.edges ↔ ∃ past x y, EndsBefore sites blocks b past x y ∧
      x.instruction.GoesOn ∧ o = x.offset ∧ lastTarget past = some u := by
  constructor
  · intro he
    obtain ⟨past, x, coming, hsites, hx, hafter⟩ := edgeAfter_of_mem_edges hcut hb he
    cases hafter with
    | falls h hnext hleads ht =>
      obtain ⟨rest, rfl⟩ := List.head?_eq_some_iff.1 hnext
      have hstarts := exists_block_of_leader hcut (by simp [hsites]) hleads
      exact ⟨past, x, _, ⟨⟨rest, hsites⟩, hx, hstarts⟩, h, rfl, ht⟩
  · rintro ⟨past, x, y, hends, hgoes, rfl, ht⟩
    obtain ⟨past', coming', hsites', hedges⟩ := mem_edges_of_mem hcut hb hends.holds
    obtain ⟨coming, hsites⟩ := hends.follows
    obtain ⟨rfl, rfl⟩ := split_unique hnodup hsites hsites'
    exact hedges _ (.falls hgoes rfl (hends.leads hcut hnodup) ht)

end Cut

/-- The fall-through edge of a block leads to the target of the last relative jump before its end. The
edges lead to the next instruction, and are all there, exactly when that target is the next
instruction after each end of a block that does not jump, and none comes before one that jumps
absolutely. -/
theorem fallsThrough_iff_lastTarget (hcut : cut next sites = .ok (blocks, n))
    (hincreasing : sites.Pairwise fun x y => x.offset < y.offset) :
    (∀ b ∈ blocks, ∀ o u, ⟨o, u, .fallthrough⟩ ∈ b.edges ↔
      ∃ past x y, EndsBefore sites blocks b past x y ∧ x.instruction.GoesOn ∧ o = x.offset ∧
        lastTarget past = some u) ∧
    (FallsThrough sites blocks ↔
      ∀ b ∈ blocks, ∀ past x y, EndsBefore sites blocks b past x y →
        (x.instruction.StepsOn →
          x.instruction.pcUpdate ≠ .jnz ∧ lastTarget past = some (y.offset : Int)) ∧
        (x.instruction.JumpsAbsolutely → lastTarget past = none)) := by
  have hnodup := nodup_of_increasing hincreasing
  refine ⟨fun b hb o u => fallthrough_mem_edges_iff hcut hnodup hb,
    fun h b hb past x y hends => ⟨fun hsteps => ?_, fun habsolute => ?_⟩, fun h => ⟨?_, ?_⟩⟩
  · obtain ⟨⟨o, u, kind⟩, he, rfl, rfl⟩ := h.complete b hb past x y hends hsteps
    obtain ⟨past', x', y', hends', hgoes, -, ht⟩ := (fallthrough_mem_edges_iff hcut hnodup hb).1 he
    obtain ⟨rfl, rfl, rfl⟩ := hends.unique hcut hnodup hb hends'
    exact ⟨hgoes.2.2, ht⟩
  · -- an edge would have to come from another end of the block
    by_contra htarget
    obtain ⟨u, hu⟩ := Option.ne_none_iff_exists'.1 htarget
    have hgoes : x.instruction.GoesOn := x.instruction.goesOn_iff.2 (Or.inr habsolute)
    have he := (fallthrough_mem_edges_iff hcut hnodup hb).2 ⟨past, x, y, hends, hgoes, rfl, hu⟩
    obtain ⟨past', x', y', hends', hsteps, -⟩ := h.exact b hb _ he rfl
    obtain ⟨-, rfl, -⟩ := hends.unique hcut hnodup hb hends'
    exact habsolute.not_stepsOn hsteps
  · intro b hb past x y hends hsteps
    obtain ⟨hjnz, ht⟩ := (h b hb past x y hends).1 hsteps
    have hgoes : x.instruction.GoesOn := x.instruction.goesOn_iff.2 (Or.inl ⟨hsteps, hjnz⟩)
    have he := (fallthrough_mem_edges_iff hcut hnodup hb).2 ⟨past, x, y, hends, hgoes, rfl, ht⟩
    exact ⟨_, he, rfl, rfl⟩
  · rintro b hb ⟨o, u, kind⟩ he rfl
    obtain ⟨past, x, y, hends, hgoes, -, ht⟩ := (fallthrough_mem_edges_iff hcut hnodup hb).1 he
    rcases x.instruction.goesOn_iff.1 hgoes with ⟨hsteps, -⟩ | habsolute
    · have hy := ((h b hb past x y hends).1 hsteps).2
      exact ⟨past, x, y, hends, hsteps, Option.some.inj (ht.symm.trans hy)⟩
    · have hnone := (h b hb past x y hends).2 habsolute
      simp [hnone] at ht

/-- A test of the argument that leads over one push. -/
def pushUnless : List Site :=
  [.pushing 0 .fp .fp .op1 (-1) (-3) none, .jumping 1 .jnz 4,
    .pushing 3 .fp .imm .op1 (-1) 1 (some 1), .returning 5]

theorem pushUnless_edge_missing : ∃ blocks n, cut 0 pushUnless = .ok (blocks, n) ∧
    ¬ FallsThrough pushUnless blocks ∧ ∃ b ∈ blocks, ∃ past x y,
      EndsBefore pushUnless blocks b past x y ∧ x.instruction.StepsOn ∧
        ∀ o u, ⟨o, u, .fallthrough⟩ ∉ b.edges := by
  obtain ⟨blocks, n, hcut⟩ : ∃ blocks n, cut 0 pushUnless = .ok (blocks, n) := ⟨_, _, rfl⟩
  have hincreasing : pushUnless.Pairwise fun x y => x.offset < y.offset := by decide
  have hnodup : pushUnless.Nodup := nodup_of_increasing hincreasing
  obtain ⟨hedge, hfalls⟩ := fallsThrough_iff_lastTarget hcut hincreasing
  obtain ⟨b, hb, hholds⟩ := exists_block_of_mem hcut
    (s := .pushing 3 .fp .imm .op1 (-1) 1 (some 1)) (by simp [pushUnless])
  have hstarts := exists_block_of_leader hcut (s := .returning 5) (by simp [pushUnless]) (by decide)
  have hends : EndsBefore pushUnless blocks b (pushUnless.take 2) _ _ := ⟨⟨[], rfl⟩, hholds, hstarts⟩
  have hsteps : (Site.pushing 3 .fp .imm .op1 (-1) 1 (some 1)).instruction.StepsOn :=
    ⟨by decide, Or.inr rfl⟩
  have htarget : lastTarget (pushUnless.take 2) = none := rfl
  refine ⟨blocks, n, hcut, fun h => ?_, b, hb, _, _, _, hends, hsteps, fun o u he => ?_⟩
  · have hfive := ((hfalls.1 h b hb _ _ _ hends).1 hsteps).2
    simp [htarget] at hfive
  · obtain ⟨past, x, y, hends', -, -, hu⟩ := (hedge b hb o u).1 he
    obtain ⟨rfl, -, -⟩ := hends.unique hcut hnodup hb hends'
    simp [htarget] at hu

end FlowGraph

end Cairoscope
