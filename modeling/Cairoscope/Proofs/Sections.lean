import Cairoscope.Proofs.Blocks
import Mathlib.Data.List.Basic
import Mathlib.Data.List.Induction

/-! The blocks of a function as sections of its instructions. A section starts at a leader or at the
first instruction and goes on to the next leader, and its edges leave after its instructions. Where
every jump has an immediate, an edge to an instruction of the function leads to the start of a block. -/

namespace Cairoscope

namespace Instruction

def JumpsAlways (i : Instruction) : Prop := i.opcode ≠ .ret ∧ i.pcUpdate = .jumpRel ∧ i.opcode ≠ .call

def JumpsIf (i : Instruction) : Prop := i.opcode ≠ .ret ∧ i.pcUpdate = .jnz

/-- The code takes the instruction for none of a return, a relative and a conditional jump. -/
def GoesOn (i : Instruction) : Prop :=
  i.opcode ≠ .ret ∧ ¬ (i.pcUpdate = .jumpRel ∧ i.opcode ≠ .call) ∧ i.pcUpdate ≠ .jnz

instance (i : Instruction) : Decidable i.JumpsAlways :=
  inferInstanceAs (Decidable (i.opcode ≠ .ret ∧ i.pcUpdate = .jumpRel ∧ i.opcode ≠ .call))

theorem kinds (i : Instruction) : i.opcode = .ret ∨ i.JumpsAlways ∨ i.JumpsIf ∨ i.GoesOn := by
  unfold JumpsAlways JumpsIf GoesOn
  tauto

end Instruction

def Site.jumpsTo (s : Site) : Int := s.offset + s.instruction.imm.getD 0

namespace FlowGraph

section Edges

variable {starts : List Int} {t : Option Int} {s : Site} {next : Option Site}

theorem edgesAfter_of_ret (h : s.instruction.opcode = .ret) :
    edgesAfter starts t s next = ([], t) := by
  simp [edgesAfter, Instruction.isReturn, h]

theorem edgesAfter_of_jumpsAlways (h : s.instruction.JumpsAlways) :
    edgesAfter starts t s next = ([⟨s.offset, s.jumpsTo, .unconditional⟩], some s.jumpsTo) := by
  simp [edgesAfter, Instruction.isReturn, h.1, h.2, Site.jumpsTo]

theorem edgesAfter_of_jumpsIf (h : s.instruction.JumpsIf) :
    edgesAfter starts t s next = ([⟨s.offset, s.offset + 2, .conditionalTrue⟩,
      ⟨s.offset, s.jumpsTo, .conditionalFalse⟩], t) := by
  simp [edgesAfter, Instruction.isReturn, h.1, h.2, Site.jumpsTo]

theorem edgesAfter_of_goesOn (h : s.instruction.GoesOn) : (edgesAfter starts t s next).2 = t ∧
    ∀ e, e ∈ (edgesAfter starts t s next).1 ↔ ∃ y u, next = some y ∧ (y.offset : Int) ∈ starts ∧
      t = some u ∧ e = ⟨s.offset, u, .fallthrough⟩ := by
  obtain ⟨hret, hjump, hjnz⟩ := h
  unfold edgesAfter
  simp only [Instruction.isReturn, hret, hjump, hjnz, decide_false, Bool.false_eq_true, if_false]
  cases next with
  | none => simp
  | some y =>
    cases t with
    | none => simp
    | some u =>
      by_cases hy : (y.offset : Int) ∈ starts
      · simp [hy]
      · simp [hy]

inductive EdgeAfter (starts : List Int) (t : Option Int) (s : Site) (next : Option Site) : Edge → Prop
  | jump (h : s.instruction.JumpsAlways) :
      EdgeAfter starts t s next ⟨s.offset, s.jumpsTo, .unconditional⟩
  | zero (h : s.instruction.JumpsIf) :
      EdgeAfter starts t s next ⟨s.offset, s.offset + 2, .conditionalTrue⟩
  | nonzero (h : s.instruction.JumpsIf) :
      EdgeAfter starts t s next ⟨s.offset, s.jumpsTo, .conditionalFalse⟩
  | falls (h : s.instruction.GoesOn) {y : Site} {u : Int} (hnext : next = some y)
      (hleads : (y.offset : Int) ∈ starts) (ht : t = some u) :
      EdgeAfter starts t s next ⟨s.offset, u, .fallthrough⟩

theorem mem_edgesAfter {e : Edge} :
    e ∈ (edgesAfter starts t s next).1 ↔ EdgeAfter starts t s next e := by
  constructor
  · intro he
    rcases s.instruction.kinds with h | h | h | h
    · rw [edgesAfter_of_ret h] at he
      cases he
    · rw [edgesAfter_of_jumpsAlways h] at he
      obtain rfl := List.mem_singleton.1 he
      exact .jump h
    · rw [edgesAfter_of_jumpsIf h] at he
      rcases List.mem_pair.1 he with rfl | rfl
      · exact .zero h
      · exact .nonzero h
    · obtain ⟨y, u, hnext, hleads, ht, rfl⟩ := ((edgesAfter_of_goesOn h).2 e).1 he
      exact .falls h hnext hleads ht
  · intro he
    cases he with
    | jump h => simp [edgesAfter_of_jumpsAlways h]
    | zero h => simp [edgesAfter_of_jumpsIf h]
    | nonzero h => simp [edgesAfter_of_jumpsIf h]
    | falls h hnext hleads ht =>
      exact ((edgesAfter_of_goesOn h).2 _).2 ⟨_, _, hnext, hleads, ht, rfl⟩

end Edges

def lastTarget (past : List Site) : Option Int :=
  past.foldl (fun t s => if s.instruction.JumpsAlways then some s.jumpsTo else t) none

theorem lastTarget_concat (past : List Site) (s : Site) : lastTarget (past ++ [s]) =
    if s.instruction.JumpsAlways then some s.jumpsTo else lastTarget past := by
  simp [lastTarget]

theorem snd_edgesAfter (starts : List Int) (t : Option Int) (s : Site) (next : Option Site) :
    (edgesAfter starts t s next).2 =
      if s.instruction.JumpsAlways then some s.jumpsTo else t := by
  rcases s.instruction.kinds with h | h | h | h
  · rw [edgesAfter_of_ret h, if_neg fun h' => h'.1 h]
  · rw [edgesAfter_of_jumpsAlways h, if_pos h]
  · rw [edgesAfter_of_jumpsIf h, if_neg (by simp [Instruction.JumpsAlways, h.2])]
  · rw [(edgesAfter_of_goesOn h).1, if_neg fun h' => h.2.1 h'.2]

theorem exists_of_lastTarget {past : List Site} {t : Int} (h : lastTarget past = some t) :
    ∃ s ∈ past, s.instruction.JumpsAlways ∧ s.jumpsTo = t := by
  induction past using List.reverseRecOn with
  | nil => cases h
  | append_singleton past s ih =>
    rw [lastTarget_concat] at h
    split_ifs at h with hjumps
    · exact ⟨s, by simp, hjumps, Option.some.inj h⟩
    · obtain ⟨s', hs', hjump⟩ := ih h
      exact ⟨s', by simp [hs'], hjump⟩

/-- The edges that leave a run of instructions. What was before says where the last jump went, and
what comes after whether the run ends before a leader. -/
def edgesAlong (starts : List Int) (before : List Site) : List Site → List Site → List Edge
  | [], _ => []
  | s :: rest, after => (edgesAfter starts (lastTarget before) s (rest ++ after).head?).1 ++
      edgesAlong starts (before ++ [s]) rest after

theorem edgesAlong_concat (starts : List Int) (before run after : List Site) (s : Site) :
    edgesAlong starts before (run ++ [s]) after = edgesAlong starts before run (s :: after) ++
      (edgesAfter starts (lastTarget (before ++ run)) s after.head?).1 := by
  induction run generalizing before with
  | nil => simp [edgesAlong]
  | cons r run ih => simp [edgesAlong, ih]

theorem mem_edgesAlong {starts : List Int} {before run after : List Site} {e : Edge} :
    e ∈ edgesAlong starts before run after ↔ ∃ u s v, run = u ++ s :: v ∧
      EdgeAfter starts (lastTarget (before ++ u)) s (v ++ after).head? e := by
  induction run generalizing before with
  | nil => simp [edgesAlong]
  | cons r run ih =>
    rw [edgesAlong, List.mem_append, mem_edgesAfter, ih]
    constructor
    · rintro (h | ⟨u, s, v, rfl, h⟩)
      · exact ⟨[], r, run, rfl, by simpa using h⟩
      · exact ⟨r :: u, s, v, rfl, by simpa using h⟩
    · rintro ⟨u, s, v, hrun, h⟩
      rcases List.cons_eq_append_iff.1 hrun with ⟨rfl, hcons⟩ | ⟨u, rfl, rfl⟩
      · obtain ⟨rfl, rfl⟩ := List.cons.inj hcons
        exact Or.inl (by simpa using h)
      · exact Or.inr ⟨u, s, v, rfl, by simpa using h⟩

/-- A block that holds a run of instructions, as far as it has been cut. -/
structure IsRun (sites : List Site) (b : Block) (before after : List Site) : Prop where
  split : sites = before ++ b.sites ++ after
  start : b.sites.head?.map (·.offset) = some b.start
  opens : before = [] ∨ (b.start : Int) ∈ leaders sites
  inner : ∀ s ∈ b.sites.tail, (s.offset : Int) ∉ leaders sites
  edges : b.edges = edgesAlong (leaders sites) before b.sites after

/-- A run that ends before a leader or with the function. -/
structure IsSection (sites : List Site) (b : Block) (before after : List Site) : Prop
    extends IsRun sites b before after where
  stops : ∀ s, after.head? = some s → (s.offset : Int) ∈ leaders sites

namespace IsRun

variable {sites before after : List Site} {b : Block} {s : Site}

theorem ne_nil (h : IsRun sites b before after) : b.sites ≠ [] := by
  intro hnil
  simpa [hnil] using h.start

theorem single (id : Nat) (hsites : sites = before ++ s :: after)
    (hopens : before = [] ∨ (s.offset : Int) ∈ leaders sites) :
    IsRun sites (extend (Block.fresh id s) s
      (edgesAfter (leaders sites) (lastTarget before) s after.head?).1) before after where
  split := by simp [hsites, extend, Block.fresh]
  start := rfl
  opens := hopens
  inner := by simp [extend, Block.fresh]
  edges := by simp [extend, Block.fresh, edgesAlong]

theorem extend (h : IsRun sites b before (s :: after)) (hleads : (s.offset : Int) ∉ leaders sites) :
    IsRun sites (extend b s
      (edgesAfter (leaders sites) (lastTarget (before ++ b.sites)) s after.head?).1) before after where
  split := by simp [h.split, FlowGraph.extend]
  start := by
    change (b.sites ++ [s]).head?.map (·.offset) = some b.start
    rw [List.head?_append_of_ne_nil _ h.ne_nil]
    exact h.start
  opens := h.opens
  inner := by
    intro x hx
    rw [FlowGraph.extend, List.tail_append_of_ne_nil h.ne_nil] at hx
    rcases List.mem_append.1 hx with hx | hx
    · exact h.inner x hx
    · rwa [List.mem_singleton.1 hx]
  edges := by rw [FlowGraph.extend, edgesAlong_concat, ← h.edges]

end IsRun

/-- A block without instructions, or a section. -/
def IsBlockOf (sites : List Site) (b : Block) : Prop :=
  (b.sites = [] ∧ b.edges = []) ∨ ∃ before after, IsSection sites b before after

/-- The walk after the instructions `past`. Until the first of them no run is open. -/
structure Walked (sites past coming : List Site) (first : Bool) (c : Cut) : Prop where
  split : sites = past ++ coming
  target : c.jumpTarget = lastTarget past
  done : ∀ b ∈ c.done, IsBlockOf sites b
  unopened : first = true → past = [] ∧ c.current.sites = [] ∧ c.current.edges = []
  opened : first = false → ∃ before, IsRun sites c.current before coming

variable {sites past coming : List Site} {first : Bool} {c : Cut}

theorem Walked.step {s : Site} (h : Walked sites past (s :: coming) first c) :
    Walked sites (past ++ [s]) coming false
      (cutStep (leaders sites) first c s coming.head?) := by
  have hcuts := cuts_cutStep (leaders sites) first c s coming.head?
  have htarget : (cutStep (leaders sites) first c s coming.head?).jumpTarget =
      lastTarget (past ++ [s]) := by
    change (edgesAfter (leaders sites) c.jumpTarget s coming.head?).2 = _
    rw [snd_edgesAfter, lastTarget_concat, h.target]
  refine ⟨by simp [h.split], htarget, ?_, by simp, fun _ => ?_⟩
  · cases hcuts with
    | continues _ _ hdone _ => rw [hdone]; exact h.done
    | opens _ hdone _ => rw [hdone]; exact h.done
    | cuts hleads hdone _ =>
      rw [hdone]
      intro b hb
      rcases List.mem_append.1 hb with hb | hb
      · exact h.done b hb
      · rw [List.mem_singleton.1 hb]
        cases first with
        | true => exact Or.inl (h.unopened rfl).2
        | false =>
          -- the run that was open ends before a leader
          obtain ⟨before, hrun⟩ := h.opened rfl
          refine Or.inr ⟨before, s :: coming, ⟨hrun.split, hrun.start, hrun.opens, hrun.inner,
            hrun.edges⟩, fun x hx => ?_⟩
          obtain rfl : s = x := by simpa using hx
          exact hleads
  · cases hcuts with
    | continues hleads hfirst _ hcurrent =>
      obtain ⟨before, hrun⟩ := h.opened hfirst
      obtain rfl : past = before ++ c.current.sites :=
        List.append_cancel_right (h.split.symm.trans hrun.split)
      rw [hcurrent, h.target]
      exact ⟨before, hrun.extend hleads⟩
    | cuts hleads _ hcurrent =>
      rw [hcurrent, h.target]
      exact ⟨past, IsRun.single c.nextId h.split (Or.inr hleads)⟩
    | opens hfirst _ hcurrent =>
      rw [hcurrent, h.target]
      exact ⟨past, IsRun.single c.nextId h.split (Or.inl (h.unopened hfirst).1)⟩

theorem Walked.all (h : Walked sites past coming first c) (hne : first = true → coming ≠ []) :
    Walked sites sites [] false (cutAll (leaders sites) first c coming) := by
  induction coming generalizing past first c with
  | nil =>
    obtain rfl : sites = past := by simpa using h.split
    cases first with
    | true => exact absurd rfl (hne rfl)
    | false => exact h
  | cons s rest ih => exact ih h.step (by simp)

/-- Each block of a function is a section of its instructions, except that the first may have none. -/
theorem isBlockOf_of_cut {next n : Nat} {blocks : List Block}
    (h : cut next sites = .ok (blocks, n)) : ∀ b ∈ blocks, IsBlockOf sites b := by
  obtain ⟨s, c, rfl, rfl⟩ := cutAll_of_cut h
  have hne : sites ≠ [] := by
    rintro rfl
    cases h
  have hstart : Walked sites [] sites true ⟨[], Block.fresh next s, none, next + 1⟩ :=
    ⟨rfl, rfl, by simp, fun _ => ⟨rfl, rfl, rfl⟩, by simp⟩
  have hwalk := hstart.all fun _ => hne
  intro b hb
  rcases List.mem_append.1 hb with hb | hb
  · exact hwalk.done b hb
  · rw [List.mem_singleton.1 hb]
    obtain ⟨before, hrun⟩ := hwalk.opened rfl
    exact Or.inr ⟨before, [], hrun, by simp⟩

section Blocks

variable {next n : Nat} {blocks : List Block} (hcut : cut next sites = .ok (blocks, n))

include hcut

theorem exists_block_of_mem {s : Site} (hs : s ∈ sites) : ∃ b ∈ blocks, s ∈ b.sites := by
  rw [← flatMap_sites_of_cut hcut] at hs
  exact List.mem_flatMap.1 hs

theorem isSection_of_mem {b : Block} (hb : b ∈ blocks) {s : Site} (hs : s ∈ b.sites) :
    ∃ before after, IsSection sites b before after := by
  refine (isBlockOf_of_cut hcut b hb).resolve_left fun hempty => ?_
  simp [hempty.1] at hs

/-- At each leader a block starts. -/
theorem exists_block_of_leader {s : Site} (hs : s ∈ sites) (hleads : (s.offset : Int) ∈ leaders sites) :
    ∃ b ∈ blocks, b.sites.head? = some s := by
  obtain ⟨b, hb, hsb⟩ := exists_block_of_mem hcut hs
  obtain ⟨before, after, hsection⟩ := isSection_of_mem hcut hb hsb
  refine ⟨b, hb, ?_⟩
  cases hsites : b.sites with
  | nil => simp [hsites] at hsb
  | cons x rest =>
    rw [hsites] at hsb
    rcases List.mem_cons.1 hsb with rfl | hrest
    · rfl
    · exact absurd hleads (hsection.inner s (by simpa [hsites] using hrest))

/-- What leaves after an instruction is an edge of its block. -/
theorem mem_edges_of_mem {b : Block} (hb : b ∈ blocks) {s : Site} (hs : s ∈ b.sites) :
    ∃ past coming, sites = past ++ s :: coming ∧
      ∀ e, EdgeAfter (leaders sites) (lastTarget past) s coming.head? e → e ∈ b.edges := by
  obtain ⟨before, after, hsection⟩ := isSection_of_mem hcut hb hs
  obtain ⟨u, v, hrun⟩ := List.append_of_mem hs
  refine ⟨before ++ u, v ++ after, by simp [hsection.split, hrun], fun e he => ?_⟩
  rw [hsection.edges]
  exact mem_edgesAlong.2 ⟨u, s, v, hrun, he⟩

/-- An edge of a block leaves after an instruction of it. -/
theorem edgeAfter_of_mem_edges {b : Block} (hb : b ∈ blocks) {e : Edge} (he : e ∈ b.edges) :
    ∃ past s coming, sites = past ++ s :: coming ∧ s ∈ b.sites ∧
      EdgeAfter (leaders sites) (lastTarget past) s coming.head? e := by
  rcases isBlockOf_of_cut hcut b hb with ⟨-, hnone⟩ | ⟨before, after, hsection⟩
  · simp [hnone] at he
  · rw [hsection.edges] at he
    obtain ⟨u, s, v, hrun, hafter⟩ := mem_edgesAlong.1 he
    exact ⟨before ++ u, s, v ++ after, by simp [hsection.split, hrun], by simp [hrun], hafter⟩

end Blocks

end FlowGraph

end Cairoscope
