import Cairoscope.Proofs.LoadedCode
import Cairoscope.Proofs.Sierra.Stretches
import Cairoscope.Proofs.WellFormed

/-! Where the blocks of a function are placed. The walk that cuts a function has a block in hand before it
looks at the code. Where a block has to start at the first instruction, the one in hand is kept, without
code, and another is opened at the same offset. All other blocks hold code, and no two of them start at
one offset. -/

namespace Cairoscope

section Placement

variable {β : Type} {offsets : β → List Nat} {start : β → Nat} {blocks : List β} {entry : Nat}
  {isEmpty isKept : Prop}

/-- Every block holds code, and no two start at one offset. -/
def UniquelyPlaced (offsets : β → List Nat) (start : β → Nat) (blocks : List β) : Prop :=
  (∀ b ∈ blocks, offsets b ≠ []) ∧ (blocks.map start).Nodup

/-- Blocks that are uniquely placed but for the first one, which has no code if `isEmpty`, and then starts
at the entry. One that has code starts at the entry if `isKept`. -/
def PlacedFrom (offsets : β → List Nat) (start : β → Nat) (entry : Nat) (isEmpty isKept : Prop)
    (blocks : List β) : Prop :=
  ∃ runs, UniquelyPlaced offsets start runs ∧ (entry ∈ runs.map start ↔ isKept) ∧
    (¬ isEmpty ∧ blocks = runs ∨ isEmpty ∧ ∃ b, offsets b = [] ∧ start b = entry ∧ blocks = b :: runs)

/-- Runs of code in increasing order start in increasing order. -/
theorem uniquelyPlaced_of_increasing (hoffsets : (blocks.flatMap offsets).Pairwise (· < ·))
    (hstart : ∀ b ∈ blocks, (offsets b).head? = some (start b)) : UniquelyPlaced offsets start blocks := by
  refine ⟨fun b hb hnil => ?_, ?_⟩
  · have hhead := hstart b hb
    rw [hnil] at hhead
    cases hhead
  · obtain ⟨-, hapart⟩ := List.pairwise_flatMap.1 hoffsets
    refine List.pairwise_map.2 (hapart.imp_of_mem fun {a b} ha hb hlt => Nat.ne_of_lt ?_)
    exact hlt _ (List.mem_of_head? (hstart a ha)) _ (List.mem_of_head? (hstart b hb))

namespace PlacedFrom

variable (h : PlacedFrom offsets start entry isEmpty isKept blocks)

include h

theorem uniquelyPlaced_iff : UniquelyPlaced offsets start blocks ↔ ¬ isEmpty := by
  obtain ⟨runs, hruns, -, ⟨hempty, rfl⟩ | ⟨hempty, b, hnone, -, rfl⟩⟩ := h
  · exact iff_of_true hruns hempty
  · refine iff_of_false (fun hall => ?_) (not_not_intro hempty)
    exact hall.1 b List.mem_cons_self hnone

/-- An offset belongs to one block at most, unless it is the entry, and blocks with and without code start
there. -/
theorem count_le_one_iff (t : Nat) :
    (blocks.map start).count t ≤ 1 ↔ ¬ (t = entry ∧ isEmpty ∧ isKept) := by
  obtain ⟨runs, ⟨-, hnodup⟩, hkept, ⟨hempty, rfl⟩ | ⟨hempty, b, -, rfl, rfl⟩⟩ := h
  · exact iff_of_true (List.nodup_iff_count_le_one.1 hnodup t) fun htwo => hempty htwo.2.1
  · have hcount := List.nodup_iff_count_le_one.1 hnodup t
    rw [List.map_cons, List.count_cons, ← hkept]
    by_cases ht : t = start b
    · subst ht
      rw [← List.count_pos_iff, beq_self_eq_true, if_pos rfl]
      simp only [hempty, true_and]
      omega
    · rw [if_neg (by simpa using Ne.symm ht)]
      simp only [ht, false_and, not_false_eq_true, iff_true]
      exact hcount

end PlacedFrom

end Placement

namespace FlowGraph

/-- From a block with code on, all blocks get code. -/
theorem runs_of_cutAll (starts : List Int) {c : Cut} (hcurrent : c.current.sites ≠ []) (sites : List Site) :
    ∃ runs, (cutAll starts false c sites).done ++ [(cutAll starts false c sites).current] = c.done ++ runs ∧
      ∀ b ∈ runs, b.sites ≠ [] := by
  induction sites generalizing c with
  | nil => exact ⟨[c.current], rfl, by simpa using hcurrent⟩
  | cons s rest ih =>
    rw [cutAll]
    have hextend : ∀ b edges, (extend b s edges).sites ≠ [] := by simp [extend]
    cases cuts_cutStep starts false c s rest.head? with
    | continues _ _ hdone hcurrent' =>
      rw [← hdone]
      exact ih (hcurrent' ▸ hextend _ _)
    | cuts _ hdone hcurrent' =>
      obtain ⟨runs, hsplit, hruns⟩ := ih (hcurrent' ▸ hextend _ _)
      rw [hdone, List.append_assoc] at hsplit
      exact ⟨_, hsplit, List.forall_mem_cons.2 ⟨hcurrent, hruns⟩⟩
    | opens hfirst => cases hfirst

/-- The first block has no code exactly when a block has to start at the first instruction. -/
theorem runs_of_cut {next n : Nat} {entry : Site} {rest : List Site} {blocks : List Block}
    (h : cut next (entry :: rest) = .ok (blocks, n)) :
    ∃ runs, (∀ b ∈ runs, b.sites ≠ []) ∧
      (¬ IsLeader (entry :: rest) entry.offset ∧ blocks = runs ∨ IsLeader (entry :: rest) entry.offset ∧
        ∃ b, b.sites = [] ∧ b.start = entry.offset ∧ blocks = b :: runs) := by
  unfold cut at h
  obtain ⟨rfl, -⟩ := Prod.mk.inj (Except.ok.inj h)
  have hcurrent : (cutStep (leaders (entry :: rest)) true ⟨[], Block.fresh next entry, none, next + 1⟩ entry
      rest.head?).current.sites ≠ [] := by
    simp [cutStep]
  obtain ⟨runs, hsplit, hruns⟩ := runs_of_cutAll (leaders (entry :: rest)) hcurrent rest
  refine ⟨runs, hruns, ?_⟩
  rw [cutAll, hsplit, ← mem_leaders]
  by_cases hleads : (entry.offset : Int) ∈ leaders (entry :: rest)
  · exact .inr ⟨hleads, { Block.fresh next entry with stop := some entry.offset }, rfl, rfl,
      by simp [cutStep, hleads]⟩
  · exact .inl ⟨hleads, by simp [cutStep, hleads]⟩

theorem placedFrom_of_cut {next n : Nat} {entry : Site} {rest : List Site} {blocks : List Block}
    (hincreasing : ((entry :: rest).map (·.offset)).Pairwise (· < ·))
    (h : cut next (entry :: rest) = .ok (blocks, n)) :
    PlacedFrom (fun b => b.sites.map (·.offset)) (·.start) entry.offset
      (IsLeader (entry :: rest) entry.offset) True blocks := by
  obtain ⟨runs, hruns, hfirst⟩ := runs_of_cut h
  have hmem : ∀ b ∈ runs, b ∈ blocks := by
    rcases hfirst with ⟨-, rfl⟩ | ⟨-, b, -, -, rfl⟩
    · exact fun b hb => hb
    · exact fun b hb => List.mem_cons_of_mem _ hb
  have hjoined : runs.flatMap (·.sites) = entry :: rest := by
    rw [← flatMap_sites_of_cut h]
    rcases hfirst with ⟨-, rfl⟩ | ⟨-, b, hnone, -, rfl⟩
    · rfl
    · rw [List.flatMap_cons, hnone, List.nil_append]
  have hstart : ∀ b ∈ runs, (b.sites.map (·.offset)).head? = some b.start := by
    intro b hb
    obtain ⟨s, more, hsites⟩ := List.exists_cons_of_ne_nil (hruns b hb)
    rw [start_of_cut h (hmem b hb) (s := s) (by rw [hsites]; rfl), hsites]
    rfl
  refine ⟨runs, uniquelyPlaced_of_increasing ?_ hstart, iff_of_true ?_ trivial, ?_⟩
  · rwa [← List.map_flatMap, hjoined]
  · -- the first run holds the first instruction
    obtain ⟨b, more, rfl⟩ : ∃ b more, runs = b :: more := List.exists_cons_of_ne_nil (by rintro rfl; cases hjoined)
    obtain ⟨s, more', hsites⟩ := List.exists_cons_of_ne_nil (hruns b List.mem_cons_self)
    rw [List.flatMap_cons, hsites, List.cons_append] at hjoined
    obtain ⟨rfl, -⟩ := List.cons.inj hjoined
    refine List.mem_map.2 ⟨b, List.mem_cons_self, start_of_cut h (hmem b List.mem_cons_self) ?_⟩
    rw [hsites]
    rfl
  · simpa only [List.map_eq_nil_iff] using hfirst

end FlowGraph

namespace Sierra

theorem start_of_fills {starts : List Int} {before run after : List Statement} {b : Block}
    (h : Fills starts before run after b) : (b.statements.map (·.offset)).head? = some b.start := by
  rw [h.statements, List.head?_map]
  exact h.start

/-- The blocks after the first, which has no code exactly when a block has to start at the first
statement. -/
theorem runs_of_blocksFrom (starts : List Int) (entry : Statement) (rest : List Statement) :
    ∃ runs, (∀ b ∈ runs, ∃ before run after, Fills starts before run after b) ∧
      ((entry.offset : Int) ∉ starts ∧
        blocksFrom starts (Block.opened entry) true (entry :: rest) = runs ∨
      (entry.offset : Int) ∈ starts ∧
        blocksFrom starts (Block.opened entry) true (entry :: rest) = Block.opened entry :: runs) := by
  refine ⟨blocksFrom starts ((Block.opened entry).extend starts entry rest.head?) (endsBlock entry) rest,
    fun b hb => ?_, ?_⟩
  · obtain ⟨before, run, after, -, hfills⟩ := fills_of_mem_blocksFrom (fills_opened (.inl rfl)) rfl hb
    exact ⟨before, run, after, hfills⟩
  · by_cases hs : (entry.offset : Int) ∈ starts
    · exact .inr ⟨hs, blocksFrom_of_start hs⟩
    · exact .inl ⟨hs, blocksFrom_of_full hs⟩

/-- A block starts at the first statement exactly when it holds it. -/
theorem start_eq_entry_iff {entry : Statement} {rest : List Statement} {b : Block}
    (hnumbered : Numbered (entry :: rest)) (hsublist : b.statements.Sublist (entry :: rest))
    (hstart : (b.statements.map (·.offset)).head? = some b.start) :
    b.start = entry.offset ↔ entry ∈ b.statements := by
  obtain ⟨s, hs, hoffset⟩ : ∃ s, b.statements.head? = some s ∧ s.offset = b.start := by
    rwa [List.head?_map, Option.map_eq_some_iff] at hstart
  have hmem := List.mem_of_head? hs
  rw [← hoffset]
  constructor
  · intro heq
    rwa [← hnumbered.eq_of_offset (hsublist.subset hmem) List.mem_cons_self heq]
  · intro hentry
    have hleast := hnumbered.le_of_mem (hsublist.subset hmem)
    obtain ⟨more, hmore⟩ := List.head?_eq_some_iff.1 hs
    have hsorted := hnumbered.sorted.sublist hsublist
    rw [hmore] at hsorted hentry
    rcases List.mem_cons.1 hentry with rfl | hlater
    · rfl
    · have hless := (List.pairwise_cons.1 hsorted).1 entry hlater
      omega

theorem Function.placedFrom {f : Function} (hblocks : blocksOf f = .ok f.blocks)
    (hnumbered : Numbered f.statements) : ∃ entry rest, f.statements = entry :: rest ∧
      PlacedFrom (fun b => b.statements.map (·.offset)) (·.start) entry.offset (f.HasStart entry.offset)
        (¬ f.Loses entry.offset) f.blocks := by
  obtain ⟨entry, rest, hstatements, hcut⟩ := Function.blocks_eq hblocks
  obtain ⟨runs, hfills, hfirst⟩ := runs_of_blocksFrom (blockStarts f) entry rest
  rw [← hcut, mem_blockStarts] at hfirst
  have hjoined : f.blocks.flatMap (·.statements) = runs.flatMap (·.statements) := by
    rcases hfirst with ⟨-, hruns⟩ | ⟨-, hruns⟩
    · rw [hruns]
    · rw [hruns, List.flatMap_cons]
      rfl
  have hstart : ∀ b ∈ runs, (b.statements.map (·.offset)).head? = some b.start := by
    intro b hb
    obtain ⟨before, run, after, hb⟩ := hfills b hb
    exact start_of_fills hb
  have hsublist : (runs.flatMap (·.statements)).Sublist f.statements := by
    rw [← hjoined, Function.flatMap_blocks hblocks]
    exact kept_sublist _
  refine ⟨entry, rest, hstatements, runs, uniquelyPlaced_of_increasing ?_ hstart, ?_, ?_⟩
  · rw [← List.map_flatMap]
    exact (List.pairwise_map.2 hnumbered.sorted).sublist (hsublist.map _)
  · rw [← Function.mem_blocks_iff hblocks hnumbered (hstatements ▸ List.mem_cons_self), hjoined,
      List.mem_map, List.mem_flatMap]
    refine exists_congr fun b => and_congr_right fun hb => ?_
    rw [hstatements] at hnumbered hsublist
    have hinner : b.statements.Sublist (runs.flatMap (·.statements)) :=
      List.sublist_flatten_of_mem (List.mem_map_of_mem hb)
    exact start_eq_entry_iff hnumbered (hinner.trans hsublist) (hstart b hb)
  · rcases hfirst with ⟨hs, hruns⟩ | ⟨hs, hruns⟩
    · exact .inl ⟨hs, hruns⟩
    · exact .inr ⟨hs, Block.opened entry, rfl, rfl, hruns⟩

/-- The first statement stands at the start of the function, unless that is negative. -/
theorem Program.Loaded.hasStart_entry {src : Source} {p : Program} (h : p.Loaded src) {f : Function}
    (hf : f ∈ p.functions) {entry : Statement} {rest : List Statement}
    (hstatements : f.statements = entry :: rest) (hstart : 0 ≤ f.start) : f.HasStart entry.offset := by
  obtain ⟨last, hoffsets⟩ := h.offsets_function hf
  rw [hstatements, List.map_cons] at hoffsets
  have hlt : f.start.toNat < last := by
    by_contra hge
    rw [List.Ico.eq_nil_of_le (by omega)] at hoffsets
    cases hoffsets
  rw [List.Ico.eq_cons hlt] at hoffsets
  have hoffset := (List.cons.inj hoffsets).1
  exact .inl (by omega)

end Sierra

/-- The blocks of every function of a loaded contract hold code and start at offsets of their own, unless the
first instruction is at offset 0 or a jump leads there; then an empty block stands in front and starts there
too. The same goes for Sierra functions, whose start always makes a block start; there the block with the
first statement can be lost, and then the empty one is alone. -/
theorem uniquelyPlaced_iff_entry_not_leader (doc : Json) (text : String) :
    (∀ c, Contract.ofArtifact doc = .ok c → ∀ f ∈ c.functions, ∀ next, ∃ entry rest blocks n,
      f.sites = entry :: rest ∧ FlowGraph.cut next f.sites = .ok (blocks, n) ∧
      PlacedFrom (fun b => b.sites.map (·.offset)) (·.start) entry.offset
        (FlowGraph.IsLeader f.sites entry.offset) True blocks ∧
      (UniquelyPlaced (fun b => b.sites.map (·.offset)) (·.start) blocks ↔
        ¬ FlowGraph.IsLeader f.sites entry.offset) ∧
      ∀ t, (blocks.map (·.start)).count t ≤ 1 ↔
        ¬ (t = entry.offset ∧ FlowGraph.IsLeader f.sites entry.offset)) ∧
    (∀ p, Sierra.Program.load text .empty = .ok () p → ∀ f ∈ p.functions, ∃ entry rest,
      f.statements = entry :: rest ∧ (0 ≤ f.start → f.HasStart entry.offset) ∧
      PlacedFrom (fun b => b.statements.map (·.offset)) (·.start) entry.offset (f.HasStart entry.offset)
        (¬ f.Loses entry.offset) f.blocks ∧
      (UniquelyPlaced (fun b => b.statements.map (·.offset)) (·.start) f.blocks ↔
        ¬ f.HasStart entry.offset) ∧
      ∀ t, (f.blocks.map (·.start)).count t ≤ 1 ↔
        ¬ (t = entry.offset ∧ f.HasStart entry.offset ∧ ¬ f.Loses entry.offset)) := by
  refine ⟨fun c hc f hf next => ?_, fun p hp f hf => ?_⟩
  · have hlaid := Contract.laid_of_ofArtifact hc hf
    obtain ⟨entry, rest, hsites⟩ := List.exists_cons_of_ne_nil hlaid.ne_nil
    obtain ⟨blocks, n, hcut⟩ : ∃ blocks n, FlowGraph.cut next (entry :: rest) = .ok (blocks, n) := ⟨_, _, rfl⟩
    rw [hsites]
    have hplaced := FlowGraph.placedFrom_of_cut (hsites ▸ hlaid.increasing) hcut
    refine ⟨entry, rest, blocks, n, rfl, hcut, hplaced, hplaced.uniquelyPlaced_iff, fun t => ?_⟩
    rw [hplaced.count_le_one_iff, and_true]
  · obtain ⟨src, -, hloaded⟩ := Sierra.Program.loaded_of_load hp
    obtain ⟨entry, rest, hstatements, hplaced⟩ :=
      Sierra.Function.placedFrom (hloaded.functions f hf).blocks (hloaded.numbered hf)
    exact ⟨entry, rest, hstatements, hloaded.hasStart_entry hf hstatements, hplaced,
      hplaced.uniquelyPlaced_iff, hplaced.count_le_one_iff⟩

/-- The first of the two functions is at offset 0 and has two blocks there; the second, at offset 7, is
uniquely placed. A Sierra function has an empty block at its start. -/
theorem uniquelyPlaced_calling_twoReturns :
    (∃ c main twice, Contract.ofArtifact CallGraph.callingArtifact = .ok c ∧ c.functions = [main, twice] ∧
      (∃ blocks n, FlowGraph.cut 0 main.sites = .ok (blocks, n) ∧ 1 < (blocks.map (·.start)).count 0) ∧
      ∃ blocks n, FlowGraph.cut 0 twice.sites = .ok (blocks, n) ∧
        UniquelyPlaced (fun b => b.sites.map (·.offset)) (·.start) blocks) ∧
    ∃ p f, Sierra.Program.load Sierra.Program.twoReturns .empty = .ok () p ∧ f ∈ p.functions ∧
      ¬ UniquelyPlaced (fun b => b.statements.map (·.offset)) (·.start) f.blocks := by
  constructor
  · have hrun : (Contract.ofArtifact CallGraph.callingArtifact >>= fun c =>
        pure (c.functions.map fun f => (f.sites.map (·.offset), FlowGraph.leaders f.sites))) =
          .ok [([0, 2, 4, 6], [0]), ([7, 9], [0])] := by
      decide +kernel
    obtain ⟨c, hc, hfunctions⟩ := Outcome.bind_eq_ok.1 hrun
    obtain ⟨main, twice, hboth, ⟨hmain, hleads⟩, htwice, hleads'⟩ : ∃ main twice, c.functions = [main, twice] ∧
        (main.sites.map (·.offset) = [0, 2, 4, 6] ∧ FlowGraph.leaders main.sites = [0]) ∧
        twice.sites.map (·.offset) = [7, 9] ∧ FlowGraph.leaders twice.sites = [0] := by
      rw [Outcome.pure_eq_ok] at hfunctions
      obtain ⟨main, fs, hfs, hone, hrest⟩ := List.map_eq_cons_iff.1 hfunctions
      obtain ⟨twice, fs', rfl, htwo, hnone⟩ := List.map_eq_cons_iff.1 hrest
      obtain rfl := List.map_eq_nil_iff.1 hnone
      exact ⟨main, twice, hfs, Prod.mk.inj hone, Prod.mk.inj htwo⟩
    refine ⟨c, main, twice, hc, hboth, ?_, ?_⟩
    · obtain ⟨entry, rest, blocks, n, hsites, hcut, -, -, hcount⟩ :=
        (uniquelyPlaced_iff_entry_not_leader _ "").1 c hc main (by simp [hboth]) 0
      have hentry : entry.offset = 0 := by
        rw [hsites] at hmain
        exact (List.cons.inj hmain).1
      refine ⟨blocks, n, hcut, Nat.lt_of_not_le fun hone => (hcount 0).1 hone ⟨hentry.symm, ?_⟩⟩
      rw [← FlowGraph.mem_leaders, hleads, hentry]
      decide
    · obtain ⟨entry, rest, blocks, n, hsites, hcut, -, hplaced, -⟩ :=
        (uniquelyPlaced_iff_entry_not_leader _ "").1 c hc twice (by simp [hboth]) 0
      have hentry : entry.offset = 7 := by
        rw [hsites] at htwice
        exact (List.cons.inj htwice).1
      refine ⟨blocks, n, hcut, hplaced.2 ?_⟩
      rw [← FlowGraph.mem_leaders, hleads', hentry]
      decide
  · obtain ⟨p, hp, hcheck⟩ := Sierra.Program.exists_load Sierra.Program.twoReturns
      (fun p => p.functions.any fun f => decide (0 ≤ f.start)) (by decide +kernel)
    obtain ⟨f, hf, hstart⟩ := List.any_eq_true.1 hcheck
    obtain ⟨entry, rest, -, hstarts, -, hplaced, -⟩ :=
      (uniquelyPlaced_iff_entry_not_leader .null _).2 p hp f hf
    exact ⟨p, f, hp, hf, fun hunique => hplaced.1 hunique (hstarts (of_decide_eq_true hstart))⟩

end Cairoscope
