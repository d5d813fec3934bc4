import Cairoscope.FlowGraph.Merge
import Cairoscope.Proofs.Outcome
import Mathlib.Data.Finset.Defs
import Mathlib.Data.List.Chain
import Mathlib.Data.List.Perm.Subperm
import Mathlib.Data.Multiset.MapFold
import Mathlib.Logic.Function.Iterate
import Mathlib.Logic.Relation

/-! The search for the variables that meet at a block is exact. It ends if and only if going back through
blocks without variables never leads to a circle of them, and then it finds the last variable of the first
block with variables once for each way back to it. -/

namespace Cairoscope.FlowGraph

variable {blocks level : List Block} {b p q : Block}

structure Search where
  queue : List Block
  found : List Nat

/-- The first block of the queue gives its last variable; if it has none, its parents are queued. -/
def Search.step (blocks : List Block) : Search → Search
  | ⟨[], found⟩ => ⟨[], found⟩
  | ⟨p :: queue, found⟩ => match p.allocated.getLast? with
    | some n => ⟨queue, found ++ [n]⟩
    | none => ⟨queue ++ parentsAmong blocks p, found⟩

/-- The loop that starts with the parents of a block comes to an empty queue. -/
def Ends (blocks : List Block) (b : Block) (found : List Nat) : Prop :=
  ∃ n, (Search.step blocks)^[n] ⟨parentsAmong blocks b, []⟩ = ⟨[], found⟩

-- Level by level: a round over all blocks of the queue leaves their parents in it.

def foundIn (level : List Block) : List Nat := level.filterMap fun p => p.allocated.getLast?

def back (blocks level : List Block) : List Block :=
  (level.filter fun p => p.allocated.isEmpty).flatMap (parentsAmong blocks)

@[simp] theorem back_nil (blocks : List Block) : back blocks [] = [] := rfl

theorem iterate_back_nil (blocks : List Block) (n : Nat) : (back blocks)^[n] [] = [] :=
  Function.iterate_fixed (back_nil blocks) n

theorem iterate_step_level (blocks level rest : List Block) (found : List Nat) :
    (Search.step blocks)^[level.length] ⟨level ++ rest, found⟩ =
      ⟨rest ++ back blocks level, found ++ foundIn level⟩ := by
  induction level generalizing rest found with
  | nil => simp [foundIn]
  | cons p level ih =>
    rw [List.length_cons, Function.iterate_succ_apply, List.cons_append, Search.step]
    cases hlast : p.allocated.getLast? with
    | some n =>
      have hsome : p.allocated.isEmpty = false := by
        rw [List.isEmpty_eq_false_iff]
        rintro hnil
        simp [hnil] at hlast
      simp only [ih, back, foundIn, List.filter_cons, hsome, List.filterMap_cons, hlast]
      simp
    | none =>
      have hnone : p.allocated.isEmpty = true := by simpa using hlast
      simp only [List.append_assoc, ih, back, foundIn, List.filter_cons, hnone, List.filterMap_cons, hlast]
      simp

theorem iterate_step_nil (found : List Nat) (n : Nat) :
    (Search.step blocks)^[n] ⟨[], found⟩ = ⟨[], found⟩ :=
  Function.iterate_fixed rfl n

/-- The loop can end in one way only. -/
theorem found_unique {s : Search} {m n : Nat} {found found' : List Nat}
    (h : (Search.step blocks)^[m] s = ⟨[], found⟩) (h' : (Search.step blocks)^[n] s = ⟨[], found'⟩) :
    found = found' := by
  rcases Nat.le_total m n with hle | hle
  · obtain ⟨k, rfl⟩ := Nat.exists_eq_add_of_le' hle
    rw [Function.iterate_add_apply, h, iterate_step_nil] at h'
    exact (Search.mk.inj h').2
  · obtain ⟨k, rfl⟩ := Nat.exists_eq_add_of_le' hle
    rw [Function.iterate_add_apply, h', iterate_step_nil] at h
    exact (Search.mk.inj h).2.symm

/-- If the loop ends, some level is empty. -/
theorem iterate_back_of_step {n : Nat} {found result : List Nat}
    (h : (Search.step blocks)^[n] ⟨level, found⟩ = ⟨[], result⟩) :
    ∃ fuel, (back blocks)^[fuel] level = [] := by
  induction n using Nat.strong_induction_on generalizing level found with
  | _ n ih =>
    by_cases hnil : level = []
    · exact ⟨0, hnil⟩
    have hround : level.length ≤ n := by
      by_contra hshort
      -- before the end of the round there is a block of the level left
      have hsteps := iterate_step_level blocks (level.take n) (level.drop n) found
      rw [List.take_append_drop, List.length_take_of_le (by omega), h] at hsteps
      have hleft : level.drop n ≠ [] := by
        rw [Ne, List.drop_eq_nil_iff]
        omega
      simp [hleft] at hsteps
    obtain ⟨m, rfl⟩ := Nat.exists_eq_add_of_le' hround
    have hsteps := iterate_step_level blocks level [] found
    rw [List.append_nil, List.nil_append] at hsteps
    rw [Function.iterate_add_apply, hsteps] at h
    have hpos : 0 < level.length := List.length_pos_iff.2 hnil
    obtain ⟨fuel, hfuel⟩ := ih m (by omega) h
    exact ⟨fuel + 1, hfuel⟩

/-- What the next levels give, as many as `fuel`. -/
def foundBy (blocks : List Block) : Nat → List Block → List Nat
  | 0, _ => []
  | fuel + 1, level => foundIn level ++ foundBy blocks fuel (back blocks level)

theorem foundBy_nil (blocks : List Block) (fuel : Nat) : foundBy blocks fuel [] = [] := by
  induction fuel with
  | zero => rfl
  | succ fuel ih => exact ih

theorem foundBy_eq_flatMap (blocks : List Block) (fuel : Nat) (level : List Block) :
    foundBy blocks fuel level = (List.range fuel).flatMap fun n => foundIn ((back blocks)^[n] level) := by
  induction fuel generalizing level with
  | zero => rfl
  | succ fuel ih =>
    rw [foundBy, ih, List.range_succ_eq_map, List.flatMap_cons, List.flatMap_map]
    rfl

theorem exists_steps_of_level {fuel : Nat} (hfuel : (back blocks)^[fuel] level = []) (found : List Nat) :
    ∃ n, (Search.step blocks)^[n] ⟨level, found⟩ = ⟨[], found ++ foundBy blocks fuel level⟩ := by
  induction fuel generalizing level found with
  | zero =>
    obtain rfl : level = [] := hfuel
    exact ⟨0, by simp [foundBy]⟩
  | succ fuel ih =>
    rw [Function.iterate_succ_apply] at hfuel
    obtain ⟨n, hn⟩ := ih hfuel (found ++ foundIn level)
    have hsteps := iterate_step_level blocks level [] found
    rw [List.append_nil, List.nil_append] at hsteps
    refine ⟨n + level.length, ?_⟩
    rw [Function.iterate_add_apply, hsteps, hn, List.append_assoc]
    rfl

/-- The search with `fuel` levels gives what they give, if that leaves an empty one. -/
theorem mergedFrom_eq_some_iff {fuel : Nat} {found : List Nat} :
    mergedFrom blocks fuel level = some found ↔
      (back blocks)^[fuel] level = [] ∧ found = foundBy blocks fuel level := by
  induction fuel generalizing level found with
  | zero =>
    cases level with
    | nil => simp [mergedFrom, foundBy, eq_comm]
    | cons p level => simp [mergedFrom]
  | succ fuel ih =>
    cases level with
    | nil => simp [mergedFrom, iterate_back_nil, foundBy_nil, eq_comm]
    | cons p level =>
      have hone : mergedFrom blocks (fuel + 1) (p :: level) =
          (mergedFrom blocks fuel (back blocks (p :: level))).map (foundIn (p :: level) ++ ·) := by
        exact Option.map_eq_bind.symm
      rw [hone, Option.map_eq_some_iff]
      simp only [ih, Function.iterate_succ_apply, foundBy]
      constructor
      · rintro ⟨rest, ⟨hend, rfl⟩, rfl⟩
        exact ⟨hend, rfl⟩
      · rintro ⟨hend, rfl⟩
        exact ⟨_, ⟨hend, rfl⟩, rfl⟩

-- Circles. A level that is not empty is the end of a chain of blocks, of which all but the last have no
-- variables.

/-- One step back, from a block without variables. -/
def Passes (blocks : List Block) (p q : Block) : Prop :=
  p.allocated = [] ∧ q ∈ parentsAmong blocks p

/-- Going back from the block, and on through blocks without variables, leads to a circle of such blocks. -/
def MeetsCircle (blocks : List Block) (b : Block) : Prop :=
  ∃ p ∈ parentsAmong blocks b, ∃ q, Relation.ReflTransGen (Passes blocks) p q ∧
    Relation.TransGen (Passes blocks) q q

theorem mem_of_mem_parentsAmong (h : q ∈ parentsAmong blocks p) : q ∈ blocks := by
  obtain ⟨r, hr, hq⟩ := List.mem_flatMap.1 h
  obtain ⟨_, -, rfl⟩ := List.mem_map.1 hq
  exact hr

theorem mem_back : q ∈ back blocks level ↔ ∃ p ∈ level, Passes blocks p q := by
  simp only [back, Passes, List.mem_flatMap, List.mem_filter, List.isEmpty_iff, and_assoc]

theorem iterate_back_ne_nil_iff {n : Nat} : (back blocks)^[n] level ≠ [] ↔
    ∃ p ∈ level, ∃ chain, (p :: chain).IsChain (Passes blocks) ∧ chain.length = n := by
  induction n generalizing level with
  | zero =>
    constructor
    · intro hlevel
      obtain ⟨p, hp⟩ := List.exists_mem_of_ne_nil level hlevel
      exact ⟨p, hp, [], .singleton p, rfl⟩
    · rintro ⟨p, hp, -⟩
      exact List.ne_nil_of_mem hp
  | succ n ih =>
    rw [Function.iterate_succ_apply, ih]
    constructor
    · rintro ⟨q, hq, chain, hchain, hlength⟩
      obtain ⟨p, hp, hpq⟩ := mem_back.1 hq
      exact ⟨p, hp, q :: chain, .cons_cons hpq hchain, by rw [List.length_cons, hlength]⟩
    · rintro ⟨p, hp, chain, hchain, hlength⟩
      obtain ⟨q, chain, rfl⟩ := List.exists_cons_of_length_eq_add_one hlength
      obtain ⟨hpq, hchain⟩ := List.isChain_cons_cons.1 hchain
      exact ⟨q, mem_back.2 ⟨p, hp, hpq⟩, chain, hchain, by simpa using hlength⟩

/-- On the way to a circle there is a chain of any length. -/
theorem exists_chain_of_circle (hcircle : Relation.TransGen (Passes blocks) q q)
    (hp : Relation.TransGen (Passes blocks) p q) (n : Nat) :
    ∃ chain, (p :: chain).IsChain (Passes blocks) ∧ chain.length = n := by
  induction n generalizing p with
  | zero => exact ⟨[], .singleton p, rfl⟩
  | succ n ih =>
    obtain ⟨r, hpr, hrq⟩ := Relation.TransGen.head'_iff.1 hp
    have hr : Relation.TransGen (Passes blocks) r q := by
      rcases Relation.reflTransGen_iff_eq_or_transGen.1 hrq with rfl | hrq
      · exact hcircle
      · exact hrq
    obtain ⟨chain, hchain, hlength⟩ := ih hr
    exact ⟨r :: chain, .cons_cons hpr hchain, by rw [List.length_cons, hlength]⟩

/-- Where there is no circle, a chain has at most as many blocks as the graph. -/
theorem length_of_chain {chain : List Block} (hp : p ∈ blocks)
    (hfree : ∀ q, Relation.ReflTransGen (Passes blocks) p q → ¬ Relation.TransGen (Passes blocks) q q)
    (h : (p :: chain).IsChain (Passes blocks)) : chain.length < blocks.length := by
  have hpairs : (p :: chain).Pairwise (Relation.TransGen (Passes blocks)) :=
    (h.imp fun _ _ hstep => .single hstep).pairwise
  have hfrom : ∀ q ∈ p :: chain, Relation.ReflTransGen (Passes blocks) p q := by
    intro q hq
    rcases List.mem_cons.1 hq with rfl | hq
    · exact .refl
    · exact ((List.pairwise_cons.1 hpairs).1 q hq).to_reflTransGen
  have hnodup : (p :: chain).Nodup := by
    refine hpairs.imp_of_mem fun {q r} hq _ hqr => ?_
    rintro rfl
    exact hfree q (hfrom q hq) hqr
  have hsubset : p :: chain ⊆ blocks := by
    intro q hq
    rcases List.mem_cons.1 hq with rfl | hq
    · exact hp
    · obtain ⟨r, -, -, hr⟩ := Relation.TransGen.tail'_iff.1 ((List.pairwise_cons.1 hpairs).1 q hq)
      exact mem_of_mem_parentsAmong hr
  exact (List.subperm_of_subset hnodup hsubset).length_le

theorem iterate_back_of_circle (h : MeetsCircle blocks b) (n : Nat) :
    (back blocks)^[n] (parentsAmong blocks b) ≠ [] := by
  obtain ⟨p, hp, q, hpq, hcircle⟩ := h
  obtain ⟨chain, hchain, hlength⟩ := exists_chain_of_circle hcircle (.trans_right hpq hcircle) n
  exact iterate_back_ne_nil_iff.2 ⟨p, hp, chain, hchain, hlength⟩

theorem iterate_back_of_no_circle (h : ¬ MeetsCircle blocks b) {n : Nat} (hn : blocks.length ≤ n) :
    (back blocks)^[n] (parentsAmong blocks b) = [] := by
  by_contra hne
  obtain ⟨p, hp, chain, hchain, rfl⟩ := iterate_back_ne_nil_iff.1 hne
  have hshort := length_of_chain (mem_of_mem_parentsAmong hp)
    (fun q hpq hcircle => h ⟨p, hp, q, hpq, hcircle⟩) hchain
  omega

-- Ways back. An edge is given by the place of its block, and its own place in the block.

/-- The edges lead back from the block to another, and all blocks between have no variables. -/
inductive Way (blocks : List Block) (b : Block) : List (Nat × Nat) → Block → Prop
  | first {i k : Nat} {p : Block} (place : blocks[i]? = some p)
      (edge : p.targets[k]? = some (b.start : Int)) : Way blocks b [(i, k)] p
  | next {edges : List (Nat × Nat)} {i k : Nat} {p q : Block} (before : Way blocks b edges p)
      (bare : p.allocated = []) (place : blocks[i]? = some q)
      (edge : q.targets[k]? = some (p.start : Int)) : Way blocks b (edges ++ [(i, k)]) q

def arrivals (blocks : List Block) (b : Block) : List ((Nat × Nat) × Block) :=
  blocks.zipIdx.flatMap fun x =>
    (x.1.targets.zipIdx.filter fun y => y.1 == (b.start : Int)).map fun y => ((x.2, y.2), x.1)

theorem mem_arrivals {i k : Nat} : ((i, k), p) ∈ arrivals blocks b ↔
    blocks[i]? = some p ∧ p.targets[k]? = some (b.start : Int) := by
  unfold arrivals
  simp only [List.mem_flatMap, List.mem_map, List.mem_filter, Prod.exists, Prod.mk.injEq, beq_iff_eq,
    List.mk_mem_zipIdx_iff_getElem?]
  constructor
  · rintro ⟨_, _, hp, t, _, ⟨ht, rfl⟩, ⟨rfl, rfl⟩, rfl⟩
    exact ⟨hp, ht⟩
  · rintro ⟨hp, ht⟩
    exact ⟨p, i, hp, _, k, ⟨ht, rfl⟩, ⟨rfl, rfl⟩, rfl⟩

/-- The blocks that the edges leave are the parents. -/
theorem map_arrivals (blocks : List Block) (b : Block) :
    (arrivals blocks b).map Prod.snd = parentsAmong blocks b := by
  have hone : ∀ (p : Block) (ts : List Int) (k : Nat),
      ((ts.zipIdx k).filter fun y => y.1 == (b.start : Int)).map (fun _ => p) =
        (ts.filter fun t => t == (b.start : Int)).map fun _ => p := by
    intro p ts
    induction ts with
    | nil => simp
    | cons t ts ih =>
      intro k
      rw [List.zipIdx_cons, List.filter_cons, List.filter_cons]
      split_ifs
      · rw [List.map_cons, List.map_cons, ih]
      · exact ih _
  calc (arrivals blocks b).map Prod.snd
      = blocks.zipIdx.flatMap fun x =>
          (x.1.targets.filter fun t => t == (b.start : Int)).map fun _ => x.1 := by
        simp only [arrivals, List.map_flatMap, List.map_map, Function.comp_def, hone]
    _ = (blocks.zipIdx.map Prod.fst).flatMap fun p =>
          (p.targets.filter fun t => t == (b.start : Int)).map fun _ => p := by rw [List.flatMap_map]
    _ = parentsAmong blocks b := by rw [List.zipIdx_map_fst]; rfl

theorem pairwise_zipIdx {α : Type} (as : List α) : as.zipIdx.Pairwise fun x y => x.2 ≠ y.2 := by
  have hnodup : (as.zipIdx.map Prod.snd).Nodup := by
    rw [List.zipIdx_map_snd]
    exact List.nodup_range'
  exact List.pairwise_map.1 hnodup

theorem pairwise_arrivals (blocks : List Block) (b : Block) :
    (arrivals blocks b).Pairwise fun x y => x.1 ≠ y.1 := by
  refine List.pairwise_flatMap.2 ⟨fun x _ => ?_, ?_⟩
  · refine List.pairwise_map.2 (((pairwise_zipIdx x.1.targets).filter _).imp fun hne heq => ?_)
    exact hne (Prod.mk.inj heq).2
  · refine (pairwise_zipIdx blocks).imp fun hne u hu w hw heq => ?_
    obtain ⟨_, -, rfl⟩ := List.mem_map.1 hu
    obtain ⟨_, -, rfl⟩ := List.mem_map.1 hw
    exact hne (Prod.mk.inj heq).1

/-- Each way to a block without variables goes on along all edges that lead to that block. -/
def further (blocks : List Block) (ways : List (List (Nat × Nat) × Block)) :
    List (List (Nat × Nat) × Block) :=
  (ways.filter fun w => w.2.allocated.isEmpty).flatMap fun w =>
    (arrivals blocks w.2).map fun x => (w.1 ++ [x.1], x.2)

/-- The ways of `n + 1` edges. -/
def ways (blocks : List Block) (b : Block) (n : Nat) : List (List (Nat × Nat) × Block) :=
  (further blocks)^[n] ((arrivals blocks b).map fun x => ([x.1], x.2))

theorem ways_succ (blocks : List Block) (b : Block) (n : Nat) :
    ways blocks b (n + 1) = further blocks (ways blocks b n) :=
  Function.iterate_succ_apply' _ _ _

/-- The levels of the search are the ends of the ways. -/
theorem map_ways (blocks : List Block) (b : Block) (n : Nat) :
    (ways blocks b n).map Prod.snd = (back blocks)^[n] (parentsAmong blocks b) := by
  induction n with
  | zero => exact List.map_map.trans (map_arrivals blocks b)
  | succ n ih =>
    rw [ways_succ, Function.iterate_succ_apply', ← ih]
    simp only [further, back, List.map_flatMap, List.map_map, List.filter_map, List.flatMap_map,
      Function.comp_def, map_arrivals]

theorem Way.length_pos {edges : List (Nat × Nat)} (h : Way blocks b edges p) : 0 < edges.length := by
  cases h with
  | first place edge => exact Nat.one_pos
  | next before bare place edge => simp

theorem mem_further {ways : List (List (Nat × Nat) × Block)} {edges : List (Nat × Nat)} :
    (edges, q) ∈ further blocks ways ↔ ∃ before p i k, (before, p) ∈ ways ∧ p.allocated = [] ∧
      blocks[i]? = some q ∧ q.targets[k]? = some (p.start : Int) ∧ edges = before ++ [(i, k)] := by
  unfold further
  simp only [List.mem_flatMap, List.mem_filter, List.mem_map, Prod.exists, Prod.mk.injEq,
    List.isEmpty_iff]
  constructor
  · rintro ⟨before, p, ⟨hw, hbare⟩, i, k, _, harrival, rfl, rfl⟩
    obtain ⟨hplace, hedge⟩ := mem_arrivals.1 harrival
    exact ⟨before, p, i, k, hw, hbare, hplace, hedge, rfl⟩
  · rintro ⟨before, p, i, k, hw, hbare, hplace, hedge, rfl⟩
    exact ⟨before, p, ⟨hw, hbare⟩, i, k, q, mem_arrivals.2 ⟨hplace, hedge⟩, rfl, rfl⟩

theorem mem_ways {n : Nat} {edges : List (Nat × Nat)} :
    (edges, p) ∈ ways blocks b n ↔ Way blocks b edges p ∧ edges.length = n + 1 := by
  induction n generalizing edges p with
  | zero =>
    constructor
    · intro h
      obtain ⟨⟨⟨i, k⟩, q⟩, harrival, hpair⟩ := List.mem_map.1 h
      obtain ⟨rfl, rfl⟩ := Prod.mk.inj hpair
      obtain ⟨hplace, hedge⟩ := mem_arrivals.1 harrival
      exact ⟨.first hplace hedge, rfl⟩
    · rintro ⟨hway, hlength⟩
      cases hway with
      | first place edge => exact List.mem_map.2 ⟨_, mem_arrivals.2 ⟨place, edge⟩, rfl⟩
      | next before bare place edge =>
        have := before.length_pos
        rw [List.length_append, List.length_singleton] at hlength
        omega
  | succ n ih =>
    rw [ways_succ, mem_further]
    constructor
    · rintro ⟨before, p, i, k, hw, hbare, hplace, hedge, rfl⟩
      obtain ⟨hway, hlength⟩ := ih.1 hw
      exact ⟨.next hway hbare hplace hedge, by simp [hlength]⟩
    · rintro ⟨hway, hlength⟩
      cases hway with
      | first place edge => simp at hlength
      | next before bare place edge =>
        exact ⟨_, _, _, _, ih.2 ⟨before, by simpa using hlength⟩, bare, place, edge, rfl⟩

/-- A longer way would be on a level that is empty. -/
theorem Way.length_le {edges : List (Nat × Nat)} (h : Way blocks b edges p)
    (hcircle : ¬ MeetsCircle blocks b) : edges.length ≤ blocks.length := by
  by_contra hlong
  have hmem : (edges, p) ∈ ways blocks b (edges.length - 1) := mem_ways.2 ⟨h, by omega⟩
  have hlevel := List.mem_map_of_mem (f := Prod.snd) hmem
  rw [map_ways, iterate_back_of_no_circle hcircle (by omega)] at hlevel
  exact List.not_mem_nil hlevel

theorem pairwise_ways (blocks : List Block) (b : Block) (n : Nat) :
    (ways blocks b n).Pairwise fun w w' => w.1 ≠ w'.1 := by
  induction n with
  | zero =>
    refine List.pairwise_map.2 ((pairwise_arrivals blocks b).imp fun hne heq => hne ?_)
    simpa using heq
  | succ n ih =>
    rw [ways_succ]
    refine List.pairwise_flatMap.2 ⟨fun w _ => ?_, (ih.filter _).imp fun hne u hu v hv heq => ?_⟩
    · refine List.pairwise_map.2 ((pairwise_arrivals blocks w.2).imp fun hne heq => hne ?_)
      simpa using heq
    · obtain ⟨x, -, rfl⟩ := List.mem_map.1 hu
      obtain ⟨y, -, rfl⟩ := List.mem_map.1 hv
      exact hne (List.append_inj_left' heq rfl)

/-- The ways of at most `n` edges to a block with variables, each with the last variable there. -/
def finishedWays (blocks : List Block) (b : Block) (n : Nat) : List (List (Nat × Nat) × Nat) :=
  (List.range n).flatMap fun m => (ways blocks b m).filterMap fun w =>
    (w.2.allocated.getLast?).map fun v => (w.1, v)

theorem map_finishedWays (blocks : List Block) (b : Block) (n : Nat) :
    (finishedWays blocks b n).map Prod.snd = foundBy blocks n (parentsAmong blocks b) := by
  rw [foundBy_eq_flatMap]
  simp only [finishedWays, foundIn, ← map_ways, List.map_flatMap, List.map_filterMap, List.filterMap_map,
    Option.map_map, Function.comp_def, Option.map_id']

theorem mem_finishedWays {n v : Nat} {edges : List (Nat × Nat)} :
    (edges, v) ∈ finishedWays blocks b n ↔
      (∃ p, Way blocks b edges p ∧ p.allocated.getLast? = some v) ∧ edges.length ≤ n := by
  unfold finishedWays
  simp only [List.mem_flatMap, List.mem_range, List.mem_filterMap, Prod.exists, Option.map_eq_some_iff,
    Prod.mk.injEq, mem_ways]
  constructor
  · rintro ⟨m, hm, _, p, ⟨hway, hlength⟩, _, hlast, rfl, rfl⟩
    exact ⟨⟨p, hway, hlast⟩, by omega⟩
  · rintro ⟨⟨p, hway, hlast⟩, hlength⟩
    have := hway.length_pos
    exact ⟨edges.length - 1, by omega, edges, p, ⟨hway, by omega⟩, v, hlast, rfl, rfl⟩

theorem nodup_finishedWays (blocks : List Block) (b : Block) (n : Nat) :
    (finishedWays blocks b n).Nodup := by
  refine List.pairwise_flatMap.2 ⟨fun m _ => ?_, List.nodup_range.imp fun hne x hx y hy heq => hne ?_⟩
  · refine List.pairwise_filterMap.2 ((pairwise_ways blocks b m).imp fun hne x hx y hy heq => hne ?_)
    obtain ⟨_, -, rfl⟩ := Option.map_eq_some_iff.1 hx
    obtain ⟨_, -, rfl⟩ := Option.map_eq_some_iff.1 hy
    exact (Prod.mk.inj heq).1
  · have hlength : ∀ m, ∀ z ∈ (ways blocks b m).filterMap (fun w =>
        (w.2.allocated.getLast?).map fun v => (w.1, v)), z.1.length = m + 1 := by
      intro m z hz
      obtain ⟨w, hw, hz⟩ := List.mem_filterMap.1 hz
      obtain ⟨_, -, rfl⟩ := Option.map_eq_some_iff.1 hz
      exact (mem_ways.1 hw).2
    have := hlength _ x hx
    have := hlength _ y hy
    subst heq
    omega

theorem ends_of_level {n : Nat} (h : (back blocks)^[n] (parentsAmong blocks b) = []) :
    Ends blocks b (foundBy blocks n (parentsAmong blocks b)) := by
  obtain ⟨m, hm⟩ := exists_steps_of_level h []
  exact ⟨m, hm⟩

theorem no_circle_of_ends {found : List Nat} (h : Ends blocks b found) : ¬ MeetsCircle blocks b := by
  obtain ⟨n, hn⟩ := h
  obtain ⟨fuel, hfuel⟩ := iterate_back_of_step hn
  exact fun hcircle => iterate_back_of_circle hcircle fuel hfuel

/-- The search gives what the loop gives: more levels than there are blocks need not be looked at. -/
theorem merged_eq_ok_iff {found : List Nat} : merged blocks b = .ok found ↔ Ends blocks b found := by
  have hmerged : merged blocks b = .ok found ↔
      mergedFrom blocks (blocks.length + 1) (parentsAmong blocks b) = some found := by
    unfold merged
    cases mergedFrom blocks (blocks.length + 1) (parentsAmong blocks b) <;> simp
  rw [hmerged, mergedFrom_eq_some_iff]
  constructor
  · rintro ⟨hend, rfl⟩
    exact ends_of_level hend
  · intro h
    have hend := iterate_back_of_no_circle (no_circle_of_ends h) (Nat.le_succ blocks.length)
    obtain ⟨m, hm⟩ := h
    obtain ⟨n, hn⟩ := ends_of_level hend
    exact ⟨hend, found_unique hm hn⟩

/-- The loop ends if and only if no circle of blocks without variables is met, and the search by levels
gives what the loop gives. That is the last variable of a block once for each way back to it, through blocks
without variables; there are finitely many such ways. -/
theorem merge_search_exact (blocks : List Block) (b : Block) :
    ((∃ found, Ends blocks b found) ↔ ¬ MeetsCircle blocks b) ∧
      (∀ found, merged blocks b = .ok found ↔ Ends blocks b found) ∧
      ∀ found, Ends blocks b found → ∃ finished : Finset (List (Nat × Nat) × Nat),
        (∀ edges v, (edges, v) ∈ finished ↔
          ∃ p, Way blocks b edges p ∧ p.allocated.getLast? = some v) ∧
        (found : Multiset Nat) = finished.val.map Prod.snd := by
  refine ⟨⟨fun ⟨found, h⟩ => no_circle_of_ends h, fun h => ?_⟩, fun found => merged_eq_ok_iff,
    fun found h => ?_⟩
  · exact ⟨_, ends_of_level (iterate_back_of_no_circle h le_rfl)⟩
  · have hcircle := no_circle_of_ends h
    obtain ⟨m, hm⟩ := h
    obtain ⟨n, hn⟩ := ends_of_level (iterate_back_of_no_circle hcircle le_rfl)
    refine ⟨⟨finishedWays blocks b blocks.length, nodup_finishedWays _ _ _⟩, fun edges v => ?_, ?_⟩
    · refine mem_finishedWays.trans (and_iff_left_of_imp ?_)
      rintro ⟨p, hway, -⟩
      exact hway.length_le hcircle
    · rw [found_unique hm hn, ← map_finishedWays]
      rfl

end Cairoscope.FlowGraph
