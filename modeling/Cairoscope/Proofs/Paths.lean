import Cairoscope.FlowGraph.Path
import Cairoscope.Proofs.Outcome
import Mathlib.Data.List.Chain
import Mathlib.Data.List.Nodup
import Mathlib.Logic.Function.Iterate
import Mathlib.Logic.Relation

/-! Paths through a flow graph. After `n` rounds the search has the paths of `n + 1` blocks and the
shorter ones that have come to an end. The search ends only if no circle can be reached, so a path
never arrives twice at the same offset. -/

namespace Cairoscope.FlowGraph

variable {blocks : List Block}

def Leads (blocks : List Block) (i j : Nat) : Prop :=
  ∃ b d e, blocks[i]? = some b ∧ blocks[j]? = some d ∧ e ∈ b.edges ∧ e.target = d.start

def IsEntry (blocks : List Block) (i : Nat) : Prop := i < blocks.length ∧ ∀ j, ¬ Leads blocks j i

theorem mem_next_iff {i j : Nat} : j ∈ next blocks i ↔ Leads blocks i j := by
  unfold next Leads
  cases hb : blocks[i]? with
  | none => simp
  | some b =>
    rw [List.mem_filter, List.mem_range]
    constructor
    · rintro ⟨hj, htarget⟩
      rw [List.getElem?_eq_getElem hj] at htarget ⊢
      obtain ⟨e, he, ht⟩ := List.mem_map.1 (List.contains_iff_mem.1 htarget)
      exact ⟨b, _, e, rfl, rfl, he, ht⟩
    · rintro ⟨b', d, e, hb', hd, he, ht⟩
      obtain rfl := Option.some.inj hb'
      rw [hd]
      exact ⟨(List.getElem?_eq_some_iff.1 hd).1, List.contains_iff_mem.2 (ht ▸ List.mem_map_of_mem he)⟩

theorem next_eq_nil_iff {i : Nat} : next blocks i = [] ↔ ∀ j, ¬ Leads blocks i j := by
  simp only [List.eq_nil_iff_forall_not_mem, mem_next_iff]

theorem parentsAmong_eq_nil_iff {i : Nat} {d : Block} (hd : blocks[i]? = some d) :
    parentsAmong blocks d = [] ↔ ∀ j, ¬ Leads blocks j i := by
  rw [parentsAmong, List.flatMap_eq_nil_iff]
  constructor
  · rintro hnone j ⟨b, d', e, hb, hd', he, ht⟩
    obtain rfl : d = d' := Option.some.inj (hd.symm.trans hd')
    have hempty := hnone b (List.mem_of_getElem? hb)
    rw [List.map_eq_nil_iff, List.filter_eq_nil_iff] at hempty
    exact hempty e.target (List.mem_map_of_mem he) (by simp [ht])
  · intro hnone b hb
    obtain ⟨j, hj⟩ := List.getElem?_of_mem hb
    rw [List.map_eq_nil_iff, List.filter_eq_nil_iff]
    intro t ht htarget
    obtain ⟨e, he, rfl⟩ := List.mem_map.1 ht
    exact hnone j ⟨b, d, e, hj, hd, he, by simpa using htarget⟩

theorem mem_entries_iff {i : Nat} : i ∈ entries blocks ↔ IsEntry blocks i := by
  rw [entries, List.mem_filter, List.mem_range, IsEntry]
  refine and_congr_right fun hi => ?_
  have hd := List.getElem?_eq_getElem hi
  rw [hd, ← parentsAmong_eq_nil_iff hd]
  exact List.isEmpty_iff

def startAt? (blocks : List Block) (i : Nat) : Option Int := blocks[i]?.map fun b => (b.start : Int)

theorem leads_iff {i j : Nat} : Leads blocks i j ↔
    ∃ b t, blocks[i]? = some b ∧ startAt? blocks j = some t ∧ t ∈ b.targets := by
  unfold startAt? Block.targets
  constructor
  · rintro ⟨b, d, e, hb, hd, he, ht⟩
    exact ⟨b, e.target, hb, by rw [hd, ht]; rfl, List.mem_map_of_mem he⟩
  · rintro ⟨b, t, hb, ht, hmem⟩
    obtain ⟨d, hd, rfl⟩ := Option.map_eq_some_iff.1 ht
    obtain ⟨e, he, htarget⟩ := List.mem_map.1 hmem
    exact ⟨b, d, e, hb, hd, he, htarget⟩

/-- What leads to a block leads to each block with the same start. -/
theorem Leads.congr {i j k : Nat} (h : Leads blocks i j)
    (hstart : startAt? blocks j = startAt? blocks k) : Leads blocks i k := by
  obtain ⟨b, t, hb, ht, hmem⟩ := leads_iff.1 h
  exact leads_iff.2 ⟨b, t, hb, hstart ▸ ht, hmem⟩

/-- Each block on a chain but the first has one before it, which the first one reaches. -/
theorem exists_before {u w : Nat} {rest : List Nat}
    (h : List.IsChain (Leads blocks) (u :: rest)) (hw : w ∈ rest) :
    ∃ x, Relation.ReflTransGen (Leads blocks) u x ∧ Leads blocks x w := by
  induction rest generalizing u with
  | nil => cases hw
  | cons v rest ih =>
    obtain ⟨huv, hchain⟩ := List.isChain_cons_cons.1 h
    rcases List.mem_cons.1 hw with rfl | hw
    · exact ⟨u, .refl, huv⟩
    · obtain ⟨x, hvx, hxw⟩ := ih hchain hw
      exact ⟨x, .head huv hvx, hxw⟩

/-- Where no circle can be reached, the blocks of a chain have different starts. -/
theorem pairwise_of_isChain {u : Nat} {rest : List Nat}
    (hacyclic : ∀ h, Relation.ReflTransGen (Leads blocks) u h →
      ¬ Relation.TransGen (Leads blocks) h h)
    (h : List.IsChain (Leads blocks) (u :: rest)) :
    (u :: rest).Pairwise fun v w => startAt? blocks v ≠ startAt? blocks w := by
  induction rest generalizing u with
  | nil => simp
  | cons v rest ih =>
    obtain ⟨huv, hchain⟩ := List.isChain_cons_cons.1 h
    rw [List.pairwise_cons]
    refine ⟨fun w hw hstart => ?_, ih (fun x hx => hacyclic x (.head huv hx)) hchain⟩
    -- what comes before `w` also leads to `u`
    obtain ⟨x, hux, hxw⟩ := exists_before h hw
    exact hacyclic u .refl (.tail' hux (hxw.congr hstart.symm))

/-- No circle can be reached from a block without parents. -/
def CircleFree (blocks : List Block) : Prop :=
  ∀ i, IsEntry blocks i → ∀ h, Relation.ReflTransGen (Leads blocks) i h →
    ¬ Relation.TransGen (Leads blocks) h h

/-- A path starts at a block without parents and follows the edges. -/
structure IsPath (blocks : List Block) (path : Path) : Prop where
  entry : ∃ i, IsEntry blocks i ∧ path.head? = some i
  chain : path.IsChain (Leads blocks)

namespace IsPath

variable {path rest : Path}

theorem ne_nil (h : IsPath blocks path) : path ≠ [] := by
  obtain ⟨i, -, hi⟩ := h.entry
  rintro rfl
  cases hi

theorem length_pos (h : IsPath blocks path) : 0 < path.length := List.length_pos_iff.2 h.ne_nil

theorem pairwise (h : IsPath blocks path) (hfree : CircleFree blocks) :
    path.Pairwise fun v w => startAt? blocks v ≠ startAt? blocks w := by
  obtain ⟨i, hi, hhead⟩ := h.entry
  obtain ⟨rest, rfl⟩ := List.head?_eq_some_iff.1 hhead
  exact pairwise_of_isChain (hfree i hi) h.chain

/-- The first part of a path is one, and can go on to the rest. -/
theorem of_append {j : Nat} (h : IsPath blocks (path ++ j :: rest)) (hne : path ≠ []) :
    IsPath blocks path ∧ j ∈ onward blocks path := by
  obtain ⟨i, hi, hhead⟩ := h.entry
  obtain ⟨hchain, -, hstep⟩ := List.isChain_append.1 h.chain
  rw [List.head?_append_of_ne_nil _ hne] at hhead
  refine ⟨⟨⟨i, hi, hhead⟩, hchain⟩, ?_⟩
  unfold onward
  rw [List.getLast?_eq_some_getLast hne]
  exact mem_next_iff.2 (hstep _ (List.getLast?_eq_some_getLast hne) j rfl)

theorem concat {j : Nat} (h : IsPath blocks path) (hj : j ∈ onward blocks path) :
    IsPath blocks (path ++ [j]) := by
  obtain ⟨i, hi, hhead⟩ := h.entry
  refine ⟨⟨i, hi, by rw [List.head?_append, hhead]; rfl⟩, ?_⟩
  refine h.chain.append (.singleton j) fun x hx y hy => ?_
  obtain rfl : j = y := by simpa using hy
  unfold onward at hj
  rw [hx] at hj
  exact mem_next_iff.1 hj

end IsPath

/-- The paths after `n` rounds of the search. -/
def rounds (blocks : List Block) (n : Nat) : List Path := (prolongAll blocks)^[n] (openings blocks)

theorem rounds_succ (blocks : List Block) (n : Nat) :
    rounds blocks (n + 1) = prolongAll blocks (rounds blocks n) :=
  Function.iterate_succ_apply' _ _ _

theorem mem_prolong {path q : Path} : q ∈ prolong blocks path ↔
    (onward blocks path = [] ∧ q = path) ∨ ∃ j ∈ onward blocks path, q = path ++ [j] := by
  unfold prolong
  cases onward blocks path with
  | nil => simp
  | cons j js => simp [eq_comm]

theorem mem_rounds {n : Nat} {path : Path} : path ∈ rounds blocks n ↔ IsPath blocks path ∧
    (path.length = n + 1 ∨ path.length ≤ n ∧ onward blocks path = []) := by
  induction n generalizing path with
  | zero =>
    constructor
    · intro h
      obtain ⟨i, hi, rfl⟩ := List.mem_map.1 h
      exact ⟨⟨⟨i, mem_entries_iff.1 hi, rfl⟩, .singleton i⟩, Or.inl rfl⟩
    · rintro ⟨hpath, hlength | ⟨hlength, -⟩⟩
      · obtain ⟨i, hi, hhead⟩ := hpath.entry
        obtain ⟨j, rfl⟩ := List.length_eq_one_iff.1 hlength
        obtain rfl : j = i := by simpa using hhead
        exact List.mem_map.2 ⟨j, mem_entries_iff.2 hi, rfl⟩
      · have := hpath.length_pos
        omega
  | succ n ih =>
    rw [rounds_succ, prolongAll, List.mem_flatMap]
    constructor
    · rintro ⟨q, hq, hmem⟩
      obtain ⟨hpath, hlength⟩ := ih.1 hq
      rcases mem_prolong.1 hmem with ⟨hend, rfl⟩ | ⟨j, hj, rfl⟩
      · exact ⟨hpath, Or.inr ⟨by omega, hend⟩⟩
      · -- a path that goes on has not ended before
        rcases hlength with hlength | ⟨-, hend⟩
        · exact ⟨hpath.concat hj, Or.inl (by simp [hlength])⟩
        · simp [hend] at hj
    · rintro ⟨hpath, hlength | ⟨hlength, hend⟩⟩
      · obtain ⟨q, j, rfl⟩ := (List.eq_nil_or_concat' path).resolve_left hpath.ne_nil
        have hq : q.length = n + 1 := by simpa using hlength
        obtain ⟨hfirst, hj⟩ := hpath.of_append (List.ne_nil_of_length_eq_add_one hq)
        exact ⟨q, ih.2 ⟨hfirst, Or.inl hq⟩, mem_prolong.2 (Or.inr ⟨j, hj, rfl⟩)⟩
      · refine ⟨path, ih.2 ⟨hpath, ?_⟩, mem_prolong.2 (Or.inl ⟨hend, rfl⟩)⟩
        by_cases hn : path.length = n + 1
        · exact Or.inl hn
        · exact Or.inr ⟨by omega, hend⟩

/-- A round changes nothing exactly when all paths have come to an end. -/
theorem rounds_succ_eq_iff {n : Nat} :
    rounds blocks (n + 1) = rounds blocks n ↔ ∀ path ∈ rounds blocks n, onward blocks path = [] := by
  constructor
  · intro heq path hpath
    by_contra hgoes
    obtain ⟨j, hj⟩ := List.exists_mem_of_ne_nil _ hgoes
    have hlength : path.length = n + 1 := (mem_rounds.1 hpath).2.resolve_right fun h => hgoes h.2
    have hlonger : path ++ [j] ∈ rounds blocks n := by
      rw [← heq, rounds_succ]
      exact List.mem_flatMap.2 ⟨path, hpath, mem_prolong.2 (Or.inr ⟨j, hj, rfl⟩)⟩
    have hbound : (path ++ [j]).length ≤ n + 1 := by
      rcases (mem_rounds.1 hlonger).2 with hlength | ⟨hlength, -⟩
      · exact hlength.le
      · exact Nat.le_succ_of_le hlength
    rw [List.length_append, hlength] at hbound
    exact absurd hbound (Nat.not_succ_le_self (n + 1))
  · intro hend
    have hstays : ∀ path ∈ rounds blocks n, prolong blocks path = [path] := fun path hpath => by
      rw [prolong, hend path hpath]
    rw [rounds_succ, prolongAll, List.flatMap_congr hstays, List.flatMap_singleton']

/-- From a path on the way to a circle there is always a next block. -/
theorem exists_path_of_circle {i h : Nat} (hi : IsEntry blocks i)
    (hreach : Relation.ReflTransGen (Leads blocks) i h)
    (hcircle : Relation.TransGen (Leads blocks) h h) (n : Nat) :
    ∃ path j, IsPath blocks path ∧ path.length = n + 1 ∧ path.getLast? = some j ∧
      Relation.TransGen (Leads blocks) j h := by
  induction n with
  | zero => exact ⟨[i], i, ⟨⟨i, hi, rfl⟩, .singleton i⟩, rfl, rfl, .trans_right hreach hcircle⟩
  | succ n ih =>
    obtain ⟨path, j, hpath, hlength, hlast, hjh⟩ := ih
    obtain ⟨k, hjk, hkh⟩ : ∃ k, Leads blocks j k ∧ Relation.TransGen (Leads blocks) k h := by
      rcases Relation.TransGen.head'_iff.1 hjh with ⟨k, hjk, hkh⟩
      rcases Relation.reflTransGen_iff_eq_or_transGen.1 hkh with heq | hkh
      · exact ⟨k, hjk, heq ▸ hcircle⟩
      · exact ⟨k, hjk, hkh⟩
    have hk : k ∈ onward blocks path := by
      unfold onward
      rw [hlast]
      exact mem_next_iff.2 hjk
    exact ⟨path ++ [k], k, hpath.concat hk, by simp [hlength], by simp, hkh⟩

theorem circleFree_of_rounds {n : Nat} (heq : rounds blocks (n + 1) = rounds blocks n) :
    CircleFree blocks := by
  intro i hi h hreach hcircle
  obtain ⟨path, j, hpath, hlength, hlast, hjh⟩ := exists_path_of_circle hi hreach hcircle n
  have hend := rounds_succ_eq_iff.1 heq path (mem_rounds.2 ⟨hpath, Or.inl hlength⟩)
  obtain ⟨k, hjk, -⟩ := Relation.TransGen.head'_iff.1 hjh
  unfold onward at hend
  rw [hlast] at hend
  exact next_eq_nil_iff.1 hend k hjk

/-- The search gives what stands after a number of rounds, once a round changes nothing. -/
theorem rounds_of_settle {fuel n : Nat} {ps : List Path}
    (h : settle blocks fuel (rounds blocks n) = .ok ps) :
    ∃ m, ps = rounds blocks m ∧ rounds blocks (m + 1) = rounds blocks m := by
  induction fuel generalizing n with
  | zero => cases h
  | succ fuel ih =>
    unfold settle at h
    dsimp only at h
    rw [← rounds_succ] at h
    split_ifs at h with hsame
    · exact ⟨n, (Except.ok.inj h).symm, hsame⟩
    · exact ih h

theorem rounds_of_paths {ps : List Path} (h : paths blocks = .ok ps) :
    ∃ n, ps = rounds blocks n ∧ rounds blocks (n + 1) = rounds blocks n :=
  rounds_of_settle (n := 0) h

/-- The offsets at which the blocks of a path start, none of them twice. -/
theorem nodup_starts_of_paths {ps : List Path} (h : paths blocks = .ok ps) {path : Path}
    (hpath : path ∈ ps) : ((blocksOn blocks path).map fun b => (b.start : Int)).Nodup := by
  have hstarts : (blocksOn blocks path).map (fun b => (b.start : Int)) =
      path.filterMap (startAt? blocks) := by
    unfold blocksOn startAt?
    rw [List.map_filterMap]
  obtain ⟨n, rfl, heq⟩ := rounds_of_paths h
  rw [hstarts, List.Nodup, List.pairwise_filterMap]
  refine ((mem_rounds.1 hpath).1.pairwise (circleFree_of_rounds heq)).imp fun hne t ht t' ht' heq => ?_
  exact hne (by rw [ht, ht', heq])

end Cairoscope.FlowGraph
