import Cairoscope.Proofs.Paths
import Mathlib.Data.List.Perm.Subperm

/-! The search for paths is exact. It ends if and only if no circle can be reached from a block without
parents, and then it has every path that leads from such a block to a block without children, each
once. -/

namespace Cairoscope.FlowGraph

variable {blocks : List Block} {path : Path}

structure IsMaximal (blocks : List Block) (path : Path) : Prop extends IsPath blocks path where
  last : ∀ i, path.getLast? = some i → ∀ j, ¬ Leads blocks i j

theorem isMaximal_iff : IsMaximal blocks path ↔ IsPath blocks path ∧ onward blocks path = [] := by
  unfold onward
  constructor
  · intro h
    refine ⟨h.toIsPath, ?_⟩
    rw [List.getLast?_eq_some_getLast h.ne_nil]
    exact next_eq_nil_iff.2 (h.last _ (List.getLast?_eq_some_getLast h.ne_nil))
  · rintro ⟨hpath, hend⟩
    refine ⟨hpath, fun i hi => ?_⟩
    rw [hi] at hend
    exact next_eq_nil_iff.1 hend

-- Where no circle can be reached, a path has at most as many blocks as there are.

theorem lt_of_leads {i j : Nat} (h : Leads blocks i j) : j < blocks.length := by
  obtain ⟨b, t, -, ht, -⟩ := leads_iff.1 h
  obtain ⟨c, hc, -⟩ := Option.map_eq_some_iff.1 ht
  exact (List.getElem?_eq_some_iff.1 hc).1

theorem lt_of_isChain {i : Nat} {rest : List Nat} (hi : i < blocks.length)
    (h : List.IsChain (Leads blocks) (i :: rest)) : ∀ j ∈ i :: rest, j < blocks.length := by
  intro j hj
  rcases List.mem_cons.1 hj with rfl | hj
  · exact hi
  · obtain ⟨k, -, hkj⟩ := exists_before h hj
    exact lt_of_leads hkj

theorem length_le_of_circleFree (hfree : CircleFree blocks) (hpath : IsPath blocks path) :
    path.length ≤ blocks.length := by
  have hnodup : path.Nodup := (hpath.pairwise hfree).imp fun hne heq => hne (congrArg _ heq)
  have hsub : path ⊆ List.range blocks.length := by
    obtain ⟨i, hi, hhead⟩ := hpath.entry
    obtain ⟨rest, rfl⟩ := List.head?_eq_some_iff.1 hhead
    exact fun j hj => List.mem_range.2 (lt_of_isChain hi.1 hpath.chain j hj)
  simpa using (List.subperm_of_subset hnodup hsub).length_le

/-- As many rounds as there are blocks are enough. -/
theorem rounds_of_circleFree (hfree : CircleFree blocks) :
    rounds blocks (blocks.length + 1) = rounds blocks blocks.length := by
  refine rounds_succ_eq_iff.2 fun path hmem => ?_
  obtain ⟨hpath, hlength | ⟨-, hend⟩⟩ := mem_rounds.1 hmem
  · have := length_le_of_circleFree hfree hpath
    omega
  · exact hend

theorem settle_of_rounds {m n fuel : Nat} (heq : rounds blocks (m + 1) = rounds blocks m)
    (hle : n ≤ m) (hlt : m < n + fuel) : ∃ ps, settle blocks fuel (rounds blocks n) = .ok ps := by
  induction fuel generalizing n with
  | zero => omega
  | succ fuel ih =>
    unfold settle
    dsimp only
    rw [← rounds_succ]
    split_ifs with hsame
    · exact ⟨_, rfl⟩
    · have hne : n ≠ m := by
        rintro rfl
        exact hsame heq
      exact ih (by omega) (by omega)

-- No path is found twice: a path remembers the one that it comes from.

theorem eq_take_of_mem_prolong {n : Nat} {q : Path} (hq : q ∈ rounds blocks n)
    (hpath : path ∈ prolong blocks q) : q = path.take (n + 1) := by
  obtain ⟨-, hlength⟩ := mem_rounds.1 hq
  rcases mem_prolong.1 hpath with ⟨-, rfl⟩ | ⟨j, hj, rfl⟩
  · rw [List.take_of_length_le (by omega)]
  · rcases hlength with hlength | ⟨-, hend⟩
    · rw [List.take_left' hlength]
    · simp [hend] at hj

theorem nodup_onward (blocks : List Block) (path : Path) : (onward blocks path).Nodup := by
  unfold onward next
  split
  · split
    · exact List.nodup_range.filter _
    · exact List.nodup_nil
  · exact List.nodup_nil

theorem nodup_prolong (blocks : List Block) (path : Path) : (prolong blocks path).Nodup := by
  have hnodup := nodup_onward blocks path
  unfold prolong
  split
  · exact List.nodup_singleton path
  · exact hnodup.map fun i j hij => by simpa using hij

theorem nodup_rounds (blocks : List Block) (n : Nat) : (rounds blocks n).Nodup := by
  induction n with
  | zero => exact (List.nodup_range.filter _).map fun i j hij => by simpa using hij
  | succ n ih =>
    rw [rounds_succ, prolongAll, List.nodup_flatMap]
    refine ⟨fun q _ => nodup_prolong blocks q, ih.pairwise_of_forall_ne fun q hq q' hq' hne => ?_⟩
    intro path hpath hpath'
    exact hne ((eq_take_of_mem_prolong hq hpath).trans (eq_take_of_mem_prolong hq' hpath').symm)

/-- After a round that changes nothing the paths are the maximal ones. -/
theorem mem_rounds_iff_isMaximal {n : Nat} (heq : rounds blocks (n + 1) = rounds blocks n) :
    path ∈ rounds blocks n ↔ IsMaximal blocks path := by
  have hended := rounds_succ_eq_iff.1 heq
  rw [isMaximal_iff]
  constructor
  · exact fun h => ⟨(mem_rounds.1 h).1, hended path h⟩
  · rintro ⟨hpath, hend⟩
    refine mem_rounds.2 ⟨hpath, ?_⟩
    rcases Nat.lt_trichotomy path.length (n + 1) with hshort | hlength | hlong
    · exact Or.inr ⟨by omega, hend⟩
    · exact Or.inl hlength
    · -- the first `n + 1` blocks would be a path that goes on
      have hsplit : path = path.take (n + 1) ++ path.get ⟨n + 1, hlong⟩ :: path.drop (n + 2) := by
        simp
      have hlength : (path.take (n + 1)).length = n + 1 := by
        rw [List.length_take]
        omega
      rw [hsplit] at hpath
      obtain ⟨hfirst, hgoes⟩ := hpath.of_append (List.ne_nil_of_length_eq_add_one hlength)
      have hstops := hended _ (mem_rounds.2 ⟨hfirst, Or.inl hlength⟩)
      simp [hstops] at hgoes

/-- The rounds come to one that changes nothing if and only if no circle can be reached. The paths are
then found, and they are the maximal ones, each once. -/
theorem paths_exact (blocks : List Block) :
    ((∃ n, rounds blocks (n + 1) = rounds blocks n) ↔ CircleFree blocks) ∧
      ((∃ ps, paths blocks = .ok ps) ↔ CircleFree blocks) ∧
      ∀ ps, paths blocks = .ok ps → (∃ n, ps = rounds blocks n ∧ prolongAll blocks ps = ps) ∧
        ps.Nodup ∧ ∀ path, path ∈ ps ↔ IsMaximal blocks path := by
  refine ⟨⟨fun ⟨n, heq⟩ => circleFree_of_rounds heq, fun hfree => ⟨_, rounds_of_circleFree hfree⟩⟩,
    ⟨?_, ?_⟩, ?_⟩
  · rintro ⟨ps, hps⟩
    obtain ⟨n, -, heq⟩ := rounds_of_paths hps
    exact circleFree_of_rounds heq
  · intro hfree
    exact settle_of_rounds (rounds_of_circleFree hfree) (Nat.zero_le _) (by omega)
  · intro ps hps
    obtain ⟨n, rfl, heq⟩ := rounds_of_paths hps
    exact ⟨⟨n, rfl, (rounds_succ blocks n).symm.trans heq⟩, nodup_rounds blocks n,
      fun path => mem_rounds_iff_isMaximal heq⟩

def leadingTo (start : Nat) (targets : List Int) : Block where
  id := start
  start := start
  stop := none
  sites := []
  edges := targets.map fun t => ⟨start, t, .unconditional⟩
  isPhi := false
  allocated := []
  condition := none

/-- Two ways from the first block to the last one. -/
def diamond : List Block := [leadingTo 0 [2, 4], leadingTo 2 [6], leadingTo 4 [6], leadingTo 6 []]

/-- The first block leads to one that leads to itself. -/
def circling : List Block := [leadingTo 0 [2], leadingTo 2 [2]]

/-- Both ways through the diamond are found. From the first block of the other graph a circle can be reached, and the
search does not end. -/
theorem paths_exact_diamond : IsEntry diamond 0 ∧ IsMaximal diamond [0, 1, 3] ∧ IsMaximal diamond [0, 2, 3] ∧
    paths diamond = .ok [[0, 1, 3], [0, 2, 3]] ∧ IsEntry circling 0 ∧ ¬ CircleFree circling ∧
    ∀ ps, paths circling ≠ .ok ps := by
  have hpaths : paths diamond = .ok [[0, 1, 3], [0, 2, 3]] := by decide +kernel
  have hexact := ((paths_exact diamond).2.2 _ hpaths).2.2
  have hfails : paths circling = .error .endless := by decide +kernel
  refine ⟨mem_entries_iff.1 (by decide +kernel), (hexact _).1 (by decide), (hexact _).1 (by decide), hpaths,
    mem_entries_iff.1 (by decide +kernel), fun hfree => ?_, fun ps hps => ?_⟩
  · obtain ⟨ps, hps⟩ := (paths_exact circling).2.1.2 hfree
    cases hfails.symm.trans hps
  · cases hfails.symm.trans hps

end Cairoscope.FlowGraph
