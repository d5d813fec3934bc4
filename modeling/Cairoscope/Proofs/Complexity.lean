import Cairoscope.FlowGraph.Build
import Cairoscope.FlowGraph.Complexity
import Cairoscope.Proofs.Meaning
import Cairoscope.Proofs.StrongComponents
import Mathlib.Data.Finset.Card

/-! Cyclomatic complexity. It is to be edges less blocks and twice the number of components, but each block is
counted as a component of its own. The two are the same exactly when no two blocks lie on one cycle. -/

namespace Cairoscope.FlowGraph

open Components
open Relation (ReflTransGen)

/-- An edge of block `u` leads to block `v`, the first one at its target. -/
def Joins (blocks : List Block) (u v : Nat) : Prop :=
  ∃ b, blocks[u]? = some b ∧ ∃ t ∈ b.targets, blockAt? blocks t = some v

variable {blocks : List Block}

theorem lt_of_blockAt? {t : Int} {v : Nat} (h : blockAt? blocks t = some v) : v < blocks.length := by
  obtain ⟨hlt, -⟩ := List.findIdx?_eq_some_iff_getElem.1 h
  exact hlt

theorem mem_adjacency_iff {u : Nat} {w : Int} : w ∈ (adjacency blocks).getD u [] ↔
    ∃ b, blocks[u]? = some b ∧ ∃ t ∈ b.targets, ∃ v : Nat, blockAt? blocks t = some v ∧ (v : Int) = w := by
  rw [adjacency, List.getD_eq_getElem?_getD, List.getElem?_map]
  cases blocks[u]? with
  | none => simp
  | some b => simp [Option.bind_eq_some_iff]

theorem leads_adjacency_iff {u v : Nat} : Leads (adjacency blocks) u v ↔ Joins blocks u v := by
  simp only [Leads, mem_adjacency_iff, Joins, Int.natCast_inj, exists_eq_right]

theorem reaches_adjacency (blocks : List Block) :
    Reaches (adjacency blocks) = ReflTransGen (Joins blocks) := by
  have hsame : Leads (adjacency blocks) = Joins blocks := by
    funext u v
    exact propext leads_adjacency_iff
  rw [Reaches, hsame]

theorem bounded_adjacency (blocks : List Block) : Bounded (adjacency blocks) := by
  intro ws hws w hw
  obtain ⟨u, hu⟩ := List.mem_iff_getElem?.1 hws
  obtain ⟨-, -, t, -, v, hv, rfl⟩ : _ := mem_adjacency_iff.1 (by rwa [List.getD_eq_getElem?_getD, hu])
  have hlt := lt_of_blockAt? hv
  rw [adjacency, List.length_map]
  omega

/-- A walk from a place without a block stays there. -/
theorem eq_of_walk_outside {u v : Nat} (hu : blocks.length ≤ u) (hwalk : ReflTransGen (Joins blocks) u v) :
    u = v := by
  rcases hwalk.cases_head with heq | ⟨w, ⟨b, hb, -⟩, -⟩
  · exact heq
  · rw [List.getElem?_eq_none hu] at hb
    cases hb

/-- The roots are all different exactly when each component is one block. -/
theorem nodup_roots_iff {order : List Nat} {a : Assignment} (hlength : a.roots.length = blocks.length)
    (ha : Settled (adjacency blocks) order a) (hdone : ∀ p < (adjacency blocks).length, p ∉ a.waiting) :
    a.roots.Nodup ↔ ∀ u v, ReflTransGen (Joins blocks) u v → ReflTransGen (Joins blocks) v u → u = v := by
  have hplaces : (adjacency blocks).length = blocks.length := List.length_map _
  have hmutual : ∀ {u v}, u < blocks.length → v < blocks.length → (a.roots[u]? = a.roots[v]? ↔
      ReflTransGen (Joins blocks) u v ∧ ReflTransGen (Joins blocks) v u) := by
    intro u v hu hv
    rw [← hplaces] at hu hv
    rw [← reaches_adjacency]
    exact ha.roots_eq_iff hu hv (hdone u hu) (hdone v hv)
  rw [List.nodup_iff_getElem?_ne_getElem?]
  constructor
  · intro hne u v huv hvu
    rcases Nat.lt_or_ge u blocks.length with hu | hu
    · rcases Nat.lt_or_ge v blocks.length with hv | hv
      · have heq := (hmutual hu hv).2 ⟨huv, hvu⟩
        rcases Nat.lt_trichotomy u v with hlt | heq' | hlt
        · exact absurd heq (hne u v hlt (hlength ▸ hv))
        · exact heq'
        · exact absurd heq.symm (hne v u hlt (hlength ▸ hu))
      · exact (eq_of_walk_outside hv hvu).symm
    · exact eq_of_walk_outside hu huv
  · intro hone u v hlt hv heq
    rw [hlength] at hv
    obtain ⟨huv, hvu⟩ := (hmutual (by omega) hv).1 heq
    exact absurd (hone u v huv hvu) (by omega)

def edgeCount (g : FlowGraph) : Nat := (g.blocks.flatMap (·.edges)).length

/-- The complexity is always found, and is the number of edges and blocks together. It is edges less blocks and
twice the number of components exactly when no two blocks lie on one cycle. -/
theorem complexity_agrees_iff (g : FlowGraph) :
    ∃ rs, roots (adjacency g.blocks) = .ok rs ∧ rs.length = g.blocks.length ∧
      complexity g = .ok ((g.edgeCount : Int) + g.blocks.length) ∧
      (complexity g = .ok ((g.edgeCount : Int) - g.blocks.length + 2 * rs.toFinset.card) ↔
        ∀ u v, ReflTransGen (Joins g.blocks) u v → ReflTransGen (Joins g.blocks) v u → u = v) := by
  obtain ⟨order, a, hroots, hplaces, ha, hdone⟩ := exists_settled (bounded_adjacency g.blocks)
  have hlength : a.roots.length = g.blocks.length := hplaces.trans (List.length_map _)
  have hvalue : complexity g = .ok ((g.edgeCount : Int) + g.blocks.length) := by
    refine Outcome.bind_eq_ok.2 ⟨a.roots, hroots, Outcome.pure_eq_ok.2 ?_⟩
    rw [hlength, edgeCount]
    omega
  have hcard : a.roots.toFinset.card = g.blocks.length ↔ a.roots.Nodup := by
    rw [← hlength]
    exact Multiset.toFinset_card_eq_card_iff_nodup
  refine ⟨a.roots, hroots, hlength, hvalue, ?_⟩
  -- there are as many roots as blocks, so only repeated ones can make a difference
  rw [← nodup_roots_iff hlength ha hdone, ← hcard, hvalue, Except.ok.injEq]
  omega

/-- A test that is jumped to, and falls back to it from the push after it. -/
def testAgain : List Site :=
  [.jumping 0 .jumpRel 2, .jumping 2 .jnz 4, .pushing 4 .fp .imm .op1 (-1) 1 (some 1), .returning 6]

/-- Two of the five blocks lie on a cycle, so the complexity is too large for the number of components. -/
theorem complexity_testAgain : ∃ g n rs,
    build ⟨.plain, Field.defaultPrime, []⟩ "main" testAgain 0 = .ok g n ∧ g.edgeCount = 4 ∧ g.blocks.length = 5 ∧
    roots (adjacency g.blocks) = .ok rs ∧ complexity g = .ok 9 ∧
    complexity g ≠ .ok ((g.edgeCount : Int) - g.blocks.length + 2 * rs.toFinset.card) := by
  obtain ⟨g, n, hbuild, hedges, hblocks, hforth, hback⟩ : ∃ g n,
      build ⟨.plain, Field.defaultPrime, []⟩ "main" testAgain 0 = .ok g n ∧ g.edgeCount = 4 ∧
      g.blocks.length = 5 ∧ Joins g.blocks 2 3 ∧ Joins g.blocks 3 2 :=
    ⟨_, _, rfl, rfl, rfl, ⟨_, rfl, 4, by decide, rfl⟩, ⟨_, rfl, 2, by decide, rfl⟩⟩
  obtain ⟨rs, hroots, -, hvalue, hagrees⟩ := complexity_agrees_iff g
  refine ⟨g, n, rs, hbuild, hedges, hblocks, hroots, ?_, fun h => ?_⟩
  · rw [hvalue, hedges, hblocks]
    rfl
  · exact absurd (hagrees.1 h 2 3 (.single hforth) (.single hback)) (by decide)

end Cairoscope.FlowGraph
