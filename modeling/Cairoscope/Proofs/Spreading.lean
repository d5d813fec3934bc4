import Cairoscope.DataFlow.Graph
import Mathlib.Data.List.Perm.Subperm
import Mathlib.Logic.Function.Iterate
import Mathlib.Logic.Relation

/-! Taint spreads to the descendants of its source and to nothing else. The levels are a queue cut into
parts: turn after turn, the first node of the queue passes its taint on and leaves. A node can wait in
the queue many times, but the nodes on the way to it are all different and have all passed, so the queue
is empty in the end whatever circles the graph has. -/

namespace Cairoscope

namespace Taint

open Relation (ReflTransGen)

variable {α : Type} {scale : Scale α} {children : Nat → List Nat}

abbrev Descends (children : Nat → List Nat) : Nat → Nat → Prop :=
  ReflTransGen fun a b => b ∈ children a

/-- One turn of the queue: its first node passes its taint on, and the children that have not done so
yet join the queue. -/
def turn (scale : Scale α) (children : Nat → List Nat) :
    Spread α × List Nat → Spread α × List Nat
  | (s, []) => (s, [])
  | (s, node :: queue) =>
    ((pass scale children s node).1, queue ++ (pass scale children s node).2)

/-- The source has its coefficient and waits alone. -/
def begin (scale : Scale α) (coefficients : List α) (source : Nat) : Spread α × List Nat :=
  (⟨coefficients.set source scale.full, []⟩, [source])

def passOn (scale : Scale α) (children : Nat → List Nat) (acc : Spread α × List Nat) (node : Nat) :
    Spread α × List Nat :=
  ((pass scale children acc.1 node).1, acc.2 ++ (pass scale children acc.1 node).2)

theorem passLevel_eq (scale : Scale α) (children : Nat → List Nat) (s : Spread α) (level : List Nat) :
    passLevel scale children s level = level.foldl (passOn scale children) (s, []) := rfl

theorem iterate_turn_append (scale : Scale α) (children : Nat → List Nat) (s : Spread α)
    (level queue : List Nat) :
    (turn scale children)^[level.length] (s, level ++ queue) =
      level.foldl (passOn scale children) (s, queue) := by
  induction level generalizing s queue with
  | nil => rfl
  | cons node level ih =>
    rw [List.length_cons, Function.iterate_succ_apply, List.foldl_cons, passOn, ← ih]
    simp only [List.cons_append, turn, List.append_assoc]

theorem iterate_turn_level (scale : Scale α) (children : Nat → List Nat) (s : Spread α)
    (level : List Nat) :
    (turn scale children)^[level.length] (s, level) = passLevel scale children s level := by
  have h := iterate_turn_append scale children s level []
  rwa [List.append_nil, ← passLevel_eq] at h

-- Behind each node of a level stands a way of different nodes, all of which have passed.

/-- There are `depth` different nodes with children that have passed, and the node is none of them. -/
def Deep (children : Nat → List Nat) (passed : List Nat) (depth node : Nat) : Prop :=
  ∃ way : List Nat, way.length = depth ∧ (node :: way).Nodup ∧
    ∀ p ∈ way, p ∈ passed ∧ children p ≠ []

theorem Deep.mono {passed passed' : List Nat} {depth node : Nat} (h : Deep children passed depth node)
    (hsub : passed ⊆ passed') : Deep children passed' depth node := by
  obtain ⟨way, hlength, hnodup, hway⟩ := h
  exact ⟨way, hlength, hnodup, fun p hp => ⟨hsub (hway p hp).1, (hway p hp).2⟩⟩

theorem Deep.child {s : Spread α} {depth node kid : Nat} (h : Deep children s.passed depth node)
    (hkid : kid ∈ (pass scale children s node).2) :
    Deep children (pass scale children s node).1.passed (depth + 1) kid := by
  obtain ⟨way, hlength, hnodup, hway⟩ := h
  obtain ⟨hchild, hnew⟩ := List.mem_filter.1 hkid
  have hnot : kid ∉ s.passed ++ [node] := by simpa using hnew
  have hbehind : kid ∉ node :: way := by
    intro hmem
    apply hnot
    rcases List.mem_cons.1 hmem with rfl | hmem
    · simp
    · exact List.mem_append_left _ (hway kid hmem).1
  refine ⟨node :: way, by rw [List.length_cons, hlength], List.nodup_cons.2 ⟨hbehind, hnodup⟩, ?_⟩
  intro p hp
  change p ∈ s.passed ++ [node] ∧ _
  rcases List.mem_cons.1 hp with rfl | hp
  · exact ⟨by simp, List.ne_nil_of_mem hchild⟩
  · exact ⟨List.mem_append_left _ (hway p hp).1, (hway p hp).2⟩

theorem Deep.le {passed : List Nat} {depth node n : Nat} (h : Deep children passed depth node)
    (hn : ∀ p, children p ≠ [] → p < n) : depth ≤ n := by
  obtain ⟨way, rfl, hnodup, hway⟩ := h
  have hsub : way ⊆ List.range n := fun p hp => List.mem_range.2 (hn p (hway p hp).2)
  have hle := (List.subperm_of_subset (List.nodup_cons.1 hnodup).2 hsub).length_le
  rwa [List.length_range] at hle

theorem deep_foldl {depth : Nat} (level : List Nat) (acc : Spread α × List Nat)
    (hlevel : ∀ node ∈ level, Deep children acc.1.passed depth node)
    (hnext : ∀ node ∈ acc.2, Deep children acc.1.passed (depth + 1) node) :
    ∀ node ∈ (level.foldl (passOn scale children) acc).2,
      Deep children (level.foldl (passOn scale children) acc).1.passed (depth + 1) node := by
  induction level generalizing acc with
  | nil => exact hnext
  | cons node level ih =>
    have hgrown : acc.1.passed ⊆ (passOn scale children acc node).1.passed :=
      List.subset_append_left acc.1.passed [node]
    apply ih
    · intro other hother
      exact (hlevel other (List.mem_cons_of_mem node hother)).mono hgrown
    · intro other hother
      rcases List.mem_append.1 hother with hold | hnew
      · exact (hnext other hold).mono hgrown
      · exact (hlevel node List.mem_cons_self).child hnew

theorem deep_passLevel (scale : Scale α) {s : Spread α} {depth : Nat} {level : List Nat}
    (h : ∀ node ∈ level, Deep children s.passed depth node) :
    ∀ node ∈ (passLevel scale children s level).2,
      Deep children (passLevel scale children s level).1.passed (depth + 1) node := by
  rw [passLevel_eq]
  apply deep_foldl level (s, []) h
  simp

/-- With fuel for the levels that there can be, the queue is empty in the end. -/
theorem iterate_turn_passLevels (scale : Scale α) {n : Nat} (depth : Nat) {fuel : Nat}
    (hn : ∀ p, children p ≠ [] → p < n) (hfuel : n < depth + fuel) {s : Spread α} {level : List Nat}
    (hlevel : ∀ node ∈ level, Deep children s.passed depth node) :
    ∃ k, (turn scale children)^[k] (s, level) = (passLevels scale children fuel s level, []) := by
  induction fuel generalizing depth s level with
  | zero =>
    cases level with
    | nil => exact ⟨0, rfl⟩
    | cons node level =>
      have hle := (hlevel node List.mem_cons_self).le hn
      omega
  | succ fuel ih =>
    cases level with
    | nil => exact ⟨0, rfl⟩
    | cons node level =>
      obtain ⟨k, hk⟩ := ih (depth + 1) (by omega) (deep_passLevel scale hlevel)
      refine ⟨k + (node :: level).length, ?_⟩
      rw [Function.iterate_add_apply, iterate_turn_level]
      exact hk

theorem iterate_turn_taintFrom (scale : Scale α) {coefficients : List α}
    (hn : ∀ p, children p ≠ [] → p < coefficients.length) (source : Nat) :
    ∃ k, (turn scale children)^[k] (begin scale coefficients source) =
      (taintFrom scale children coefficients source, []) := by
  refine iterate_turn_passLevels scale 0 hn (by omega) fun node _ => ?_
  exact ⟨[], rfl, by simp, by simp⟩

theorem iterate_turn_induction {P : Spread α × List Nat → Prop}
    (hturn : ∀ s node queue, P (s, node :: queue) →
      P ((pass scale children s node).1, queue ++ (pass scale children s node).2))
    {st : Spread α × List Nat} (hst : P st) (k : Nat) : P ((turn scale children)^[k] st) := by
  induction k generalizing st with
  | zero => exact hst
  | succ k ih =>
    rw [Function.iterate_succ_apply]
    apply ih
    obtain ⟨s, queue⟩ := st
    cases queue with
    | nil => exact hst
    | cons node queue => exact hturn s node queue hst

theorem length_taintChildren (parent : Nat) (coefficients : List α) (kids : List Nat) :
    (taintChildren scale parent coefficients kids).length = coefficients.length := by
  unfold taintChildren
  induction kids generalizing coefficients with
  | nil => rfl
  | cons kid kids ih =>
    rw [List.foldl_cons, ih]
    split
    · exact List.length_set
    · rfl

/-- Only children are tainted. -/
theorem getElem?_taintChildren_of_notMem {parent b : Nat} {kids : List Nat} (hb : b ∉ kids)
    (coefficients : List α) :
    (taintChildren scale parent coefficients kids)[b]? = coefficients[b]? := by
  unfold taintChildren
  induction kids generalizing coefficients with
  | nil => rfl
  | cons kid kids ih =>
    rw [List.mem_cons, not_or] at hb
    obtain ⟨hne, hb⟩ := hb
    rw [List.foldl_cons, ih hb]
    split
    · exact List.getElem?_set_ne fun h => hne h.symm
    · rfl

/-- What holds of the coefficients, the nodes that have passed and the queue at any time. -/
structure Spreads (children : Nat → List Nat) (source : Nat) (before : List α)
    (st : Spread α × List Nat) : Prop where
  begun : source ∈ st.1.passed ∨ source ∈ st.2
  passed : ∀ b ∈ st.1.passed, Descends children source b
  queued : ∀ b ∈ st.2, Descends children source b
  onward : ∀ b ∈ st.1.passed, ∀ c ∈ children b, c ∈ st.1.passed ∨ c ∈ st.2
  length : st.1.coefficients.length = before.length
  others : ∀ b, ¬ Descends children source b → st.1.coefficients[b]? = before[b]?

theorem spreads_begin (scale : Scale α) (children : Nat → List Nat) (coefficients : List α)
    (source : Nat) : Spreads children source coefficients (begin scale coefficients source) where
  begun := Or.inr (List.mem_singleton_self source)
  passed := by simp [begin]
  queued := by
    intro b hb
    rw [List.mem_singleton.1 hb]
  onward := by simp [begin]
  length := List.length_set
  others := by
    intro b hb
    refine List.getElem?_set_ne fun heq => hb ?_
    rw [heq]

theorem Spreads.turn {source node : Nat} {before : List α} {s : Spread α} {queue : List Nat}
    (h : Spreads children source before (s, node :: queue)) :
    Spreads children source before
      ((pass scale children s node).1, queue ++ (pass scale children s node).2) := by
  have hnode : Descends children source node := h.queued node List.mem_cons_self
  -- who was in the queue has passed or is still there
  have hmoved : ∀ b, b ∈ s.passed ∨ b ∈ node :: queue →
      b ∈ s.passed ++ [node] ∨ b ∈ queue ++ (pass scale children s node).2 := by
    rintro b (hb | hb)
    · exact Or.inl (List.mem_append_left _ hb)
    · rcases List.mem_cons.1 hb with rfl | hb
      · exact Or.inl (by simp)
      · exact Or.inr (List.mem_append_left _ hb)
  refine ⟨hmoved source h.begun, fun b hb => ?_, fun b hb => ?_, fun b hb c hc => ?_, ?_,
    fun b hb => ?_⟩
  · rcases List.mem_append.1 hb with hb | hb
    · exact h.passed b hb
    · rwa [List.mem_singleton.1 hb]
  · rcases List.mem_append.1 hb with hb | hb
    · exact h.queued b (List.mem_cons_of_mem node hb)
    · exact hnode.tail (List.mem_filter.1 hb).1
  · rcases List.mem_append.1 hb with hb | hb
    · exact hmoved c (h.onward b hb c hc)
    · rw [List.mem_singleton.1 hb] at hc
      by_cases hpassed : c ∈ s.passed ++ [node]
      · exact Or.inl hpassed
      · exact Or.inr (List.mem_append_right _ (List.mem_filter.2 ⟨hc, by simpa using hpassed⟩))
  · exact (length_taintChildren _ _ _).trans h.length
  · have hnot : b ∉ children node := fun hmem => hb (hnode.tail hmem)
    exact (getElem?_taintChildren_of_notMem hnot _).trans (h.others b hb)

theorem Spreads.mem_passed_iff {source : Nat} {before : List α} {s : Spread α}
    (h : Spreads children source before (s, [])) (b : Nat) :
    b ∈ s.passed ↔ Descends children source b := by
  refine ⟨h.passed b, fun hb => ?_⟩
  induction hb with
  | refl => exact h.begun.resolve_right (by simp)
  | tail _ hstep ih => exact (h.onward _ ih _ hstep).resolve_right (by simp)

theorem spreads_taintFrom (scale : Scale α) {coefficients : List α}
    (hn : ∀ p, children p ≠ [] → p < coefficients.length) (source : Nat) :
    Spreads children source coefficients (taintFrom scale children coefficients source, []) := by
  obtain ⟨k, hk⟩ := iterate_turn_taintFrom scale hn source
  rw [← hk]
  have hbegin := spreads_begin scale children coefficients source
  exact iterate_turn_induction (fun _ _ _ h => h.turn) hbegin k

theorem length_taintAll (scale : Scale α) {n : Nat} (hn : ∀ p, children p ≠ [] → p < n)
    {coefficients : List α} (hcs : coefficients.length = n) (sources : List Nat) :
    (taintAll scale children coefficients sources).length = n := by
  unfold taintAll
  induction sources generalizing coefficients with
  | nil => exact hcs
  | cons a sources ih =>
    apply ih
    exact (spreads_taintFrom scale (hcs ▸ hn) a).length.trans hcs

end Taint

namespace DataFlow

theorem lt_of_childrenOf {g : DataFlow} {p : Nat} (h : g.childrenOf p ≠ []) : p < g.nodes.length := by
  by_contra hout
  apply h
  simp [childrenOf, List.getElem?_eq_none (Nat.le_of_not_lt hout)]

/-- The queue comes to its end. The nodes that have passed their taint on are the descendants of the
source, with the source itself, and every other node is left as it was. -/
theorem taint_reaches_descendants (g : DataFlow) (source : Nat) :
    ∃ s : Taint.Spread Float,
      (∃ k, (Taint.turn scale g.childrenOf)^[k] (Taint.begin scale g.coefficients source) = (s, [])) ∧
      g.taintNode source = g.withCoefficients s.coefficients ∧
      (∀ b, b ∈ s.passed ↔ Taint.Descends g.childrenOf source b) ∧
      ∀ b, ¬ Taint.Descends g.childrenOf source b → (g.taintNode source).nodes[b]? = g.nodes[b]? := by
  have hn : ∀ p, g.childrenOf p ≠ [] → p < g.coefficients.length := by
    intro p hp
    rw [coefficients, List.length_map]
    exact lt_of_childrenOf hp
  have hspreads := Taint.spreads_taintFrom scale hn source
  refine ⟨_, Taint.iterate_turn_taintFrom scale hn source, rfl, hspreads.mem_passed_iff, fun b hb => ?_⟩
  have hkept := hspreads.others b hb
  change (g.nodes.zipWith (fun n c => { n with coefficient := c }) _)[b]? = _
  rw [List.getElem?_zipWith, hkept, coefficients, List.getElem?_map]
  cases g.nodes[b]? with
  | none => rfl
  | some n => rfl

end DataFlow

end Cairoscope
