import Cairoscope.Proofs.Spreading
import Mathlib.Data.List.Induction
import Mathlib.Data.Rat.Defs
import Mathlib.Tactic.Linarith

/-! How much taint a child of an argument keeps. A coefficient is overwritten each time that a parent
passes its taint on, with a smaller number by a later parent, and every argument starts anew. So the
last argument that reaches a node decides, and the node keeps seven tenths only if the argument is the
one parent that it is reached from. -/

namespace Cairoscope

namespace Taint

variable {children : Nat → List Nat} {a b c n : Nat} {cs : List ℚ}

/-- The scale of data-flow graphs in exact numbers. -/
def tenths : Scale ℚ := ⟨1, fun x => 7 / 10 * x⟩

@[simp] theorem tenths_attenuate (x : ℚ) : tenths.attenuate x = 7 / 10 * x := rfl

theorem taintChildren_cons {α : Type} {scale : Scale α} {parent kid : Nat} {coefficients : List α}
    {x : α} (h : coefficients[parent]? = some x) (kids : List Nat) :
    taintChildren scale parent coefficients (kid :: kids) =
      taintChildren scale parent (coefficients.set kid (scale.attenuate x)) kids := by
  simp [taintChildren, h]

theorem taintChildren_concat {α : Type} {scale : Scale α} {parent : Nat} {coefficients : List α}
    {kids : List Nat} {x : α} (h : (taintChildren scale parent coefficients kids)[parent]? = some x)
    (kid : Nat) :
    taintChildren scale parent coefficients (kids ++ [kid]) =
      (taintChildren scale parent coefficients kids).set kid (scale.attenuate x) := by
  unfold taintChildren at h ⊢
  rw [List.foldl_append, List.foldl_cons, List.foldl_nil, h]

def AtMost (bound : ℚ) (cs : List ℚ) (node : Nat) : Prop := ∀ x, cs[node]? = some x → x ≤ bound

theorem AtMost.trans {bound bound' : ℚ} (h : AtMost bound cs b) (hle : bound ≤ bound') :
    AtMost bound' cs b := fun x hx => (h x hx).trans hle

theorem atMost_set {bound x : ℚ} (hx : x ≤ bound) (hb : b ≠ c → AtMost bound cs b) :
    AtMost bound (cs.set c x) b := by
  intro y hy
  rw [List.getElem?_set] at hy
  split_ifs at hy with heq hlt
  · rwa [← Option.some.inj hy]
  · exact hb (fun h => heq h.symm) y hy

theorem atMost_taintChildren {bound : ℚ} (hbound : 0 ≤ bound) (kids : List Nat)
    (hlt : a < cs.length) (ha : AtMost bound cs a) (hb : b ∈ kids ∨ AtMost (7 / 10 * bound) cs b) :
    AtMost (7 / 10 * bound) (taintChildren tenths a cs kids) b := by
  induction kids generalizing cs with
  | nil => exact hb.resolve_left (by simp)
  | cons kid kids ih =>
    have hparent : cs[a]? = some cs[a] := List.getElem?_eq_getElem hlt
    have hx : 7 / 10 * cs[a] ≤ 7 / 10 * bound := by linarith [ha _ hparent]
    rw [taintChildren_cons hparent, tenths_attenuate]
    apply ih
    · rwa [List.length_set]
    · exact atMost_set (by linarith) fun _ => ha
    · by_cases hmem : b ∈ kids
      · exact Or.inl hmem
      · refine Or.inr (atMost_set hx fun hne => hb.resolve_left ?_)
        simp [hne, hmem]

/-- A source that is its own child loses taint each time it meets itself. -/
theorem getElem?_taintChildren_self (ha : cs[a]? = some 1) (kids : List Nat) :
    (taintChildren tenths a cs kids)[a]? = some ((7 / 10) ^ kids.count a) := by
  induction kids using List.reverseRecOn with
  | nil => simpa [taintChildren] using ha
  | append_singleton kids kid ih =>
    have hlt : a < (taintChildren tenths a cs kids).length := (List.getElem?_eq_some_iff.1 ih).1
    rw [taintChildren_concat ih, List.getElem?_set, List.count_append, List.count_singleton]
    by_cases hkid : kid = a
    · simp [hkid, hlt, pow_succ, mul_comm]
    · simp [hkid, ih]

theorem seven_tenths_le_iff (k : Nat) : (7 / 10 : ℚ) ≤ 7 / 10 * (7 / 10) ^ k ↔ k = 0 := by
  refine ⟨fun h => ?_, fun h => by simp [h]⟩
  by_contra hne
  have hpow : (7 / 10 : ℚ) ^ k < 1 := pow_lt_one₀ (by norm_num) (by norm_num) hne
  linarith

/-- A child keeps seven tenths unless the source is its own child and comes first. -/
theorem seven_tenths_le_child_iff (ha : cs[a]? = some 1) (hc : c < cs.length) {kids : List Nat}
    (hchild : c = a ∨ c ∈ kids) :
    ∃ x, (taintChildren tenths a cs kids)[c]? = some x ∧
      (7 / 10 ≤ x ↔ ¬ List.Sublist [a, c] kids) := by
  induction kids using List.reverseRecOn with
  | nil =>
    obtain rfl : c = a := hchild.resolve_right (by simp)
    exact ⟨1, ha, iff_of_true (by norm_num) (by simp)⟩
  | append_singleton kids kid ih =>
    have hlength : (taintChildren tenths a cs kids).length = cs.length := length_taintChildren a cs kids
    rw [taintChildren_concat (getElem?_taintChildren_self ha kids), List.getElem?_set, hlength]
    by_cases hkid : kid = c
    · have hsub : List.Sublist ([a] ++ [c]) (kids ++ [c]) ↔ a ∈ kids :=
        (List.append_sublist_append_right [c]).trans List.singleton_sublist
      refine ⟨7 / 10 * (7 / 10) ^ kids.count a, by simp [hkid, hc], ?_⟩
      rw [seven_tenths_le_iff, hkid, List.count_eq_zero]
      exact not_congr hsub.symm
    · have hold : c = a ∨ c ∈ kids := by simpa [Ne.symm hkid] using hchild
      obtain ⟨x, hx, hiff⟩ := ih hold
      have hsub : List.Sublist [a, c] (kids ++ [kid]) ↔ List.Sublist [a, c] kids := by
        refine ⟨fun h => ?_, fun h => h.trans (List.sublist_append_left kids [kid])⟩
        obtain ⟨front, back, heq, hfront, hback⟩ := List.sublist_append_iff.1 h
        rcases List.sublist_singleton.1 hback with rfl | rfl
        · rwa [heq, List.append_nil]
        · have hlast := congrArg List.getLast? heq
          simp [Ne.symm hkid] at hlast
      exact ⟨x, by rw [if_neg hkid, hx], hiff.trans (not_congr hsub.symm)⟩

/-- After the first turn: the source is done, whoever waits has at most seven tenths, and a node has
kept its first coefficient until another parent than the source has passed. -/
structure Fades (children : Nat → List Nat) (a c n : Nat) (first : Option ℚ)
    (st : Spread ℚ × List Nat) : Prop where
  source : a ∈ st.1.passed
  length : st.1.coefficients.length = n
  queued : ∀ q ∈ st.2, q ≠ a ∧ AtMost (7 / 10) st.1.coefficients q
  kept : (∀ p ∈ st.1.passed, c ∈ children p → p = a) → st.1.coefficients[c]? = first
  faded : ∀ p ∈ st.1.passed, c ∈ children p → p ≠ a → AtMost (49 / 100) st.1.coefficients c

theorem fades_first (ha : a < cs.length) :
    Fades children a c cs.length (taintChildren tenths a (cs.set a 1) (children a))[c]?
      (turn tenths children (begin tenths cs a)) where
  source := List.mem_singleton_self a
  length := (length_taintChildren _ _ _).trans List.length_set
  queued := by
    intro q hq
    obtain ⟨hchild, hnew⟩ := List.mem_filter.1 hq
    have hone : AtMost 1 (cs.set a 1) a := atMost_set le_rfl fun h => absurd rfl h
    have hlt : a < (cs.set a 1).length := by rwa [List.length_set]
    have hmost := atMost_taintChildren zero_le_one (children a) hlt hone (Or.inl hchild)
    exact ⟨by simpa using hnew, hmost.trans (by norm_num)⟩
  kept _ := rfl
  faded p hp _ hne := absurd (List.mem_singleton.1 hp) hne

theorem Fades.turn {first : Option ℚ} {s : Spread ℚ} {node : Nat} {queue : List Nat}
    (hn : ∀ p, children p ≠ [] → p < n) (h : Fades children a c n first (s, node :: queue)) :
    Fades children a c n first
      ((pass tenths children s node).1, queue ++ (pass tenths children s node).2) := by
  obtain ⟨hnode, hmost⟩ := h.queued node List.mem_cons_self
  -- what this turn writes is at most the square of seven tenths
  have hwritten : ∀ b, b ∈ children node ∨ AtMost (49 / 100) s.coefficients b →
      AtMost (49 / 100) (taintChildren tenths node s.coefficients (children node)) b := by
    intro b hb
    by_cases hkids : children node = []
    · rw [hkids] at hb ⊢
      exact hb.resolve_left (by simp)
    · have hlt : node < s.coefficients.length := (hn node hkids).trans_eq h.length.symm
      have hsquare : (7 / 10 * (7 / 10) : ℚ) = 49 / 100 := by norm_num
      rw [← hsquare] at hb ⊢
      exact atMost_taintChildren (by norm_num) (children node) hlt hmost hb
  have hpassed : ∀ p, p ∈ (pass tenths children s node).1.passed → p ∈ s.passed ∨ p = node := by
    intro p hp
    exact (List.mem_append.1 hp).imp_right List.mem_singleton.1
  refine ⟨List.mem_append_left _ h.source, (length_taintChildren _ _ _).trans h.length,
    fun q hq => ?_, fun hall => ?_, fun p hp hc hne => ?_⟩
  · rcases List.mem_append.1 hq with hold | hnew
    · obtain ⟨hq, hmost⟩ := h.queued q (List.mem_cons_of_mem node hold)
      refine ⟨hq, ?_⟩
      by_cases hkid : q ∈ children node
      · exact (hwritten q (Or.inl hkid)).trans (by norm_num)
      · intro x hx
        exact hmost x ((getElem?_taintChildren_of_notMem hkid _).symm.trans hx)
    · obtain ⟨hkid, hfresh⟩ := List.mem_filter.1 hnew
      refine ⟨?_, (hwritten q (Or.inl hkid)).trans (by norm_num)⟩
      rintro rfl
      simp [h.source] at hfresh
  · have hnot : c ∉ children node := fun hmem =>
      hnode (hall node (List.mem_append_right _ (List.mem_singleton_self node)) hmem)
    have hold := h.kept fun p hp => hall p (List.mem_append_left _ hp)
    exact (getElem?_taintChildren_of_notMem hnot _).trans hold
  · rcases hpassed p hp with hp | rfl
    · exact hwritten c (Or.inr (h.faded p hp hc hne))
    · exact hwritten c (Or.inl hc)

theorem fades_taintFrom (hn : ∀ p, children p ≠ [] → p < cs.length) (ha : a < cs.length) (c : Nat) :
    Fades children a c cs.length (taintChildren tenths a (cs.set a 1) (children a))[c]?
      (taintFrom tenths children cs a, []) := by
  obtain ⟨k, hk⟩ := iterate_turn_taintFrom tenths hn a
  cases k with
  | zero =>
    have hqueue := congrArg Prod.snd hk
    simp [begin] at hqueue
  | succ k =>
    rw [← hk, Function.iterate_succ_apply]
    exact iterate_turn_induction (fun _ _ _ h => h.turn hn) (fades_first ha) k

/-- The source is the one parent of a node among its own descendants, and not a child of its own that
comes before the node. -/
structure SoleParent (children : Nat → List Nat) (a c : Nat) : Prop where
  only : ∀ p, Descends children a p → c ∈ children p → p = a
  early : ¬ List.Sublist [a, c] (children a)

theorem seven_tenths_le_taintFrom_iff (hn : ∀ p, children p ≠ [] → p < cs.length)
    (ha : a < cs.length) (hc : c < cs.length) (hreach : Descends children a c) :
    ∃ x, (taintFrom tenths children cs a).coefficients[c]? = some x ∧
      (7 / 10 ≤ x ↔ SoleParent children a c) := by
  have hfades := fades_taintFrom hn ha c
  have hpassed := (spreads_taintFrom tenths hn a).mem_passed_iff
  by_cases honly : ∀ p, Descends children a p → c ∈ children p → p = a
  · have hchild : c = a ∨ c ∈ children a := by
      rcases Relation.ReflTransGen.cases_tail hreach with heq | ⟨p, hp, hmem⟩
      · exact Or.inl heq
      · exact Or.inr (honly p hp hmem ▸ hmem)
    have hone : (cs.set a 1)[a]? = some 1 := List.getElem?_set_self ha
    obtain ⟨x, hx, hiff⟩ := seven_tenths_le_child_iff hone (by rwa [List.length_set]) hchild
    have hkept := hfades.kept fun p hp => honly p ((hpassed p).1 hp)
    exact ⟨x, hkept.trans hx, hiff.trans ⟨fun h => ⟨honly, h⟩, fun h => h.early⟩⟩
  · push Not at honly
    obtain ⟨p, hp, hmem, hne⟩ := honly
    have hlt : c < (taintFrom tenths children cs a).coefficients.length := hc.trans_eq hfades.length.symm
    have hx := List.getElem?_eq_getElem hlt
    have hmost := hfades.faded p ((hpassed p).2 hp) hmem hne _ hx
    refine ⟨_, hx, fun h => ?_, fun h => absurd (h.only p hp hmem) hne⟩
    linarith

theorem getElem?_taintAll_of_not_descends (hn : ∀ p, children p ≠ [] → p < n) (hcs : cs.length = n)
    {sources : List Nat} (hnot : ∀ a ∈ sources, ¬ Descends children a c) :
    (taintAll tenths children cs sources)[c]? = cs[c]? := by
  unfold taintAll
  induction sources generalizing cs with
  | nil => rfl
  | cons a sources ih =>
    have hspreads := spreads_taintFrom tenths (hcs ▸ hn) a
    have hfirst := hspreads.others c (hnot a List.mem_cons_self)
    rw [List.foldl_cons, ih (hspreads.length.trans hcs) fun b hb => hnot b (List.mem_cons_of_mem a hb)]
    exact hfirst

/-- No source after this one reaches the node. -/
def LastReaching (children : Nat → List Nat) (sources : List Nat) (a c : Nat) : Prop :=
  ∃ earlier later, sources = earlier ++ a :: later ∧ Descends children a c ∧
    ∀ b ∈ later, ¬ Descends children b c

theorem exists_lastReaching {sources : List Nat} (ha : a ∈ sources) (hreach : Descends children a c) :
    ∃ b, LastReaching children sources b c := by
  induction sources using List.reverseRecOn with
  | nil => simp at ha
  | append_singleton sources b ih =>
    by_cases hb : Descends children b c
    · exact ⟨b, sources, [], rfl, hb, by simp⟩
    · have hne : a ≠ b := fun heq => hb (heq ▸ hreach)
      have hold : a ∈ sources := by simpa [hne] using ha
      obtain ⟨last, earlier, later, rfl, hlast, hlater⟩ := ih hold
      refine ⟨last, earlier, later ++ [b], by simp, hlast, fun d hd => ?_⟩
      rcases List.mem_append.1 hd with hd | hd
      · exact hlater d hd
      · rwa [List.mem_singleton.1 hd]

/-- The last source that reaches a node decides how much taint it has. -/
theorem seven_tenths_le_taintAll_iff (hn : ∀ p, children p ≠ [] → p < cs.length)
    {sources : List Nat} (hsources : ∀ a ∈ sources, a < cs.length) (hc : c < cs.length)
    (hlast : LastReaching children sources a c) :
    ∃ x, (taintAll tenths children cs sources)[c]? = some x ∧
      (7 / 10 ≤ x ↔ SoleParent children a c) := by
  obtain ⟨earlier, later, rfl, hreach, hlater⟩ := hlast
  have hbefore := length_taintAll tenths hn rfl earlier
  have hn' : ∀ p, children p ≠ [] → p < (taintAll tenths children cs earlier).length := hbefore ▸ hn
  have ha : a < (taintAll tenths children cs earlier).length := hbefore ▸ hsources a (by simp)
  obtain ⟨x, hx, hiff⟩ := seven_tenths_le_taintFrom_iff hn' ha (hbefore ▸ hc) hreach
  have hafter := (spreads_taintFrom tenths hn' a).length.trans hbefore
  have hsplit : taintAll tenths children cs (earlier ++ a :: later) =
      taintAll tenths children
        (taintFrom tenths children (taintAll tenths children cs earlier) a).coefficients later := by
    simp [taintAll]
  exact ⟨x, by rw [hsplit, getElem?_taintAll_of_not_descends hn hafter hlater, hx], hiff⟩

end Taint

namespace DataFlow

open Taint (Descends LastReaching SoleParent tenths)

theorem lt_of_mem_argumentPlaces {g : DataFlow} {a : Nat} (h : a ∈ g.argumentPlaces) :
    a < g.nodes.length :=
  List.mem_range.1 (List.mem_filter.1 h).1

/-- A child of an argument keeps seven tenths of the taint exactly when the last argument that reaches
it is its one parent on the way. -/
theorem argument_child_keeps_taint_iff (g : DataFlow) (a c : Nat) (ha : a ∈ g.argumentPlaces)
    (hchild : c ∈ g.childrenOf a) (hc : c < g.nodes.length) :
    ∃ x, (Taint.taintAll tenths g.childrenOf (List.replicate g.nodes.length 0)
        g.argumentPlaces)[c]? = some x ∧
      (7 / 10 ≤ x ↔ ∃ b, LastReaching g.childrenOf g.argumentPlaces b c ∧
        SoleParent g.childrenOf b c) := by
  have hlength : (List.replicate g.nodes.length (0 : ℚ)).length = g.nodes.length :=
    List.length_replicate
  have hkeeps : ∀ b, LastReaching g.childrenOf g.argumentPlaces b c → ∃ x,
      (Taint.taintAll tenths g.childrenOf (List.replicate g.nodes.length 0)
        g.argumentPlaces)[c]? = some x ∧ (7 / 10 ≤ x ↔ SoleParent g.childrenOf b c) := by
    intro b hlast
    apply Taint.seven_tenths_le_taintAll_iff _ _ _ hlast
    · intro p hp
      exact hlength.symm ▸ lt_of_childrenOf hp
    · intro d hd
      exact hlength.symm ▸ lt_of_mem_argumentPlaces hd
    · rwa [hlength]
  obtain ⟨b, hlast⟩ := Taint.exists_lastReaching ha (Relation.ReflTransGen.single hchild)
  obtain ⟨x, hx, hiff⟩ := hkeeps b hlast
  refine ⟨x, hx, fun h => ⟨b, hlast, hiff.1 h⟩, ?_⟩
  rintro ⟨d, hd, hsole⟩
  obtain ⟨y, hy, hiff'⟩ := hkeeps d hd
  rw [Option.some.inj (hx.symm.trans hy)]
  exact hiff'.2 hsole

def sumWithArgument : DataFlow where
  functions := []
  cells := []
  nodes := [⟨0, "v0_x", "v0_x", 0, true, false, 0, [], [1, 2]⟩,
    ⟨3, "v3", "v3", 0, false, false, 0, [0], [2]⟩, ⟨4, "v4", "v4", 0, false, false, 0, [1, 0], []⟩]
  constants := [⟨1, "1_0", "v3", 0⟩]
  calls := []
  edges := [⟨.node 0, 1, 0⟩, ⟨.constant 0, 1, 0⟩, ⟨.node 1, 2, 0⟩, ⟨.node 0, 2, 0⟩]

theorem sumWithArgument_loses_taint : 0 ∈ sumWithArgument.argumentPlaces ∧
    2 ∈ sumWithArgument.childrenOf 0 ∧ ∃ x,
      (Taint.taintAll tenths sumWithArgument.childrenOf (List.replicate sumWithArgument.nodes.length 0)
        sumWithArgument.argumentPlaces)[2]? = some x ∧ x < 7 / 10 := by
  have ha : 0 ∈ sumWithArgument.argumentPlaces := by decide
  have hchild : 2 ∈ sumWithArgument.childrenOf 0 := by decide
  obtain ⟨x, hx, hiff⟩ := argument_child_keeps_taint_iff sumWithArgument 0 2 ha hchild (by decide)
  refine ⟨ha, hchild, x, hx, not_le.1 fun hle => ?_⟩
  obtain ⟨b, ⟨earlier, later, hsplit, -⟩, hsole⟩ := hiff.1 hle
  have hb : b ∈ [0] := by
    have hplaces : sumWithArgument.argumentPlaces = [0] := by decide
    rw [← hplaces, hsplit]
    simp
  obtain rfl := List.mem_singleton.1 hb
  -- the number in between is another parent of the sum
  have hbetween : Descends sumWithArgument.childrenOf 0 1 := .single (by decide)
  exact absurd (hsole.only 1 hbetween (by decide)) (by decide)

end DataFlow

end Cairoscope
