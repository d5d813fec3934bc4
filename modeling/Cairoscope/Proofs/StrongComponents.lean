import Cairoscope.Proofs.DepthFirst

/-! Components. The second search goes against the edges, from the vertices in the order of the first
search. What it takes from a vertex is the whole component of that vertex and nothing else, because
the components before it have been taken and no other component that is left leads to it. So two
vertices get the same root if and only if each leads to the other, and a root is its own root. -/

namespace Cairoscope.Components

open Relation (ReflTransGen)

variable {graph transposed : List (List Int)} {root : Int}

namespace Assignment

def waiting (a : Assignment) : Set Nat := {p | a.pending.getD p false = true}

def left (a : Assignment) : Nat := a.pending.count true

structure Fits (n : Nat) (a : Assignment) : Prop where
  pending : a.pending.length = n
  roots : a.roots.length = n

theorem lt_of_mem_waiting {a : Assignment} {p : Nat} (h : p ∈ a.waiting) : p < a.pending.length := by
  by_contra hout
  have hflag : a.pending.getD p false = true := h
  simp [List.getD_eq_getElem?_getD, List.getElem?_eq_none (Nat.le_of_not_lt hout)] at hflag

def give (a : Assignment) (p : Nat) (root : Int) : Assignment :=
  ⟨a.pending.set p false, a.roots.set p root⟩

theorem Fits.give {n : Nat} {a : Assignment} (h : a.Fits n) (p : Nat) (root : Int) :
    (a.give p root).Fits n :=
  ⟨by rw [Assignment.give, List.length_set, h.pending], by rw [Assignment.give, List.length_set, h.roots]⟩

theorem mem_waiting_give {a : Assignment} {p : Nat} (q : Nat) :
    q ∈ (a.give p root).waiting ↔ q ∈ a.waiting ∧ q ≠ p := by
  change (a.pending.set p false).getD q false = true ↔ a.pending.getD q false = true ∧ q ≠ p
  rw [List.getD_eq_getElem?_getD, List.getElem?_set, List.getD_eq_getElem?_getD]
  by_cases hq : p = q
  · subst hq
    by_cases hp : p < a.pending.length
    · simp [hp]
    · simp [hp]
  · have hne : q ≠ p := fun h => hq h.symm
    simp [hq, hne]

theorem left_give {a : Assignment} {p : Nat} (h : p ∈ a.waiting) (root : Int) :
    (a.give p root).left + 1 = a.left := by
  have hp := lt_of_mem_waiting h
  have hflag : a.pending[p] = true := by
    have hset : a.pending.getD p false = true := h
    simpa [List.getD_eq_getElem?_getD, hp] using hset
  have hpos : 0 < a.pending.count true := List.count_pos_iff.2 (hflag ▸ List.getElem_mem hp)
  change (a.pending.set p false).count true + 1 = a.pending.count true
  have hset := List.count_set (a := false) (b := true) hp
  rw [hflag] at hset
  simp only [beq_self_eq_true, if_true, beq_true, Bool.false_eq_true, if_false] at hset
  omega

end Assignment

/-- What a part of the second search does: it takes vertices that are left, with all that have an edge
to one of them and are left too, and gives them the root. -/
structure Takes (transposed : List (List Int)) (root : Int) (a a' : Assignment) (taken : List Nat) :
    Prop where
  waited : ∀ p ∈ taken, p ∈ a.waiting
  waiting : ∀ p, p ∈ a'.waiting ↔ p ∈ a.waiting ∧ p ∉ taken
  roots : ∀ p, a'.roots[p]? = if p ∈ taken then some root else a.roots[p]?
  closed : ∀ p ∈ taken, ∀ q, Leads transposed p q → q ∉ a'.waiting
  fits : a'.Fits transposed.length
  left : a'.left ≤ a.left

namespace Takes

variable {a a' a'' : Assignment} {taken taken' : List Nat}

theorem nil (ha : a.Fits transposed.length) : Takes transposed root a a [] :=
  ⟨by simp, by simp, by simp, by simp, ha, Nat.le_refl _⟩

theorem trans (h : Takes transposed root a a' taken) (h' : Takes transposed root a' a'' taken') :
    Takes transposed root a a'' (taken' ++ taken) where
  waited := by
    intro p hp
    rcases List.mem_append.1 hp with hp | hp
    · exact ((h.waiting p).1 (h'.waited p hp)).1
    · exact h.waited p hp
  waiting := by
    intro p
    rw [h'.waiting, h.waiting, List.mem_append]
    tauto
  roots := by
    intro p
    rw [h'.roots, h.roots]
    simp only [List.mem_append]
    split_ifs <;> tauto
  closed := by
    intro p hp q hq hwaits
    rcases List.mem_append.1 hp with hp | hp
    · exact h'.closed p hp q hq hwaits
    · exact h.closed p hp q hq ((h'.waiting q).1 hwaits).1
  fits := h'.fits
  left := Nat.le_trans h'.left h.left

/-- A vertex is taken before all that its search takes. -/
theorem cons {v : Nat} (ha : a.Fits transposed.length) (hv : v ∈ a.waiting)
    (h : Takes transposed root (a.give v root) a' taken)
    (hnext : ∀ q, Leads transposed v q → q ∉ a'.waiting) :
    Takes transposed root a a' (v :: taken) where
  waited := by
    intro p hp
    rcases List.mem_cons.1 hp with rfl | hp
    · exact hv
    · exact ((Assignment.mem_waiting_give p).1 (h.waited p hp)).1
  waiting := by
    intro p
    rw [h.waiting, Assignment.mem_waiting_give, List.mem_cons]
    tauto
  roots := by
    intro p
    have hroom : v < a.roots.length := by
      rw [ha.roots, ← ha.pending]
      exact Assignment.lt_of_mem_waiting hv
    rw [h.roots]
    change (if p ∈ taken then some root else (a.roots.set v root)[p]?) = _
    rw [List.getElem?_set]
    by_cases hp : v = p
    · subst hp
      simp [hroom]
    · have hne : p ≠ v := fun h => hp h.symm
      simp [hp, hne]
  closed := by
    intro p hp
    rcases List.mem_cons.1 hp with rfl | hp
    · exact hnext
    · exact h.closed p hp
  fits := h.fits
  left := by
    have hcount := Assignment.left_give hv root
    have hleft := h.left
    omega

end Takes

-- One search needs fuel for each vertex that is left, and for itself.

def AssignsAt (transposed : List (List Int)) (root : Int) (fuel : Nat) : Prop :=
  ∀ (a : Assignment) (v : Nat), a.Fits transposed.length → v < transposed.length → a.left < fuel →
    ∃ a' taken, assign transposed root fuel a v = .ok a' ∧ Takes transposed root a a' taken ∧
      v ∉ a'.waiting ∧ (v ∉ a.waiting → a' = a) ∧ ∀ p ∈ taken, Reaches transposed v p

theorem takes_assignAll {fuel : Nat} (hassign : AssignsAt transposed root fuel) (ws : List Int)
    (hws : ∀ w ∈ ws, 0 ≤ w ∧ w < transposed.length) {a : Assignment} (ha : a.Fits transposed.length)
    (hfuel : a.left < fuel) :
    ∃ a' taken, assignAll transposed root fuel a ws = .ok a' ∧ Takes transposed root a a' taken ∧
      (∀ w : Nat, (w : Int) ∈ ws → w ∉ a'.waiting) ∧
      ∀ p ∈ taken, ∃ w : Nat, (w : Int) ∈ ws ∧ Reaches transposed w p := by
  induction ws generalizing a with
  | nil =>
    rw [assignAll]
    exact ⟨a, [], rfl, .nil ha, by simp, by simp⟩
  | cons x ws ih =>
    have hx := hws x List.mem_cons_self
    obtain ⟨w, rfl⟩ := Int.eq_ofNat_of_zero_le hx.1
    obtain ⟨a₁, taken₁, hrun₁, htakes₁, hout₁, -, hreach₁⟩ := hassign a w ha (by omega) hfuel
    have hfuel₂ := Nat.lt_of_le_of_lt htakes₁.left hfuel
    obtain ⟨a₂, taken₂, hrun₂, htakes₂, hout₂, hreach₂⟩ :=
      ih (fun y hy => hws y (List.mem_cons_of_mem _ hy)) htakes₁.fits hfuel₂
    refine ⟨a₂, taken₂ ++ taken₁, ?_, htakes₁.trans htakes₂, fun y hy hwaits => ?_, fun p hp => ?_⟩
    · rw [assignAll]
      exact Outcome.bind_eq_ok.2 ⟨a₁, hrun₁, hrun₂⟩
    · rcases List.mem_cons.1 hy with heq | hy
      · obtain rfl : y = w := Int.ofNat_inj.1 heq
        exact hout₁ ((htakes₂.waiting y).1 hwaits).1
      · exact hout₂ y hy hwaits
    · rcases List.mem_append.1 hp with hp | hp
      · obtain ⟨y, hy, hreach⟩ := hreach₂ p hp
        exact ⟨y, List.mem_cons_of_mem _ hy, hreach⟩
      · exact ⟨w, List.mem_cons_self, hreach₁ p hp⟩

theorem takes_assign (hbounded : Bounded transposed) (root : Int) (fuel : Nat) :
    AssignsAt transposed root fuel := by
  induction fuel with
  | zero => exact fun a v _ _ hfuel => absurd hfuel (Nat.not_lt_zero _)
  | succ fuel ih =>
    intro a v ha hv hfuel
    by_cases hwaits : v ∈ a.waiting
    · have hcount := Assignment.left_give hwaits root
      obtain ⟨a', taken, hrun, htakes, hout, hreach⟩ := takes_assignAll ih (transposed.getD v [])
        (fun w hw => hbounded.of_mem hw) (ha.give v root) (by omega)
      have hall := htakes.cons ha hwaits hout
      refine ⟨a', v :: taken, ?_, hall, fun hv' => ?_, fun hnot => absurd hwaits hnot, fun p hp => ?_⟩
      · rw [assign]
        refine Outcome.bind_eq_ok.2 ⟨v, position_natCast hv, ?_⟩
        exact (if_pos hwaits).trans hrun
      · exact ((hall.waiting v).1 hv').2 List.mem_cons_self
      · rcases List.mem_cons.1 hp with rfl | hp
        · exact .refl
        · obtain ⟨w, hw, hwp⟩ := hreach p hp
          exact .head hw hwp
    · refine ⟨a, [], ?_, .nil ha, hwaits, fun _ => rfl, by simp⟩
      rw [assign]
      refine Outcome.bind_eq_ok.2 ⟨v, position_natCast hv, ?_⟩
      exact if_neg hwaits

theorem reaches_transposed (hturned : ∀ q p, Leads transposed q p ↔ Leads graph p q) {u v : Nat} :
    Reaches transposed u v ↔ Reaches graph v u := by
  have hswap : Leads transposed = Function.swap (Leads graph) := by
    funext q p
    exact propext (hturned q p)
  rw [Reaches, hswap, Relation.reflTransGen_swap]

/-- The search has gone from all of `past`: exactly their components have roots, each component one, and
that is a vertex of the component. -/
structure Settled (graph : List (List Int)) (past : List Nat) (a : Assignment) : Prop where
  waiting : ∀ p, p ∈ a.waiting ↔ p < graph.length ∧ ∀ w ∈ past, ¬ Mutual graph p w
  rooted : ∀ p < graph.length, p ∉ a.waiting →
    ∃ r : Nat, a.roots[p]? = some (r : Int) ∧ a.roots[r]? = some (r : Int) ∧ Mutual graph p r
  same : ∀ p < graph.length, ∀ q < graph.length, p ∉ a.waiting → Mutual graph p q →
    a.roots[p]? = a.roots[q]?

/-- From a vertex of which no component before is, the search takes exactly the component of the
vertex. -/
theorem mem_taken_iff (hturned : ∀ q p, Leads transposed q p ↔ Leads graph p q)
    {past rest taken : List Nat} {x : Nat} {a a' : Assignment}
    (hfinished : Finished graph ∅ (past ++ x :: rest))
    (hall : ∀ v, v ∈ past ++ x :: rest ↔ v < graph.length) (ha : Settled graph past a)
    (htakes : Takes transposed root a a' taken) (hx : x ∈ a.waiting) (hout : x ∉ a'.waiting)
    (hreach : ∀ p ∈ taken, Reaches transposed x p) (p : Nat) : p ∈ taken ↔ Mutual graph p x := by
  have hfree : ∀ w ∈ past, ¬ Mutual graph x w := ((ha.waiting x).1 hx).2
  constructor
  · intro hp
    obtain ⟨hlt, hpast⟩ := (ha.waiting p).1 (htakes.waited p hp)
    have hpx : Reaches graph p x := (reaches_transposed hturned).1 (hreach p hp)
    rcases List.mem_append.1 ((hall p).2 hlt) with hmem | hmem
    · exact absurd (Mutual.refl p) (hpast p hmem)
    rcases List.mem_cons.1 hmem with rfl | hmem
    · exact Mutual.refl p
    -- `p` comes after `x` in the order, so its component has a vertex that does not
    have hwalk : ReflTransGen (LeadsOutside graph ∅) p x :=
      hpx.lift id fun _ _ h => ⟨h, Set.notMem_empty _⟩
    obtain ⟨w, hw, hmutual⟩ :=
      hfinished.ordered (past ++ [x]) rest (by simp) p hmem x (by simp) hwalk
    rcases List.mem_append.1 hw with hw | hw
    · exact absurd hmutual (hpast w hw)
    · rwa [List.mem_singleton.1 hw] at hmutual
  · rintro ⟨hpx, hxp⟩
    induction hpx using ReflTransGen.head_induction_on with
    | refl =>
      by_contra hnot
      exact hout ((htakes.waiting x).2 ⟨hx, hnot⟩)
    | @head p q hpq hqx ih =>
      have hq : q ∈ taken := ih (hxp.tail hpq)
      have hmutual : Mutual graph p x := ⟨hqx.head hpq, hxp⟩
      have hwaits : p ∈ a.waiting := by
        refine (ha.waiting p).2 ⟨lt_of_leads hpq, fun w hw hpw => ?_⟩
        exact hfree w hw (hmutual.symm.trans hpw)
      by_contra hnot
      exact htakes.closed q hq p ((hturned q p).2 hpq) ((htakes.waiting p).2 ⟨hwaits, hnot⟩)

/-- A component is taken. -/
theorem Settled.take (hturned : ∀ q p, Leads transposed q p ↔ Leads graph p q)
    {past rest taken : List Nat} {x : Nat} {a a' : Assignment}
    (hfinished : Finished graph ∅ (past ++ x :: rest))
    (hall : ∀ v, v ∈ past ++ x :: rest ↔ v < graph.length) (ha : Settled graph past a)
    (htakes : Takes transposed x a a' taken) (hx : x ∈ a.waiting) (hout : x ∉ a'.waiting)
    (hreach : ∀ p ∈ taken, Reaches transposed x p) : Settled graph (past ++ [x]) a' := by
  have hiff := mem_taken_iff hturned hfinished hall ha htakes hx hout hreach
  have hxx : x ∈ taken := (hiff x).2 (Mutual.refl x)
  have hold : ∀ p, p ∉ a'.waiting → p ∉ taken → p ∉ a.waiting := fun p hnot hpt hwaits =>
    hnot ((htakes.waiting p).2 ⟨hwaits, hpt⟩)
  refine ⟨fun p => ?_, fun p hp hnot => ?_, fun p hp q hq hnot hpq => ?_⟩
  · rw [htakes.waiting, ha.waiting, hiff]
    simp only [List.mem_append, List.mem_singleton, or_imp, forall_and, forall_eq]
    tauto
  · by_cases hpt : p ∈ taken
    · refine ⟨x, ?_, ?_, (hiff p).1 hpt⟩
      · rw [htakes.roots, if_pos hpt]
      · rw [htakes.roots, if_pos hxx]
    · obtain ⟨r, hpr, hrr, hmutual⟩ := ha.rooted p hp (hold p hnot hpt)
      have hrt : r ∉ taken := fun hr => hpt ((hiff p).2 (hmutual.trans ((hiff r).1 hr)))
      refine ⟨r, ?_, ?_, hmutual⟩
      · rw [htakes.roots, if_neg hpt, hpr]
      · rw [htakes.roots, if_neg hrt, hrr]
  · have hboth : p ∈ taken ↔ q ∈ taken := by
      rw [hiff, hiff]
      exact ⟨fun h => hpq.symm.trans h, fun h => hpq.trans h⟩
    rw [htakes.roots, htakes.roots]
    by_cases hpt : p ∈ taken
    · rw [if_pos hpt, if_pos (hboth.1 hpt)]
    · rw [if_neg hpt, if_neg fun hqt => hpt (hboth.2 hqt)]
      exact ha.same p hp q hq (hold p hnot hpt) hpq

/-- The component of the vertex has been taken before. -/
theorem Settled.pass {past : List Nat} {x : Nat} {a : Assignment} (hlt : x < graph.length)
    (ha : Settled graph past a) (hx : x ∉ a.waiting) : Settled graph (past ++ [x]) a := by
  obtain ⟨w, hw, hxw⟩ : ∃ w ∈ past, Mutual graph x w := by
    by_contra hnone
    refine hx ((ha.waiting x).2 ⟨hlt, fun w hw hxw => hnone ⟨w, hw, hxw⟩⟩)
  refine ⟨fun p => ?_, ha.rooted, ha.same⟩
  rw [ha.waiting]
  refine and_congr_right fun _ => ⟨fun hpast y hy hpy => ?_, fun hpast y hy => ?_⟩
  · rcases List.mem_append.1 hy with hy | hy
    · exact hpast y hy hpy
    · rw [List.mem_singleton.1 hy] at hpy
      exact hpast w hw (hpy.trans hxw)
  · exact hpast y (List.mem_append_left _ hy)

theorem settled_foldlM (hturned : ∀ q p, Leads transposed q p ↔ Leads graph p q)
    (hlength : transposed.length = graph.length) {fuel : Nat}
    (hassign : ∀ root, AssignsAt transposed root fuel) (past rest : List Nat)
    (hfinished : Finished graph ∅ (past ++ rest))
    (hall : ∀ v, v ∈ past ++ rest ↔ v < graph.length) {a : Assignment}
    (hfits : a.Fits transposed.length) (hfuel : a.left < fuel) (ha : Settled graph past a) :
    ∃ a', (rest.map (Nat.cast : Nat → Int)).foldlM (fun a v => assign transposed v fuel a v) a = .ok a' ∧
      a'.Fits transposed.length ∧ Settled graph (past ++ rest) a' := by
  induction rest generalizing past a with
  | nil => exact ⟨a, rfl, hfits, by rwa [List.append_nil]⟩
  | cons x rest ih =>
    have hlt : x < graph.length := (hall x).1 (by simp)
    obtain ⟨a₁, taken, hrun, htakes, hout, hsame, hreach⟩ :=
      hassign x a x hfits (hlength ▸ hlt) hfuel
    have hsettled : Settled graph (past ++ [x]) a₁ := by
      by_cases hx : x ∈ a.waiting
      · exact ha.take hturned hfinished hall htakes hx hout hreach
      · rw [hsame hx]
        exact ha.pass hlt hx
    have hsplit : past ++ x :: rest = past ++ [x] ++ rest := by simp
    rw [hsplit] at hfinished hall ⊢
    obtain ⟨a', hrest, hfits', ha'⟩ :=
      ih _ hfinished hall htakes.fits (Nat.lt_of_le_of_lt htakes.left hfuel) hsettled
    refine ⟨a', ?_, hfits', ha'⟩
    rw [List.map_cons, Outcome.foldlM_cons_eq_ok]
    exact ⟨a₁, hrun, hrest⟩

/-- Both searches end well, and the second one settles all vertices. -/
theorem exists_settled (hgraph : Bounded graph) :
    ∃ order a, roots graph = .ok a.roots ∧ a.roots.length = graph.length ∧ Settled graph order a ∧
      ∀ p < graph.length, p ∉ a.waiting := by
  obtain ⟨s, order, hsearch, hfits, horder, hfinished, hall, hseen, hturned⟩ := search_exact hgraph
  have hwaiting : (⟨s.visited, List.replicate graph.length 0⟩ : Assignment).waiting =
      {v | v < graph.length} := hseen
  have hstart : Settled graph [] ⟨s.visited, List.replicate graph.length 0⟩ := by
    refine ⟨fun p => ?_, fun p hp hnot => ?_, fun p hp q hq hnot => ?_⟩
    · rw [hwaiting]
      simp
    · exact absurd (hwaiting ▸ hp) hnot
    · exact absurd (hwaiting ▸ hp) hnot
  have hleft : (⟨s.visited, List.replicate graph.length 0⟩ : Assignment).left < graph.length + 1 := by
    have hcount : s.visited.count true ≤ s.visited.length := List.count_le_length
    rw [hfits.visited] at hcount
    exact Nat.lt_succ_of_le hcount
  obtain ⟨a, hrun, hafits, ha⟩ := settled_foldlM hturned hfits.transposed
    (fun root => takes_assign hfits.bounded root (graph.length + 1)) [] order hfinished hall
    ⟨by rw [hfits.visited, hfits.transposed], by rw [List.length_replicate, hfits.transposed]⟩
    hleft hstart
  refine ⟨order, a, ?_, hafits.roots.trans hfits.transposed, ha, fun p hp hwaits =>
    ((ha.waiting p).1 hwaits).2 p ((hall p).2 hp) (Mutual.refl p)⟩
  unfold roots
  refine Outcome.bind_eq_ok.2 ⟨s, hsearch, Outcome.bind_eq_ok.2 ⟨a, ?_, rfl⟩⟩
  rw [horder]
  exact hrun

/-- Settled vertices have the same root exactly when they are in one component. -/
theorem Settled.roots_eq_iff {past : List Nat} {a : Assignment} (ha : Settled graph past a) {u v : Nat}
    (hu : u < graph.length) (hv : v < graph.length) (hut : u ∉ a.waiting) (hvt : v ∉ a.waiting) :
    a.roots[u]? = a.roots[v]? ↔ Mutual graph u v := by
  refine ⟨fun heq => ?_, ha.same u hu v hv hut⟩
  obtain ⟨r, hur, -, hmutual⟩ := ha.rooted u hu hut
  obtain ⟨r', hvr, -, hmutual'⟩ := ha.rooted v hv hvt
  obtain rfl : r = r' := by
    rw [hur, hvr] at heq
    exact Int.ofNat_inj.1 (Option.some.inj heq)
  exact hmutual.trans hmutual'.symm

/-- Every vertex gets a root. Two vertices get the same if and only if each leads to the other, and a
root is its own root. -/
theorem roots_eq_iff_mutual (graph : List (List Int))
    (hgraph : ∀ ws ∈ graph, ∀ w ∈ ws, 0 ≤ w ∧ w < graph.length) :
    ∃ rs, roots graph = .ok rs ∧ rs.length = graph.length ∧
      (∀ u < graph.length, ∀ v < graph.length,
        (rs[u]? = rs[v]? ↔ Reaches graph u v ∧ Reaches graph v u)) ∧
      ∀ u < graph.length, ∃ r : Nat, rs[u]? = some (r : Int) ∧ rs[r]? = some (r : Int) := by
  obtain ⟨order, a, hroots, hlength, ha, hdone⟩ := exists_settled hgraph
  refine ⟨a.roots, hroots, hlength,
    fun u hu v hv => ha.roots_eq_iff hu hv (hdone u hu) (hdone v hv), fun u hu => ?_⟩
  obtain ⟨r, hur, hrr, -⟩ := ha.rooted u hu (hdone u hu)
  exact ⟨r, hur, hrr⟩

/-- A circle of three vertices, one of its edges twice, and a vertex behind it that leads to itself. -/
def circleAndLoop : List (List Int) := [[1, 1], [2, 3], [0], [3]]

theorem roots_circleAndLoop : (∀ ws ∈ circleAndLoop, ∀ w ∈ ws, 0 ≤ w ∧ w < circleAndLoop.length) ∧
    ∃ rs, roots circleAndLoop = .ok rs ∧ rs.length = 4 ∧ rs[0]? = rs[2]? ∧ rs[0]? ≠ rs[3]? := by
  have hbounded : ∀ ws ∈ circleAndLoop, ∀ w ∈ ws, 0 ≤ w ∧ w < circleAndLoop.length := by decide
  have hedge : ∀ u v : Nat, (v : Int) ∈ circleAndLoop.getD u [] → Reaches circleAndLoop u v :=
    fun u v h => .single h
  have hforth : Reaches circleAndLoop 0 2 := (hedge 0 1 (by decide)).trans (hedge 1 2 (by decide))
  have hback : Reaches circleAndLoop 2 0 := hedge 2 0 (by decide)
  have hstays : ∀ v, Reaches circleAndLoop 3 v → v = 3 := by
    intro v h
    induction h with
    | refl => rfl
    | @tail u v _ hstep ih =>
      subst ih
      have hmem : (v : Int) ∈ [(3 : Int)] := hstep
      exact Int.ofNat_inj.1 (List.mem_singleton.1 hmem)
  obtain ⟨rs, hroots, hlength, hsame, -⟩ := roots_eq_iff_mutual circleAndLoop hbounded
  refine ⟨hbounded, rs, hroots, hlength, ?_, fun heq => ?_⟩
  · exact (hsame 0 (by decide) 2 (by decide)).2 ⟨hforth, hback⟩
  · have hmutual := (hsame 0 (by decide) 3 (by decide)).1 heq
    exact absurd (hstays 0 hmutual.2) (by decide)

end Cairoscope.Components
