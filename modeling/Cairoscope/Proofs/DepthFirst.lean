import Cairoscope.Components
import Cairoscope.Proofs.Outcome
import Mathlib.Data.List.Nodup
import Mathlib.Data.Set.Insert
import Mathlib.Logic.Relation

/-! The first search for components. It finishes every vertex once, last finished first, and turns
every edge round. Of two parts of its order, a vertex of the earlier part that leads into the later
part shares a component with a vertex there: this is all that the second search needs to know. -/

namespace Cairoscope.Components

open Relation (ReflTransGen)

def Leads (graph : List (List Int)) (u v : Nat) : Prop := (v : Int) ∈ graph.getD u []

abbrev Reaches (graph : List (List Int)) : Nat → Nat → Prop := ReflTransGen (Leads graph)

def Mutual (graph : List (List Int)) (u v : Nat) : Prop := Reaches graph u v ∧ Reaches graph v u

def Bounded (graph : List (List Int)) : Prop :=
  ∀ ws ∈ graph, ∀ w ∈ ws, 0 ≤ w ∧ w < graph.length

variable {graph : List (List Int)}

theorem Mutual.refl (u : Nat) : Mutual graph u u := ⟨.refl, .refl⟩

theorem Mutual.symm {u v : Nat} (h : Mutual graph u v) : Mutual graph v u := ⟨h.2, h.1⟩

theorem Mutual.trans {u v w : Nat} (h : Mutual graph u v) (h' : Mutual graph v w) :
    Mutual graph u w := ⟨h.1.trans h'.1, h'.2.trans h.2⟩

theorem mem_of_mem_getD {u : Nat} {w : Int} (h : w ∈ graph.getD u []) : ∃ ws ∈ graph, w ∈ ws := by
  rw [List.getD_eq_getElem?_getD] at h
  cases hu : graph[u]? with
  | none => simp [hu] at h
  | some ws => exact ⟨ws, List.mem_of_getElem? hu, by simpa [hu] using h⟩

theorem Bounded.of_mem {u : Nat} {w : Int} (hgraph : Bounded graph) (h : w ∈ graph.getD u []) :
    0 ≤ w ∧ w < graph.length := by
  obtain ⟨ws, hws, hw⟩ := mem_of_mem_getD h
  exact hgraph ws hws w hw

theorem lt_of_leads {u v : Nat} (h : Leads graph u v) : u < graph.length := by
  by_contra hout
  simp [Leads, List.getD_eq_getElem?_getD, List.getElem?_eq_none (Nat.le_of_not_lt hout)] at h

theorem position_natCast {n v : Nat} (h : v < n) : position n v = .ok v := by
  unfold position
  have hpos : ¬ ((v : Int) < 0) := by omega
  simp [hpos, h]

-- Walks that meet no vertex of a set after their start.

def LeadsOutside (graph : List (List Int)) (seen : Set Nat) (u v : Nat) : Prop :=
  Leads graph u v ∧ v ∉ seen

theorem reaches_of_walk {seen : Set Nat} {u v : Nat}
    (hwalk : ReflTransGen (LeadsOutside graph seen) u v) : Reaches graph u v :=
  hwalk.lift id fun _ _ h => h.1

/-- Vertices that a search has finished, the last one first, when those of `seen` had been met before
it began. -/
structure Finished (graph : List (List Int)) (seen : Set Nat) (done : List Nat) : Prop where
  fresh : ∀ v ∈ done, v ∉ seen
  nodup : done.Nodup
  closed : ∀ u ∈ done, ∀ v, Leads graph u v → v ∈ seen ∨ v ∈ done
  ordered : ∀ late early, done = late ++ early → ∀ u ∈ early, ∀ v ∈ late,
    ReflTransGen (LeadsOutside graph seen) u v → ∃ w ∈ late, Mutual graph u w

namespace Finished

variable {seen : Set Nat} {done early late : List Nat} {u v w : Nat}

theorem nil (graph : List (List Int)) (seen : Set Nat) : Finished graph seen [] where
  fresh := by simp
  nodup := List.nodup_nil
  closed := by simp
  ordered := by
    intro late early h
    obtain ⟨rfl, rfl⟩ : late = [] ∧ early = [] := by simpa using h
    simp

/-- A walk outside `seen` does not leave the finished vertices. -/
theorem mem_of_walk (h : Finished graph seen done) (hu : u ∈ done)
    (hwalk : ReflTransGen (LeadsOutside graph seen) u v) : v ∈ done := by
  induction hwalk with
  | refl => exact hu
  | tail _ hstep ih => exact (h.closed _ ih _ hstep.1).resolve_left hstep.2

theorem walk_outside (h : Finished graph seen done) (hv : v ∉ done)
    (hwalk : ReflTransGen (LeadsOutside graph seen) u v) :
    ReflTransGen (LeadsOutside graph (seen ∪ {x | x ∈ done})) u v := by
  induction hwalk using ReflTransGen.head_induction_on with
  | refl => exact .refl
  | head hstep hrest ih =>
    have hnot : _ ∉ done := fun hmem => hv (h.mem_of_walk hmem hrest)
    exact .head ⟨hstep.1, fun hmem => hmem.elim hstep.2 hnot⟩ ih

/-- One search after another. -/
theorem append (h : Finished graph seen early) (h' : Finished graph (seen ∪ {x | x ∈ early}) late) :
    Finished graph seen (late ++ early) where
  fresh := by
    intro v hv
    rcases List.mem_append.1 hv with hv | hv
    · exact fun hseen => h'.fresh v hv (Or.inl hseen)
    · exact h.fresh v hv
  nodup := by
    refine List.nodup_append'.2 ⟨h'.nodup, h.nodup, fun v hlate hearly => ?_⟩
    exact h'.fresh v hlate (Or.inr hearly)
  closed := by
    intro u hu v huv
    rw [List.mem_append]
    rcases List.mem_append.1 hu with hu | hu
    · rcases h'.closed u hu v huv with (hv | hv) | hv
      · exact Or.inl hv
      · exact Or.inr (Or.inr hv)
      · exact Or.inr (Or.inl hv)
    · exact (h.closed u hu v huv).imp_right Or.inr
  ordered := by
    intro l e hsplit u hu v hv hwalk
    -- a walk that has come to the earlier part stays there
    have hstays : u ∈ early → v ∈ early := fun hmem => h.mem_of_walk hmem hwalk
    rcases List.append_eq_append_iff.1 hsplit with ⟨mid, hl, hearly⟩ | ⟨mid, hlate, he⟩
    · have hu' : u ∈ early := hearly ▸ List.mem_append_right mid hu
      rw [hl] at hv ⊢
      rcases List.mem_append.1 hv with hv | hv
      · exact absurd (Or.inr (hstays hu')) (h'.fresh v hv)
      · obtain ⟨w, hw, hmutual⟩ := h.ordered mid e hearly u hu v hv hwalk
        exact ⟨w, List.mem_append_right late hw, hmutual⟩
    · have hv' : v ∉ early := fun hmem =>
        h'.fresh v (hlate ▸ List.mem_append_left mid hv) (Or.inr hmem)
      rw [he] at hu
      rcases List.mem_append.1 hu with hu | hu
      · exact h'.ordered l mid hlate u hu v hv (h.walk_outside hv' hwalk)
      · exact absurd (hstays hu) hv'

/-- A walk meets `v`, or it is one outside `v` too. -/
theorem reaches_or_outside (v : Nat) (hwalk : ReflTransGen (LeadsOutside graph seen) u w) :
    Reaches graph u v ∨ ReflTransGen (LeadsOutside graph (insert v seen)) u w := by
  induction hwalk with
  | refl => exact Or.inr .refl
  | @tail b c hwalk hstep ih =>
    rcases ih with hv | hout
    · exact Or.inl hv
    by_cases hc : c = v
    · subst hc
      exact Or.inl ((reaches_of_walk hwalk).tail hstep.1)
    · refine Or.inr (hout.tail ⟨hstep.1, fun hmem => ?_⟩)
      exact hmem.elim hc hstep.2

/-- A vertex is finished after all that its search has found. -/
theorem cons (hv : v ∉ seen) (h : Finished graph (insert v seen) done)
    (hnext : ∀ w, Leads graph v w → w ∈ insert v seen ∨ w ∈ done)
    (hbelow : ∀ u ∈ done, Reaches graph v u) : Finished graph seen (v :: done) where
  fresh := by
    intro u hu
    rcases List.mem_cons.1 hu with rfl | hu
    · exact hv
    · exact fun hseen => h.fresh u hu (Or.inr hseen)
  nodup := List.nodup_cons.2 ⟨fun hmem => h.fresh v hmem (Or.inl rfl), h.nodup⟩
  closed := by
    have hmove : ∀ w, w ∈ insert v seen ∨ w ∈ done → w ∈ seen ∨ w ∈ v :: done := by
      rintro w ((rfl | hw) | hw)
      · exact Or.inr List.mem_cons_self
      · exact Or.inl hw
      · exact Or.inr (List.mem_cons_of_mem v hw)
    intro u hu w huw
    rcases List.mem_cons.1 hu with rfl | hu
    · exact hmove w (hnext w huw)
    · exact hmove w (h.closed u hu w huw)
  ordered := by
    intro late early hsplit u hu w hw hwalk
    cases late with
    | nil => cases hw
    | cons x late =>
      obtain ⟨rfl, rfl⟩ := List.cons.inj hsplit
      have hback : Reaches graph u v → ∃ x ∈ v :: late, Mutual graph u x := fun hreach =>
        ⟨v, List.mem_cons_self, hreach, hbelow u (List.mem_append_right _ hu)⟩
      rcases List.mem_cons.1 hw with rfl | hw
      · exact hback (reaches_of_walk hwalk)
      · rcases reaches_or_outside v hwalk with hreach | hout
        · exact hback hreach
        · obtain ⟨x, hx, hmutual⟩ := h.ordered late early rfl u hu w hw hout
          exact ⟨x, List.mem_cons_of_mem v hx, hmutual⟩

end Finished

namespace Search

def seen (s : Search) : Set Nat := {p | s.visited.getD p false = true}

def unseen (s : Search) : Nat := s.visited.count false

structure Fits (graph : List (List Int)) (s : Search) : Prop where
  visited : s.visited.length = graph.length
  transposed : s.transposed.length = graph.length
  bounded : Bounded s.transposed

theorem lt_of_mem_seen {s : Search} {p : Nat} (h : p ∈ s.seen) : p < s.visited.length := by
  by_contra hout
  have hflag : s.visited.getD p false = true := h
  simp [List.getD_eq_getElem?_getD, List.getElem?_eq_none (Nat.le_of_not_lt hout)] at hflag

def meet (s : Search) (p : Nat) : Search := { s with visited := s.visited.set p true }

theorem seen_meet {s : Search} {p : Nat} (hp : p < s.visited.length) :
    (s.meet p).seen = insert p s.seen := by
  ext q
  change (s.visited.set p true).getD q false = true ↔ q = p ∨ s.visited.getD q false = true
  rw [List.getD_eq_getElem?_getD, List.getElem?_set, List.getD_eq_getElem?_getD]
  by_cases hq : p = q
  · subst hq
    simp [hp]
  · have hne : q ≠ p := fun h => hq h.symm
    simp [hq, hne]

theorem unseen_meet {s : Search} {p : Nat} (hp : p < s.visited.length) (hnew : p ∉ s.seen) :
    (s.meet p).unseen + 1 = s.unseen := by
  have hflag : s.visited[p] = false := by
    have hnot : ¬ s.visited.getD p false = true := hnew
    simpa [List.getD_eq_getElem?_getD, hp] using hnot
  have hpos : 0 < s.visited.count false := List.count_pos_iff.2 (hflag ▸ List.getElem_mem hp)
  change (s.visited.set p true).count false + 1 = s.visited.count false
  have hset := List.count_set (a := true) (b := false) hp
  rw [hflag] at hset
  simp only [beq_self_eq_true, if_true, beq_false, Bool.not_true, Bool.false_eq_true, if_false] at hset
  omega

theorem Fits.meet {s : Search} (h : s.Fits graph) (p : Nat) : (s.meet p).Fits graph :=
  ⟨by rw [Search.meet, List.length_set, h.visited], h.transposed, h.bounded⟩

def turn (s : Search) (v q : Nat) : Search :=
  { s with transposed := s.transposed.set q (s.transposed.getD q [] ++ [(v : Int)]) }

theorem leads_turn {s : Search} {v q : Nat} (hq : q < s.transposed.length) (a b : Nat) :
    Leads (s.turn v q).transposed a b ↔ Leads s.transposed a b ∨ (b = v ∧ a = q) := by
  change (b : Int) ∈ (s.transposed.set q _).getD a [] ↔ (b : Int) ∈ s.transposed.getD a [] ∨ _
  simp only [List.getD_eq_getElem?_getD, List.getElem?_set]
  by_cases ha : q = a
  · subst ha
    simp [hq, Int.ofNat_inj]
  · have hne : a ≠ q := fun h => ha h.symm
    simp [ha, hne]

theorem Fits.turn {s : Search} (h : s.Fits graph) {v : Nat} (hv : v < graph.length) (q : Nat) :
    (s.turn v q).Fits graph := by
  have hlength : (s.turn v q).transposed.length = s.transposed.length := List.length_set ..
  refine ⟨h.visited, hlength.trans h.transposed, fun ws hws w hw => ?_⟩
  rw [hlength]
  rcases List.mem_or_eq_of_mem_set hws with hold | rfl
  · exact h.bounded ws hold w hw
  rcases List.mem_append.1 hw with hold | hnew
  · exact h.bounded.of_mem hold
  · rw [List.mem_singleton.1 hnew, h.transposed]
    omega

end Search

/-- What a part of the search does: it finishes vertices, and turns edges round. -/
structure Explores (graph : List (List Int)) (turned : Nat → Nat → Prop) (s s' : Search)
    (done : List Nat) : Prop where
  finished : Finished graph s.seen done
  seen : s'.seen = s.seen ∪ {v | v ∈ done}
  order : s'.order = done.map Nat.cast ++ s.order
  turned : ∀ q p, Leads s'.transposed q p ↔ Leads s.transposed q p ∨ turned p q
  fits : s'.Fits graph
  unseen : s'.unseen ≤ s.unseen

namespace Explores

variable {turned turned' : Nat → Nat → Prop} {s s' s'' : Search} {done done' : List Nat}

theorem nil (hs : s.Fits graph) : Explores graph (fun _ _ => False) s s [] :=
  ⟨.nil graph s.seen, by simp, rfl, by simp, hs, Nat.le_refl _⟩

theorem trans (h : Explores graph turned s s' done) (h' : Explores graph turned' s' s'' done') :
    Explores graph (fun p q => turned p q ∨ turned' p q) s s'' (done' ++ done) where
  finished := h.finished.append (h.seen ▸ h'.finished)
  seen := by
    ext v
    rw [h'.seen, h.seen]
    simp only [Set.mem_union, Set.mem_ofPred_eq, List.mem_append]
    tauto
  order := by rw [h'.order, h.order, List.map_append, List.append_assoc]
  turned := by
    intro q p
    rw [h'.turned, h.turned, or_assoc]
  fits := h'.fits
  unseen := Nat.le_trans h'.unseen h.unseen

theorem congr (h : Explores graph turned s s' done) (heq : ∀ p q, turned p q ↔ turned' p q) :
    Explores graph turned' s s' done :=
  { h with turned := fun q p => by rw [h.turned, heq] }

theorem turn (hs : s.Fits graph) {v q : Nat} (hv : v < graph.length) (hq : q < graph.length) :
    Explores graph (fun a b => a = v ∧ b = q) s (s.turn v q) [] where
  finished := .nil graph s.seen
  seen := by
    ext p
    simp [Search.seen, Search.turn]
  order := rfl
  turned := fun a b => Search.leads_turn (hs.transposed ▸ hq) a b
  fits := hs.turn hv q
  unseen := Nat.le_refl _

end Explores

-- One visit needs fuel for each vertex that has not been met, and for itself.

def VisitsAt (graph : List (List Int)) (fuel : Nat) : Prop :=
  ∀ (s : Search) (v : Nat), s.Fits graph → v < graph.length → s.unseen < fuel →
    ∃ s' done, visit graph fuel s v = .ok s' ∧
      Explores graph (fun p q => p ∈ done ∧ Leads graph p q) s s' done ∧ v ∈ s'.seen ∧
      ∀ u ∈ done, Reaches graph v u

theorem explores_visitAll {fuel v : Nat} (hvisit : VisitsAt graph fuel) (hv : v < graph.length)
    (ws : List Int) (hws : ∀ w ∈ ws, 0 ≤ w ∧ w < graph.length) {s : Search} (hs : s.Fits graph)
    (hfuel : s.unseen < fuel) :
    ∃ s' done, visitAll graph fuel v s ws = .ok s' ∧
      Explores graph (fun p q => (p ∈ done ∧ Leads graph p q) ∨ (p = v ∧ (q : Int) ∈ ws)) s s' done ∧
      (∀ w : Nat, (w : Int) ∈ ws → w ∈ s'.seen) ∧
      ∀ u ∈ done, ∃ w : Nat, (w : Int) ∈ ws ∧ Reaches graph w u := by
  induction ws generalizing s with
  | nil =>
    rw [visitAll]
    exact ⟨s, [], rfl, (Explores.nil hs).congr (by simp), by simp, by simp⟩
  | cons x ws ih =>
    have hx := hws x List.mem_cons_self
    obtain ⟨w, rfl⟩ := Int.eq_ofNat_of_zero_le hx.1
    have hw : w < graph.length := by omega
    obtain ⟨s₁, done₁, hrun₁, hexp₁, hseen₁, hreach₁⟩ := hvisit s w hs hw hfuel
    have hturn := Explores.turn hexp₁.fits hv hw
    have hfuel₂ : (s₁.turn v w).unseen < fuel := Nat.lt_of_le_of_lt hexp₁.unseen hfuel
    obtain ⟨s₂, done₂, hrun₂, hexp₂, hseen₂, hreach₂⟩ :=
      ih (fun y hy => hws y (List.mem_cons_of_mem _ hy)) hturn.fits hfuel₂
    have hall := (hexp₁.trans hturn).trans hexp₂
    refine ⟨s₂, done₂ ++ done₁, ?_, hall.congr fun p q => ?_, fun y hy => ?_, fun u hu => ?_⟩
    · rw [visitAll]
      refine Outcome.bind_eq_ok.2 ⟨s₁, hrun₁, Outcome.bind_eq_ok.2 ⟨w, position_natCast hw, hrun₂⟩⟩
    · rw [List.mem_append, List.mem_cons, Int.ofNat_inj, or_and_right, and_or_left]
      exact or_or_or_comm.trans (or_congr_left or_comm)
    · rw [hexp₂.seen]
      rcases List.mem_cons.1 hy with heq | hy
      · obtain rfl : y = w := by exact_mod_cast heq
        exact Or.inl (by rw [hturn.seen]; exact Or.inl hseen₁)
      · rw [← hexp₂.seen]
        exact hseen₂ y hy
    · rcases List.mem_append.1 hu with hu | hu
      · obtain ⟨y, hy, hreach⟩ := hreach₂ u hu
        exact ⟨y, List.mem_cons_of_mem _ hy, hreach⟩
      · exact ⟨w, List.mem_cons_self, hreach₁ u hu⟩

theorem explores_visit (hgraph : Bounded graph) (fuel : Nat) : VisitsAt graph fuel := by
  induction fuel with
  | zero => exact fun s v _ _ hfuel => absurd hfuel (Nat.not_lt_zero _)
  | succ fuel ih =>
    intro s v hs hv hfuel
    have hplace : v < s.visited.length := hs.visited ▸ hv
    by_cases hnew : v ∈ s.seen
    · refine ⟨s, [], ?_, (Explores.nil hs).congr (by simp), hnew, by simp⟩
      rw [visit]
      refine Outcome.bind_eq_ok.2 ⟨v, position_natCast hv, ?_⟩
      exact if_pos hnew
    -- the vertex is met, its neighbours are visited, and then it is finished
    have hcount := Search.unseen_meet hplace hnew
    obtain ⟨s', done, hrun, hexp, hseen, hreach⟩ := explores_visitAll ih hv (graph.getD v [])
      (fun w hw => hgraph.of_mem hw) (hs.meet v) (by omega)
    have hmeet : (s.meet v).seen = insert v s.seen := Search.seen_meet hplace
    have hbelow : ∀ u ∈ done, Reaches graph v u := by
      intro u hu
      obtain ⟨w, hw, hwu⟩ := hreach u hu
      exact .head hw hwu
    have hnext : ∀ w, Leads graph v w → w ∈ insert v s.seen ∨ w ∈ done := by
      intro w hw
      have hmem := hseen w hw
      rwa [hexp.seen, hmeet] at hmem
    refine ⟨{ s' with order := (v : Int) :: s'.order }, v :: done, ?_, ?_, ?_, ?_⟩
    · rw [visit]
      refine Outcome.bind_eq_ok.2 ⟨v, position_natCast hv, ?_⟩
      refine (if_neg hnew).trans ?_
      exact Outcome.bind_eq_ok.2 ⟨s', hrun, rfl⟩
    · refine ⟨.cons hnew (hmeet ▸ hexp.finished) hnext hbelow, ?_, ?_, fun q p => ?_, ?_, ?_⟩
      · change s'.seen = _
        rw [hexp.seen, hmeet]
        ext u
        simp only [Set.mem_union, Set.mem_insert_iff, Set.mem_ofPred_eq, List.mem_cons]
        tauto
      · change (v : Int) :: s'.order = _
        rw [hexp.order]
        rfl
      · rw [List.mem_cons]
        refine (hexp.turned q p).trans (or_congr_right ⟨?_, ?_⟩)
        · rintro (⟨hp, hlead⟩ | ⟨rfl, hlead⟩)
          · exact ⟨Or.inr hp, hlead⟩
          · exact ⟨Or.inl rfl, hlead⟩
        · rintro ⟨rfl | hp, hlead⟩
          · exact Or.inr ⟨rfl, hlead⟩
          · exact Or.inl ⟨hp, hlead⟩
      · exact ⟨hexp.fits.visited, hexp.fits.transposed, hexp.fits.bounded⟩
      · have hless : s'.unseen ≤ (s.meet v).unseen := hexp.unseen
        change s'.unseen ≤ s.unseen
        omega
    · change v ∈ s'.seen
      rw [hexp.seen, hmeet]
      exact Or.inl (Or.inl rfl)
    · intro u hu
      rcases List.mem_cons.1 hu with rfl | hu
      · exact .refl
      · exact hbelow u hu

/-- All vertices are visited one after the other. -/
theorem explores_foldlM {fuel : Nat} (hvisit : VisitsAt graph fuel) (vs : List Nat)
    (hvs : ∀ v ∈ vs, v < graph.length) {s : Search} (hs : s.Fits graph) (hfuel : s.unseen < fuel) :
    ∃ s' done, vs.foldlM (fun s (v : Nat) => visit graph fuel s v) s = .ok s' ∧
      Explores graph (fun p q => p ∈ done ∧ Leads graph p q) s s' done ∧ ∀ v ∈ vs, v ∈ s'.seen := by
  induction vs generalizing s with
  | nil => exact ⟨s, [], rfl, (Explores.nil hs).congr (by simp), by simp⟩
  | cons v vs ih =>
    obtain ⟨hv, hvs⟩ := List.forall_mem_cons.1 hvs
    obtain ⟨s₁, done₁, hrun₁, hexp₁, hseen₁, -⟩ := hvisit s v hs hv hfuel
    have hfuel₂ := Nat.lt_of_le_of_lt hexp₁.unseen hfuel
    obtain ⟨s₂, done₂, hrun₂, hexp₂, hseen₂⟩ := ih hvs hexp₁.fits hfuel₂
    refine ⟨s₂, done₂ ++ done₁, ?_, (hexp₁.trans hexp₂).congr fun p q => ?_, ?_⟩
    · rw [Outcome.foldlM_cons_eq_ok]
      exact ⟨s₁, hrun₁, hrun₂⟩
    · rw [List.mem_append]
      tauto
    · refine List.forall_mem_cons.2 ⟨?_, hseen₂⟩
      rw [hexp₂.seen]
      exact Or.inl hseen₁

def Search.start (n : Nat) : Search := ⟨List.replicate n false, [], List.replicate n []⟩

theorem Search.fits_start (graph : List (List Int)) : (Search.start graph.length).Fits graph := by
  refine ⟨List.length_replicate, List.length_replicate, fun ws hws w hw => ?_⟩
  rw [List.eq_of_mem_replicate hws] at hw
  cases hw

theorem Search.seen_start (n : Nat) : (Search.start n).seen = ∅ := by
  ext p
  simp only [seen, start, List.getD_eq_getElem?_getD, List.getElem?_replicate, Set.mem_ofPred_eq,
    Set.mem_empty_iff_false, iff_false]
  split_ifs <;> simp

/-- The first search ends well. It has finished all vertices, in an order that the second search can
rely on, and turned all edges round. -/
theorem search_exact (hgraph : Bounded graph) :
    ∃ s order, (List.range graph.length).foldlM (fun s (v : Nat) => visit graph (graph.length + 1) s v)
        (Search.start graph.length) = .ok s ∧
      s.Fits graph ∧ s.order = order.map Nat.cast ∧ Finished graph ∅ order ∧
      (∀ v, v ∈ order ↔ v < graph.length) ∧ s.seen = {v | v < graph.length} ∧
      ∀ q p, Leads s.transposed q p ↔ Leads graph p q := by
  have hcount : (Search.start graph.length).unseen < graph.length + 1 := by
    simp [Search.unseen, Search.start]
  obtain ⟨s, done, hrun, hexp, hall⟩ := explores_foldlM (explores_visit hgraph _)
    (List.range graph.length) (fun v hv => List.mem_range.1 hv) (Search.fits_start graph) hcount
  have hseen : s.seen = {v | v ∈ done} := by
    rw [hexp.seen, Search.seen_start, Set.empty_union]
  have hmem : ∀ v, v ∈ done ↔ v < graph.length := by
    intro v
    have hiff : v ∈ s.seen ↔ v ∈ done := by rw [hseen]; rfl
    rw [← hiff]
    constructor
    · intro h
      rw [← hexp.fits.visited]
      exact Search.lt_of_mem_seen h
    · exact fun h => hall v (List.mem_range.2 h)
  refine ⟨s, done, hrun, hexp.fits, ?_, ?_, hmem, ?_, fun q p => ?_⟩
  · rw [hexp.order]
    exact List.append_nil _
  · have hfinished := hexp.finished
    rwa [Search.seen_start] at hfinished
  · rw [hseen]
    ext v
    exact hmem v
  · have hnone : ¬ Leads (Search.start graph.length).transposed q p := by
      intro hlead
      obtain ⟨ws, hws, hp⟩ := mem_of_mem_getD hlead
      rw [List.eq_of_mem_replicate hws] at hp
      cases hp
    rw [hexp.turned]
    constructor
    · rintro (hlead | ⟨-, hlead⟩)
      · exact absurd hlead hnone
      · exact hlead
    · exact fun hlead => Or.inr ⟨(hmem p).2 (lt_of_leads hlead), hlead⟩

end Cairoscope.Components
