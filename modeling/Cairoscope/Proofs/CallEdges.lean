import Cairoscope.CallGraph
import Cairoscope.Contract.Load
import Cairoscope.Proofs.JumpTargets

/-! The edges of a call graph. They are the direct calls whose target is the start of a function: each
pair of caller and target stands once, in the order in which the code first has it, with the number of
its calls as label when there are several. -/

namespace Cairoscope

namespace Field

variable {prime m n : Int}

/-- The number that an element stands for when it is read with a sign. It lies in the period that
starts half the modulus below zero. -/
structure IsSigned (prime m n : Int) : Prop where
  modulus : prime ≠ 0
  congruent : n ≡ m [ZMOD prime]
  period : (n + prime.fdiv 2).fdiv prime = 0

instance (prime m n : Int) : Decidable (IsSigned prime m n) :=
  decidable_of_iff (prime ≠ 0 ∧ n ≡ m [ZMOD prime] ∧ (n + prime.fdiv 2).fdiv prime = 0)
    ⟨fun h => ⟨h.1, h.2.1, h.2.2⟩, fun h => ⟨h.modulus, h.congruent, h.period⟩⟩

theorem centered_eq_ok_iff : centered m prime = .ok n ↔ IsSigned prime m n := by
  constructor
  · intro h
    have hcongruent := modEq_of_centered h
    unfold centered at h
    split_ifs at h with hzero
    obtain rfl := Except.ok.inj h
    refine ⟨hzero, hcongruent, ?_⟩
    rw [sub_add_cancel, Int.fmod_def, Int.sub_mul_fdiv_left _ _ hzero, sub_self]
  · intro h
    obtain ⟨k, hk⟩ := Int.modEq_iff_dvd.1 h.congruent
    have hshift : m + prime.fdiv 2 = (n + prime.fdiv 2) + prime * k := by omega
    unfold centered
    rw [if_neg h.modulus, hshift, Int.add_mul_fmod_self_left, Int.fmod_def, h.period]
    simp

/-- Modulo a positive number the signed reading is the number nearest to zero. -/
theorem isSigned_iff_isRepresentative (hprime : 0 < prime) :
    IsSigned prime m n ↔ IsRepresentative prime m n := by
  have hhalf : prime.fdiv 2 = prime / 2 := Int.fdiv_eq_ediv_of_nonneg _ (by decide)
  have hperiod : (n + prime.fdiv 2).fdiv prime = 0 ↔ IsNear prime n := by
    rw [hhalf, Int.fdiv_eq_ediv_of_nonneg _ hprime.le]
    have hlower := Int.ediv_nonneg_iff_of_pos (a := n + prime / 2) hprime
    have hupper := Int.ediv_lt_iff_lt_mul (a := n + prime / 2) (b := 1) hprime
    unfold IsNear
    omega
  constructor
  · intro h
    exact ⟨h.congruent, hperiod.1 h.period⟩
  · intro h
    exact ⟨hprime.ne', h.congruent, hperiod.2 h.near⟩

theorem isSigned_of_small (h : small m prime = .ok n) : IsSigned prime m n := by
  unfold small at h
  obtain ⟨k, hk, h⟩ := Outcome.bind_eq_ok.1 h
  cases k with
  | decimal d =>
    obtain rfl := Except.ok.inj h
    exact centered_eq_ok_iff.1 (centered_of_numeral hk)
  | hex d => cases h

theorem IsSigned.unique {n' : Int} (h : IsSigned prime m n) (h' : IsSigned prime m n') : n = n' :=
  Except.ok.inj ((centered_eq_ok_iff.2 h).symm.trans (centered_eq_ok_iff.2 h'))

end Field

/-- The instruction is a call with an immediate, and the immediate leads to the offset. -/
def Site.CallsTo (prime : Int) (s : Site) (t : Int) : Prop :=
  s.instruction.opcode = .call ∧ ∃ m ∈ s.instruction.imm, Field.IsSigned prime m (t - s.offset)

instance (prime : Int) (s : Site) (t : Int) : Decidable (s.CallsTo prime t) :=
  inferInstanceAs (Decidable (s.instruction.opcode = .call ∧
    ∃ m ∈ s.instruction.imm, Field.IsSigned prime m (t - s.offset)))

namespace Contract

def StartsAt (c : Contract) (t : Int) : Prop := ∃ f ∈ c.functions, (f.start : Int) = t

instance (c : Contract) (t : Int) : Decidable (c.StartsAt t) :=
  inferInstanceAs (Decidable (∃ f ∈ c.functions, (f.start : Int) = t))

def instructions (c : Contract) : List (Nat × Site) :=
  c.functions.flatMap fun f => f.sites.map fun s => (f.start, s)

/-- An instruction of a function calls a function: start of the caller and of the callee. -/
def IsCall (c : Contract) (x : Nat × Site) (p : Nat × Int) : Prop :=
  x.1 = p.1 ∧ x.2.CallsTo c.prime p.2 ∧ c.StartsAt p.2

instance (c : Contract) (x : Nat × Site) (p : Nat × Int) : Decidable (c.IsCall x p) :=
  inferInstanceAs (Decidable (x.1 = p.1 ∧ x.2.CallsTo c.prime p.2 ∧ c.StartsAt p.2))

section Loading

variable {prime : Int} {references : List (String × String)} {hints : List (String × Json)}

theorem callsTo_of_siteOf {p : Artifact.Placed} {s : Site} (h : siteOf prime references hints p = .ok s)
    (t : Int) :
    s.CallsTo prime t ↔ s.instruction.isDirectCall = true ∧ t = s.callTarget := by
  unfold siteOf at h
  obtain ⟨target, htarget, h⟩ := Outcome.bind_eq_ok.1 h
  obtain rfl := Outcome.pure_eq_ok.1 h
  unfold callTarget at htarget
  unfold Site.CallsTo Instruction.isDirectCall
  dsimp only
  cases himm : p.instruction.imm with
  | none => simp
  | some m =>
    by_cases hcall : p.instruction.opcode = .call
    · rw [if_pos (by simp [Instruction.isDirectCall, hcall, himm]), himm] at htarget
      obtain ⟨r, hsmall, htarget⟩ := Outcome.bind_eq_ok.1 htarget
      obtain rfl := Outcome.pure_eq_ok.1 htarget
      have hsigned : Field.IsSigned prime m r := Field.isSigned_of_small hsmall
      simp only [hcall, Option.mem_def, Option.some.injEq, exists_eq_left', true_and, decide_true,
        Option.isSome_some, Bool.and_self]
      constructor
      · intro h
        have := h.unique hsigned
        omega
      · rintro rfl
        rwa [add_sub_cancel_left]
    · simp [hcall]

theorem callee_of_siteOf {p : Artifact.Placed} {s : Site} (h : siteOf prime references hints p = .ok s) :
    s.callee = none := by
  unfold siteOf at h
  obtain ⟨target, -, h⟩ := Outcome.bind_eq_ok.1 h
  obtain rfl := Outcome.pure_eq_ok.1 h
  rfl

/-- Each function comes from a group. -/
theorem functionOf_of_functionsOf {id : Nat} {groups : List Artifact.Group} {fs : List Function}
    (h : functionsOf prime references hints id groups = .ok fs) {f : Function} (hf : f ∈ fs) :
    ∃ g ∈ groups, ∃ id, functionOf prime references hints id g = .ok f := by
  induction groups generalizing id fs with
  | nil =>
    obtain rfl := Except.ok.inj h
    cases hf
  | cons g groups ih =>
    unfold functionsOf at h
    obtain ⟨f', hf', h⟩ := Outcome.bind_eq_ok.1 h
    obtain ⟨rest, hrest, h⟩ := Outcome.bind_eq_ok.1 h
    obtain rfl := Outcome.pure_eq_ok.1 h
    rcases List.mem_cons.1 hf with rfl | hf
    · exact ⟨g, by simp, id, hf'⟩
    · obtain ⟨g', hg', hfound⟩ := ih hrest hf
      exact ⟨g', by simp [hg'], hfound⟩

theorem sites_of_functionOf {id : Nat} {g : Artifact.Group} {f : Function}
    (h : functionOf prime references hints id g = .ok f) :
    g.code.mapM (siteOf prime references hints) = .ok f.sites := by
  unfold functionOf at h
  obtain ⟨sites, hsites, h⟩ := Outcome.bind_eq_ok.1 h
  obtain rfl := Outcome.pure_eq_ok.1 h
  exact hsites

theorem siteOf_of_functionsOf {id : Nat} {groups : List Artifact.Group} {fs : List Function}
    (h : functionsOf prime references hints id groups = .ok fs) {f : Function} (hf : f ∈ fs) {s : Site}
    (hs : s ∈ f.sites) : ∃ p, siteOf prime references hints p = .ok s := by
  obtain ⟨g, -, id, hfunction⟩ := functionOf_of_functionsOf h hf
  obtain ⟨p, -, hp⟩ := Outcome.exists_of_mem_mapM (sites_of_functionOf hfunction) hs
  exact ⟨p, hp⟩

theorem parts_of_ofArtifact {doc : Json} {c : Contract} (h : ofArtifact doc = .ok c) :
    ∃ k groups fs, Artifact.kind doc = .ok k ∧ Artifact.listing k doc = .ok groups ∧
      Artifact.hints k doc = .ok c.hints ∧ functionsOf c.prime c.references c.hints 0 groups = .ok fs ∧
      c.functions = resolveCalls fs := by
  unfold ofArtifact at h
  dsimp only at h
  split at h
  · obtain ⟨_, hthrow, -⟩ := Outcome.bind_eq_ok.1 h
    exact absurd hthrow Outcome.throw_ne_ok
  · obtain ⟨_, hthrow, -⟩ := Outcome.bind_eq_ok.1 h
    exact absurd hthrow Outcome.throw_ne_ok
  · obtain ⟨k, hkind, h⟩ := Outcome.bind_eq_ok.1 h
    obtain ⟨groups, hlisting, h⟩ := Outcome.bind_eq_ok.1 h
    obtain ⟨builtins, -, h⟩ := Outcome.bind_eq_ok.1 h
    obtain ⟨structs, -, h⟩ := Outcome.bind_eq_ok.1 h
    obtain ⟨events, -, h⟩ := Outcome.bind_eq_ok.1 h
    obtain ⟨references, -, h⟩ := Outcome.bind_eq_ok.1 h
    obtain ⟨hints, hhints, h⟩ := Outcome.bind_eq_ok.1 h
    obtain ⟨prime, -, h⟩ := Outcome.bind_eq_ok.1 h
    obtain ⟨labels, -, h⟩ := Outcome.bind_eq_ok.1 h
    obtain ⟨fs, hfs, h⟩ := Outcome.bind_eq_ok.1 h
    obtain rfl := Outcome.pure_eq_ok.1 h
    exact ⟨k, groups, fs, hkind, hlisting, hhints, hfs, rfl⟩

theorem functions_of_ofArtifact {doc : Json} {c : Contract} (h : ofArtifact doc = .ok c) :
    ∃ k references hints groups fs, Artifact.listing k doc = .ok groups ∧
      functionsOf c.prime references hints 0 groups = .ok fs ∧ c.functions = resolveCalls fs := by
  obtain ⟨k, groups, fs, -, hlisting, -, hfs, hfunctions⟩ := parts_of_ofArtifact h
  exact ⟨k, c.references, c.hints, groups, fs, hlisting, hfs, hfunctions⟩

theorem startsAt_resolveCalls {c : Contract} {fs : List Function} (h : c.functions = resolveCalls fs)
    (t : Int) : c.StartsAt t ↔ ∃ f ∈ fs, (f.start : Int) = t := by
  unfold StartsAt
  rw [h]
  simp [resolveCalls]

end Loading

/-- Loading finds where a call goes, and names its callee exactly when a function starts there. -/
structure Resolved (c : Contract) (s : Site) : Prop where
  target : ∀ t, s.CallsTo c.prime t ↔ s.instruction.isDirectCall = true ∧ t = s.callTarget
  callee : s.callee.isSome = true ↔ s.instruction.isDirectCall = true ∧ c.StartsAt s.callTarget

theorem resolved_of_ofArtifact {doc : Json} {c : Contract} (h : ofArtifact doc = .ok c) {f : Function}
    (hf : f ∈ c.functions) {s : Site} (hs : s ∈ f.sites) : c.Resolved s := by
  obtain ⟨-, references, hints, groups, fs, -, hfs, hfunctions⟩ := functions_of_ofArtifact h
  have hstarts := startsAt_resolveCalls hfunctions
  rw [hfunctions] at hf
  obtain ⟨f₀, hf₀, rfl⟩ := List.mem_map.1 hf
  obtain ⟨s₀, hs₀, rfl⟩ := List.mem_map.1 hs
  obtain ⟨p, hp⟩ := siteOf_of_functionsOf hfs hf₀ hs₀
  have htarget := callsTo_of_siteOf hp
  split_ifs with hdirect
  · refine ⟨htarget, ?_⟩
    rw [hstarts]
    simp [hdirect]
  · refine ⟨htarget, ?_⟩
    simp [callee_of_siteOf hp, hdirect]

end Contract

def Dot.Item.edge? : Dot.Item → Option (String × String × Option String)
  | .edge tail head label _ => some (tail, head, label)
  | _ => none

def Dot.Digraph.edges (g : Dot.Digraph) : List (String × String × Option String) :=
  g.items.filterMap Dot.Item.edge?

namespace CallGraph

/-- What comes first among the images comes first in the list. -/
theorem findIdx_lt_of_filterMap {α β : Type} {f : α → Option β} {P Q : β → Bool} {P' Q' : α → Bool}
    {l : List α} (hP : ∀ x ∈ l, (f x).any P = P' x) (hQ : ∀ x ∈ l, (f x).any Q = Q' x)
    (h : (l.filterMap f).findIdx P < (l.filterMap f).findIdx Q) : l.findIdx P' < l.findIdx Q' := by
  induction l with
  | nil => exact h
  | cons x l ih =>
    have ih := ih (fun y hy => hP y (by simp [hy])) (fun y hy => hQ y (by simp [hy]))
    rw [List.findIdx_cons, List.findIdx_cons, ← hP x (by simp), ← hQ x (by simp)]
    cases hx : f x with
    | none =>
      rw [List.filterMap_cons_none hx] at h
      simpa using ih h
    | some b =>
      rw [List.filterMap_cons_some hx, List.findIdx_cons, List.findIdx_cons] at h
      cases hb : Q b with
      | true => simp [hb] at h
      | false =>
        cases hb' : P b with
        | true => simp [hb, hb']
        | false =>
          simp only [hb, hb', cond_false] at h
          simpa [hb, hb'] using ih (by omega)

section Tally

variable {p q : Nat × Int} {pairs : List (Nat × Int)}

theorem mem_without : q ∈ without p pairs ↔ q ∈ pairs ∧ q ≠ p := by
  simp [without]

theorem count_without (h : q ≠ p) : (without p pairs).count q = pairs.count q := by
  apply List.count_filter
  simpa using h

theorem idxOf_lt_of_without {q' : Nat × Int} (h : q ≠ p) (h' : q' ≠ p)
    (hlt : (without p pairs).idxOf q < (without p pairs).idxOf q') :
    pairs.idxOf q < pairs.idxOf q' := by
  have hsame : ∀ r, r ≠ p → ∀ x : Nat × Int,
      (Option.guard (fun y => y != p) x).any (· == r) = (x == r) := by
    intro r hr x
    by_cases hx : x = p
    · subst hx
      simp [Option.guard, hr.symm]
    · simp [Option.guard, hx]
  unfold without List.idxOf at hlt
  rw [← List.filterMap_eq_filter] at hlt
  exact findIdx_lt_of_filterMap (fun x _ => hsame q h x) (fun x _ => hsame q' h' x) hlt

theorem mem_tally : p ∈ (tally pairs).map (·.1) ↔ p ∈ pairs := by
  fun_induction tally pairs with
  | case1 => simp
  | case2 q rest ih =>
    rw [List.map_cons, List.mem_cons, List.mem_cons, ih, mem_without]
    by_cases h : p = q <;> simp [h]

theorem nodup_tally (pairs : List (Nat × Int)) : ((tally pairs).map (·.1)).Nodup := by
  fun_induction tally pairs with
  | case1 => simp
  | case2 q rest ih =>
    rw [List.map_cons, List.nodup_cons]
    refine ⟨fun h => ?_, ih⟩
    exact (mem_without.1 (mem_tally.1 h)).2 rfl

theorem ne_of_mem_tally_without {e : (Nat × Int) × Nat} (h : e ∈ tally (without p pairs)) :
    e.1 ≠ p := (mem_without.1 (mem_tally.1 (List.mem_map_of_mem h))).2

theorem count_of_mem_tally {e : (Nat × Int) × Nat} (h : e ∈ tally pairs) :
    e.2 = pairs.count e.1 := by
  fun_induction tally pairs with
  | case1 => cases h
  | case2 q rest ih =>
    rcases List.mem_cons.1 h with rfl | h
    · rfl
    · have hne := ne_of_mem_tally_without h
      rw [ih h, count_without hne, List.count_cons_of_ne hne.symm]

theorem pairwise_tally (pairs : List (Nat × Int)) :
    (tally pairs).Pairwise fun e e' => pairs.idxOf e.1 < pairs.idxOf e'.1 := by
  fun_induction tally pairs with
  | case1 => exact .nil
  | case2 q rest ih =>
    refine List.pairwise_cons.2 ⟨fun e he => ?_, ih.imp_of_mem fun {e e'} he he' hlt => ?_⟩
    · have hne := ne_of_mem_tally_without he
      simp [hne.symm]
    · have hne := ne_of_mem_tally_without he
      have hne' := ne_of_mem_tally_without he'
      have := idxOf_lt_of_without hne hne' hlt
      simpa [List.idxOf_cons, hne.symm, hne'.symm] using this

theorem sum_tally (pairs : List (Nat × Int)) : ((tally pairs).map (·.2)).sum = pairs.length := by
  fun_induction tally pairs with
  | case1 => rfl
  | case2 q rest ih =>
    have hsplit := rest.length_eq_countP_add_countP (· == q)
    have hwithout : (without q rest).length = rest.countP (fun r => ¬ (r == q) = true) := by
      rw [without, ← List.countP_eq_length_filter]
      exact List.countP_congr fun r _ => by simp
    rw [List.map_cons, List.sum_cons, ih, List.count_cons_self, List.length_cons, List.count, hwithout]
    omega

end Tally

def callOf? (x : Nat × Site) : Option (Nat × Int) :=
  if x.2.instruction.isDirectCall && x.2.callee.isSome then some (x.1, x.2.callTarget) else none

theorem calls_eq (c : Contract) : calls c.functions = c.instructions.filterMap callOf? := by
  unfold calls Contract.instructions
  rw [List.filterMap_flatMap]
  simp only [List.filterMap_map]
  rfl

/-- The edges are the calls of the contract. -/
structure DrawsCalls (c : Contract) (edges : List ((Nat × Int) × Nat)) : Prop where
  /-- Each goes from the start of a function that has a call to the start of the function called. -/
  mem : ∀ a t, (a, t) ∈ edges.map (·.1) ↔ ∃ f ∈ c.functions, f.start = a ∧
    ∃ s ∈ f.sites, s.CallsTo c.prime t ∧ c.StartsAt t
  once : (edges.map (·.1)).Nodup
  /-- What is called first comes first. -/
  order : edges.Pairwise fun e e' => c.instructions.findIdx (fun x => c.IsCall x e.1) <
    c.instructions.findIdx (fun x => c.IsCall x e'.1)
  count : ∀ e ∈ edges, e.2 = c.instructions.countP fun x => c.IsCall x e.1
  total : (edges.map (·.2)).sum = c.instructions.countP fun x => x.2.callee.isSome

section Loaded

variable {doc : Json} {c : Contract} (h : Contract.ofArtifact doc = .ok c)

include h

theorem resolved_of_mem {x : Nat × Site} (hx : x ∈ c.instructions) : c.Resolved x.2 := by
  obtain ⟨f, hf, hx⟩ := List.mem_flatMap.1 hx
  obtain ⟨s, hs, rfl⟩ := List.mem_map.1 hx
  exact Contract.resolved_of_ofArtifact h hf hs

theorem callOf?_eq_some_iff {x : Nat × Site} (hx : x ∈ c.instructions) (p : Nat × Int) :
    callOf? x = some p ↔ c.IsCall x p := by
  have hresolved := resolved_of_mem h hx
  obtain ⟨a, t⟩ := p
  unfold callOf? Contract.IsCall
  simp only [hresolved.target, Bool.and_eq_true, hresolved.callee, Option.ite_none_right_eq_some,
    Option.some.injEq, Prod.mk.injEq]
  constructor
  · rintro ⟨⟨hdirect, -, hstart⟩, rfl, rfl⟩
    exact ⟨rfl, ⟨hdirect, rfl⟩, hstart⟩
  · rintro ⟨rfl, ⟨hdirect, rfl⟩, hstart⟩
    exact ⟨⟨hdirect, hdirect, hstart⟩, rfl, rfl⟩

theorem mem_calls (a : Nat) (t : Int) : (a, t) ∈ calls c.functions ↔
    ∃ f ∈ c.functions, f.start = a ∧ ∃ s ∈ f.sites, s.CallsTo c.prime t ∧ c.StartsAt t := by
  rw [calls_eq, List.mem_filterMap]
  constructor
  · rintro ⟨x, hx, hcall⟩
    obtain ⟨hcaller, hcalls, hstart⟩ := (callOf?_eq_some_iff h hx _).1 hcall
    obtain ⟨f, hf, hx⟩ := List.mem_flatMap.1 hx
    obtain ⟨s, hs, rfl⟩ := List.mem_map.1 hx
    exact ⟨f, hf, hcaller, s, hs, hcalls, hstart⟩
  · rintro ⟨f, hf, rfl, s, hs, hcalls, hstart⟩
    have hx : (f.start, s) ∈ c.instructions := List.mem_flatMap.2 ⟨f, hf, List.mem_map_of_mem hs⟩
    exact ⟨_, hx, (callOf?_eq_some_iff h hx _).2 ⟨rfl, hcalls, hstart⟩⟩

theorem any_callOf? {x : Nat × Site} (hx : x ∈ c.instructions) (p : Nat × Int) :
    (callOf? x).any (· == p) = decide (c.IsCall x p) := by
  rw [Bool.eq_iff_iff, decide_eq_true_iff, ← callOf?_eq_some_iff h hx p]
  cases callOf? x <;> simp

theorem count_calls (p : Nat × Int) :
    (calls c.functions).count p = c.instructions.countP fun x => c.IsCall x p := by
  rw [calls_eq, List.count, List.countP_filterMap]
  refine List.countP_congr fun x hx => ?_
  rw [← any_callOf? h hx p]
  cases callOf? x <;> simp

theorem drawsCalls_tally : DrawsCalls c (tally (calls c.functions)) where
  mem := fun a t => mem_tally.trans (mem_calls h a t)
  once := nodup_tally _
  order := by
    refine (pairwise_tally _).imp fun {e e'} hlt => ?_
    rw [calls_eq] at hlt
    exact findIdx_lt_of_filterMap (fun x hx => any_callOf? h hx e.1)
      (fun x hx => any_callOf? h hx e'.1) hlt
  count := fun e he => (count_of_mem_tally he).trans (count_calls h e.1)
  total := by
    rw [sum_tally, calls_eq, List.length_filterMap_eq_countP]
    refine List.countP_congr fun x hx => ?_
    have hcallee := (resolved_of_mem h hx).callee
    have hcall : (callOf? x).isSome = (x.2.instruction.isDirectCall && x.2.callee.isSome) := by
      unfold callOf?
      split_ifs with hx <;> simp [hx]
    rw [hcall, Bool.and_eq_true]
    exact ⟨And.right, fun hx => ⟨(hcallee.1 hx).1, hx⟩⟩

end Loaded

theorem exists_nodeOf_iff (f : Function) :
    (∃ item, nodeOf f = .ok item) ↔ ∃ ds, f.decorators.elements = .ok ds := by
  unfold nodeOf nodeStyle
  rw [Outcome.exists_bind_pure_iff, Outcome.exists_bind_pure_iff]

theorem edge?_of_nodeOf {f : Function} {item : Dot.Item} (h : nodeOf f = .ok item) :
    item.edge? = none := by
  unfold nodeOf at h
  obtain ⟨look, -, h⟩ := Outcome.bind_eq_ok.1 h
  obtain rfl := Outcome.pure_eq_ok.1 h
  rfl

theorem exists_build_iff (functions : List Function) (name : String) :
    (∃ g, build functions name = .ok g) ↔ ∀ f ∈ functions, ∃ ds, f.decorators.elements = .ok ds := by
  unfold build
  rw [Outcome.exists_bind_pure_iff, Outcome.exists_mapM_iff]
  simp only [exists_nodeOf_iff]

/-- The drawing has the nodes, and after them the calls. -/
theorem edges_of_build {functions : List Function} {name : String} {g : Dot.Digraph}
    (h : build functions name = .ok g) : g.edges = (tally (calls functions)).map fun e =>
      (toString e.1.1, Text.decimal e.1.2, if 1 < e.2 then some (toString e.2) else none) := by
  unfold build at h
  obtain ⟨nodes, hnodes, h⟩ := Outcome.bind_eq_ok.1 h
  obtain rfl := Outcome.pure_eq_ok.1 h
  unfold Dot.Digraph.edges
  rw [List.filterMap_append, List.filterMap_eq_nil_iff.2, List.nil_append, List.filterMap_map]
  · exact congrFun List.filterMap_eq_map _
  · intro item hitem
    obtain ⟨f, -, hf⟩ := Outcome.exists_of_mem_mapM hnodes hitem
    exact edge?_of_nodeOf hf

/-- A call graph can be drawn exactly when the decorators of each function can be listed. Its edges are
the calls of the contract from function to function, each pair once, in the order of the code, and
labelled with the number of its calls when it has several. -/
theorem call_edges_exact {doc : Json} {c : Contract} (h : Contract.ofArtifact doc = .ok c)
    (name : String) :
    ((∃ g, build c.functions name = .ok g) ↔
      ∀ f ∈ c.functions, ∃ ds, f.decorators.elements = .ok ds) ∧
    ∀ g, build c.functions name = .ok g → ∃ edges, DrawsCalls c edges ∧
      g.edges = edges.map fun e =>
        (toString e.1.1, Text.decimal e.1.2, if 1 < e.2 then some (toString e.2) else none) := by
  refine ⟨exists_build_iff c.functions name, fun g hg => ?_⟩
  exact ⟨tally (calls c.functions), drawsCalls_tally h, edges_of_build hg⟩

/-- A program modulo 97. Its first function calls the second one twice and then itself, four words back;
the second calls an offset where no function starts. -/
def callingArtifact : Json :=
  .obj [("prime", .str "0x61"), ("builtins", .arr []), ("hints", .obj []),
    ("data", .arr (["0x1104800180018000", "0x7", "0x1104800180018000", "0x5", "0x1104800180018000", "0x5d",
      "0x208b7fff7fff7ffe", "0x1104800180018000", "0x2", "0x208b7fff7fff7ffe"].map .str)),
    ("identifiers", .obj [("main", .obj [("type", .str "function"), ("pc", .num 0)]),
      ("twice", .obj [("type", .str "function"), ("pc", .num 7)])])]

theorem call_edges_exact_twice : ∃ c g, Contract.ofArtifact callingArtifact = .ok c ∧
    build c.functions "calls" = .ok g ∧ g.edges = [("0", "7", some "2"), ("0", "0", none)] ∧
    ∃ edges, DrawsCalls c edges ∧ g.edges = edges.map fun e =>
      (toString e.1.1, Text.decimal e.1.2, if 1 < e.2 then some (toString e.2) else none) := by
  have hrun : (Contract.ofArtifact callingArtifact >>= fun c => build c.functions "calls" >>= fun g =>
      pure g.edges) = .ok [("0", "7", some "2"), ("0", "0", none)] := by
    decide +kernel
  obtain ⟨c, hc, hrun⟩ := Outcome.bind_eq_ok.1 hrun
  obtain ⟨g, hg, hedges⟩ := Outcome.bind_eq_ok.1 hrun
  exact ⟨c, g, hc, hg, Outcome.pure_eq_ok.1 hedges, (call_edges_exact hc "calls").2 g hg⟩

end CallGraph

end Cairoscope
