import Cairoscope.FlowGraph.Build
import Cairoscope.Proofs.Outcome

/-! Cutting a function into blocks. The blocks hold its instructions in order, and the last edges of a
block are those that leave after its last instruction. -/

namespace Cairoscope.FlowGraph

def extend (b : Block) (s : Site) (edges : List Edge) : Block :=
  { b with sites := b.sites ++ [s], edges := b.edges ++ edges }

/-- An instruction goes on with the open block, cuts it off and opens one, or opens the first. -/
inductive Cuts (starts : List Int) (first : Bool) (c : Cut) (s : Site) (next : Option Site) :
    Cut → Prop
  | continues (c' : Cut) (hleads : (s.offset : Int) ∉ starts) (hfirst : first = false)
      (hdone : c'.done = c.done)
      (hcurrent : c'.current = extend c.current s (edgesAfter starts c.jumpTarget s next).1) :
      Cuts starts first c s next c'
  | cuts (c' : Cut) (hleads : (s.offset : Int) ∈ starts)
      (hdone : c'.done = c.done ++ [{ c.current with stop := some s.offset }])
      (hcurrent : c'.current =
        extend (Block.fresh c.nextId s) s (edgesAfter starts c.jumpTarget s next).1) :
      Cuts starts first c s next c'
  | opens (c' : Cut) (hfirst : first = true) (hdone : c'.done = c.done)
      (hcurrent : c'.current =
        extend (Block.fresh c.nextId s) s (edgesAfter starts c.jumpTarget s next).1) :
      Cuts starts first c s next c'

theorem cuts_cutStep (starts : List Int) (first : Bool) (c : Cut) (s : Site) (next : Option Site) :
    Cuts starts first c s next (cutStep starts first c s next) := by
  by_cases hleads : (s.offset : Int) ∈ starts
  · exact .cuts _ hleads (by simp [cutStep, hleads]) (by simp [cutStep, hleads, extend])
  · cases first with
    | true => exact .opens _ rfl (by simp [cutStep, hleads]) (by simp [cutStep, extend])
    | false =>
      exact .continues _ hleads rfl (by simp [cutStep, hleads]) (by simp [cutStep, hleads, extend])

def Cut.sites (c : Cut) : List Site := c.done.flatMap (·.sites) ++ c.current.sites

theorem sites_cutStep (starts : List Int) {first : Bool} {c : Cut} (s : Site) (next : Option Site)
    (hfirst : first = true → c.current.sites = []) :
    (cutStep starts first c s next).sites = c.sites ++ [s] := by
  unfold Cut.sites
  cases cuts_cutStep starts first c s next with
  | continues _ _ hdone hcurrent =>
    rw [hdone, hcurrent, extend, List.append_assoc]
  | cuts _ hdone hcurrent =>
    rw [hdone, hcurrent, extend, List.flatMap_append, List.flatMap_singleton]
    rfl
  | opens hopen hdone hcurrent =>
    rw [hdone, hcurrent, extend, hfirst hopen, List.append_nil]
    rfl

theorem sites_cutAll (starts : List Int) {first : Bool} {c : Cut} (sites : List Site)
    (hfirst : first = true → c.current.sites = []) :
    (cutAll starts first c sites).sites = c.sites ++ sites := by
  induction sites generalizing first c with
  | nil => simp [cutAll]
  | cons s rest ih =>
    rw [cutAll, ih (by simp), sites_cutStep starts s rest.head? hfirst, List.append_assoc]
    rfl

/-- A property of blocks holds all along the walk if extending a block keeps it. `J` is what is known
about the last jump target. -/
theorem forall_cutAll {B : Block → Prop} {J : Option Int → Prop} (starts : List Int) (first : Bool)
    (c : Cut) (sites : List Site) (hstop : ∀ b stop, B b → B { b with stop })
    (hfresh : ∀ id s, B (Block.fresh id s))
    (hextend : ∀ b, ∀ s ∈ sites, ∀ next t, B b → J t →
      B (extend b s (edgesAfter starts t s next).1) ∧ J (edgesAfter starts t s next).2)
    (hdone : ∀ b ∈ c.done, B b) (hcurrent : B c.current) (hjump : J c.jumpTarget) :
    (∀ b ∈ (cutAll starts first c sites).done, B b) ∧ B (cutAll starts first c sites).current := by
  induction sites generalizing first c with
  | nil => exact ⟨hdone, hcurrent⟩
  | cons s rest ih =>
    have hs := fun b hb => hextend b s (by simp) rest.head? c.jumpTarget hb hjump
    rw [cutAll]
    refine ih _ _ (fun b t ht => hextend b t (by simp [ht])) ?_ ?_ (hs _ hcurrent).2
    · cases cuts_cutStep starts first c s rest.head? with
      | continues _ _ hdone' _ => rw [hdone']; exact hdone
      | opens _ hdone' _ => rw [hdone']; exact hdone
      | cuts _ hdone' _ =>
        rw [hdone']
        intro b hb
        rcases List.mem_append.1 hb with hb | hb
        · exact hdone b hb
        · rw [List.mem_singleton.1 hb]
          exact hstop _ _ hcurrent
    · cases cuts_cutStep starts first c s rest.head? with
      | continues _ _ _ hcurrent' => rw [hcurrent']; exact (hs _ hcurrent).1
      | opens _ _ hcurrent' => rw [hcurrent']; exact (hs _ (hfresh _ _)).1
      | cuts _ _ hcurrent' => rw [hcurrent']; exact (hs _ (hfresh _ _)).1

/-- The walk that `cut` makes over the instructions. -/
theorem cutAll_of_cut {next n : Nat} {sites : List Site} {blocks : List Block}
    (h : cut next sites = .ok (blocks, n)) : ∃ s c, c = cutAll (leaders sites) true
      ⟨[], Block.fresh next s, none, next + 1⟩ sites ∧ blocks = c.done ++ [c.current] := by
  unfold cut at h
  cases sites with
  | nil => cases h
  | cons s rest =>
    dsimp only at h
    obtain ⟨rfl, -⟩ := Prod.mk.inj (Except.ok.inj h)
    exact ⟨s, _, rfl, rfl⟩

theorem flatMap_sites_of_cut {next n : Nat} {sites : List Site} {blocks : List Block}
    (h : cut next sites = .ok (blocks, n)) : blocks.flatMap (·.sites) = sites := by
  obtain ⟨s, c, hc, rfl⟩ := cutAll_of_cut h
  have hsites : c.sites = sites := by
    rw [hc, sites_cutAll _ _ fun _ => rfl]
    rfl
  rw [List.flatMap_append, List.flatMap_singleton]
  exact hsites

theorem forall_of_cut {B : Block → Prop} {J : Option Int → Prop} {next n : Nat} {sites : List Site}
    {blocks : List Block} (h : cut next sites = .ok (blocks, n))
    (hstop : ∀ b stop, B b → B { b with stop }) (hfresh : ∀ id s, B (Block.fresh id s))
    (hextend : ∀ b, ∀ s ∈ sites, ∀ next t, B b → J t →
      B (extend b s (edgesAfter (leaders sites) t s next).1) ∧
        J (edgesAfter (leaders sites) t s next).2)
    (hnone : J none) : ∀ b ∈ blocks, B b := by
  obtain ⟨s, c, rfl, rfl⟩ := cutAll_of_cut h
  obtain ⟨hdone, hcurrent⟩ := forall_cutAll (leaders sites) true
    ⟨[], Block.fresh next s, none, next + 1⟩ sites hstop hfresh hextend (by simp)
    (hfresh next s) hnone
  intro b hb
  rcases List.mem_append.1 hb with hb | hb
  · exact hdone b hb
  · rw [List.mem_singleton.1 hb]
    exact hcurrent

/-- Code that never jumps has no edges. -/
theorem edges_of_cut_of_regular {next n : Nat} {sites : List Site} {blocks : List Block}
    (h : cut next sites = .ok (blocks, n))
    (hregular : ∀ s ∈ sites, s.instruction.isReturn = true ∨ s.instruction.pcUpdate = .regular) :
    ∀ b ∈ blocks, b.edges = [] := by
  refine forall_of_cut (J := fun t => t = none) h (fun _ _ hb => hb) (fun _ _ => rfl) ?_ rfl
  rintro b s hs next t hb rfl
  have hafter : edgesAfter (leaders sites) none s next = ([], none) := by
    unfold edgesAfter
    rcases hregular s hs with hreturn | hpc
    · simp [hreturn]
    · simp [hpc]
  rw [hafter]
  exact ⟨by rw [extend, hb]; rfl, rfl⟩

/-- The edges of a block end with those that leave after its last instruction. -/
theorem edges_of_cut {next n : Nat} {sites : List Site} {blocks : List Block}
    (h : cut next sites = .ok (blocks, n)) {b : Block} (hb : b ∈ blocks) {last : Site}
    (hlast : b.sites.getLast? = some last) :
    ∃ before t after, b.edges = before ++ (edgesAfter (leaders sites) t last after).1 := by
  refine forall_of_cut (J := fun _ => True) (B := fun b => ∀ last, b.sites.getLast? = some last →
    ∃ before t after, b.edges = before ++ (edgesAfter (leaders sites) t last after).1) h
    (fun _ _ hb => hb) ?_ ?_ trivial b hb last hlast
  · intro id s last hnone
    cases hnone
  · intro b s hs after t hb ht
    refine ⟨fun last hlast => ?_, trivial⟩
    obtain rfl : s = last := by simpa [extend] using hlast
    exact ⟨b.edges, t, after, rfl⟩

/-- A block that ends with a conditional jump goes on after the jump or at its target. -/
theorem targets_of_cut_of_jnz {next n : Nat} {sites : List Site} {blocks : List Block}
    (h : cut next sites = .ok (blocks, n)) {b : Block} (hb : b ∈ blocks) {last : Site}
    (hlast : b.sites.getLast? = some last) (hnop : last.instruction.opcode = .nop)
    (hjnz : last.instruction.pcUpdate = .jnz) {imm : Int} (himm : last.instruction.imm = some imm) :
    ∃ before, b.targets = before ++ [(last.offset : Int) + 2, last.offset + imm] := by
  obtain ⟨before, t, after, hedges⟩ := edges_of_cut h hb hlast
  have hafter : (edgesAfter (leaders sites) t last after).1 =
      [⟨last.offset, last.offset + 2, .conditionalTrue⟩,
        ⟨last.offset, last.offset + imm, .conditionalFalse⟩] := by
    simp [edgesAfter, Instruction.isReturn, hnop, hjnz, himm]
  exact ⟨before.map (·.target), by rw [Block.targets, hedges, hafter, List.map_append]; rfl⟩

/-- To mark phi blocks changes nothing else. -/
theorem map_markPhi {α : Type} (f : Block → α) (hf : ∀ b isPhi, f { b with isPhi } = f b)
    (blocks : List Block) : (markPhi blocks).map f = blocks.map f := by
  unfold markPhi
  apply List.ext_getElem
  · simp
  · intro i h₁ h₂
    simp [hf]

theorem build_eq_ok_iff {p : Printer} {function : String} {sites : List Site} {next n : Nat}
    {g : FlowGraph} : build p function sites next = .ok g n ↔
      ∃ blocks drawing, cut next sites = .ok (blocks, n) ∧ draw p function blocks = .ok drawing ∧
        ⟨function, markPhi blocks, 0, drawing⟩ = g := by
  unfold build
  rw [Run.get_bind]
  constructor
  · intro h
    obtain ⟨⟨blocks, nextId⟩, _, hblocks, h⟩ := Run.bind_eq_ok.1 h
    obtain ⟨hcut, rfl⟩ := Run.ofOutcome_eq_ok.1 hblocks
    obtain ⟨_, _, hset, h⟩ := Run.bind_eq_ok.1 h
    obtain rfl := Run.set_eq_ok.1 hset
    obtain ⟨drawing, _, hdrawing, h⟩ := Run.bind_eq_ok.1 h
    obtain ⟨hdraw, rfl⟩ := Run.ofOutcome_eq_ok.1 hdrawing
    obtain ⟨hg, rfl⟩ := Run.pure_eq_ok.1 h
    exact ⟨blocks, drawing, hcut, hdraw, hg⟩
  · rintro ⟨blocks, drawing, hcut, hdraw, rfl⟩
    rw [hcut]
    refine Run.bind_eq_ok.2 ⟨_, _, Run.ofOutcome_eq_ok.2 ⟨rfl, rfl⟩, ?_⟩
    refine Run.bind_eq_ok.2 ⟨⟨⟩, n, Run.set_eq_ok.2 rfl, ?_⟩
    rw [hdraw]
    exact Run.bind_eq_ok.2 ⟨_, _, Run.ofOutcome_eq_ok.2 ⟨rfl, rfl⟩, Run.pure_eq_ok.2 ⟨rfl, rfl⟩⟩

theorem blocks_of_build {p : Printer} {function : String} {sites : List Site} {next n : Nat}
    {g : FlowGraph} (h : build p function sites next = .ok g n) :
    ∃ blocks, cut next sites = .ok (blocks, n) ∧ g.blocks = markPhi blocks := by
  obtain ⟨blocks, drawing, hcut, -, rfl⟩ := build_eq_ok_iff.1 h
  exact ⟨blocks, hcut, rfl⟩

end Cairoscope.FlowGraph
