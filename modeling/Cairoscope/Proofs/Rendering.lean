import Cairoscope.Contract.Load
import Cairoscope.Proofs.Graphs
import Cairoscope.Session

/-! Listings of blocks after a decompilation. The second pass puts the decompiled line of each
instruction in its place in the block, and leaves all else of the graph alone. A listing prints
instructions, so the graphs that a decompilation leaves have no listing, where new ones have. -/

namespace Cairoscope

namespace FlowGraph

def blockText (p : Printer) (code : Nat × List Site × List Edge) : Outcome String := do
  let lines ← code.2.1.mapM fun s => do return (← s.text p) ++ "\n"
  let edges := String.intercalate ", " (code.2.2.map fun _ => "<Edge>")
  return "-- BB ('" ++ ("bb_" ++ toString code.1) ++ "', " ++ toString code.2.1.length ++ ") [" ++ edges ++
    "] --\n" ++ String.join lines

theorem listing_eq (p : Printer) (g : FlowGraph) : g.listing p =
    if g.rendered ≠ 0 then .error .noSuchOperation
    else (g.blocks.map Block.code).mapM (blockText p) >>= fun texts => pure (String.join texts) := by
  unfold listing
  split_ifs with h
  · rfl
  · rw [List.mapM_map]
    rfl

theorem listing_of_rendered {p : Printer} {g : FlowGraph} (h : g.rendered ≠ 0) :
    g.listing p = .error .noSuchOperation := by
  rw [listing_eq, if_pos h]

theorem listing_congr {p : Printer} {g g' : FlowGraph} (h : g.rendered = 0) (h' : g'.rendered = 0)
    (hcode : g.blocks.map Block.code = g'.blocks.map Block.code) : g.listing p = g'.listing p := by
  rw [listing_eq, listing_eq, h, h', hcode]

/-- A graph that keeps its instructions has a listing if each of them has a text. -/
theorem exists_listing {p : Printer} {g : FlowGraph} (h : g.rendered = 0)
    (htexts : ∀ b ∈ g.blocks, ∀ s ∈ b.sites, ∃ t, s.text p = .ok t) : ∃ t, g.listing p = .ok t := by
  rw [listing_eq, h, if_neg (by simp), Outcome.exists_bind_pure_iff, Outcome.exists_mapM_iff,
    List.forall_mem_map]
  intro b hb
  unfold blockText
  rw [Outcome.exists_bind_pure_iff, Outcome.exists_mapM_iff]
  intro s hs
  rw [Outcome.exists_bind_pure_iff]
  exact htexts b hb s hs

-- Building a graph. The number of the first block does not matter for the code.

/-- The walks are at the same place, and differ in the numbers of blocks at most. -/
structure Cut.Same (c c' : Cut) : Prop where
  done : c.done.map Block.code = c'.done.map Block.code
  current : c.current.code = c'.current.code
  jumpTarget : c.jumpTarget = c'.jumpTarget

theorem Cut.Same.step {c c' : Cut} (h : c.Same c') (starts : List Int) (first : Bool) (s : Site)
    (next : Option Site) : (cutStep starts first c s next).Same (cutStep starts first c' s next) := by
  obtain ⟨hdone, hcurrent, hjump⟩ := h
  obtain ⟨hstart, hsites, hedges⟩ : c.current.start = c'.current.start ∧
      c.current.sites = c'.current.sites ∧ c.current.edges = c'.current.edges := by
    simpa [Block.code] using hcurrent
  unfold cutStep
  rw [hjump]
  refine ⟨?_, ?_, rfl⟩
  · dsimp only
    split_ifs
    · simp only [List.map_append, hdone, List.map_cons, List.map_nil]
      exact congrArg _ (congrArg (fun x => [x]) hcurrent)
    · exact hdone
  · dsimp only
    split_ifs
    · rfl
    · simp [Block.code, hstart, hsites, hedges]

theorem Cut.Same.all {c c' : Cut} (h : c.Same c') (starts : List Int) (first : Bool) (sites : List Site) :
    (cutAll starts first c sites).Same (cutAll starts first c' sites) := by
  induction sites generalizing first c c' with
  | nil => exact h
  | cons s rest ih => exact ih (h.step starts first s rest.head?) false

theorem code_of_cut {sites : List Site} {blocks blocks' : List Block} {next next' n n' : Nat}
    (h : cut next sites = .ok (blocks, n)) (h' : cut next' sites = .ok (blocks', n')) :
    blocks.map Block.code = blocks'.map Block.code := by
  unfold cut at h h'
  cases sites with
  | nil => cases h
  | cons s rest =>
    obtain ⟨rfl, -⟩ := Prod.mk.inj (Except.ok.inj h)
    obtain ⟨rfl, -⟩ := Prod.mk.inj (Except.ok.inj h')
    have hopen : Cut.Same ⟨[], Block.fresh next s, none, next + 1⟩
        ⟨[], Block.fresh next' s, none, next' + 1⟩ := ⟨rfl, rfl, rfl⟩
    have hsame := hopen.all (leaders (s :: rest)) true (s :: rest)
    rw [List.map_append, List.map_append, hsame.done, List.map_singleton, List.map_singleton,
      hsame.current]

theorem exists_draw_iff {p : Printer} {function : String} {blocks : List Block} :
    (∃ drawing, draw p function blocks = .ok drawing) ↔
      ∀ b ∈ blocks, ∀ s ∈ b.sites, ∃ t, s.text p = .ok t := by
  unfold draw
  rw [Outcome.exists_bind_pure_iff, Outcome.exists_mapM_iff]
  refine forall₂_congr fun b _ => ?_
  unfold blockItems
  rw [Outcome.exists_bind_pure_iff, Outcome.exists_mapM_iff]
  refine forall₂_congr fun s _ => ?_
  unfold nodeText
  exact Outcome.exists_bind_pure_iff

/-- A graph can be built exactly when there is an instruction and each has a text, whatever the number
of the first block. The new graph has a listing. -/
theorem exists_build_iff {p : Printer} {function : String} {sites : List Site} {next : Nat} :
    (∃ g n, build p function sites next = .ok g n) ↔
      sites ≠ [] ∧ ∀ s ∈ sites, ∃ t, s.text p = .ok t := by
  constructor
  · rintro ⟨g, n, h⟩
    obtain ⟨blocks, drawing, hcut, hdraw, -⟩ := build_eq_ok_iff.1 h
    refine ⟨?_, fun s hs => ?_⟩
    · rintro rfl
      cases hcut
    · rw [← flatMap_sites_of_cut hcut] at hs
      obtain ⟨b, hb, hs⟩ := List.mem_flatMap.1 hs
      exact exists_draw_iff.1 ⟨drawing, hdraw⟩ b hb s hs
  · rintro ⟨hne, htexts⟩
    obtain ⟨blocks, n, hcut⟩ : ∃ blocks n, cut next sites = .ok (blocks, n) := by
      obtain ⟨s, rest, rfl⟩ := List.exists_cons_of_ne_nil hne
      exact ⟨_, _, rfl⟩
    obtain ⟨drawing, hdraw⟩ : ∃ drawing, draw p function blocks = .ok drawing := by
      refine exists_draw_iff.2 fun b hb s hs => htexts s ?_
      rw [← flatMap_sites_of_cut hcut]
      exact List.mem_flatMap.2 ⟨b, hb, hs⟩
    exact ⟨_, n, build_eq_ok_iff.2 ⟨blocks, drawing, hcut, hdraw, rfl⟩⟩

theorem code_of_build {p : Printer} {function : String} {sites : List Site} {next next' n n' : Nat}
    {g g' : FlowGraph} (h : build p function sites next = .ok g n)
    (h' : build p function sites next' = .ok g' n') :
    g.blocks.map Block.code = g'.blocks.map Block.code := by
  obtain ⟨blocks, hcut, hblocks⟩ := blocks_of_build h
  obtain ⟨blocks', hcut', hblocks'⟩ := blocks_of_build h'
  rw [hblocks, hblocks', map_markPhi _ fun _ _ => rfl, map_markPhi _ fun _ _ => rfl]
  exact code_of_cut hcut hcut'

theorem listing_of_build {p : Printer} {function : String} {sites : List Site} {next n : Nat}
    {g : FlowGraph} (h : build p function sites next = .ok g n) : ∃ t, g.listing p = .ok t := by
  obtain ⟨blocks, drawing, -, hdraw, rfl⟩ := build_eq_ok_iff.1 h
  have hmarked : listing p ⟨function, markPhi blocks, 0, drawing⟩ =
      listing p ⟨function, blocks, 0, drawing⟩ :=
    listing_congr rfl rfl (map_markPhi Block.code (fun _ _ => rfl) blocks)
  rw [hmarked]
  exact exists_listing rfl (exists_draw_iff.1 ⟨drawing, hdraw⟩)

end FlowGraph

namespace Session

variable {s s' : Session} {text : String}

/-- Decompiling leaves the contract as it is, and for each function a new graph whose instructions have
all been replaced. -/
theorem graphs_of_decompiled (hslots : s.graphs.length = s.contract.functions.length)
    (h : decompiled s = .ok text s') : s'.contract = s.contract ∧ s'.printer = s.printer ∧
      ∀ (i : Nat) (f : Function), s.contract.functions[i]? = some f →
        ∃ (g fresh : FlowGraph) (next n : Nat), s'.graphs[i]? = some (some g) ∧
        FlowGraph.build s.printer f.name f.sites next = .ok fresh n ∧
        g.standing = (fresh.blocks.map Block.code, f.sites.length) := by
  unfold decompiled decompiling at h
  rw [Run.get_bind] at h
  obtain ⟨_, _, hbuiltins, h⟩ := Run.bind_eq_ok.1 h
  obtain ⟨-, rfl⟩ := Run.ofOutcome_eq_ok.1 hbuiltins
  obtain ⟨_, _, hstructs, h⟩ := Run.bind_eq_ok.1 h
  obtain ⟨-, rfl⟩ := Run.ofOutcome_eq_ok.1 hstructs
  obtain ⟨⟨out, d⟩, _, hpart, h⟩ := Run.bind_eq_ok.1 h
  obtain ⟨-, rfl⟩ := Run.pure_eq_ok.1 h
  rw [Run.get_bind] at hpart
  obtain ⟨d', hrun, rfl⟩ := Run.onPart_eq_ok.1 hpart
  obtain ⟨_, d₁, hprogram, hrun⟩ := Run.bind_eq_ok.1 hrun
  obtain ⟨_, _, hget, hrun⟩ := Run.bind_eq_ok.1 hrun
  obtain ⟨rfl, rfl⟩ := Run.get_eq_ok.1 hget
  obtain ⟨-, rfl⟩ := Run.pure_eq_ok.1 hrun
  refine ⟨rfl, rfl, fun i f hf => ?_⟩
  have hi : i < s.graphs.length := by
    rw [hslots]
    exact (List.getElem?_eq_some_iff.1 hf).1
  exact Decompiler.standing_of_program hprogram hf hi

/-- After a decompilation every function has a graph that cannot be listed, while one that is built anew
can. With its instructions back in place the graph is listed as the new one. -/
theorem listings_of_decompiled (hslots : s.graphs.length = s.contract.functions.length)
    (h : decompiled s = .ok text s') (i : Nat) (f : Function) (hf : s.contract.functions[i]? = some f) :
    ∃ g code, s'.graphs[i]? = some (some g) ∧ g.listing s.printer = .error .noSuchOperation ∧
      ({ g with rendered := 0 } : FlowGraph).listing s.printer = .ok code ∧
      ∀ next, ∃ fresh n, FlowGraph.build s.printer f.name f.sites next = .ok fresh n ∧
        fresh.listing s.printer = .ok code := by
  obtain ⟨-, -, hgraphs⟩ := graphs_of_decompiled hslots h
  obtain ⟨g, fresh, next, n, hg, hbuild, hstanding⟩ := hgraphs i f hf
  obtain ⟨hcode, hrendered⟩ := Prod.mk.inj hstanding
  have hbuildable := FlowGraph.exists_build_iff.1 ⟨fresh, n, hbuild⟩
  obtain ⟨code, hlisted⟩ := FlowGraph.listing_of_build hbuild
  refine ⟨g, code, hg, FlowGraph.listing_of_rendered ?_, ?_, fun next' => ?_⟩
  · rw [hrendered]
    exact (List.length_pos_of_ne_nil hbuildable.1).ne'
  · rw [← hlisted]
    exact FlowGraph.listing_congr rfl (FlowGraph.rendered_of_build hbuild) hcode
  · obtain ⟨fresh', n', hbuild'⟩ := FlowGraph.exists_build_iff.2 hbuildable
    refine ⟨fresh', n', hbuild', ?_⟩
    rw [← hlisted]
    exact FlowGraph.listing_congr (FlowGraph.rendered_of_build hbuild')
      (FlowGraph.rendered_of_build hbuild) (FlowGraph.code_of_build hbuild' hbuild)

/-- The graph that is kept of a function is listed as one that is built anew. -/
def ListsAsNew (s : Session) : Prop :=
  ∀ (i : Nat) (f : Function) (g fresh : FlowGraph) (next n : Nat), s.contract.functions[i]? = some f →
    s.graphs[i]? = some (some g) → FlowGraph.build s.printer f.name f.sites next = .ok fresh n →
    g.listing s.printer = fresh.listing s.printer

/-- After a decompilation no function can be listed, though each could be before: the graphs keep all that
a listing shows but their instructions. So the listings are as new only where there is no function. -/
theorem listing_lost_by_decompilation (hslots : s.graphs.length = s.contract.functions.length)
    (h : decompiled s = .ok text s') :
    (∀ (i : Nat) (f : Function), s.contract.functions[i]? = some f → ∃ g code,
      s'.graphs[i]? = some (some g) ∧ g.listing s'.printer = .error .noSuchOperation ∧
        ({ g with rendered := 0 } : FlowGraph).listing s'.printer = .ok code ∧
        ∀ next, ∃ fresh n, FlowGraph.build s'.printer f.name f.sites next = .ok fresh n ∧
          fresh.listing s'.printer = .ok code) ∧
      (s'.ListsAsNew ↔ s.contract.functions = []) := by
  obtain ⟨hcontract, hprinter, -⟩ := graphs_of_decompiled hslots h
  have hall := listings_of_decompiled hslots h
  rw [← hprinter] at hall
  refine ⟨hall, fun hnew => ?_, fun hnone => ?_⟩
  · by_contra hne
    obtain ⟨f, rest, hf⟩ := List.exists_cons_of_ne_nil hne
    have hfirst : s.contract.functions[0]? = some f := by simp [hf]
    obtain ⟨g, code, hg, hlost, -, hfresh⟩ := hall 0 f hfirst
    obtain ⟨fresh, n, hbuild, hlisted⟩ := hfresh 0
    have hsame := hnew 0 f g fresh 0 n (hcontract ▸ hfirst) hg hbuild
    rw [hlost, hlisted] at hsame
    cases hsame
  · intro i f g fresh next n hf
    rw [hcontract, hnone] at hf
    cases hf

def pushingArtifact : Json :=
  .obj [("prime", .str "0x61"), ("builtins", .arr []), ("hints", .obj []),
    ("data", .arr [.str "0x480680017fff8000", .str "0x5", .str "0x208b7fff7fff7ffe"]),
    ("identifiers", .obj [("main", .obj [("type", .str "function"), ("pc", .num 0)])])]

theorem pushing_listing_lost : ∃ c text s', Contract.ofArtifact pushingArtifact = .ok c ∧
    decompiled (start c .plain) = .ok text s' ∧ c.functions.length = 1 ∧ ¬ s'.ListsAsNew := by
  have hrun : (Contract.ofArtifact pushingArtifact >>= fun c =>
      match decompiled (start c .plain) with
      | .ok _ _ => (pure c.functions.length : Outcome Nat)
      | .error e _ => throw e) = .ok 1 := by
    decide +kernel
  obtain ⟨c, hc, hrun⟩ := Outcome.bind_eq_ok.1 hrun
  cases hdecompiled : decompiled (start c .plain) with
  | error e s' =>
    rw [hdecompiled] at hrun
    exact absurd hrun Outcome.throw_ne_ok
  | ok text s' =>
    rw [hdecompiled] at hrun
    have hone := Outcome.pure_eq_ok.1 hrun
    have hlost := (listing_lost_by_decompilation (List.length_map _) hdecompiled).2
    refine ⟨c, text, s', hc, hdecompiled, hone, fun hnew => ?_⟩
    have hnone : c.functions = [] := hlost.1 hnew
    simp [hnone] at hone

end Session

end Cairoscope
