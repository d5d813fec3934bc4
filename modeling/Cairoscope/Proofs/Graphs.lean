import Cairoscope.Proofs.Effects
import Cairoscope.Proofs.Passes

/-! The flow graphs during a run. Statements write down the variables of blocks and the conditions of
jumps, and the second pass puts the decompiled line of each instruction in its place. Both leave the
code of the blocks alone. -/

namespace Cairoscope

/-- What is known of a block before its function is decompiled. -/
def Block.code (b : Block) : Nat × List Site × List Edge := (b.start, b.sites, b.edges)

namespace FlowGraph

/-- The code of the blocks, and how many of its instructions have been replaced. -/
def standing (g : FlowGraph) : List (Nat × List Site × List Edge) × Nat :=
  (g.blocks.map Block.code, g.rendered)

theorem rendered_of_build {p : Printer} {function : String} {sites : List Site} {next n : Nat}
    {g : FlowGraph} (h : build p function sites next = .ok g n) : g.rendered = 0 := by
  obtain ⟨blocks, drawing, -, -, rfl⟩ := build_eq_ok_iff.1 h
  rfl

end FlowGraph

namespace Decompiler

variable {sc : Scene} {d d' d'' : Decompiler} {function : Nat}

def standing (d : Decompiler) (index : Nat) : Option (List (Nat × List Site × List Edge) × Nat) :=
  (d.graphs[index]?.bind id).map FlowGraph.standing

theorem standing_withGraph {f : FlowGraph → FlowGraph}
    {r : List (Nat × List Site × List Edge) × Nat → List (Nat × List Site × List Edge) × Nat}
    (hf : ∀ g, (f g).standing = r g.standing) (d : Decompiler) (function index : Nat) :
    (d.withGraph function f).standing index =
      (d.standing index).map fun x => if index = function then r x else x := by
  unfold standing withGraph
  rw [List.getElem?_modify]
  by_cases hi : function = index
  · subst hi
    cases d.graphs[function]? with
    | none => rfl
    | some o =>
      cases o with
      | none => simp
      | some g => simp [hf]
  · simp [hi, Ne.symm hi]

structure SameStanding (d d' : Decompiler) : Prop where
  length : d'.graphs.length = d.graphs.length
  standing : ∀ i, d'.standing i = d.standing i

theorem SameStanding.of_graphs_eq (h : d'.graphs = d.graphs) : SameStanding d d' :=
  ⟨by rw [h], fun i => by unfold Decompiler.standing; rw [h]⟩

theorem SameStanding.trans (h : SameStanding d d') (h' : SameStanding d' d'') : SameStanding d d'' :=
  ⟨h'.length.trans h.length, fun i => (h'.standing i).trans (h.standing i)⟩

theorem sameStanding_withBlock {f : Block → Block} (hf : ∀ b, (f b).code = b.code) (d : Decompiler)
    (place : Place) : SameStanding d (d.withBlock place f) := by
  refine ⟨length_graphs_withBlock d place f, fun i => ?_⟩
  have hstanding : ∀ g : FlowGraph,
      ({ g with blocks := g.blocks.modify place.block f } : FlowGraph).standing = id g.standing :=
    fun g => congrArg (·, g.rendered) (map_modify hf g.blocks place.block)
  unfold withBlock
  rw [standing_withGraph hstanding]
  simp

theorem sameStanding_of_effect {place : Place} (h : Effect place d d') : SameStanding d d' := by
  cases h with
  | idle _ hgraphs => exact .of_graphs_eq hgraphs
  | change _ => exact .of_graphs_eq rfl
  | condition n =>
    apply sameStanding_withBlock
    exact fun _ => rfl

theorem sameStanding_of_does {α : Type} {place : Place} {x : Step α} (hx : Does place x) {a : α}
    (h : x d = .ok a d') : SameStanding d d' := by
  have heffects := hx d a d' h
  clear h
  induction heffects with
  | refl => exact .of_graphs_eq rfl
  | tail _ heffect ih => exact ih.trans (sameStanding_of_effect heffect)

theorem sameStanding_of_scanBlocks {f : Function} {index block : Nat} {blocks : List Block} {u : Unit}
    (h : scanBlocks sc f index block blocks d = .ok u d') : SameStanding d d' := by
  refine of_scanBlocks (P := fun _ e => SameStanding d e) ?_ ?_ ?_ [] (.of_graphs_eq rfl) h
  · intro block s rest e text e' he hs
    exact he.trans (sameStanding_of_does (does_statement _ s false) hs)
  · intro rest e he
    exact he.trans (.of_graphs_eq rfl)
  · intro rest e place ns he
    refine he.trans ?_
    apply sameStanding_withBlock
    exact fun _ => rfl

theorem does_closings (place : Place) (offset : Nat) : Does place (closings sc offset) := by
  have hbrace : Does place (indent (-1) >>= fun _ =>
      line sc sc.printer.palette.reset "\x7d" >>= fun text => (pure (text ++ "\n") : Step String)) :=
    does_bind (does_indent _) fun _ => does_bind (does_line _ _) fun _ => does_pure _
  have hmap : ∀ ends : List Int, Does place (ends.mapM fun _ => indent (-1) >>= fun _ =>
      line sc sc.printer.palette.reset "\x7d" >>= fun text => (pure (text ++ "\n") : Step String)) := by
    intro ends
    induction ends with
    | nil => exact does_pure _
    | cons e ends ih =>
      rw [List.mapM_cons]
      exact does_bind hbrace fun _ => does_bind ih fun _ => does_pure _
  unfold closings
  refine does_bind does_get fun d => ?_
  dsimp only
  split_ifs
  · refine does_bind (does_idle (fun _ => rfl) fun _ => rfl) fun _ => ?_
    refine does_bind hbrace fun _ => does_bind does_get fun d => ?_
    exact does_bind (hmap _) fun _ => does_pure _
  · refine does_bind (does_pure _) fun _ => does_bind does_get fun d => ?_
    exact does_bind (hmap _) fun _ => does_pure _

/-- Nothing happens to the graphs but that instructions of one function are replaced. -/
structure Replaces (function count : Nat) (d d' : Decompiler) : Prop where
  length : d'.graphs.length = d.graphs.length
  standing : ∀ i, d'.standing i =
    (d.standing i).map fun x => if i = function then (x.1, x.2 + count) else x

theorem Replaces.refl (function : Nat) (d : Decompiler) : Replaces function 0 d d :=
  ⟨rfl, fun i => by simp⟩

theorem Replaces.trans {m n : Nat} (h : Replaces function m d d') (h' : Replaces function n d' d'') :
    Replaces function (m + n) d d'' := by
  refine ⟨h'.length.trans h.length, fun i => ?_⟩
  rw [h'.standing, h.standing, Option.map_map]
  by_cases hi : i = function
  · simp [hi, Function.comp_def, Nat.add_assoc]
  · simp [hi, Function.comp_def]

theorem SameStanding.replaces {n : Nat} (h : SameStanding d d') (h' : Replaces function n d' d'') :
    Replaces function n d d'' :=
  ⟨h'.length.trans h.length, fun i => by rw [h'.standing, h.standing]⟩

theorem replaces_of_writeSite {f : Function} {place : Place} {count : Nat} {s : Site} {text : String}
    (h : writeSite sc f place count s d = .ok text d') : Replaces place.function 1 d d' := by
  unfold writeSite at h
  obtain ⟨braces, d₁, hbraces, h⟩ := Run.bind_eq_ok.1 h
  obtain ⟨line, d₂, hline, h⟩ := Run.bind_eq_ok.1 h
  rw [Run.modify_bind] at h
  obtain ⟨-, rfl⟩ := Run.pure_eq_ok.1 h
  have hclosed := sameStanding_of_does (does_closings place s.offset) hbraces
  have hwritten := sameStanding_of_does (does_statement _ s _) hline
  refine (hclosed.trans hwritten).replaces ⟨List.length_modify _ _ _, fun i => ?_⟩
  exact standing_withGraph (fun _ => rfl) d₂ place.function i

theorem replaces_of_writeSites {f : Function} {place : Place} {count : Nat} {sites : List Site}
    {text : String} (h : writeSites sc f place count sites d = .ok text d') :
    Replaces place.function sites.length d d' := by
  induction sites generalizing count d text with
  | nil =>
    obtain ⟨-, rfl⟩ := Run.pure_eq_ok.1 h
    exact .refl _ _
  | cons s rest ih =>
    unfold writeSites at h
    obtain ⟨one, d₁, hone, h⟩ := Run.bind_eq_ok.1 h
    obtain ⟨more, d₂, hmore, h⟩ := Run.bind_eq_ok.1 h
    obtain ⟨-, rfl⟩ := Run.pure_eq_ok.1 h
    rw [List.length_cons, Nat.add_comm]
    exact (replaces_of_writeSite hone).trans (ih hmore)

theorem replaces_of_writeBlocks {f : Function} {index count block : Nat} {blocks : List Block}
    {text : String} (h : writeBlocks sc f index count block blocks d = .ok text d') :
    Replaces index (blocks.flatMap (·.sites)).length d d' := by
  induction blocks generalizing count block d text with
  | nil =>
    obtain ⟨-, rfl⟩ := Run.pure_eq_ok.1 h
    exact .refl _ _
  | cons b rest ih =>
    unfold writeBlocks at h
    rw [Run.modify_bind] at h
    obtain ⟨one, d₁, hone, h⟩ := Run.bind_eq_ok.1 h
    obtain ⟨more, d₂, hmore, h⟩ := Run.bind_eq_ok.1 h
    obtain ⟨-, rfl⟩ := Run.pure_eq_ok.1 h
    have hcounted : SameStanding d { d with newInBlock := 0 } := .of_graphs_eq rfl
    rw [List.flatMap_cons, List.length_append]
    exact (hcounted.replaces (replaces_of_writeSites hone)).trans (ih hmore)

variable {firstPassOnly : Bool}

/-- A function gets a new graph, whose instructions are replaced if there is a second pass. -/
theorem standing_of_function {index : Nat} {f : Function} {text : String}
    (h : Decompiler.function sc firstPassOnly true index f d = .ok text d') :
    d'.graphs.length = d.graphs.length ∧ (∀ j, j ≠ index → d'.standing j = d.standing j) ∧
      ∃ g next n, FlowGraph.build sc.printer f.name f.sites next = .ok g n ∧
        (index < d.graphs.length → d'.standing index =
          some (g.blocks.map Block.code, if firstPassOnly then 0 else f.sites.length)) := by
  obtain ⟨e, -, h⟩ := passes_of_function h
  rw [if_neg (by simp)] at h
  obtain ⟨g, next, n, e', hbuild, hgraphs, hscan, h⟩ := h
  have hscanned := sameStanding_of_scanBlocks hscan
  have hreplaced : Replaces index
      (if firstPassOnly then 0 else ((e.blocksOf index).flatMap (·.sites)).length) e d' := by
    split_ifs at h ⊢
    · subst h
      exact hscanned.replaces (.refl index d')
    · obtain ⟨e₂, out, -, hgraphs₂, hwrite⟩ := h
      exact (hscanned.trans (.of_graphs_eq hgraphs₂)).replaces (replaces_of_writeBlocks hwrite)
  refine ⟨?_, fun j hj => ?_, g, next, n, hbuild, fun hindex => ?_⟩
  · rw [hreplaced.length, hgraphs, List.length_set]
  · rw [hreplaced.standing, standing, hgraphs, List.getElem?_set_ne hj.symm]
    simp [hj, standing]
  · rw [flatMap_sites_of_build hbuild hindex hgraphs] at hreplaced
    rw [hreplaced.standing, standing, hgraphs, List.getElem?_set_self hindex]
    simp [FlowGraph.standing, FlowGraph.rendered_of_build hbuild]

theorem standing_of_functions {fs : List Function} {k : Nat} {texts : List String}
    (h : functions sc firstPassOnly true k fs d = .ok texts d') :
    d'.graphs.length = d.graphs.length ∧ (∀ j < k, d'.standing j = d.standing j) ∧
      ∀ i f, fs[i]? = some f → k + i < d.graphs.length →
        ∃ g next n, FlowGraph.build sc.printer f.name f.sites next = .ok g n ∧
          d'.standing (k + i) =
            some (g.blocks.map Block.code, if firstPassOnly then 0 else f.sites.length) := by
  induction fs generalizing k d texts with
  | nil =>
    obtain ⟨-, rfl⟩ := Run.pure_eq_ok.1 h
    exact ⟨rfl, fun _ _ => rfl, by simp⟩
  | cons f fs ih =>
    unfold functions at h
    obtain ⟨text, d₁, hfunction, h⟩ := Run.bind_eq_ok.1 h
    obtain ⟨rest, d₂, hrest, h⟩ := Run.bind_eq_ok.1 h
    obtain ⟨-, rfl⟩ := Run.pure_eq_ok.1 h
    obtain ⟨hlength, hothers, g, next, n, hbuild, hown⟩ := standing_of_function hfunction
    obtain ⟨hlength', hbefore, hafter⟩ := ih hrest
    refine ⟨hlength'.trans hlength, fun j hj => ?_, fun i f' hf' hi => ?_⟩
    · rw [hbefore j (by omega), hothers j (by omega)]
    · cases i with
      | zero =>
        obtain rfl : f = f' := by simpa using hf'
        exact ⟨g, next, n, hbuild, by rw [Nat.add_zero, hbefore k (by omega), hown hi]⟩
      | succ i =>
        have hshift : k + (i + 1) = k + 1 + i := by omega
        rw [hshift] at hi ⊢
        exact hafter i f' (by simpa using hf') (by omega)

/-- After a run each function that has a slot for it has a graph with the code of a new one. -/
theorem standing_of_program {text : String} (h : program sc firstPassOnly true d = .ok text d')
    {index : Nat} {f : Function} (hf : sc.functions[index]? = some f) (hindex : index < d.graphs.length) :
    ∃ g fresh next n, d'.graphs[index]? = some (some g) ∧
      FlowGraph.build sc.printer f.name f.sites next = .ok fresh n ∧
      g.standing = (fresh.blocks.map Block.code, if firstPassOnly then 0 else f.sites.length) := by
  unfold program at h
  obtain ⟨texts, d₁, hfunctions, h⟩ := Run.bind_eq_ok.1 h
  obtain ⟨-, rfl⟩ := Run.pure_eq_ok.1 h
  obtain ⟨-, -, hall⟩ := standing_of_functions hfunctions
  obtain ⟨fresh, next, n, hbuild, hstanding⟩ := hall index f hf (by omega)
  rw [Nat.zero_add] at hstanding
  obtain ⟨g, hg, hstanding⟩ := Option.map_eq_some_iff.1 hstanding
  obtain ⟨o, ho, rfl⟩ := Option.bind_eq_some_iff.1 hg
  exact ⟨g, fresh, next, n, ho, hbuild, hstanding⟩

theorem length_graphs_of_program {text : String} (h : program sc firstPassOnly true d = .ok text d') :
    d'.graphs.length = d.graphs.length := by
  unfold program at h
  obtain ⟨texts, d₁, hfunctions, h⟩ := Run.bind_eq_ok.1 h
  obtain ⟨-, rfl⟩ := Run.pure_eq_ok.1 h
  exact (standing_of_functions hfunctions).1

/-- The blocks of a function have the code that is cut from its instructions. -/
theorem code_of_program {text : String} (h : program sc firstPassOnly true d = .ok text d')
    {index : Nat} {f : Function} (hf : sc.functions[index]? = some f) {b : Block}
    (hb : b ∈ d'.blocksOf index) :
    ∃ next n blocks, FlowGraph.cut next f.sites = .ok (blocks, n) ∧
      b.code ∈ blocks.map Block.code := by
  have hindex : index < d'.graphs.length := by
    by_contra hout
    rw [blocksOf, List.getElem?_eq_none (by omega)] at hb
    cases hb
  rw [length_graphs_of_program h] at hindex
  obtain ⟨g, fresh, next, n, hg, hbuild, hstanding⟩ := standing_of_program h hf hindex
  obtain ⟨blocks, hcut, hblocks⟩ := FlowGraph.blocks_of_build hbuild
  have hcode := (Prod.mk.inj hstanding).1
  rw [hblocks, FlowGraph.map_markPhi Block.code fun _ _ => rfl] at hcode
  rw [blocksOf, hg] at hb
  exact ⟨next, n, blocks, hcut, hcode ▸ List.mem_map_of_mem hb⟩

end Decompiler

end Cairoscope
