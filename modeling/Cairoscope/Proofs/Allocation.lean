import Cairoscope.Proofs.Assertions
import Cairoscope.Proofs.Effects
import Cairoscope.Proofs.Frames
import Cairoscope.Proofs.Modes

/-! Where the variables of a first pass come from. Each is appended either when a function is entered or in
one block of its code, and the block keeps it: one after another, the lists of variables are the memory. -/

namespace Cairoscope

namespace Memory

variable {m m' m'' : Memory}

def since (m m' : Memory) : List Nat := List.range' m.size (m'.size - m.size)

theorem since_self (m : Memory) : m.since m = [] := by
  rw [since, Nat.sub_self, List.range'_zero]

theorem since_append (h : m.size ≤ m'.size) (h' : m'.size ≤ m''.size) :
    m.since m' ++ m'.since m'' = m.since m'' := by
  have hstart : m'.size = m.size + (m'.size - m.size) := by omega
  have hlength : m''.size - m.size = (m'.size - m.size) + (m''.size - m'.size) := by omega
  unfold since
  rw [hlength, ← List.range'_append_1, ← hstart]

theorem since_empty (m : Memory) : empty.since m = List.range m.size := by
  rw [List.range_eq_range']
  rfl

def labels (m : Memory) : List (Option String) := m.cells.map (·.label)

def labelAt (m : Memory) (n : Nat) : Option String := (m.labels[n]?).join

theorem length_labels (m : Memory) : m.labels.length = m.size := List.length_map _

theorem size_le_of_labels (h : m.labels <+: m'.labels) : m.size ≤ m'.size := by
  rw [← length_labels, ← length_labels]
  exact h.length_le

theorem labelAt_of_labels {n : Nat} {l : String} (h : m.labels <+: m'.labels) (hl : m.labelAt n = some l) :
    m'.labelAt n = some l := by
  obtain ⟨rest, hrest⟩ := h
  have hlabel : m.labels[n]? = some (some l) := Option.join_eq_some_iff.1 hl
  have hn : n < m.labels.length := (List.getElem?_eq_some_iff.1 hlabel).1
  rw [labelAt, ← hrest, List.getElem?_append_left hn, hlabel, Option.join_some]

theorem map_labelAt_of_labels {ns : List Nat} {ls : List String} (h : m.labels <+: m'.labels)
    (hls : ns.map m.labelAt = ls.map some) : ns.map m'.labelAt = ls.map some := by
  rw [← hls]
  refine List.map_congr_left fun n hn => ?_
  obtain ⟨l, -, hl⟩ := List.mem_map.1 (hls ▸ List.mem_map_of_mem hn)
  rw [labelAt_of_labels h hl.symm, hl]

theorem Appends.labels_eq {labels : List (Option String)} (h : Appends labels m m') :
    m'.labels = m.labels ++ labels := by
  obtain ⟨-, new, hcells, -, rfl⟩ := h
  rw [Memory.labels, hcells, List.map_append]
  rfl

/-- The labels that were appended stay with the new variables. -/
theorem Appends.map_since {labels : List (Option String)} (h : Appends labels m m')
    (hlater : m'.labels <+: m''.labels) :
    (m.since m').map m''.labelAt = labels := by
  obtain ⟨rest, hrest⟩ := hlater
  rw [h.labels_eq] at hrest
  have hlength : (m.since m').length = labels.length := by
    rw [since, List.length_range', h.size_eq, Nat.add_sub_cancel_left]
  apply List.ext_getElem (by rw [List.length_map, hlength])
  intro j _ hj
  rw [List.getElem_map]
  simp only [since, List.getElem_range', Nat.one_mul]
  rw [labelAt, ← hrest, List.append_assoc, ← length_labels, List.getElem?_append_right (Nat.le_add_right _ _),
    Nat.add_sub_cancel_left, List.getElem?_append_left hj, List.getElem?_eq_getElem hj, Option.join_some]

theorem labels_update {f : Variable → Variable} (hf : ∀ v, (f v).label = v.label) (m : Memory) (n : Nat) :
    m.labels <+: (m.update n f).labels := by
  have hsame : (m.update n f).labels = m.labels := Decompiler.map_modify hf m.cells n
  exact hsame.symm ▸ List.prefix_rfl

theorem Aligned.map_number (h : m.Aligned) : m.cells.map (·.number) = List.range m.size := by
  apply List.ext_getElem (by rw [List.length_map, List.length_range, size])
  intro q hq hq'
  rw [List.getElem_map, List.getElem_range]
  exact h.number q _ (List.getElem?_eq_getElem _)

/-- No change takes a variable away or gives one another label. -/
theorem labels_of_change {function : Nat} (h : Change function m m') : m.labels <+: m'.labels := by
  cases h with
  | reach haccess =>
    obtain ⟨-, n, rfl⟩ := growTo_of_reach haccess
    rw [(Appends.growTo m n).labels_eq]
    exact List.prefix_append _ _
  | move n => exact List.prefix_rfl
  | append callee name =>
    have hpush := Appends.push (m := m) (f := fun v =>
      { v with label := some name, function := some callee, isResult := true })
      (some name) (fun _ => rfl) fun _ => rfl
    rw [hpush.labels_eq]
    exact List.prefix_append _ _
  | receive n block call =>
    apply labels_update
    exact fun _ => rfl
  | equal n value block =>
    apply labels_update
    exact fun _ => rfl
  | test n =>
    apply labels_update
    exact fun _ => rfl
  | hand n =>
    apply labels_update
    exact fun _ => rfl

end Memory

namespace Decompiler

variable {sc : Scene} {d d' d'' : Decompiler}

def allocations (d : Decompiler) (index : Nat) : List (List Nat) :=
  (d.blocksOf index).map (·.allocated)

theorem allocations_congr (h : d'.graphs = d.graphs) (index : Nat) :
    d'.allocations index = d.allocations index := by
  rw [allocations, blocksOf_congr h, allocations]

theorem allocations_of_set {index i : Nat} {g : Option FlowGraph} (h : d'.graphs = d.graphs.set index g)
    (hne : i ≠ index) : d'.allocations i = d.allocations i := by
  unfold allocations blocksOf
  rw [h, List.getElem?_set_ne hne.symm]

theorem map_modify_const {α β : Type} {f : α → α} {g : α → β} {b : β} (hf : ∀ a, g (f a) = b)
    (as : List α) (n : Nat) : (as.modify n f).map g = (as.map g).set n b := by
  induction as generalizing n with
  | nil => simp
  | cons a as ih =>
    cases n with
    | zero => simp [hf]
    | succ n => simp [ih]

/-- A block gets its variables, and the others keep theirs. -/
theorem allocations_withBlock (d : Decompiler) (place : Place) (ns : List Nat) (i : Nat) :
    (d.withBlock place fun b => { b with allocated := ns }).allocations i =
      if place.function = i then (d.allocations i).set place.block ns else d.allocations i := by
  unfold allocations blocksOf withBlock withGraph
  dsimp only
  rw [List.getElem?_modify]
  split_ifs with hi
  · cases d.graphs[i]? with
    | none => rfl
    | some o =>
      cases o with
      | none => rfl
      | some g =>
        change (g.blocks.modify place.block _).map _ = (g.blocks.map _).set place.block ns
        apply map_modify_const
        exact fun _ => rfl
  · simp

/-- Nothing is taken from the memory, and every block has the variables that it had. -/
structure Keeps (d d' : Decompiler) : Prop where
  labels : d.memory.labels <+: d'.memory.labels
  allocations : ∀ i, d'.allocations i = d.allocations i

theorem Keeps.trans (h : Keeps d d') (h' : Keeps d' d'') : Keeps d d'' :=
  ⟨h.labels.trans h'.labels, fun i => (h'.allocations i).trans (h.allocations i)⟩

theorem keeps_of_effect {place : Place} (h : Effect place d d') : Keeps d d' := by
  cases h with
  | idle hmemory hgraphs =>
    exact ⟨hmemory.symm ▸ List.prefix_rfl, allocations_congr hgraphs⟩
  | change hchange => exact ⟨Memory.labels_of_change hchange, fun _ => rfl⟩
  | condition n =>
    refine ⟨List.prefix_rfl, fun i => ?_⟩
    apply map_blocksOf_withBlock
    exact fun _ => rfl

theorem keeps_of_does {α : Type} {place : Place} {x : Step α} (hx : Does place x) {a : α}
    (h : x d = .ok a d') : Keeps d d' := by
  have heffects := hx d a d' h
  clear h
  induction heffects with
  | refl => exact ⟨List.prefix_rfl, fun _ => rfl⟩
  | tail _ heffect ih => exact ih.trans (keeps_of_effect heffect)

/-- The scan of a block gives it the variables that were appended meanwhile. -/
theorem allocations_of_scanBlock {f : Function} {place : Place} {b : Block} {u : Unit}
    (h : scanBlock sc f place b d = .ok u d') :
    d.memory.labels <+: d'.memory.labels ∧ ∀ i, d'.allocations i =
      if place.function = i then (d.allocations i).set place.block (d.memory.since d'.memory)
      else d.allocations i := by
  unfold scanBlock at h
  rw [Run.modify_bind, Run.get_bind] at h
  obtain ⟨_, e, hsites, h⟩ := Run.bind_eq_ok.1 h
  obtain rfl := Run.modify_eq_ok.1 h
  have hdoes : ∀ s, Does place (do let _ ← statement sc place f.returns.length s false) := fun s =>
    does_bind (does_statement _ s false) fun _ => does_pure _
  have hwalk := keeps_of_does (does_forM hdoes b.sites) hsites
  have hkeeps : Keeps d e := ⟨hwalk.labels, hwalk.allocations⟩
  refine ⟨hkeeps.labels, fun i => ?_⟩
  rw [allocations_withBlock, hkeeps.allocations, ← List.range'_eq_map_range]
  rfl

/-- A scan of the blocks from a place on gives them, one after another, all that was appended. -/
theorem allocations_of_scanBlocks {f : Function} {index block : Nat} {blocks : List Block} {u : Unit}
    (hlength : (d.allocations index).length = block + blocks.length)
    (h : scanBlocks sc f index block blocks d = .ok u d') :
    d.memory.labels <+: d'.memory.labels ∧ (∀ i, index ≠ i → d'.allocations i = d.allocations i) ∧
      ∃ new, d'.allocations index = (d.allocations index).take block ++ new ∧
        new.flatten = d.memory.since d'.memory := by
  induction blocks generalizing d block with
  | nil =>
    obtain ⟨-, rfl⟩ := Run.pure_eq_ok.1 h
    refine ⟨List.prefix_rfl, fun _ _ => rfl, [], ?_, (Memory.since_self _).symm⟩
    rw [List.append_nil, List.take_of_length_le (by rw [hlength]; simp)]
  | cons b blocks ih =>
    obtain ⟨_, e, hscan, h⟩ := Run.bind_eq_ok.1 h
    rw [List.length_cons] at hlength
    obtain ⟨hlabels, hone⟩ := allocations_of_scanBlock hscan
    have hset := hone index
    rw [if_pos rfl] at hset
    obtain ⟨hlabels', hothers, new, hnew, hflat⟩ := ih (by rw [hset, List.length_set]; omega) h
    have hblock : block < (d.allocations index).length := by omega
    refine ⟨hlabels.trans hlabels', fun i hi => ?_, d.memory.since e.memory :: new, ?_, ?_⟩
    · rw [hothers i hi, hone i, if_neg hi]
    · rw [hnew, hset, List.take_add_one, List.getElem?_set_self hblock, List.take_set_of_le le_rfl]
      simp
    · rw [List.flatten_cons, hflat]
      exact Memory.since_append (Memory.size_le_of_labels hlabels) (Memory.size_le_of_labels hlabels')

/-- What a first pass over a function leaves behind: the variables of its blocks are all those that were
appended after it was entered. -/
theorem allocations_of_function {imported : Bool} {index : Nat} {f : Function} {text : String}
    (h : function sc true imported index f d = .ok text d') :
    (d.memory.enter (some index) f.parameterNames d.nextBlock).labels <+: d'.memory.labels ∧
      (∀ i, index ≠ i → d'.allocations i = d.allocations i) ∧
      (if f.isImport && !imported then [] else (d'.allocations index).flatten) =
        (d.memory.enter (some index) f.parameterNames d.nextBlock).since d'.memory := by
  obtain ⟨e, hmemory, h⟩ := passes_of_function h
  rw [← hmemory]
  by_cases hskip : (f.isImport && !imported) = true
  · rw [if_pos hskip] at h ⊢
    obtain ⟨rfl, hgraphs⟩ := h
    exact ⟨List.prefix_rfl, fun i _ => allocations_congr hgraphs i, (Memory.since_self _).symm⟩
  · rw [if_neg hskip] at h ⊢
    obtain ⟨g, _, _, _, -, hgraphs, hscan, rfl⟩ := h
    have hlength : (e.allocations index).length = 0 + (e.blocksOf index).length := by simp [allocations]
    obtain ⟨hlabels, hothers, new, hnew, hflat⟩ := allocations_of_scanBlocks hlength hscan
    refine ⟨hlabels, fun i hi => ?_, ?_⟩
    · rw [hothers i hi, allocations_of_set hgraphs hi.symm]
    · rw [hnew, List.take_zero, List.nil_append, hflat]

theorem functions_concat {firstPassOnly imported : Bool} {k : Nat} {fs : List Function} {f : Function}
    {texts : List String} (h : functions sc firstPassOnly imported k (fs ++ [f]) d = .ok texts d') :
    ∃ texts' e text, functions sc firstPassOnly imported k fs d = .ok texts' e ∧
      function sc firstPassOnly imported (k + fs.length) f e = .ok text d' := by
  induction fs generalizing k d texts with
  | nil =>
    unfold functions at h
    obtain ⟨text, e, hfunction, h⟩ := Run.bind_eq_ok.1 h
    obtain ⟨_, _, hrest, h⟩ := Run.bind_eq_ok.1 h
    obtain ⟨-, rfl⟩ := Run.pure_eq_ok.1 hrest
    obtain ⟨-, rfl⟩ := Run.pure_eq_ok.1 h
    exact ⟨[], d, text, rfl, hfunction⟩
  | cons g fs ih =>
    unfold functions at h
    obtain ⟨text, d₁, hfunction, h⟩ := Run.bind_eq_ok.1 h
    obtain ⟨rest, _, hrest, h⟩ := Run.bind_eq_ok.1 h
    obtain ⟨-, rfl⟩ := Run.pure_eq_ok.1 h
    obtain ⟨texts', e, last, hfront, hlast⟩ := ih hrest
    refine ⟨text :: texts', e, last, ?_, ?_⟩
    · unfold functions
      rw [Run.bind_of_ok hfunction, Run.bind_of_ok hfront]
      rfl
    · rwa [List.length_cons, Nat.add_comm fs.length 1, ← Nat.add_assoc]

/-- The arguments and the frame that a first pass appends when it comes to a function. -/
def enteredWith (sc : Scene) (imported : Bool) (graphs : List (Option FlowGraph)) (index : Nat)
    (f : Function) : List Nat :=
  (after? (functions sc true imported 0 (sc.functions.take index)) (start graphs)).elim [] fun e =>
    e.memory.since (e.memory.enter (some index) f.parameterNames e.nextBlock)

/-- The variables of a function: those that it is entered with, and those of its blocks unless its code is
skipped. -/
def variablesOf (sc : Scene) (imported : Bool) (graphs : List (Option FlowGraph)) (d : Decompiler)
    (f : Function) (index : Nat) : List Nat :=
  enteredWith sc imported graphs index f ++
    if f.isImport && !imported then [] else (d.allocations index).flatten

section Run

variable {imported : Bool} {graphs : List (Option FlowGraph)} {k : Nat} {texts : List String}

/-- What the functions up to a place do, one function at a time. -/
theorem functions_take_succ (hk : k < sc.functions.length)
    (h : functions sc true imported 0 (sc.functions.take (k + 1)) (start graphs) = .ok texts d) :
    ∃ texts' e text, functions sc true imported 0 (sc.functions.take k) (start graphs) = .ok texts' e ∧
      function sc true imported k sc.functions[k] e = .ok text d := by
  rw [List.take_add_one, List.getElem?_eq_getElem hk] at h
  obtain ⟨texts', e, text, hfront, hlast⟩ := functions_concat h
  rw [Nat.zero_add, List.length_take_of_le hk.le] at hlast
  exact ⟨texts', e, text, hfront, hlast⟩

theorem enteredWith_eq (h : functions sc true imported 0 (sc.functions.take k) (start graphs) = .ok texts d)
    (f : Function) : enteredWith sc imported graphs k f =
      d.memory.since (d.memory.enter (some k) f.parameterNames d.nextBlock) := by
  rw [enteredWith, after?_eq_some_iff.2 ⟨_, h⟩]
  rfl

theorem labels_of_function {f : Function} {text : String}
    (h : function sc true imported k f d = .ok text d') : d.memory.labels <+: d'.memory.labels := by
  refine List.IsPrefix.trans ?_ (allocations_of_function h).1
  rw [(Memory.Appends.enter d.memory (some k) f.parameterNames d.nextBlock).labels_eq]
  exact List.prefix_append _ _

/-- The variables of a function are those that were appended while it was walked. -/
theorem variablesOf_eq_since {f : Function} {text : String}
    (hfront : functions sc true imported 0 (sc.functions.take k) (start graphs) = .ok texts d)
    (h : function sc true imported k f d = .ok text d') :
    variablesOf sc imported graphs d' f k = d.memory.since d'.memory := by
  obtain ⟨hlater, -, hown⟩ := allocations_of_function h
  rw [variablesOf, enteredWith_eq hfront, hown]
  refine Memory.since_append ?_ (Memory.size_le_of_labels hlater)
  rw [(Memory.Appends.enter d.memory (some k) f.parameterNames d.nextBlock).size_eq]
  exact Nat.le_add_right _ _

/-- The variables of the functions up to a place, one after another, are the memory that the first pass
has when it comes to that place. -/
theorem variables_of_take (hk : k ≤ sc.functions.length)
    (h : functions sc true imported 0 (sc.functions.take k) (start graphs) = .ok texts d) :
    (sc.functions.take k).zipIdx.flatMap (fun x => variablesOf sc imported graphs d x.1 x.2) =
      List.range d.memory.size := by
  induction k generalizing d texts with
  | zero =>
    obtain ⟨-, rfl⟩ := Run.pure_eq_ok.1 h
    rfl
  | succ k ih =>
    obtain ⟨texts', e, text, hfront, hlast⟩ := functions_take_succ hk h
    obtain ⟨-, hothers, -⟩ := allocations_of_function hlast
    have hlength : (sc.functions.take k).length = k := List.length_take_of_le (by omega)
    -- the functions before keep the variables that they had
    have hsame : (sc.functions.take k).zipIdx.flatMap (fun x => variablesOf sc imported graphs d x.1 x.2) =
        List.range e.memory.size := by
      rw [← ih (by omega) hfront]
      refine List.flatMap_congr fun x hx => ?_
      have hbefore := List.snd_lt_of_mem_zipIdx hx
      rw [variablesOf, hothers x.2 (by omega), variablesOf]
    rw [List.take_add_one, List.getElem?_eq_getElem hk, Option.toList_some, List.zipIdx_append,
      List.flatMap_append, hsame, hlength, List.zipIdx_singleton, Nat.zero_add, List.flatMap_singleton,
      variablesOf_eq_since hfront hlast, ← Memory.since_empty, ← Memory.since_empty]
    exact Memory.since_append (Nat.zero_le _) (Memory.size_le_of_labels (labels_of_function hlast))

/-- What the functions up to a place are entered with is labelled as arguments and frames. -/
theorem labels_of_take (hk : k ≤ sc.functions.length)
    (h : functions sc true imported 0 (sc.functions.take k) (start graphs) = .ok texts d) {i : Nat}
    (hi : i < k) {f : Function} (hf : sc.functions[i]? = some f) :
    (enteredWith sc imported graphs i f).map d.memory.labelAt =
      (Memory.frameLabels f.parameterNames).map some := by
  induction k generalizing d texts with
  | zero => omega
  | succ k ih =>
    obtain ⟨texts', e, text, hfront, hlast⟩ := functions_take_succ hk h
    rcases Nat.lt_or_ge i k with hbefore | hlatest
    · exact Memory.map_labelAt_of_labels (labels_of_function hlast) (ih (by omega) hfront hbefore)
    · obtain rfl : i = k := by omega
      obtain rfl : sc.functions[i] = f := by
        rw [List.getElem?_eq_getElem hk] at hf
        exact Option.some.inj hf
      rw [enteredWith_eq hfront]
      exact (Memory.Appends.enter _ _ _ _).map_since (allocations_of_function hlast).1

/-- After a first pass every variable belongs to one place. The variables that the functions are entered
with and those of their blocks, function by function and block by block, are the memory from its first
variable to its last, and none of them is there twice. What a function is entered with is labelled as its
arguments and its frame. -/
theorem variables_in_one_place {text : String} (hgraphs : sc.functions.length ≤ graphs.length)
    (h : program sc true imported (start graphs) = .ok text d) :
    sc.functions.zipIdx.flatMap (fun x => variablesOf sc imported graphs d x.1 x.2) =
        d.memory.cells.map (·.number) ∧
      (d.memory.cells.map (·.number)).Nodup ∧
      ∀ i f, sc.functions[i]? = some f → (enteredWith sc imported graphs i f).map d.memory.labelAt =
        (Memory.frameLabels f.parameterNames).map some := by
  obtain ⟨texts, h⟩ := functions_of_program h
  have haligned := aligned_of_functions hgraphs h
  rw [← List.take_length (l := sc.functions)] at h
  have hvariables := variables_of_take le_rfl h
  rw [List.take_length] at hvariables
  rw [haligned.map_number]
  refine ⟨hvariables, List.nodup_range, fun i f hf => ?_⟩
  exact labels_of_take le_rfl h (List.getElem?_eq_some_iff.1 hf).1 hf

end Run

/-- Its code, which would write above `ap` too, is skipped. -/
def onlyEntered : Function := { writesAbove with name := "second", id := 1, isImport := true }

/-- The first function leaves `ap` one below the end of the memory. So this one finds the return address of
the second in the place of its argument and pushes onto its own; only the last cell is new. -/
def reusesCells : Function := { takesArgument with
  name := "third"
  id := 2
  stop := 9
  sites := [.setting 3 .fp (-3) 7, .pushing 5 .fp .imm .op1 (-1) 1 (some 8),
    .pushing 7 .fp .imm .op1 (-1) 1 (some 9), .returning 9] }

def sharingScene : Scene := ⟨[writesAbove, onlyEntered, reusesCells], ⟨.plain, Field.defaultPrime, []⟩⟩

/-- The third function writes to cells 4, 7 and 8, of which its block counts the last only. -/
theorem reused_cells_counted_once : ∃ text d,
    program sharingScene true false (start [none, none, none]) = .ok text d ∧
      (List.range 3).map d.allocations = [[[], [2]], [], [[8]]] ∧
      sharingScene.functions.zipIdx.flatMap (fun x =>
        variablesOf sharingScene false [none, none, none] d x.1 x.2) = List.range 9 ∧
      (enteredWith sharingScene false [none, none, none] 2 reusesCells).map d.memory.labelAt =
        [some "x", some "callers_function_frame", some "return_instruction"] := by
  have hends : (after? (program sharingScene true false) (start [none, none, none])).map (fun d =>
      ((List.range 3).map d.allocations, d.memory.cells.map (·.number))) =
        some ([[[], [2]], [], [[8]]], List.range 9) := by
    decide +kernel
  obtain ⟨d, hd, hseen⟩ := Option.map_eq_some_iff.1 hends
  obtain ⟨text, hrun⟩ := after?_eq_some_iff.1 hd
  obtain ⟨hallocations, hnumbers⟩ := Prod.mk.inj hseen
  obtain ⟨hvariables, -, hentered⟩ := variables_in_one_place (by decide) hrun
  exact ⟨text, d, hrun, hallocations, hvariables.trans hnumbers, hentered 2 reusesCells rfl⟩

end Decompiler

end Cairoscope
