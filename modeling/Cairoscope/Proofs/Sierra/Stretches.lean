import Cairoscope.Proofs.Sierra.Loading
import Mathlib.Data.List.Chain
import Mathlib.Data.List.Nodup
import Mathlib.Data.List.Perm.Subperm

/-! The blocks of a function as stretches of its statements. A stretch goes up to the next start of a
block or to the end of the function, and to a return or a jump at most. It is kept where it ends at a
start or with the function. After a jump there is a start always, after a return only where some jump
leads there first, so a stretch that ends in a return can get lost. -/

namespace Cairoscope.Sierra

namespace Statement

def isReturn (s : Statement) : Bool :=
  match s.action with
  | .give _ => true
  | _ => false

def target? (s : Statement) : Option Int :=
  match s.action with
  | .jump _ _ first _ _ => some first
  | _ => none

theorem endsBlock_iff {s : Statement} :
    endsBlock s = true ↔ s.isReturn = true ∨ ∃ first, s.target? = some first := by
  unfold endsBlock isReturn target?
  cases s.action <;> simp

end Statement

/-- A block starts at the offset: it is that of the function, or a jump stands right before it, or leads
there first. -/
def Function.HasStart (f : Function) (t : Int) : Prop :=
  t = f.start ∨ ∃ j ∈ f.statements, ∃ first, j.target? = some first ∧ (t = j.offset + 1 ∨ t = first)

theorem mem_blockStarts {f : Function} {t : Int} : t ∈ blockStarts f ↔ f.HasStart t := by
  unfold blockStarts Function.HasStart
  rw [List.mem_cons, List.mem_flatMap]
  refine or_congr_right (exists_congr fun j => and_congr_right fun _ => ?_)
  unfold Statement.target?
  cases j.action <;> simp

section Walk

variable {starts : List Int} {b : Block} {isFull : Bool} {s : Statement} {rest : List Statement}

/-- The blocks that a walk still brings, where `b` is the block in progress. -/
def blocksFrom (starts : List Int) : Block → Bool → List Statement → List Block
  | b, _, [] => [b]
  | b, isFull, s :: rest =>
    let current := if starts.contains (s.offset : Int) || isFull then Block.opened s else b
    (if starts.contains (s.offset : Int) then [b] else []) ++
      blocksFrom starts (current.extend starts s rest.head?) (endsBlock s) rest

theorem walk_eq (c : Cursor) (l : List Statement) :
    (c.walk starts l).finished ++ [(c.walk starts l).current] =
      c.finished ++ blocksFrom starts c.current c.isFull l := by
  induction l generalizing c with
  | nil => rfl
  | cons s rest ih =>
    rw [Cursor.walk, ih, blocksFrom]
    unfold Cursor.step
    by_cases hs : (s.offset : Int) ∈ starts
    · simp [hs]
    · simp [hs]

theorem blocksFrom_of_start (hs : (s.offset : Int) ∈ starts) :
    blocksFrom starts b isFull (s :: rest) =
      b :: blocksFrom starts ((Block.opened s).extend starts s rest.head?) (endsBlock s) rest := by
  rw [blocksFrom]
  simp [hs]

theorem blocksFrom_of_full (hs : (s.offset : Int) ∉ starts) :
    blocksFrom starts b true (s :: rest) =
      blocksFrom starts ((Block.opened s).extend starts s rest.head?) (endsBlock s) rest := by
  rw [blocksFrom]
  simp [hs]

theorem blocksFrom_inside (hs : (s.offset : Int) ∉ starts) :
    blocksFrom starts b false (s :: rest) =
      blocksFrom starts (b.extend starts s rest.head?) (endsBlock s) rest := by
  rw [blocksFrom]
  simp [hs]

/-- Whether the block in progress is left behind: it is full before a block starts. -/
def isLeft (starts : List Int) : Bool → List Statement → Bool
  | _, [] => false
  | isFull, s :: rest =>
    !starts.contains (s.offset : Int) && (isFull || isLeft starts (endsBlock s) rest)

def kept (starts : List Int) : List Statement → List Statement
  | [] => []
  | s :: rest => (if isLeft starts (endsBlock s) rest then [] else [s]) ++ kept starts rest

theorem flatMap_blocksFrom (l : List Statement) :
    (blocksFrom starts b isFull l).flatMap (·.statements) =
      (if isLeft starts isFull l then [] else b.statements) ++ kept starts l := by
  induction l generalizing b isFull with
  | nil => simp [blocksFrom, isLeft, kept]
  | cons s rest ih =>
    have hopened : ((Block.opened s).extend starts s rest.head?).statements = [s] := rfl
    by_cases hs : (s.offset : Int) ∈ starts
    · have hleft : isLeft starts isFull (s :: rest) = false := by simp [isLeft, hs]
      rw [blocksFrom_of_start hs, List.flatMap_cons, ih, hopened, hleft, kept]
      simp
    · cases isFull with
      | true =>
        have hleft : isLeft starts true (s :: rest) = true := by simp [isLeft, hs]
        rw [blocksFrom_of_full hs, ih, hopened, hleft, kept]
        simp
      | false =>
        have hleft : isLeft starts false (s :: rest) = isLeft starts (endsBlock s) rest := by
          simp [isLeft, hs]
        have hextended : (b.extend starts s rest.head?).statements = b.statements ++ [s] := rfl
        rw [blocksFrom_inside hs, ih, hextended, hleft, kept]
        split_ifs
        · simp
        · simp

theorem kept_sublist (l : List Statement) : (kept starts l).Sublist l := by
  induction l with
  | nil => exact .slnil
  | cons s rest ih =>
    rw [kept]
    split_ifs
    · exact ih.cons s
    · exact ih.cons_cons s

theorem mem_kept {l : List Statement} : s ∈ kept starts l ↔
    ∃ before after, l = before ++ s :: after ∧ isLeft starts (endsBlock s) after = false := by
  induction l with
  | nil => simp [kept]
  | cons x rest ih =>
    rw [kept, List.mem_append, ih]
    constructor
    · rintro (hx | ⟨before, after, rfl, hleft⟩)
      · split_ifs at hx with hleft
        · cases hx
        · obtain rfl := List.mem_singleton.1 hx
          exact ⟨[], rest, rfl, by simpa using hleft⟩
      · exact ⟨x :: before, after, rfl, hleft⟩
    · rintro ⟨_ | ⟨y, before⟩, after, hl, hleft⟩
      · obtain ⟨rfl, rfl⟩ := List.cons.inj hl
        exact .inl (by simp [hleft])
      · obtain ⟨rfl, rfl⟩ := List.cons.inj hl
        exact .inr ⟨before, after, rfl, hleft⟩

/-- The block holds a stretch `run` of the statements, and has the edges of its last one. -/
structure Fills (starts : List Int) (before run after : List Statement) (b : Block) : Prop where
  statements : b.statements = run
  start : run.head?.map (·.offset) = some b.start
  edges : ∃ s ∈ run.getLast?, b.edges = edgesAfter starts s after.head?
  opens : before = [] ∨ (∃ s ∈ run.head?, (s.offset : Int) ∈ starts) ∨
    ∃ r ∈ before.getLast?, endsBlock r = true
  inside : run.IsChain fun x y => endsBlock x = false ∧ (y.offset : Int) ∉ starts

theorem fills_opened {before : List Statement}
    (hopens : before = [] ∨ (s.offset : Int) ∈ starts ∨ ∃ r ∈ before.getLast?, endsBlock r = true) :
    Fills starts before [s] rest ((Block.opened s).extend starts s rest.head?) where
  statements := rfl
  start := rfl
  edges := ⟨s, rfl, rfl⟩
  opens := by simpa using hopens
  inside := .singleton s

/-- A statement at which nothing ends and nothing starts goes to the block in progress. -/
theorem Fills.extend {before run : List Statement} {last : Statement}
    (h : Fills starts before run (s :: rest) b) (hlast : run.getLast? = some last)
    (hends : endsBlock last = false) (hs : (s.offset : Int) ∉ starts) :
    Fills starts before (run ++ [s]) rest (b.extend starts s rest.head?) := by
  obtain ⟨x, hx, hedges⟩ := h.edges
  obtain rfl : last = x := Option.some.inj (hlast.symm.trans hx)
  have hnone : b.edges = [] := by
    rw [hedges]
    unfold edgesAfter
    unfold endsBlock at hends
    cases haction : last.action with
    | assign => simp [hs]
    | _ => simp [haction] at hends
  have hne : run ≠ [] := by
    rintro rfl
    cases hlast
  refine ⟨?_, ?_, ⟨s, by simp, ?_⟩, ?_, ?_⟩
  · exact congrArg (· ++ [s]) h.statements
  · rw [List.head?_append_of_ne_nil _ hne]
    exact h.start
  · exact (congrArg (· ++ _) hnone).trans (List.nil_append _)
  · rw [List.head?_append_of_ne_nil _ hne]
    exact h.opens
  · refine List.isChain_append.2 ⟨h.inside, .singleton s, ?_⟩
    rintro x hx y hy
    obtain rfl := Option.some.inj (hlast.symm.trans hx)
    obtain rfl := Option.some.inj hy
    exact ⟨hends, hs⟩

theorem Fills.next {before front back after : List Statement} {x : Statement}
    (h : Fills starts before (front ++ x :: s :: back) after b) :
    endsBlock x = false ∧ (s.offset : Int) ∉ starts :=
  (List.isChain_append_cons_cons.1 h.inside).2.1

theorem fills_of_mem_blocksFrom {l before run : List Statement} {last : Statement}
    (h : Fills starts before run l b) (hlast : run.getLast? = some last) {b' : Block}
    (hb' : b' ∈ blocksFrom starts b (endsBlock last) l) :
    ∃ before' run' after', before ++ run ++ l = before' ++ run' ++ after' ∧
      Fills starts before' run' after' b' := by
  induction l generalizing b before run last with
  | nil =>
    obtain rfl := List.mem_singleton.1 hb'
    exact ⟨before, run, [], rfl, h⟩
  | cons s rest ih =>
    have hback : (before ++ run).getLast? = some last := by
      rw [List.getLast?_append, hlast]
      rfl
    have hnext (hopens : (s.offset : Int) ∈ starts ∨ ∃ r ∈ (before ++ run).getLast?, endsBlock r = true)
        (hb' : b' ∈ blocksFrom starts ((Block.opened s).extend starts s rest.head?) (endsBlock s) rest) :
        ∃ before' run' after', before ++ run ++ s :: rest = before' ++ run' ++ after' ∧
          Fills starts before' run' after' b' := by
      have hlater := ih (fills_opened (.inr hopens)) rfl hb'
      rwa [List.append_assoc _ [s], List.singleton_append] at hlater
    by_cases hs : (s.offset : Int) ∈ starts
    · rw [blocksFrom_of_start hs] at hb'
      obtain rfl | hb' := List.mem_cons.1 hb'
      · exact ⟨before, run, s :: rest, rfl, h⟩
      · exact hnext (.inl hs) hb'
    · cases hends : endsBlock last with
      | true =>
        rw [hends, blocksFrom_of_full hs] at hb'
        exact hnext (.inr ⟨last, hback, hends⟩) hb'
      | false =>
        rw [hends, blocksFrom_inside hs] at hb'
        have hextended := ih (h.extend hlast hends hs) (by simp) hb'
        rwa [← List.append_assoc before, List.append_assoc _ [s], List.singleton_append] at hextended

end Walk

structure Numbered (l : List Statement) : Prop where
  chain : l.IsChain fun s n => n.offset = s.offset + 1
  sorted : l.Pairwise fun s n => s.offset < n.offset

theorem Program.Loaded.numbered {src : Source} {p : Program} (h : p.Loaded src) {f : Function}
    (hf : f ∈ p.functions) : Numbered f.statements := by
  obtain ⟨last, hoffsets⟩ := h.offsets_function hf
  have hchain := List.Ico.isChain_succ f.start.toNat last
  have hsorted := List.Ico.pairwise_lt f.start.toNat last
  rw [← hoffsets] at hchain hsorted
  exact ⟨(List.isChain_map _).1 hchain, List.pairwise_map.1 hsorted⟩

namespace Numbered

variable {l before after : List Statement} {s s' r : Statement}

theorem nodup (h : Numbered l) : l.Nodup := h.sorted.imp fun hlt heq => by simp [heq] at hlt

theorem eq_of_offset (h : Numbered l) (hs : s ∈ l) (hs' : s' ∈ l) (heq : s.offset = s'.offset) :
    s = s' := by
  have hdistinct : (l.map (·.offset)).Nodup := List.pairwise_map.2 (h.sorted.imp Nat.ne_of_lt)
  exact List.inj_on_of_nodup_map hdistinct hs hs' heq

theorem next (h : Numbered (before ++ s :: s' :: after)) : s'.offset = s.offset + 1 :=
  (List.isChain_append_cons_cons.1 h.chain).2.1

theorem suffix (h : Numbered (before ++ s :: after)) : Numbered (s :: after) :=
  ⟨(List.isChain_append.1 h.chain).2.1, (List.pairwise_append.1 h.sorted).2.1⟩

theorem tail (h : Numbered (s :: after)) : Numbered after := ⟨h.chain.tail, h.sorted.tail⟩

theorem le_of_mem (h : Numbered (s :: after)) (hr : r ∈ s :: after) : s.offset ≤ r.offset := by
  obtain rfl | hr := List.mem_cons.1 hr
  · exact le_rfl
  · exact ((List.pairwise_cons.1 h.sorted).1 r hr).le

theorem mem_suffix_iff (h : Numbered (before ++ s :: after)) :
    r ∈ s :: after ↔ r ∈ before ++ s :: after ∧ s.offset ≤ r.offset := by
  obtain ⟨-, -, hbefore⟩ := List.pairwise_append.1 h.sorted
  constructor
  · exact fun hr => ⟨List.mem_append_right _ hr, h.suffix.le_of_mem hr⟩
  · rintro ⟨hr, hle⟩
    obtain hr | hr := List.mem_append.1 hr
    · exact absurd (hbefore r hr s List.mem_cons_self) (by omega)
    · exact hr

theorem mem_tail_iff (h : Numbered (s :: after)) : r ∈ after ↔ r ∈ s :: after ∧ s.offset < r.offset := by
  refine ⟨fun hr => ⟨List.mem_cons_of_mem s hr, (List.pairwise_cons.1 h.sorted).1 r hr⟩, ?_⟩
  rintro ⟨hr, hlt⟩
  obtain rfl | hr := List.mem_cons.1 hr
  · exact absurd hlt (lt_irrefl _)
  · exact hr

end Numbered

/-- A block is left behind where no block starts up to the statement after some return. -/
theorem isLeft_iff {starts : List Int} {s : Statement} {after : List Statement}
    (h : Numbered (s :: after))
    (hjumps : ∀ j ∈ s :: after, ∀ first, j.target? = some first → (j.offset : Int) + 1 ∈ starts) :
    isLeft starts (endsBlock s) after = true ↔
      ∃ r ∈ s :: after, r.isReturn = true ∧ (∃ n ∈ after, n.offset = r.offset + 1) ∧
        ∀ t : Nat, s.offset < t → t ≤ r.offset + 1 → (t : Int) ∉ starts := by
  induction after generalizing s with
  | nil => simp [isLeft]
  | cons n rest ih =>
    obtain ⟨hn, -⟩ := List.isChain_cons_cons.1 h.chain
    have hrest := h.tail
    have ih := ih hrest fun j hj => hjumps j (List.mem_cons_of_mem s hj)
    rw [isLeft, Bool.and_eq_true, Bool.or_eq_true, ih, Bool.not_eq_true', List.contains_eq_mem,
      decide_eq_false_iff_not]
    constructor
    · rintro ⟨hstart, hends | ⟨r, hr, hreturn, ⟨m, hm, hmr⟩, hnone⟩⟩
      · obtain hreturn | ⟨first, hjump⟩ := Statement.endsBlock_iff.1 hends
        · refine ⟨s, List.mem_cons_self, hreturn, ⟨n, List.mem_cons_self, hn⟩, fun t hlt hle => ?_⟩
          obtain rfl : t = n.offset := by omega
          exact hstart
        -- after a jump a block starts, so what is left behind ends in a return
        · refine absurd (hjumps s List.mem_cons_self first hjump) ?_
          rwa [hn] at hstart
      · refine ⟨r, List.mem_cons_of_mem s hr, hreturn, ⟨m, List.mem_cons_of_mem n hm, hmr⟩,
          fun t hlt hle => ?_⟩
        rcases Nat.lt_or_ge n.offset t with hlater | hnow
        · exact hnone t hlater hle
        · obtain rfl : t = n.offset := by omega
          exact hstart
    · rintro ⟨r, hr, hreturn, ⟨m, hm, hmr⟩, hnone⟩
      have hbound := h.le_of_mem hr
      refine ⟨hnone n.offset (by omega) (by omega), ?_⟩
      obtain rfl | hr := List.mem_cons.1 hr
      · exact .inl (Statement.endsBlock_iff.2 (.inl hreturn))
      · have hbound := hrest.le_of_mem hr
        refine .inr ⟨r, hr, hreturn, ⟨m, hrest.mem_tail_iff.2 ⟨hm, by omega⟩, hmr⟩, fun t hlt => ?_⟩
        exact hnone t (by omega)

/-- The statement at the offset is lost: from there on no block starts up to the statement after some
return. -/
def Function.Loses (f : Function) (offset : Nat) : Prop :=
  ∃ r ∈ f.statements, r.isReturn = true ∧ offset ≤ r.offset ∧
    (∃ n ∈ f.statements, n.offset = r.offset + 1) ∧
    ∀ t : Nat, offset < t → t ≤ r.offset + 1 → ¬ f.HasStart t

namespace Function

variable {f : Function} {s : Statement}

theorem loses_iff (h : Numbered f.statements) {before after : List Statement}
    (hsplit : f.statements = before ++ s :: after) :
    f.Loses s.offset ↔ isLeft (blockStarts f) (endsBlock s) after = true := by
  have hnumbered := h
  rw [hsplit] at hnumbered
  have hjumps : ∀ j ∈ s :: after, ∀ first, j.target? = some first →
      (j.offset : Int) + 1 ∈ blockStarts f := by
    intro j hj first hjump
    have hmem : j ∈ f.statements := hsplit ▸ List.mem_append_right before hj
    exact mem_blockStarts.2 (.inr ⟨j, hmem, first, hjump, .inl rfl⟩)
  rw [isLeft_iff hnumbered.suffix hjumps]
  unfold Loses
  simp only [mem_blockStarts, hsplit, hnumbered.suffix.mem_tail_iff, hnumbered.mem_suffix_iff]
  refine exists_congr fun r => ?_
  constructor
  · rintro ⟨hr, hreturn, hle, ⟨n, hn, hnr⟩, hnone⟩
    exact ⟨⟨hr, hle⟩, hreturn, ⟨n, ⟨⟨hn, by omega⟩, by omega⟩, hnr⟩, hnone⟩
  · rintro ⟨⟨hr, hle⟩, hreturn, ⟨n, ⟨⟨hn, -⟩, -⟩, hnr⟩, hnone⟩
    exact ⟨hr, hreturn, hle, ⟨n, hn, hnr⟩, hnone⟩

/-- The blocks of a function, with the statement that the walk begins at. -/
theorem blocks_eq (h : blocksOf f = .ok f.blocks) : ∃ first rest, f.statements = first :: rest ∧
    f.blocks = blocksFrom (blockStarts f) (Block.opened first) true (first :: rest) := by
  unfold blocksOf at h
  cases hstatements : f.statements with
  | nil =>
    rw [hstatements] at h
    cases h
  | cons first rest =>
    rw [hstatements] at h
    have hblocks := Except.ok.inj h
    rw [walk_eq, List.nil_append] at hblocks
    exact ⟨first, rest, rfl, hblocks.symm⟩

theorem flatMap_blocks (h : blocksOf f = .ok f.blocks) :
    f.blocks.flatMap (·.statements) = kept (blockStarts f) f.statements := by
  obtain ⟨first, rest, hstatements, hblocks⟩ := blocks_eq h
  rw [hblocks, hstatements, flatMap_blocksFrom]
  have hnone : (Block.opened first).statements = [] := rfl
  rw [hnone, ite_self, List.nil_append]

theorem mem_blocks_iff (h : blocksOf f = .ok f.blocks) (hnumbered : Numbered f.statements)
    (hs : s ∈ f.statements) :
    s ∈ f.blocks.flatMap (·.statements) ↔ ¬ f.Loses s.offset := by
  rw [flatMap_blocks h, mem_kept]
  constructor
  · rintro ⟨before, after, hsplit, hkept⟩
    rw [loses_iff hnumbered hsplit, hkept]
    exact Bool.false_ne_true
  · intro hkept
    obtain ⟨before, after, hsplit⟩ := List.append_of_mem hs
    rw [loses_iff hnumbered hsplit] at hkept
    exact ⟨before, after, hsplit, Bool.eq_false_of_not_eq_true hkept⟩

/-- After a return a block starts only where a jump leads. -/
theorem hasStart_after_return {r n : Statement} (h : Numbered f.statements)
    (hstart : f.start ≤ r.offset) (hr : r ∈ f.statements) (hreturn : r.isReturn = true)
    (hn : n.offset = r.offset + 1) :
    f.HasStart n.offset ↔ ∃ j ∈ f.statements, j.target? = some (n.offset : Int) := by
  constructor
  · rintro (hown | ⟨j, hj, first, hjump, hafter | hleads⟩)
    · omega
    · obtain rfl : j = r := h.eq_of_offset hj hr (by omega)
      unfold Statement.isReturn at hreturn
      unfold Statement.target? at hjump
      cases haction : j.action with
      | jump => simp [haction] at hreturn
      | _ => simp [haction] at hjump
    · exact ⟨j, hj, hleads ▸ hjump⟩
  · rintro ⟨j, hj, hjump⟩
    exact .inr ⟨j, hj, _, hjump, .inr rfl⟩

end Function

namespace Program

/-- The blocks of a function keep its statements in their order, and each at most once. Lost are those
before a return that no start of a block separates from the statement after it, so nothing is lost exactly
when every statement after a return is the first target of some jump of the function. -/
theorem lost_statements_exact {text : String} {p : Program} (h : load text .empty = .ok () p)
    {f : Function} (hf : f ∈ p.functions) :
    f.statements.Nodup ∧ (f.blocks.flatMap (·.statements)).Sublist f.statements ∧
      (∀ s ∈ f.statements, s ∈ f.blocks.flatMap (·.statements) ↔ ¬ f.Loses s.offset) ∧
      (f.blocks.flatMap (·.statements) = f.statements ↔
        ∀ r ∈ f.statements, r.isReturn = true → ∀ n ∈ f.statements, n.offset = r.offset + 1 →
          ∃ j ∈ f.statements, j.target? = some (n.offset : Int)) := by
  obtain ⟨src, -, hloaded⟩ := loaded_of_load h
  have hnumbered := hloaded.numbered hf
  have harranged := hloaded.functions f hf
  have hblocks := harranged.blocks
  have hsublist : (f.blocks.flatMap (·.statements)).Sublist f.statements := by
    rw [Function.flatMap_blocks hblocks]
    exact kept_sublist _
  have hmem := fun s => Function.mem_blocks_iff (s := s) hblocks hnumbered
  refine ⟨hnumbered.nodup, hsublist, hmem, fun hall r hr hreturn n hn hnr => ?_, fun hled => ?_⟩
  · rw [← Function.hasStart_after_return hnumbered (harranged.start_le hr) hr hreturn hnr]
    by_contra hnone
    refine (hmem r hr).1 (hall ▸ hr) ⟨r, hr, hreturn, le_rfl, ⟨n, hn, hnr⟩, fun t hlt hle => ?_⟩
    obtain rfl : t = n.offset := by omega
    exact hnone
  · have hsubset : f.statements ⊆ f.blocks.flatMap (·.statements) := by
      intro s hs
      rw [hmem s hs]
      rintro ⟨r, hr, hreturn, hle, ⟨n, hn, hnr⟩, hnone⟩
      obtain ⟨j, hj, hjump⟩ := hled r hr hreturn n hn hnr
      exact hnone n.offset (by omega) (by omega) (.inr ⟨j, hj, _, hjump, .inr rfl⟩)
    exact hsublist.eq_of_length_le (List.subperm_of_subset hnumbered.nodup hsubset).length_le

/-- A branch whose two alternatives return. Only the branch leads to the second one. -/
def twoReturns : String := "f() \x7b 1() 2() \x7d;\nreturn();\nreturn();\nmain@0() -> ();\n"

theorem lost_statements_two_returns : ∃ p f, load twoReturns .empty = .ok () p ∧ f ∈ p.functions ∧
    f.statements.map (·.offset) = [0, 1, 2] ∧
    f.blocks.flatMap (·.statements) ≠ f.statements := by
  obtain ⟨p, hload, hcheck⟩ := exists_load twoReturns
    (fun p => p.functions.any fun f : Function => decide (f.statements.map (·.offset) = [0, 1, 2]) &&
      f.statements.any fun r => r.isReturn && f.statements.any fun n =>
        decide (n.offset = r.offset + 1) && f.statements.all fun j => decide (j.target? ≠ some n.offset))
    (by decide +kernel)
  simp only [List.any_eq_true, Bool.and_eq_true, decide_eq_true_eq, List.all_eq_true] at hcheck
  obtain ⟨f, hf, hoffsets, r, hr, hreturn, n, hn, hnr, hnone⟩ := hcheck
  refine ⟨p, f, hload, hf, hoffsets, fun hall => ?_⟩
  obtain ⟨j, hj, hjump⟩ := (lost_statements_exact hload hf).2.2.2.1 hall r hr hreturn n hn hnr
  exact hnone j hj hjump

end Program

end Cairoscope.Sierra
