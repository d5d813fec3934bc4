import Cairoscope.Fault
import Mathlib.Tactic.Common

/-! Taking outcomes and runs apart: a chain that ends well has ended well at each of its steps. -/

namespace Cairoscope

namespace Outcome

variable {α β : Type}

theorem bind_eq_ok {x : Outcome α} {f : α → Outcome β} {b : β} :
    (x >>= f) = .ok b ↔ ∃ a, x = .ok a ∧ f a = .ok b := by
  cases x with
  | error e => simp [bind, Except.bind]
  | ok a => simp [bind, Except.bind]

theorem pure_eq_ok {a b : α} : (pure a : Outcome α) = .ok b ↔ a = b := by
  simp [pure, Except.pure]

theorem throw_ne_ok {e : Fault} {a : α} : (throw e : Outcome α) ≠ .ok a := by
  simp [throw, throwThe, MonadExceptOf.throw]

theorem map_bind_congr {γ : Type} {g : β → γ} {x : Outcome α} {f f' : α → Outcome β}
    (h : ∀ a, (f a).map g = (f' a).map g) : (x >>= f).map g = (x >>= f').map g := by
  cases x with
  | error e => rfl
  | ok a => exact h a

theorem map_eq_ok {x : Outcome α} {f : α → β} {b : β} : x.map f = .ok b ↔ ∃ a, x = .ok a ∧ f a = b := by
  cases x <;> simp [Except.map]

theorem exists_map_iff {x : Outcome α} {f : α → β} : (∃ b, x.map f = .ok b) ↔ ∃ a, x = .ok a := by
  cases x <;> simp [Except.map]

instance (x : Outcome α) : Decidable (∃ a, x = .ok a) :=
  decidable_of_iff (x.toBool = true) (by cases x <;> simp [Except.toBool])

/-- A last step that cannot fail does not matter for whether a chain ends well. -/
theorem exists_bind_pure_iff {x : Outcome α} {f : α → β} :
    (∃ b, (x >>= fun a => pure (f a)) = .ok b) ↔ ∃ a, x = .ok a := by
  simp only [bind_eq_ok, pure_eq_ok]
  constructor
  · rintro ⟨_, a, ha, -⟩
    exact ⟨a, ha⟩
  · rintro ⟨a, ha⟩
    exact ⟨_, a, ha, rfl⟩

/-- A chain ends well exactly when its first step and the rest do, where the rest does so whatever the step gives. -/
theorem exists_bind_iff {x : Outcome α} {f : α → Outcome β} {P : Prop}
    (h : ∀ a, x = .ok a → ((∃ b, f a = .ok b) ↔ P)) :
    (∃ b, (x >>= f) = .ok b) ↔ (∃ a, x = .ok a) ∧ P := by
  simp only [bind_eq_ok]
  constructor
  · rintro ⟨b, a, ha, hb⟩
    exact ⟨⟨a, ha⟩, (h a ha).1 ⟨b, hb⟩⟩
  · rintro ⟨⟨a, ha⟩, hP⟩
    obtain ⟨b, hb⟩ := (h a ha).2 hP
    exact ⟨b, a, ha, hb⟩

theorem mapM_cons_eq_ok {f : α → Outcome β} {a : α} {as : List α} {bs : List β} :
    (a :: as).mapM f = .ok bs ↔ ∃ b rest, f a = .ok b ∧ as.mapM f = .ok rest ∧ bs = b :: rest := by
  rw [List.mapM_cons, bind_eq_ok]
  refine exists_congr fun b => ?_
  simp only [bind_eq_ok, pure_eq_ok]
  constructor
  · rintro ⟨h, rest, hr, rfl⟩; exact ⟨rest, h, hr, rfl⟩
  · rintro ⟨rest, h, hr, rfl⟩; exact ⟨h, rest, hr, rfl⟩

theorem mapM_eq_ok_map {f : α → Outcome β} {g : α → β} {as : List α} (h : ∀ a ∈ as, f a = .ok (g a)) :
    as.mapM f = .ok (as.map g) := by
  induction as with
  | nil => rfl
  | cons a as ih =>
    obtain ⟨ha, has⟩ := List.forall_mem_cons.1 h
    exact mapM_cons_eq_ok.2 ⟨g a, as.map g, ha, ih has, rfl⟩

/-- What a walk gives, it gives for an element. -/
theorem exists_of_mem_mapM {f : α → Outcome β} {as : List α} {bs : List β} (h : as.mapM f = .ok bs)
    {b : β} (hb : b ∈ bs) : ∃ a ∈ as, f a = .ok b := by
  induction as generalizing bs with
  | nil =>
    obtain rfl := pure_eq_ok.1 h
    cases hb
  | cons a as ih =>
    obtain ⟨c, rest, hc, hrest, rfl⟩ := mapM_cons_eq_ok.1 h
    rcases List.mem_cons.1 hb with rfl | hb
    · exact ⟨a, by simp, hc⟩
    · obtain ⟨a', ha', hf⟩ := ih hrest hb
      exact ⟨a', by simp [ha'], hf⟩

/-- What an element gives is among what the walk gives. -/
theorem exists_mem_of_mapM {f : α → Outcome β} {as : List α} {bs : List β} (h : as.mapM f = .ok bs)
    {a : α} (ha : a ∈ as) : ∃ b ∈ bs, f a = .ok b := by
  induction as generalizing bs with
  | nil => cases ha
  | cons c as ih =>
    obtain ⟨b, rest, hb, hrest, rfl⟩ := mapM_cons_eq_ok.1 h
    rcases List.mem_cons.1 ha with rfl | ha
    · exact ⟨b, by simp, hb⟩
    · obtain ⟨b', hb', hf⟩ := ih hrest ha
      exact ⟨b', by simp [hb'], hf⟩

/-- A walk ends well exactly when it does so at each element. -/
theorem exists_mapM_iff {f : α → Outcome β} {as : List α} :
    (∃ bs, as.mapM f = .ok bs) ↔ ∀ a ∈ as, ∃ b, f a = .ok b := by
  induction as with
  | nil => simpa using ⟨[], rfl⟩
  | cons a as ih =>
    rw [List.forall_mem_cons, ← ih]
    simp only [mapM_cons_eq_ok]
    constructor
    · rintro ⟨_, b, rest, hb, hrest, -⟩
      exact ⟨⟨b, hb⟩, rest, hrest⟩
    · rintro ⟨⟨b, hb⟩, rest, hrest⟩
      exact ⟨_, b, rest, hb, hrest, rfl⟩

theorem foldlM_cons_eq_ok {f : β → α → Outcome β} {b c : β} {a : α} {as : List α} :
    (a :: as).foldlM f b = .ok c ↔ ∃ b', f b a = .ok b' ∧ as.foldlM f b' = .ok c := by
  rw [List.foldlM_cons, bind_eq_ok]

end Outcome

namespace Run

variable {σ τ α β : Type}

theorem bind_eq_ok {x : Run σ α} {f : α → Run σ β} {s s' : σ} {b : β} :
    (x >>= f) s = .ok b s' ↔ ∃ a t, x s = .ok a t ∧ f a t = .ok b s' := by
  change EStateM.bind x f s = .ok b s' ↔ _
  unfold EStateM.bind
  cases x s with
  | error e t => simp
  | ok a t => simp [and_assoc]

theorem bind_of_ok {x : Run σ α} {f : α → Run σ β} {s s' : σ} {a : α} (h : x s = .ok a s') :
    (x >>= f) s = f a s' := by
  change EStateM.bind x f s = _
  unfold EStateM.bind
  rw [h]

theorem pure_eq_ok {a b : α} {s s' : σ} : (pure a : Run σ α) s = .ok b s' ↔ a = b ∧ s = s' := by
  simp [pure, EStateM.pure]

theorem get_eq_ok {s s' t : σ} : (get : Run σ σ) s = .ok t s' ↔ s = t ∧ s = s' := by
  change (EStateM.Result.ok s s : EStateM.Result Fault σ σ) = .ok t s' ↔ _
  simp

theorem get_bind (f : σ → Run σ β) (s : σ) : ((get : Run σ σ) >>= f) s = f s s := rfl

theorem modify_bind (g : σ → σ) (f : PUnit → Run σ β) (s : σ) :
    ((modify g : Run σ PUnit) >>= f) s = f ⟨⟩ (g s) := rfl

theorem set_eq_ok {s s' t : σ} {u : PUnit} : (set t : Run σ PUnit) s = .ok u s' ↔ t = s' := by
  change (EStateM.Result.ok ⟨⟩ t : EStateM.Result Fault σ PUnit) = .ok u s' ↔ _
  simp

theorem modify_eq_ok {f : σ → σ} {s s' : σ} {u : PUnit} :
    (modify f : Run σ PUnit) s = .ok u s' ↔ f s = s' := by
  change (EStateM.Result.ok ⟨⟩ (f s) : EStateM.Result Fault σ PUnit) = .ok u s' ↔ _
  simp

theorem throw_ne_ok {e : Fault} {s s' : σ} {a : α} : (throw e : Run σ α) s ≠ .ok a s' := by
  change (EStateM.Result.error e s : EStateM.Result Fault σ α) ≠ .ok a s'
  simp

theorem run'_eq_some {x : Run σ α} {s : σ} {a : α} : EStateM.run' x s = some a ↔ ∃ s', x s = .ok a s' := by
  unfold EStateM.run' EStateM.run
  cases x s with
  | ok b t => simp
  | error e t => simp

theorem ofOutcome_eq_ok {o : Outcome α} {a : α} {s s' : σ} :
    ofOutcome o s = .ok a s' ↔ o = .ok a ∧ s = s' := by
  cases o with
  | ok b => simp [ofOutcome, pure_eq_ok]
  | error e => simp [ofOutcome, throw_ne_ok]

/-- What each step of a walk keeps, the whole walk keeps. -/
theorem rel_of_forM {R : σ → σ → Prop} (hrefl : ∀ s, R s s)
    (htrans : ∀ {s t u : σ}, R s t → R t u → R s u) {f : α → Run σ Unit}
    (hstep : ∀ a s s', f a s = .ok () s' → R s s') {as : List α} {s s' : σ}
    (h : as.forM f s = .ok () s') : R s s' := by
  induction as generalizing s with
  | nil =>
    obtain ⟨-, rfl⟩ := pure_eq_ok.1 h
    exact hrefl s
  | cons a as ih =>
    obtain ⟨_, t, hone, hrest⟩ := bind_eq_ok.1 h
    exact htrans (hstep a s t hone) (ih hrest)

theorem mapM_cons_eq_ok {f : α → Run σ β} {a : α} {as : List α} {bs : List β} {s s' : σ} :
    (a :: as).mapM f s = .ok bs s' ↔
      ∃ b t rest, f a s = .ok b t ∧ as.mapM f t = .ok rest s' ∧ bs = b :: rest := by
  rw [List.mapM_cons]
  constructor
  · intro h
    obtain ⟨b, t, hone, h⟩ := bind_eq_ok.1 h
    obtain ⟨rest, _, hrest, h⟩ := bind_eq_ok.1 h
    obtain ⟨rfl, rfl⟩ := pure_eq_ok.1 h
    exact ⟨b, t, rest, hone, hrest, rfl⟩
  · rintro ⟨b, t, rest, hone, hrest, rfl⟩
    exact bind_eq_ok.2 ⟨b, t, hone, bind_eq_ok.2 ⟨rest, s', hrest, rfl⟩⟩

/-- A walk ends well if it does so at each element, wherever that is started. -/
theorem exists_mapM {f : α → Run σ β} {as : List α} (h : ∀ a ∈ as, ∀ s, ∃ b s', f a s = .ok b s') (s : σ) :
    ∃ bs s', as.mapM f s = .ok bs s' := by
  induction as generalizing s with
  | nil => exact ⟨[], s, rfl⟩
  | cons a as ih =>
    obtain ⟨hfirst, hrest⟩ := List.forall_mem_cons.1 h
    obtain ⟨b, t, hb⟩ := hfirst s
    obtain ⟨bs, s', hbs⟩ := ih hrest t
    exact ⟨b :: bs, s', mapM_cons_eq_ok.2 ⟨b, t, bs, hb, hbs, rfl⟩⟩

theorem exists_of_mapM {f : α → Run σ β} {as : List α} {bs : List β} {s s' : σ}
    (h : as.mapM f s = .ok bs s') {a : α} (ha : a ∈ as) : ∃ t b t', f a t = .ok b t' := by
  induction as generalizing s bs with
  | nil => cases ha
  | cons a' as ih =>
    obtain ⟨b, t, rest, hone, hrest, -⟩ := mapM_cons_eq_ok.1 h
    rcases List.mem_cons.1 ha with rfl | ha
    · exact ⟨s, b, t, hone⟩
    · exact ih hrest ha

/-- Two walks are the same if the second one does what the first one does at each element. -/
theorem mapM_extends {f g : α → Run σ β} {as : List α}
    (h : ∀ a ∈ as, ∀ s b s', f a s = .ok b s' → g a s = .ok b s') {bs : List β} {s s' : σ}
    (hrun : as.mapM f s = .ok bs s') : as.mapM g s = .ok bs s' := by
  induction as generalizing s bs with
  | nil => exact hrun
  | cons a as ih =>
    obtain ⟨hfirst, hall⟩ := List.forall_mem_cons.1 h
    obtain ⟨b, t, rest, hone, hrest, rfl⟩ := mapM_cons_eq_ok.1 hrun
    exact mapM_cons_eq_ok.2 ⟨b, t, rest, hfirst s b t hone, ih hall hrest, rfl⟩

theorem onPart_eq_ok {part : σ → τ} {put : τ → σ → σ} {r : Run τ α} {a : α} {s s' : σ} :
    onPart part put r s = .ok a s' ↔ ∃ t, r (part s) = .ok a t ∧ put t s = s' := by
  unfold onPart
  cases r (part s) with
  | ok b t => simp [and_assoc]
  | error e t => simp

end Run

end Cairoscope
