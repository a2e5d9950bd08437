/-
# Labelled transition systems with a partial step function

The general part of every concurrency argument of the development.  A system is
a set of initial states together with a partial step function: `step s a` is
`some t` when the label `a` is enabled in `s` and leads to `t`.  Labels carry
whatever the environment chooses (which thread moves, what a system call
returns), so a list of labels determines a run and a concrete run can be
replayed by evaluation (`exec`).

Runs are taken under a *guard* `ok : σ → α → Prop` on the steps.  `fun _ _ =>
True` gives all runs; a proper guard restricts the runs to those whose every
step meets a condition on the state before the step.

* `Reachable.induction`: the invariant rule, with reachability of the source
  state available in the step case;
* `Run.induction`: the same rule for statements that also see the labels so far;
* `Path.exact`: a property holds exactly in the runs whose every step meets a guard;
* `Path.always_iff_first`, `Path.checkpoints_iff`: the same for a property of every state
  of the run, and of those at a checkpoint;
* `Refines.reachable`: a system that simulates an abstract one step by step
  reaches only abstractly reachable states;
* `watch`: the system with a record of what an observer sees of its steps.
-/
import Mathlib.Data.List.Infix

/-- A labelled transition system: its initial states and, for each label, a
partial step. -/
structure LTS (σ α : Type*) where
  init : σ → Prop
  step : σ → α → Option σ

namespace LTS

variable {σ α τ β : Type*} (M : LTS σ α) (ok : σ → α → Prop)

/-- `Path ok s as t`: the labels `as`, taken in order from `s`, lead to `t`, and
every step of the way satisfies the guard `ok` in the state it is taken from. -/
inductive Path : σ → List α → σ → Prop
  | nil (s : σ) : Path s [] s
  | snoc {s t u : σ} {as : List α} {a : α} :
      Path s as t → ok t a → M.step t a = some u → Path s (as ++ [a]) u

/-- A path that starts in an initial state. -/
def Run (as : List α) (t : σ) : Prop := ∃ s, M.init s ∧ M.Path ok s as t

/-- The states that some run reaches. -/
def Reachable (t : σ) : Prop := ∃ as, M.Run ok as t

variable {M ok}

/-! ## Composition and weakening of paths -/

/-- Two paths that meet compose. -/
theorem Path.append {s t u : σ} {as bs : List α} (h₁ : M.Path ok s as t)
    (h₂ : M.Path ok t bs u) : M.Path ok s (as ++ bs) u := by
  induction h₂ with
  | nil => simpa using h₁
  | snoc _ hok hstep ih =>
      rw [← List.append_assoc]
      exact Path.snoc ih hok hstep

/-- A single guarded step is a path. -/
theorem Path.single {s t : σ} {a : α} (hok : ok s a) (hstep : M.step s a = some t) :
    M.Path ok s [a] t :=
  Path.snoc (Path.nil s) hok hstep

/-- A path under a guard is a path under every weaker guard. -/
theorem Path.mono {ok' : σ → α → Prop} (hle : ∀ s a, ok s a → ok' s a) {s t : σ}
    {as : List α} (h : M.Path ok s as t) : M.Path ok' s as t := by
  induction h with
  | nil => exact Path.nil s
  | snoc _ hok hstep ih => exact Path.snoc ih (hle _ _ hok) hstep

/-- What holds at the start of a path and is preserved by its steps holds at its
end. -/
theorem Path.preserves {I : σ → Prop} {s t : σ} {as : List α} (h : M.Path ok s as t)
    (hs : I s) (hstep : ∀ s a t, I s → ok s a → M.step s a = some t → I t) : I t := by
  induction h with
  | nil => exact hs
  | snoc _ hok hst ih => exact hstep _ _ _ ih hok hst

/-! ## Reachability and the invariant rules -/

theorem Reachable.init {s : σ} (h : M.init s) : M.Reachable ok s :=
  ⟨[], s, h, Path.nil s⟩

theorem Reachable.step {s t : σ} {a : α} (h : M.Reachable ok s) (hok : ok s a)
    (hstep : M.step s a = some t) : M.Reachable ok t := by
  obtain ⟨as, s₀, h₀, hp⟩ := h
  exact ⟨as ++ [a], s₀, h₀, Path.snoc hp hok hstep⟩

/-- A state at the end of a path from a reachable state is reachable. -/
theorem Reachable.path {s t : σ} {as : List α} (h : M.Reachable ok s)
    (hp : M.Path ok s as t) : M.Reachable ok t := by
  obtain ⟨bs, s₀, h₀, hq⟩ := h
  exact ⟨bs ++ as, s₀, h₀, hq.append hp⟩

/-- Strengthening the guard reaches no new state. -/
theorem Reachable.mono {ok' : σ → α → Prop} (hle : ∀ s a, ok s a → ok' s a) {s : σ}
    (h : M.Reachable ok s) : M.Reachable ok' s := by
  obtain ⟨as, s₀, h₀, hp⟩ := h
  exact ⟨as, s₀, h₀, hp.mono hle⟩

/-- The end state of a run is reachable. -/
theorem Run.reachable {as : List α} {s : σ} (h : M.Run ok as s) : M.Reachable ok s :=
  ⟨as, h⟩

/-- **The run rule.**  A statement about the labels taken so far and the state
they lead to holds along every run once it holds at the start and every guarded
step that continues a run preserves it. -/
theorem Run.induction {I : List α → σ → Prop} (hinit : ∀ s, M.init s → I [] s)
    (hstep : ∀ as s a t, M.Run ok as s → I as s → ok s a → M.step s a = some t →
      I (as ++ [a]) t) {as : List α} {s : σ} (h : M.Run ok as s) : I as s := by
  obtain ⟨s₀, h₀, hp⟩ := h
  induction hp with
  | nil => exact hinit _ h₀
  | snoc hq hok hst ih => exact hstep _ _ _ _ ⟨_, h₀, hq⟩ ih hok hst

/-- **The invariant rule.**  What holds in every initial state and is preserved
by every guarded step from a reachable state holds in every reachable state. -/
theorem Reachable.induction {I : σ → Prop} (hinit : ∀ s, M.init s → I s)
    (hstep : ∀ s a t, M.Reachable ok s → I s → ok s a → M.step s a = some t → I t)
    {s : σ} (h : M.Reachable ok s) : I s := by
  obtain ⟨as, hrun⟩ := h
  exact Run.induction (I := fun _ => I) hinit (fun _ s a t h => hstep s a t h.reachable) hrun

/-- When a step that breaks the guard `ok'` spoils the state, and no step repairs a
spoilt one, a path either meets `ok'` at every step or ends spoilt. -/
theorem Path.restrict {ok' : σ → α → Prop} {B : σ → Prop} {s t : σ} {as : List α}
    (h₀ : M.init s) (h : M.Path ok s as t)
    (hspoil : ∀ s a t, M.Reachable ok s → ok s a → ¬ok' s a → M.step s a = some t → B t)
    (hkeep : ∀ s a t, M.Reachable ok s → B s → ok s a → M.step s a = some t → B t) :
    M.Path ok' s as t ∨ B t := by
  induction h with
  | nil => exact Or.inl (Path.nil s)
  | @snoc r u as a hp hok hstep ih =>
      have hreach : M.Reachable ok r := ⟨as, s, h₀, hp⟩
      rcases ih with hguarded | hbad
      · by_cases hok' : ok' r a
        · exact Or.inl (Path.snoc hguarded hok' hstep)
        · exact Or.inr (hspoil r a u hreach hok hok' hstep)
      · exact Or.inr (hkeep r a u hreach hbad hok hstep)

/-- **The rule of the exact condition.**  A property that holds at the start and is
kept by the steps that meet the guard `ok'`, but excludes the spoilt states a step
outside of it leads to, holds at the end of a path exactly if every step meets `ok'`. -/
theorem Path.exact {ok' : σ → α → Prop} {B P : σ → Prop} {s t : σ} {as : List α}
    (h₀ : M.init s) (h : M.Path ok s as t) (hinit : ∀ s, M.init s → P s)
    (hgood : ∀ s a t, M.Reachable ok' s → P s → ok' s a → M.step s a = some t → P t)
    (hspoil : ∀ s a t, M.Reachable ok s → ok s a → ¬ok' s a → M.step s a = some t → B t)
    (hkeep : ∀ s a t, M.Reachable ok s → B s → ok s a → M.step s a = some t → B t)
    (hbad : ∀ s, P s → ¬B s) : P t ↔ M.Path ok' s as t := by
  constructor
  · intro ht
    rcases Path.restrict h₀ h hspoil hkeep with hpath | hspoilt
    · exact hpath
    · exact absurd hspoilt (hbad t ht)
  · intro hpath
    exact Reachable.induction hinit hgood ⟨as, s, h₀, hpath⟩

/-- A path without a label leads nowhere. -/
theorem Path.of_nil {s t : σ} (h : M.Path ok s [] t) : s = t := by
  generalize hbs : ([] : List α) = bs at h
  cases h with
  | nil => rfl
  | @snoc _ _ as a _ _ _ => exact absurd hbs.symm (List.concat_ne_nil a as)

/-- The last step of a path. -/
theorem Path.of_snoc {s u : σ} {as : List α} {a : α} (h : M.Path ok s (as ++ [a]) u) :
    ∃ t, M.Path ok s as t ∧ ok t a ∧ M.step t a = some u := by
  generalize hbs : as ++ [a] = bs at h
  cases h with
  | nil => exact absurd hbs (List.concat_ne_nil a as)
  | snoc hp hok hstep =>
      obtain ⟨rfl, hlast⟩ := List.append_inj' hbs rfl
      obtain rfl := List.singleton_inj.mp hlast
      exact ⟨_, hp, hok, hstep⟩

/-- The front part of a path. -/
theorem Path.of_append {s u : σ} {as bs : List α} (h : M.Path ok s (as ++ bs) u) :
    ∃ t, M.Path ok s as t := by
  induction bs using List.reverseRecOn generalizing u with
  | nil => exact ⟨u, by simpa using h⟩
  | append_singleton bs b ih =>
      rw [← List.append_assoc] at h
      obtain ⟨t, ht, -, -⟩ := h.of_snoc
      exact ih ht

/-- The labels determine where a path ends. -/
theorem Path.unique {ok' : σ → α → Prop} {s t u : σ} {as : List α} (h : M.Path ok s as t)
    (h' : M.Path ok' s as u) : t = u := by
  induction h generalizing u with
  | nil => exact h'.of_nil
  | snoc _ _ hstep ih =>
      obtain ⟨r, hp, -, hstep'⟩ := h'.of_snoc
      obtain rfl := ih hp
      exact Option.some.inj (hstep.symm.trans hstep')

/-- **The rule of the exact condition, for the checkpoints of a run.**  At the states
that meet `C` a property holds as long as the steps meet `ok'`.  The first step outside of
`ok'` leaves a damage that lasts up to the next checkpoint and shows there.  Then in a run
that ends at a checkpoint the property holds at all of them exactly if every step meets
`ok'`. -/
theorem Path.checkpoints_iff {ok' : σ → α → Prop} {C P B : σ → Prop} {s t : σ} {as : List α}
    (h₀ : M.init s) (h : M.Path ok s as t) (hend : C t)
    (hgood : ∀ s, M.Reachable ok' s → C s → P s)
    (hspoil : ∀ s a t, M.Reachable ok' s → ok s a → ¬ok' s a → M.step s a = some t → B t)
    (hkeep : ∀ s a t, M.Reachable ok s → B s → ¬C s → ok s a → M.step s a = some t → B t)
    (hshow : ∀ s, B s → C s → ¬P s) :
    (∀ bs u, bs <+: as → M.Path ok s bs u → C u → P u) ↔ M.Path ok' s as t := by
  constructor
  · intro hall
    -- a run under `ok` meets `ok'`, or has failed at a checkpoint, or is damaged
    have hrun : M.Path ok' s as t ∨
        (∃ bs u, bs <+: as ∧ M.Path ok s bs u ∧ C u ∧ ¬P u) ∨ B t := by
      clear hall hend
      induction h with
      | nil => exact Or.inl (Path.nil s)
      | @snoc r u as a hp hok hstep ih =>
          rcases ih with hpath | ⟨bs, v, hbs, hv, hC, hP⟩ | hB
          · by_cases hok' : ok' r a
            · exact Or.inl (Path.snoc hpath hok' hstep)
            · exact Or.inr (Or.inr (hspoil r a u ⟨as, s, h₀, hpath⟩ hok hok' hstep))
          · exact Or.inr (Or.inl ⟨bs, v, hbs.trans (List.prefix_append as [a]), hv, hC, hP⟩)
          · by_cases hC : C r
            · exact Or.inr (Or.inl ⟨as, r, List.prefix_append as [a], hp, hC, hshow r hB hC⟩)
            · exact Or.inr (Or.inr (hkeep r a u ⟨as, s, h₀, hp⟩ hB hC hok hstep))
    rcases hrun with hpath | ⟨bs, u, hbs, hu, hC, hP⟩ | hB
    · exact hpath
    · exact absurd (hall bs u hbs hu hC) hP
    · exact absurd (hall as t (List.prefix_refl as) h hend) (hshow t hB hend)
  · intro hpath bs u hbs hu hC
    obtain ⟨cs, rfl⟩ := hbs
    obtain ⟨v, hv⟩ := hpath.of_append
    obtain rfl := Path.unique hu hv
    exact hgood u ⟨bs, s, h₀, hv⟩ hC

/-- **The rule of the exact condition, for every state of a run.**  When the steps that
meet `ok'` keep a property and the first other step breaks it at once, it holds all along
a run exactly if every step of the run meets `ok'`. -/
theorem Path.always_iff_first {ok' : σ → α → Prop} {P : σ → Prop} {s t : σ} {as : List α}
    (h₀ : M.init s) (h : M.Path ok s as t) (hinit : ∀ s, M.init s → P s)
    (hgood : ∀ s a t, M.Reachable ok' s → P s → ok' s a → M.step s a = some t → P t)
    (hbad : ∀ s a t, M.Reachable ok' s → ok s a → ¬ok' s a → M.step s a = some t → ¬P t) :
    (∀ bs u, bs <+: as → M.Path ok s bs u → P u) ↔ M.Path ok' s as t := by
  -- every state is a checkpoint, and the damage is that the property fails
  have hiff : (∀ bs u, bs <+: as → M.Path ok s bs u → True → P u) ↔ M.Path ok' s as t := by
    apply Path.checkpoints_iff (C := fun _ => True) (B := fun u => ¬P u) h₀ h trivial
    · intro s hs _
      exact Reachable.induction hinit hgood hs
    · exact hbad
    · intro s a t _ _ hC
      exact absurd trivial hC
    · exact fun s hs _ => hs
  constructor
  · exact fun hall => hiff.mp fun bs u hbs hu _ => hall bs u hbs hu
  · exact fun hpath bs u hbs hu => hiff.mpr hpath bs u hbs hu trivial

/-- The same when every step outside of `ok'` breaks the property. -/
theorem Path.always_iff {ok' : σ → α → Prop} {P : σ → Prop} {s t : σ} {as : List α}
    (h₀ : M.init s) (h : M.Path ok s as t) (hinit : ∀ s, M.init s → P s)
    (hgood : ∀ s a t, M.Reachable ok' s → P s → ok' s a → M.step s a = some t → P t)
    (hbad : ∀ s a t, M.Reachable ok s → ok s a → ¬ok' s a → M.step s a = some t → ¬P t)
    (hle : ∀ s a, ok' s a → ok s a) :
    (∀ bs u, bs <+: as → M.Path ok s bs u → P u) ↔ M.Path ok' s as t :=
  Path.always_iff_first h₀ h hinit hgood fun s a t hreach => hbad s a t (hreach.mono hle)

/-! ## Replaying a list of labels -/

/-- Replay labels from a state; `none` when a label is disabled or not allowed. -/
def exec (M : LTS σ α) (ok : σ → α → Prop) [∀ s a, Decidable (ok s a)] :
    σ → List α → Option σ
  | s, [] => some s
  | s, a :: as => if ok s a then (M.step s a).bind fun t => exec M ok t as else none

/-- A successful replay is a path. -/
theorem path_of_exec [∀ s a, Decidable (ok s a)] {s t : σ} {as : List α}
    (h : M.exec ok s as = some t) : M.Path ok s as t := by
  induction as generalizing s with
  | nil =>
      obtain rfl : s = t := by simpa [exec] using h
      exact Path.nil s
  | cons a as ih =>
      rw [exec] at h
      split at h
      · next hok =>
          obtain ⟨u, hu, hrest⟩ := Option.bind_eq_some_iff.mp h
          exact (Path.single hok hu).append (ih hrest)
      · exact absurd h (by simp)

/-- The end of a successful replay from an initial state is reachable. -/
theorem reachable_of_exec [∀ s a, Decidable (ok s a)] {s t : σ} {as : List α}
    (h₀ : M.init s) (h : M.exec ok s as = some t) : M.Reachable ok t :=
  ⟨as, s, h₀, path_of_exec h⟩

/-! ## Refinement -/

/-- `Refines M ok N f`: seen through the abstraction `f`, an initial state of `M`
is one of `N`, and a guarded step of `M` from a reachable state is a (possibly
empty) path of `N`. -/
structure Refines (M : LTS σ α) (ok : σ → α → Prop) (N : LTS τ β) (f : σ → τ) : Prop where
  init : ∀ s, M.init s → N.init (f s)
  step : ∀ s a t, M.Reachable ok s → ok s a → M.step s a = some t →
    ∃ bs, N.Path (fun _ _ => True) (f s) bs (f t)

/-- A refinement maps reachable states to reachable states. -/
theorem Refines.reachable {N : LTS τ β} {f : σ → τ} (hf : Refines M ok N f) {s : σ}
    (h : M.Reachable ok s) : N.Reachable (fun _ _ => True) (f s) := by
  refine Reachable.induction (I := fun s => N.Reachable (fun _ _ => True) (f s)) ?_ ?_ h
  · intro s hs
    exact Reachable.init (hf.init s hs)
  · intro s a t hs ih hok hstep
    obtain ⟨bs, hp⟩ := hf.step s a t hs hok hstep
    exact ih.path hp

/-! ## Observed runs -/

/-- The system with a record: every step adds what `obs` shows of it. -/
def watch (M : LTS σ α) (obs : σ → α → List β) : LTS (σ × List β) α where
  init p := M.init p.1 ∧ p.2 = []
  step p a := (M.step p.1 a).map fun t => (t, p.2 ++ obs p.1 a)

variable {obs : σ → α → List β}

theorem watch_step {p q : σ × List β} {a : α} :
    (M.watch obs).step p a = some q ↔ M.step p.1 a = some q.1 ∧ q.2 = p.2 ++ obs p.1 a := by
  show (M.step p.1 a).map _ = _ ↔ _
  rw [Option.map_eq_some_iff]
  constructor
  · rintro ⟨t, hstep, rfl⟩
    exact ⟨hstep, rfl⟩
  · rintro ⟨hstep, hrecord⟩
    exact ⟨q.1, hstep, by rw [← hrecord]⟩

/-- What is watched is a path of the system. -/
theorem Path.unwatch {p q : σ × List β} {as : List α}
    (h : (M.watch obs).Path (fun p a => ok p.1 a) p as q) : M.Path ok p.1 as q.1 := by
  induction h with
  | nil => exact Path.nil p.1
  | snoc _ hok hstep ih => exact Path.snoc ih hok (watch_step.mp hstep).1

/-- What is watched is a run of the system. -/
theorem Run.unwatch {q : σ × List β} {as : List α}
    (h : (M.watch obs).Run (fun p a => ok p.1 a) as q) : M.Run ok as q.1 := by
  obtain ⟨p, hp, hpath⟩ := h
  exact ⟨p.1, hp.1, hpath.unwatch⟩

/-- Every path of the system can be watched. -/
theorem Path.watch {s t : σ} {as : List α} (h : M.Path ok s as t) (record : List β) :
    ∃ more, (M.watch obs).Path (fun p a => ok p.1 a) (s, record) as (t, record ++ more) := by
  induction h with
  | nil => exact ⟨[], by simpa using Path.nil (s, record)⟩
  | @snoc t u as a _ hok hstep ih =>
      obtain ⟨more, hpath⟩ := ih
      refine ⟨more ++ obs t a, Path.snoc hpath hok (watch_step.mpr ⟨hstep, ?_⟩)⟩
      exact (List.append_assoc _ _ _).symm

end LTS
