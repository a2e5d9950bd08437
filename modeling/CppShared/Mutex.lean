/-
# Threads around a mutex

Any number of threads call `lock`, work on a shared value, and `unlock`, again and again;
`done` records whose section was over in which order.  At most one thread is inside, the
holder (`Held`), and so the system refines the serial machine (`refines_serial`): whatever
the interleaving, the value is what the sections make of it one after another
(`serial_law`).
-/
import CppShared.Serial
import CppShared.Table

namespace Mutex

variable {σ ι κ β : Type*}

/-- Where a thread is. -/
inductive Caller (ι κ : Type*)
  | outside
  /-- In `lock`. -/
  | waiting (a : ι)
  | inside (a : ι) (k : κ)
  deriving DecidableEq

/-- The section that a thread is in. -/
def Caller.section? : Caller ι κ → Option (ι × κ)
  | .inside a k => some (a, k)
  | _ => none

/-- The argument of the call that a thread is in. -/
def Caller.call? : Caller ι κ → Option ι
  | .outside => none
  | .waiting a | .inside a _ => some a

/-- The mutex, the threads and what they share. -/
structure Sys (σ ι κ : Type*) where
  holder : Option ℕ
  callers : List (Caller ι κ)
  value : σ
  done : List ι

/-- What happens next. -/
inductive Label (ι β : Type*)
  /-- A thread calls `lock`. -/
  | call (c : ℕ) (a : ι)
  /-- `lock` returns. -/
  | lock (c : ℕ)
  | access (c : ℕ) (b : β)
  | unlock (c : ℕ)
  deriving DecidableEq

variable (B : Body σ ι κ β)

/-- The step function. -/
def step (s : Sys σ ι κ) : Label ι β → Option (Sys σ ι κ)
  | .call c a =>
      match s.callers[c]? with
      | some .outside => some { s with callers := s.callers.set c (.waiting a) }
      | _ => none
  | .lock c =>
      match s.callers[c]? with
      | some (.waiting a) =>
          if s.holder = none then
            some { s with
              holder := some c
              callers := s.callers.set c (.inside a (B.enter a)) }
          else none
      | _ => none
  | .access c b =>
      match s.callers[c]? with
      | some (.inside a k) => (B.access k b s.value).map fun r =>
          { s with callers := s.callers.set c (.inside a r.1), value := r.2 }
      | _ => none
  | .unlock c =>
      match s.callers[c]? with
      | some (.inside a k) =>
          if B.ended k then
            some { s with
              holder := none
              callers := s.callers.set c .outside
              done := s.done ++ [a] }
          else none
      | _ => none

/-- `n` threads outside, and the value they share. -/
def fresh (v : σ) (n : ℕ) : Sys σ ι κ := ⟨none, List.replicate n .outside, v, []⟩

/-- The threads around the mutex. -/
def system (v : σ) (n : ℕ) : LTS (Sys σ ι κ) (Label ι β) where
  init s := s = fresh v n
  step := step B

/-! ## What a step does -/

/-- The effect of a step, case by case. -/
inductive Move (s : Sys σ ι κ) : Label ι β → Sys σ ι κ → Prop
  | call (c a) (hc : s.callers[c]? = some .outside) :
      Move s (.call c a) { s with callers := s.callers.set c (.waiting a) }
  | lock (c a) (hc : s.callers[c]? = some (.waiting a)) (hfree : s.holder = none) :
      Move s (.lock c)
        { s with holder := some c, callers := s.callers.set c (.inside a (B.enter a)) }
  | access (c b a k r) (hc : s.callers[c]? = some (.inside a k))
      (hr : B.access k b s.value = some r) :
      Move s (.access c b)
        { s with callers := s.callers.set c (.inside a r.1), value := r.2 }
  | unlock (c a k) (hc : s.callers[c]? = some (.inside a k)) (hended : B.ended k = true) :
      Move s (.unlock c)
        { s with holder := none, callers := s.callers.set c .outside, done := s.done ++ [a] }

variable {B}

/-- **Step inversion.** -/
theorem move_of_step {s t : Sys σ ι κ} {l : Label ι β} (h : step B s l = some t) :
    Move B s l t := by
  cases l with
  | call c a =>
      simp only [step] at h
      split at h
      · next hc =>
          obtain rfl := Option.some.inj h
          exact Move.call c a hc
      · exact absurd h (by simp)
  | lock c =>
      simp only [step] at h
      split at h
      · next a hc =>
          split_ifs at h with hfree
          obtain rfl := Option.some.inj h
          exact Move.lock c a hc hfree
      · exact absurd h (by simp)
  | access c b =>
      simp only [step] at h
      split at h
      · next a k hc =>
          obtain ⟨r, hr, rfl⟩ := Option.map_eq_some_iff.mp h
          exact Move.access c b a k r hc hr
      · exact absurd h (by simp)
  | unlock c =>
      simp only [step] at h
      split at h
      · next a k hc =>
          split_ifs at h with hended
          obtain rfl := Option.some.inj h
          exact Move.unlock c a k hc hended
      · exact absurd h (by simp)

/-! ## The calls -/

/-- What is true of every call so far. -/
structure Calls (P : ι → Prop) (s : Sys σ ι κ) : Prop where
  callers : ∀ p ∈ s.callers, ∀ a, p.call? = some a → P a
  done : ∀ a ∈ s.done, P a

theorem Calls.inside {P : ι → Prop} {s : Sys σ ι κ} (h : Calls P s) {c : ℕ} {a : ι} {k : κ}
    (hc : s.callers[c]? = some (.inside a k)) : P a :=
  h.callers _ (List.mem_of_getElem? hc) a rfl

theorem Calls.imp {P Q : ι → Prop} {s : Sys σ ι κ} (h : Calls P s) (himp : ∀ a, P a → Q a) :
    Calls Q s :=
  ⟨fun p hp a ha => himp a (h.callers p hp a ha), fun a ha => himp a (h.done a ha)⟩

/-- With a thread of which the same is true. -/
theorem Calls.set {P : ι → Prop} {s : Sys σ ι κ} (h : Calls P s) (c : ℕ) {q : Caller ι κ}
    (hq : ∀ a, q.call? = some a → P a) : ∀ p ∈ s.callers.set c q, ∀ a, p.call? = some a → P a := by
  intro p hp
  rcases List.mem_or_eq_of_mem_set hp with hp | rfl
  · exact h.callers p hp
  · exact hq

/-- **Step lemma.** -/
theorem Calls.move {P : ι → Prop} {s t : Sys σ ι κ} {l : Label ι β} (h : Calls P s)
    (hm : Move B s l t) (hcall : ∀ c a, l = .call c a → P a) : Calls P t := by
  cases hm with
  | call c a hc =>
      refine ⟨h.set c ?_, h.done⟩
      rintro _ ⟨⟩
      exact hcall c a rfl
  | lock c a hc hfree =>
      refine ⟨h.set c ?_, h.done⟩
      rintro _ ⟨⟩
      exact h.callers _ (List.mem_of_getElem? hc) a rfl
  | access c b a k r hc hr =>
      refine ⟨h.set c ?_, h.done⟩
      rintro _ ⟨⟩
      exact h.inside hc
  | unlock c a k hc hended =>
      refine ⟨h.set c ?_, ?_⟩
      · rintro _ ⟨⟩
      · intro a' ha'
        rcases List.mem_append.mp ha' with ha' | ha'
        · exact h.done a' ha'
        · obtain rfl := List.mem_singleton.mp ha'
          exact h.inside hc

theorem calls_fresh (P : ι → Prop) (v : σ) (n : ℕ) : Calls P (fresh v n : Sys σ ι κ) := by
  refine ⟨?_, by simp [fresh]⟩
  intro p hp a ha
  obtain rfl := List.eq_of_mem_replicate hp
  exact absurd ha (by simp [Caller.call?])

/-! ## The holder -/

/-- The thread that is inside is the holder of the mutex. -/
def Held (s : Sys σ ι κ) : Prop :=
  ∀ c, s.holder = some c ↔ ∃ a k, s.callers[c]? = some (.inside a k)

/-- **Step lemma.** -/
theorem Held.move {s t : Sys σ ι κ} {l : Label ι β} (h : Held s) (hm : Move B s l t) :
    Held t := by
  intro d
  cases hm with
  | call c a hc =>
      rw [h d]
      simp only [getElem?_set_iff hc]
      constructor
      · rintro ⟨a', k', hd⟩
        refine ⟨a', k', Or.inr ⟨?_, hd⟩⟩
        rintro rfl
        rw [hc] at hd
        simp at hd
      · rintro ⟨a', k', ⟨-, hd⟩ | ⟨-, hd⟩⟩
        · simp at hd
        · exact ⟨a', k', hd⟩
  | lock c a hc hfree =>
      simp only [getElem?_set_iff hc, Option.some.injEq]
      constructor
      · rintro rfl
        exact ⟨a, B.enter a, Or.inl ⟨rfl, rfl⟩⟩
      · rintro ⟨a', k', ⟨rfl, -⟩ | ⟨-, hd⟩⟩
        · rfl
        · -- a second thread inside would have been the holder, and the mutex was free
          have hheld := (h d).mpr ⟨a', k', hd⟩
          rw [hfree] at hheld
          simp at hheld
  | access c b a k r hc hr =>
      -- the thread stays inside: only where it is there changes
      rw [h d]
      simp only [getElem?_set_iff hc]
      constructor
      · rintro ⟨a', k', hd⟩
        by_cases hdc : d = c
        · exact ⟨a, r.1, Or.inl ⟨hdc, rfl⟩⟩
        · exact ⟨a', k', Or.inr ⟨hdc, hd⟩⟩
      · rintro ⟨a', k', ⟨rfl, -⟩ | ⟨-, hd⟩⟩
        · exact ⟨a, k, hc⟩
        · exact ⟨a', k', hd⟩
  | unlock c a k hc hended =>
      -- the thread that leaves was the holder, so nobody is left inside
      have hholder := (h c).mpr ⟨a, k, hc⟩
      simp only [getElem?_set_iff hc]
      constructor
      · intro hnone
        simp at hnone
      · rintro ⟨a', k', ⟨-, hd⟩ | ⟨hne, hd⟩⟩
        · simp at hd
        · have hheld := (h d).mpr ⟨a', k', hd⟩
          rw [hholder, Option.some.injEq] at hheld
          exact absurd hheld.symm hne

/-- Every reachable state has one holder at most. -/
theorem held_of_reachable {ok : Sys σ ι κ → Label ι β → Prop} {v : σ} {n : ℕ} {s : Sys σ ι κ}
    (h : (system B v n).Reachable ok s) : Held s := by
  refine LTS.Reachable.induction (I := Held) ?_ ?_ h
  · rintro _ rfl c
    constructor
    · intro hnone
      simp [fresh] at hnone
    · rintro ⟨a, k, hc⟩
      have hout := List.eq_of_mem_replicate (List.mem_of_getElem? hc)
      simp at hout
  · intro s l t _ hs _ hstep
    exact hs.move (move_of_step hstep)

/-! ## The serial machine -/

/-- The system without the threads that are not inside. -/
def serialOf (s : Sys σ ι κ) : SerialState σ ι κ :=
  ⟨s.value, s.holder.bind fun c => (s.callers[c]?).bind Caller.section?, s.done⟩

/-- With a thread inside. -/
theorem serialOf_inside {s : Sys σ ι κ} (h : Held s) {c : ℕ} {a : ι} {k : κ}
    (hc : s.callers[c]? = some (.inside a k)) : serialOf s = ⟨s.value, some (a, k), s.done⟩ := by
  unfold serialOf
  rw [(h c).mpr ⟨a, k, hc⟩, Option.bind_some, hc]
  rfl

/-- With nobody inside. -/
theorem serialOf_free {s : Sys σ ι κ} (h : s.holder = none) :
    serialOf s = ⟨s.value, none, s.done⟩ := by
  unfold serialOf
  rw [h]
  rfl

/-- A thread that calls `lock` changes nothing for the one inside. -/
theorem serialOf_call {s : Sys σ ι κ} (h : Held s) {c : ℕ} {a : ι}
    (hc : s.callers[c]? = some .outside) :
    serialOf { s with callers := s.callers.set c (.waiting a) } = serialOf s := by
  have hsame : ∀ d, s.holder = some d → (s.callers.set c (.waiting a))[d]? = s.callers[d]? := by
    intro d hd
    obtain ⟨a', k', hinside⟩ := (h d).mp hd
    apply List.getElem?_set_ne
    rintro rfl
    rw [hc] at hinside
    simp at hinside
  unfold serialOf
  congr 1
  cases hd : s.holder with
  | none => rfl
  | some d =>
      show ((s.callers.set c (.waiting a))[d]?).bind _ = (s.callers[d]?).bind _
      rw [hsame d hd]

/-- **The threads refine the serial machine.** -/
theorem refines_serial (v : σ) (n : ℕ) :
    LTS.Refines (system B v n) (fun _ _ => True) (serial B v) serialOf where
  init := by
    rintro _ rfl
    rfl
  step s l t hreach _ hstep := by
    have hs := held_of_reachable hreach
    have ht := hs.move (move_of_step hstep)
    cases move_of_step hstep with
    | call c a hc =>
        -- the serial machine does not see who waits
        rw [serialOf_call hs hc]
        exact ⟨[], LTS.Path.nil _⟩
    | lock c a hc hfree =>
        have hlt : c < s.callers.length := (List.getElem?_eq_some_iff.mp hc).1
        rw [serialOf_free hfree, serialOf_inside ht (List.getElem?_set_self hlt)]
        exact ⟨[.enter a], LTS.Path.single trivial rfl⟩
    | access c b a k r hc hr =>
        have hlt : c < s.callers.length := (List.getElem?_eq_some_iff.mp hc).1
        rw [serialOf_inside hs hc, serialOf_inside ht (List.getElem?_set_self hlt)]
        refine ⟨[.access b], LTS.Path.single trivial ?_⟩
        show (B.access k b s.value).map _ = _
        rw [hr]
        rfl
    | unlock c a k hc hended =>
        rw [serialOf_inside hs hc]
        exact ⟨[.leave], LTS.Path.single trivial (if_pos hended)⟩

/-- **Sections run one after another**, in every interleaving. -/
theorem serial_law {v : σ} {n : ℕ} {s : Sys σ ι κ}
    (h : (system B v n).Reachable (fun _ _ => True) s) : SerialState.Law B v (serialOf s) :=
  serial_law_of_refines (refines_serial v n) h

end Mutex
