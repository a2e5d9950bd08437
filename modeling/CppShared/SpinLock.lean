/-
# The spin lock (`src/spinlock.h`)

`lock` repeats `test_and_set` until the flag was clear, `unlock` clears it.  Any number of
threads call them around sections of their own, which are a parameter here; an access of a
section, a `test_and_set` and a `clear` are the atomic steps.  Nothing in `unlock` asks who
calls it, so that a thread outside may call it too.

* `exclusive_iff`: the flag says whether a thread is inside, and at most one is, exactly in
  the runs in which no thread from outside unlocks it over the head of another one;
* `sections_serial`: in these runs the lock is as good as a mutex (`refines_mutex`), and the
  sections run one after another.
-/
import CppShared.Mutex

namespace SpinLock

open Mutex (Caller)

variable {σ ι κ β : Type*}

/-- `_lock`, the threads and what they share. -/
structure Sys (σ ι κ : Type*) where
  lock : Bool
  callers : List (Caller ι κ)
  value : σ
  done : List ι

/-- What happens next. -/
inductive Label (ι β : Type*)
  /-- A thread calls `lock`. -/
  | lock (c : ℕ) (a : ι)
  /-- The test of its loop. -/
  | testAndSet (c : ℕ)
  | access (c : ℕ) (b : β)
  | unlock (c : ℕ)
  deriving DecidableEq

variable (B : Body σ ι κ β)

/-- The step function. -/
def step (s : Sys σ ι κ) : Label ι β → Option (Sys σ ι κ)
  | .lock c a =>
      match s.callers[c]? with
      | some .outside => some { s with callers := s.callers.set c (.waiting a) }
      | _ => none
  | .testAndSet c =>
      match s.callers[c]? with
      | some (.waiting a) =>
          if s.lock then some s
          else some { s with lock := true, callers := s.callers.set c (.inside a (B.enter a)) }
      | _ => none
  | .access c b =>
      match s.callers[c]? with
      | some (.inside a k) => (B.access k b s.value).map fun r =>
          { s with callers := s.callers.set c (.inside a r.1), value := r.2 }
      | _ => none
  | .unlock c =>
      match s.callers[c]? with
      | some (.inside a k) =>
          if B.ended k then
            some { s with
              lock := false
              callers := s.callers.set c .outside
              done := s.done ++ [a] }
          else none
      | some .outside => some { s with lock := false }
      | _ => none

/-- `n` threads outside, and the value they share. -/
def fresh (v : σ) (n : ℕ) : Sys σ ι κ := ⟨false, List.replicate n .outside, v, []⟩

/-- The threads around the lock. -/
def system (v : σ) (n : ℕ) : LTS (Sys σ ι κ) (Label ι β) where
  init s := s = fresh v n
  step := step B

/-! ## The property and the condition -/

/-- A thread is between `lock` and `unlock`. -/
def Inside (s : Sys σ ι κ) (c : ℕ) : Prop := ∃ a k, s.callers[c]? = some (.inside a k)

/-- At most one thread is inside, and the flag says whether there is one. -/
structure Exclusive (s : Sys σ ι κ) : Prop where
  one : ∀ c d, Inside s c → Inside s d → c = d
  lock : s.lock = true ↔ ∃ c, Inside s c

/-- A thread that unlocks is inside itself, or nobody is. -/
def ownUnlock (s : Sys σ ι κ) : Label ι β → Prop
  | .unlock c => s.callers[c]? = some .outside → ∀ p ∈ s.callers, p.section?.isNone
  | _ => True

instance [DecidableEq ι] [DecidableEq κ] (s : Sys σ ι κ) (l : Label ι β) :
    Decidable (ownUnlock s l) :=
  match l with
  | .unlock c => inferInstanceAs (Decidable
      (s.callers[c]? = some .outside → ∀ p ∈ s.callers, p.section?.isNone = true))
  | .lock _ _ | .testAndSet _ | .access _ _ => inferInstanceAs (Decidable True)

/-! ## What a step does -/

/-- The effect of a step, case by case. -/
inductive Move (s : Sys σ ι κ) : Label ι β → Sys σ ι κ → Prop
  | called (c a) (hc : s.callers[c]? = some .outside) :
      Move s (.lock c a) { s with callers := s.callers.set c (.waiting a) }
  | spun (c) (hset : s.lock = true) : Move s (.testAndSet c) s
  | entered (c a) (hc : s.callers[c]? = some (.waiting a)) (hclear : s.lock = false) :
      Move s (.testAndSet c)
        { s with lock := true, callers := s.callers.set c (.inside a (B.enter a)) }
  | accessed (c b a k r) (hc : s.callers[c]? = some (.inside a k))
      (hr : B.access k b s.value = some r) :
      Move s (.access c b)
        { s with callers := s.callers.set c (.inside a r.1), value := r.2 }
  | left (c a k) (hc : s.callers[c]? = some (.inside a k)) (hended : B.ended k = true) :
      Move s (.unlock c)
        { s with lock := false, callers := s.callers.set c .outside, done := s.done ++ [a] }
  | cleared (c) (hc : s.callers[c]? = some .outside) :
      Move s (.unlock c) { s with lock := false }

variable {B}

/-- **Step inversion.** -/
theorem move_of_step {s t : Sys σ ι κ} {l : Label ι β} (h : step B s l = some t) :
    Move B s l t := by
  cases l with
  | lock c a =>
      simp only [step] at h
      split at h
      · next hc =>
          obtain rfl := Option.some.inj h
          exact Move.called c a hc
      · exact absurd h (by simp)
  | testAndSet c =>
      simp only [step] at h
      split at h
      · next a hc =>
          split_ifs at h with hset
          · obtain rfl := Option.some.inj h
            exact Move.spun c hset
          · obtain rfl := Option.some.inj h
            exact Move.entered c a hc (by simpa using hset)
      · exact absurd h (by simp)
  | access c b =>
      simp only [step] at h
      split at h
      · next a k hc =>
          obtain ⟨r, hr, rfl⟩ := Option.map_eq_some_iff.mp h
          exact Move.accessed c b a k r hc hr
      · exact absurd h (by simp)
  | unlock c =>
      simp only [step] at h
      split at h
      · next a k hc =>
          split_ifs at h with hended
          obtain rfl := Option.some.inj h
          exact Move.left c a k hc hended
      · next hc =>
          obtain rfl := Option.some.inj h
          exact Move.cleared c hc
      · exact absurd h (by simp)

/-! ## The lock as a mutex -/

/-- The threads with the one inside as the holder of a mutex. -/
def mutexOf (s : Sys σ ι κ) : Mutex.Sys σ ι κ :=
  ⟨s.callers.findIdx? fun p => p.section?.isSome, s.callers, s.value, s.done⟩

theorem isSome_section?_iff {p : Caller ι κ} :
    p.section?.isSome = true ↔ ∃ a k, p = .inside a k := by
  cases p with
  | inside a k => exact iff_of_true rfl ⟨a, k, rfl⟩
  | _ => simp [Caller.section?]

/-- At most one thread is inside: it is the one that is found. -/
theorem held_mutexOf {s : Sys σ ι κ} (hone : ∀ c d, Inside s c → Inside s d → c = d) :
    Mutex.Held (mutexOf s) := by
  intro c
  show s.callers.findIdx? _ = some c ↔ Inside s c
  have hinside : ∀ d, Inside s d ↔ ∃ hd : d < s.callers.length, s.callers[d].section?.isSome := by
    intro d
    unfold Inside
    simp only [List.getElem?_eq_some_iff, isSome_section?_iff]
    constructor
    · rintro ⟨a, k, hd, heq⟩
      exact ⟨hd, a, k, heq⟩
    · rintro ⟨hd, a, k, heq⟩
      exact ⟨a, k, hd, heq⟩
  rw [List.findIdx?_eq_some_iff_getElem, hinside c]
  constructor
  · rintro ⟨hc, hsome, -⟩
    exact ⟨hc, hsome⟩
  · rintro ⟨hc, hsome⟩
    refine ⟨hc, hsome, fun d hd hsome' => ?_⟩
    have heq := hone d c ((hinside d).mpr ⟨by omega, hsome'⟩) ((hinside c).mpr ⟨hc, hsome⟩)
    omega

/-- With the same threads a mutex has the same holder. -/
theorem holder_eq {s t : Mutex.Sys σ ι κ} (hs : Mutex.Held s) (ht : Mutex.Held t)
    (h : s.callers = t.callers) : s.holder = t.holder := by
  apply Option.ext
  intro c
  rw [hs c, ht c, h]

/-- A mutex with at most one thread inside, seen through the lock. -/
theorem mutexOf_eq {s : Sys σ ι κ} {m : Mutex.Sys σ ι κ} (hm : Mutex.Held m)
    (hone : ∀ c d, Inside s c → Inside s d → c = d) (hcallers : s.callers = m.callers)
    (hvalue : s.value = m.value) (hdone : s.done = m.done) : mutexOf s = m := by
  have hholder : (mutexOf s).holder = m.holder := holder_eq (held_mutexOf hone) hm hcallers
  obtain ⟨holder, callers, value, done⟩ := m
  subst hcallers hvalue hdone
  obtain rfl : (mutexOf s).holder = holder := hholder
  rfl

/-! ## The runs in which nobody unlocks for another -/

/-- The threads inside, by the holder of a mutex with these threads. -/
theorem inside_iff {s : Sys σ ι κ} {m : Mutex.Sys σ ι κ} (hm : Mutex.Held m)
    (hcallers : s.callers = m.callers) (c : ℕ) : Inside s c ↔ m.holder = some c := by
  rw [hm c, ← hcallers]
  rfl

/-- The flag says whether the mutex has a holder. -/
theorem exclusive_of_held {s : Sys σ ι κ} {m : Mutex.Sys σ ι κ} (hm : Mutex.Held m)
    (hcallers : s.callers = m.callers) (hlock : s.lock = m.holder.isSome) : Exclusive s := by
  constructor
  · intro c d hc hd
    rw [inside_iff hm hcallers] at hc hd
    exact Option.some.inj (hc.symm.trans hd)
  · rw [hlock, Option.isSome_iff_exists]
    exact exists_congr fun c => (inside_iff hm hcallers c).symm

/-- The flag of a lock that is a mutex. -/
theorem Exclusive.lock_eq {s : Sys σ ι κ} (h : Exclusive s) :
    s.lock = (mutexOf s).holder.isSome := by
  rw [Bool.eq_iff_iff, h.lock, Option.isSome_iff_exists]
  exact exists_congr fun c => inside_iff (held_mutexOf h.one) rfl c

/-- With nobody inside the mutex is free. -/
theorem Exclusive.serialOf_free {s : Sys σ ι κ} (h : Exclusive s) (hnone : ∀ c, ¬Inside s c) :
    Mutex.serialOf (mutexOf s) = ⟨s.value, none, s.done⟩ := by
  have hfree : (mutexOf s).holder = none := by
    rw [Option.eq_none_iff_forall_ne_some]
    exact fun c hc => hnone c ((inside_iff (held_mutexOf h.one) rfl c).mpr hc)
  unfold Mutex.serialOf
  rw [hfree]
  rfl

/-- **Step lemma.**  A step that unlocks for nobody else is a step of the mutex, or none at
all. -/
theorem Exclusive.move {s t : Sys σ ι κ} {l : Label ι β} (h : Exclusive s) (hok : ownUnlock s l)
    (hm : Move B s l t) :
    Exclusive t ∧ (mutexOf t = mutexOf s ∨
      ∃ l', Mutex.step B (mutexOf s) l' = some (mutexOf t)) := by
  have hheld := held_mutexOf h.one
  have hlock := h.lock_eq
  -- a step of the mutex that leads to the same threads
  have hlift : ∀ l' m, Mutex.step B (mutexOf s) l' = some m → t.callers = m.callers →
      t.value = m.value → t.done = m.done → t.lock = m.holder.isSome →
      Exclusive t ∧ (mutexOf t = mutexOf s ∨
        ∃ l', Mutex.step B (mutexOf s) l' = some (mutexOf t)) := by
    intro l' m hstep hcallers hvalue hdone hflag
    have hm' := hheld.move (Mutex.move_of_step hstep)
    have ht := exclusive_of_held hm' hcallers hflag
    refine ⟨ht, Or.inr ⟨l', ?_⟩⟩
    rw [mutexOf_eq hm' ht.one hcallers hvalue hdone]
    exact hstep
  cases hm with
  | called c a hc =>
      refine hlift (.call c a) { mutexOf s with callers := s.callers.set c (.waiting a) } ?_
        rfl rfl rfl hlock
      show (match s.callers[c]? with | some .outside => _ | _ => _) = _
      rw [hc]
      rfl
  | spun c hset => exact ⟨h, Or.inl rfl⟩
  | entered c a hc hclear =>
      have hfree : (mutexOf s).holder = none := by
        rw [hclear] at hlock
        exact Option.isNone_iff_eq_none.mp (Option.isSome_eq_false_iff.mp hlock.symm)
      refine hlift (.lock c) { mutexOf s with
        holder := some c
        callers := s.callers.set c (.inside a (B.enter a)) } ?_ rfl rfl rfl rfl
      show (match s.callers[c]? with | some (.waiting a) => _ | _ => _) = _
      rw [hc]
      exact if_pos hfree
  | accessed c b a k r hc hr =>
      refine hlift (.access c b) { mutexOf s with
        callers := s.callers.set c (.inside a r.1), value := r.2 } ?_ rfl rfl rfl hlock
      show (match s.callers[c]? with | some (.inside a k) => _ | _ => _) = _
      rw [hc]
      show (B.access k b s.value).map _ = _
      rw [hr]
      rfl
  | left c a k hc hended =>
      refine hlift (.unlock c) { mutexOf s with
        holder := none, callers := s.callers.set c .outside, done := s.done ++ [a] } ?_
        rfl rfl rfl rfl
      show (match s.callers[c]? with | some (.inside a k) => _ | _ => _) = _
      rw [hc]
      exact if_pos hended
  | cleared c hc =>
      -- nobody is inside, and the flag was clear already
      have hnone : ∀ d, ¬Inside s d := by
        rintro d ⟨a, k, hd⟩
        have hsection := hok hc _ (List.mem_of_getElem? hd)
        simp [Caller.section?] at hsection
      refine ⟨⟨h.one, ?_⟩, Or.inl rfl⟩
      exact iff_of_false (by simp) fun ⟨d, hd⟩ => hnone d hd

/-- The threads of `fresh` are those of a mutex that is free. -/
theorem exclusive_fresh (B : Body σ ι κ β) (v : σ) (n : ℕ) :
    Exclusive (fresh v n : Sys σ ι κ) ∧
      mutexOf (fresh v n) = (Mutex.fresh v n : Mutex.Sys σ ι κ) := by
  have hinit : (Mutex.system B v n).Reachable (fun _ _ => True) (Mutex.fresh v n) :=
    LTS.Reachable.init rfl
  have hheld : Mutex.Held (Mutex.fresh v n : Mutex.Sys σ ι κ) := Mutex.held_of_reachable hinit
  have hfresh : Exclusive (fresh v n : Sys σ ι κ) := exclusive_of_held hheld rfl rfl
  exact ⟨hfresh, mutexOf_eq hheld hfresh.one rfl rfl rfl⟩

/-- As long as nobody unlocks for another the lock is exclusive. -/
theorem exclusive_of_reachable {v : σ} {n : ℕ} {s : Sys σ ι κ}
    (h : (system B v n).Reachable ownUnlock s) : Exclusive s := by
  refine LTS.Reachable.induction (I := Exclusive) ?_ ?_ h
  · rintro _ rfl
    exact (exclusive_fresh B v n).1
  · intro s l t _ hs hok hstep
    exact (hs.move hok (move_of_step hstep)).1

/-- **The lock refines a mutex.** -/
theorem refines_mutex (v : σ) (n : ℕ) :
    LTS.Refines (system B v n) ownUnlock (Mutex.system B v n) mutexOf where
  init := by
    rintro _ rfl
    exact (exclusive_fresh B v n).2
  step s l t hreach hok hstep := by
    have hs := exclusive_of_reachable hreach
    rcases (hs.move hok (move_of_step hstep)).2 with heq | ⟨l', hl'⟩
    · rw [heq]
      exact ⟨[], LTS.Path.nil _⟩
    · exact ⟨[l'], LTS.Path.single trivial hl'⟩

/-! ## A counter -/

/-- Where a thread is in `num++`. -/
inductive Tick
  | load
  /-- It has read this. -/
  | store (num : ℕ)
  | ended
  deriving DecidableEq

/-- `num++` as a section: the value is read, and written back one larger. -/
def tick : Body ℕ Unit Tick Unit where
  enter _ := .load
  access
    | .load, _, num => some (.store num, num)
    | .store num, _, _ => some (.ended, num + 1)
    | .ended, _, _ => none
  ended
    | .ended => true
    | _ => false

/-- What a section that started at `v` has done to the value. -/
def Counted (v : ℕ) : Tick → ℕ → Prop
  | .load, w => w = v
  | .store num, w => num = v ∧ w = v
  | .ended, w => w = v + 1

theorem counted_of_works {v w : ℕ} {k : Tick} (h : tick.Works () v k w) : Counted v k w := by
  refine h.induction (I := Counted v) rfl ?_
  intro k w b r hk hstep
  cases k with
  | load =>
      obtain rfl := Option.some.inj hstep
      exact ⟨hk, hk⟩
  | store num =>
      obtain rfl := Option.some.inj hstep
      exact congrArg (· + 1) hk.1
  | ended => exact absurd hstep (by simp [tick])

/-- **No count is lost**: with nobody inside, every section that is done has counted. -/
theorem count_eq {v n : ℕ} {s : Sys ℕ Unit Tick} (h : (system tick v n).Reachable ownUnlock s)
    (hnone : ∀ c, ¬Inside s c) : s.value = v + s.done.length := by
  obtain ⟨u, hseries, hinside⟩ := Mutex.serial_law ((refines_mutex v n).reachable h)
  have hcount : u = v + s.done.length := by
    refine hseries.induction (I := fun done u => u = v + done.length) rfl ?_
    rintro done _ u w _ ih ⟨k, hworks, hended⟩
    have hw := counted_of_works hworks
    cases k with
    | ended =>
        rw [show w = u + 1 from hw, ih, List.length_append]
        rfl
    | _ => exact absurd hended (by simp [tick])
  rw [(exclusive_of_reachable h).serialOf_free hnone] at hinside
  rw [← hcount]
  exact hinside

/-! ## Main results -/

/-- **Mutual exclusion.**  At most one thread is inside, and the flag says whether one is,
all along a run exactly if no thread from outside unlocks while another one is inside. -/
theorem exclusive_iff {v : σ} {n : ℕ} {s : Sys σ ι κ} {ls : List (Label ι β)}
    (h : (system B v n).Path (fun _ _ => True) (fresh v n) ls s) :
    (∀ ks t, ks <+: ls → (system B v n).Path (fun _ _ => True) (fresh v n) ks t → Exclusive t) ↔
      (system B v n).Path ownUnlock (fresh v n) ls s := by
  refine LTS.Path.always_iff_first rfl h ?_ ?_ ?_
  · rintro _ rfl
    exact (exclusive_fresh B v n).1
  · intro s l t _ hs hok hstep
    exact (hs.move hok (move_of_step hstep)).1
  · intro s l t _ _ hnot hstep ht
    -- the flag is clear, and somebody is still inside
    cases move_of_step hstep with
    | cleared c hc =>
        have hsome : ∃ d, Inside s d := by
          by_contra hnone
          apply hnot
          intro _ p hp
          obtain ⟨d, hd⟩ := List.mem_iff_getElem?.mp hp
          cases p with
          | inside a k => exact absurd ⟨d, a, k, hd⟩ hnone
          | _ => rfl
        exact absurd (ht.lock.mpr hsome) (by simp)
    | left c a k hc => exact hnot fun hout => absurd (hc.symm.trans hout) (by simp)
    | _ => exact hnot trivial

/-- Two threads count, and the second one has to spin. -/
def tickRun : List (Label Unit Unit) :=
  [.lock 0 (), .lock 1 (), .testAndSet 0, .testAndSet 1, .access 0 (), .access 0 (), .unlock 0,
    .testAndSet 1, .access 1 (), .access 1 (), .unlock 1]

/-- `exclusive_iff` at that run. -/
theorem exclusive_iff_tick : ∃ s,
    (∀ ks t, ks <+: tickRun → (system tick 5 2).Path (fun _ _ => True) (fresh 5 2) ks t →
      Exclusive t) ↔ (system tick 5 2).Path ownUnlock (fresh 5 2) tickRun s :=
  ⟨_, exclusive_iff (LTS.path_of_exec (show LTS.exec _ _ _ tickRun = some _ from rfl))⟩

/-- **Sections behind the lock run one after another**, in every interleaving in which
nobody unlocks for another: the shared value is the result of the sections that are done,
in their order, and of the beginning of the one that is inside. -/
theorem sections_serial {v : σ} {n : ℕ} {s : Sys σ ι κ}
    (h : (system B v n).Reachable ownUnlock s) :
    ∃ u, B.Series v s.done u ∧
      ((∀ c, ¬Inside s c) → s.value = u) ∧
      ∀ (c : ℕ) a k, s.callers[c]? = some (Caller.inside a k) → B.Works a u k s.value := by
  have hs := exclusive_of_reachable h
  obtain ⟨u, hseries, hinside⟩ := Mutex.serial_law ((refines_mutex v n).reachable h)
  refine ⟨u, hseries, fun hnone => ?_, fun c a k hc => ?_⟩
  · rw [hs.serialOf_free hnone] at hinside
    exact hinside
  · rw [Mutex.serialOf_inside (s := mutexOf s) (held_mutexOf hs.one) hc] at hinside
    exact hinside

/-- `sections_serial` at that run. -/
theorem sections_serial_tick : ∃ s : Sys ℕ Unit Tick,
    s.value = 7 ∧ ∃ u, tick.Series 5 s.done u ∧ ((∀ c, ¬Inside s c) → s.value = u) := by
  have hreach : (system tick 5 2).Reachable ownUnlock _ :=
    LTS.reachable_of_exec rfl (show LTS.exec _ _ _ tickRun = some _ from rfl)
  obtain ⟨u, hseries, hnone, -⟩ := sections_serial hreach
  exact ⟨_, rfl, u, hseries, hnone⟩

end SpinLock
