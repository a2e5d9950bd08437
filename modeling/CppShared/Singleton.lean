/-
# The singleton and its threads (`src/singleton.hpp`)

`Singleton<T>::instance` reads `ptr` without the lock, and if it is null once more under
the lock before it creates the object.  The last read of `ptr`, of the value that is
returned, is without the lock again.  Each read, each operation of the lock, the creation
and the store is a step of its own here, and threads take their steps in any order.

`created_once` says that no second object is created and that every call returns the one
object.  An execution of `make_shared` that throws leaves `ptr` null; only such executions
are repeated.
-/
import CppShared.Table
import CppShared.Transition

namespace Singleton

/-- Where a thread is in `instance`. -/
inductive Point
  | outside
  /-- About to read `ptr` without the lock. -/
  | reading
  | locking
  /-- About to read `ptr` under the lock. -/
  | rereading
  /-- About to call `make_shared`. -/
  | creating
  /-- About to store what `make_shared` has returned. -/
  | storing (p : ℕ)
  | unlocking
  /-- `make_shared` has thrown; the `lock_guard` is about to be destroyed. -/
  | unwinding
  /-- About to read the value to return. -/
  | returning
  deriving DecidableEq, Repr

/-- The static members and the threads, with a record of the objects created, of the
executions of `make_shared`, of those that threw, and of what calls have returned. -/
structure Sys where
  ptr : Option ℕ
  mutex : Option ℕ
  points : List Point
  made : List ℕ
  executed : ℕ
  thrown : ℕ
  returned : List (Option ℕ)

/-- A step: which thread moves, and what `make_shared` does. -/
inductive Label
  /-- The thread calls `instance`. -/
  | call (c : ℕ)
  /-- The thread goes on. -/
  | next (c : ℕ)
  /-- The thread executes `make_shared`, which returns this object or throws. -/
  | make (c : ℕ) (result : Option ℕ)
  deriving DecidableEq, Repr

/-- The thread `c` goes on. -/
def next (s : Sys) (c : ℕ) : Point → Option Sys
  | .reading =>
      some { s with points := s.points.set c (if s.ptr = none then .locking else .returning) }
  | .locking =>
      if s.mutex = none then
        some { s with mutex := some c, points := s.points.set c .rereading }
      else none
  | .rereading =>
      some { s with points := s.points.set c (if s.ptr = none then .creating else .unlocking) }
  | .storing p => some { s with ptr := some p, points := s.points.set c .unlocking }
  | .unlocking => some { s with mutex := none, points := s.points.set c .returning }
  | .unwinding => some { s with mutex := none, points := s.points.set c .outside }
  | .returning =>
      some { s with returned := s.returned ++ [s.ptr], points := s.points.set c .outside }
  | .outside | .creating => none

/-- The thread `c` executes `make_shared`. -/
def make (s : Sys) (c : ℕ) : Option ℕ → Sys
  | some p =>
      { s with
        made := s.made ++ [p]
        executed := s.executed + 1
        points := s.points.set c (.storing p) }
  | none =>
      { s with
        executed := s.executed + 1
        thrown := s.thrown + 1
        points := s.points.set c .unwinding }

/-- One step. -/
def step (s : Sys) : Label → Option Sys
  | .call c =>
      if s.points[c]? = some .outside then some { s with points := s.points.set c .reading }
      else none
  | .next c => (s.points[c]?).bind (next s c)
  | .make c result =>
      if s.points[c]? = some .creating then some (make s c result) else none

/-- The state before the first call, with `n` threads. -/
def fresh (n : ℕ) : Sys where
  ptr := none
  mutex := none
  points := List.replicate n .outside
  made := []
  executed := 0
  thrown := 0
  returned := []

/-- The singleton with `n` threads. -/
def system (n : ℕ) : LTS Sys Label where
  init s := s = fresh n
  step := step

/-- The steps, one constructor for each path through the code. -/
inductive Move (s : Sys) : Label → Sys → Prop
  | called (c : ℕ) (hc : s.points[c]? = some .outside) :
      Move s (.call c) { s with points := s.points.set c .reading }
  | readNull (c : ℕ) (hc : s.points[c]? = some .reading) (hnull : s.ptr = none) :
      Move s (.next c) { s with points := s.points.set c .locking }
  | readSet (c : ℕ) (hc : s.points[c]? = some .reading) (hset : s.ptr ≠ none) :
      Move s (.next c) { s with points := s.points.set c .returning }
  | locked (c : ℕ) (hc : s.points[c]? = some .locking) (hfree : s.mutex = none) :
      Move s (.next c) { s with mutex := some c, points := s.points.set c .rereading }
  | rereadNull (c : ℕ) (hc : s.points[c]? = some .rereading) (hnull : s.ptr = none) :
      Move s (.next c) { s with points := s.points.set c .creating }
  | rereadSet (c : ℕ) (hc : s.points[c]? = some .rereading) (hset : s.ptr ≠ none) :
      Move s (.next c) { s with points := s.points.set c .unlocking }
  | made (c p : ℕ) (hc : s.points[c]? = some .creating) :
      Move s (.make c (some p)) (make s c (some p))
  | threw (c : ℕ) (hc : s.points[c]? = some .creating) : Move s (.make c none) (make s c none)
  | stored (c p : ℕ) (hc : s.points[c]? = some (.storing p)) :
      Move s (.next c) { s with ptr := some p, points := s.points.set c .unlocking }
  | unlocked (c : ℕ) (hc : s.points[c]? = some .unlocking) :
      Move s (.next c) { s with mutex := none, points := s.points.set c .returning }
  | unwound (c : ℕ) (hc : s.points[c]? = some .unwinding) :
      Move s (.next c) { s with mutex := none, points := s.points.set c .outside }
  | returned (c : ℕ) (hc : s.points[c]? = some .returning) :
      Move s (.next c)
        { s with returned := s.returned ++ [s.ptr], points := s.points.set c .outside }

/-- **Inversion.**  Every step is one of the moves. -/
theorem move_of_step {s t : Sys} {a : Label} (h : step s a = some t) : Move s a t := by
  cases a with
  | call c =>
      obtain ⟨hc, h⟩ := Option.ite_none_right_eq_some.mp h
      obtain rfl := Option.some.inj h
      exact .called c hc
  | make c result =>
      obtain ⟨hc, h⟩ := Option.ite_none_right_eq_some.mp h
      obtain rfl := Option.some.inj h
      cases result with
      | some p => exact .made c p hc
      | none => exact .threw c hc
  | next c =>
      obtain ⟨p, hc, h⟩ := Option.bind_eq_some_iff.mp h
      cases p with
      | reading =>
          obtain rfl := Option.some.inj h
          by_cases hnull : s.ptr = none
          · rw [if_pos hnull]
            exact .readNull c hc hnull
          · rw [if_neg hnull]
            exact .readSet c hc hnull
      | rereading =>
          obtain rfl := Option.some.inj h
          by_cases hnull : s.ptr = none
          · rw [if_pos hnull]
            exact .rereadNull c hc hnull
          · rw [if_neg hnull]
            exact .rereadSet c hc hnull
      | locking =>
          obtain ⟨hfree, h⟩ := Option.ite_none_right_eq_some.mp h
          obtain rfl := Option.some.inj h
          exact .locked c hc hfree
      | storing p =>
          obtain rfl := Option.some.inj h
          exact .stored c p hc
      | unlocking =>
          obtain rfl := Option.some.inj h
          exact .unlocked c hc
      | unwinding =>
          obtain rfl := Option.some.inj h
          exact .unwound c hc
      | returning =>
          obtain rfl := Option.some.inj h
          exact .returned c hc
      | outside | creating => exact absurd h (by simp [next])

/-! ## The invariant -/

/-- What is the case while the thread `c` is at a point. -/
def Holds (s : Sys) (c : ℕ) : Point → Prop
  | .outside | .reading | .locking => True
  | .rereading | .unwinding => s.mutex = some c
  | .creating => s.mutex = some c ∧ s.ptr = none ∧ s.made = []
  | .storing p => s.mutex = some c ∧ s.ptr = none ∧ s.made = [p]
  | .unlocking => s.mutex = some c ∧ s.ptr ≠ none
  | .returning => s.ptr ≠ none

/-- What was created is in `ptr`, or with the thread that is about to store it. -/
def Placed (s : Sys) : Prop :=
  s.made = s.ptr.toList ∨
    s.ptr = none ∧ ∃ (c : ℕ) (p : ℕ), s.points[c]? = some (.storing p) ∧ s.made = [p]

/-- The invariant. -/
structure Inv (s : Sys) : Prop where
  holds : ∀ (c : ℕ) p, s.points[c]? = some p → Holds s c p
  placed : Placed s
  count : s.executed = s.made.length + s.thrown
  result : ∀ r ∈ s.returned, r ≠ none ∧ r = s.ptr

/-- While the mutex is free or another thread has it, all that a thread relies on is that
`ptr` does not become null. -/
theorem Holds.frame {s t : Sys} {c i : ℕ} {p : Point} (h : Holds s i p) (hne : i ≠ c)
    (hmutex : s.mutex = none ∨ s.mutex = some c) (hptr : s.ptr ≠ none → t.ptr ≠ none) :
    Holds t i p := by
  have hfree : s.mutex ≠ some i := by
    rcases hmutex with hnone | hsome
    · simp [hnone]
    · rw [hsome]
      exact fun heq => hne (Option.some.inj heq).symm
  cases p with
  | outside | reading | locking => trivial
  | rereading | unwinding => exact absurd h hfree
  | creating | storing | unlocking => exact absurd h.1 hfree
  | returning => exact hptr h

/-- The points after the thread `c` has moved to `q`. -/
theorem holds_set {s t : Sys} {c : ℕ} {p q : Point} (hs : Inv s) (hc : s.points[c]? = some p)
    (hpoints : t.points = s.points.set c q) (hq : Holds t c q)
    (hrest : ∀ i r, i ≠ c → Holds s i r → Holds t i r) :
    ∀ (i : ℕ) r, t.points[i]? = some r → Holds t i r := by
  intro i r hi
  rw [hpoints] at hi
  rcases (getElem?_set_iff hc).mp hi with ⟨rfl, rfl⟩ | ⟨hne, hi⟩
  · exact hq
  · exact hrest i r hne (hs.holds i r hi)

/-- A created object stays where it is when a thread moves that is not about to store. -/
theorem Placed.set {s t : Sys} {c : ℕ} {p q : Point} (hs : Placed s)
    (hc : s.points[c]? = some p) (hp : ∀ x, p ≠ .storing x)
    (hpoints : t.points = s.points.set c q) (hptr : t.ptr = s.ptr) (hmade : t.made = s.made) :
    Placed t := by
  unfold Placed
  rw [hpoints, hptr, hmade]
  rcases hs with hplaced | ⟨hnull, i, x, hi, hx⟩
  · exact Or.inl hplaced
  · have hne : i ≠ c := by
      rintro rfl
      exact hp x (Option.some.inj (hc.symm.trans hi))
    exact Or.inr ⟨hnull, i, x, (getElem?_set_iff hc).mpr (Or.inr ⟨hne, hi⟩), hx⟩

/-- The thread that has the mutex and finds `ptr` null finds nothing created. -/
theorem Inv.made_eq_nil {s : Sys} {c : ℕ} (hs : Inv s) (hc : s.points[c]? = some .rereading)
    (hnull : s.ptr = none) : s.made = [] := by
  rcases hs.placed with hplaced | ⟨-, i, x, hi, -⟩
  · rw [hplaced, hnull]
    rfl
  · have hmutex : s.mutex = some c := hs.holds c _ hc
    have hother : s.mutex = some i := (hs.holds i _ hi).1
    obtain rfl : c = i := Option.some.inj (hmutex.symm.trans hother)
    exact absurd (hc.symm.trans hi) (by simp)

/-- **Step lemma.**  Every step keeps the invariant. -/
theorem Inv.move {s t : Sys} {a : Label} (hs : Inv s) (h : Move s a t) : Inv t := by
  cases h with
  | called c hc | readNull c hc hnull =>
      exact ⟨holds_set hs hc rfl trivial fun _ _ _ => id,
        hs.placed.set hc (by simp) rfl rfl rfl, hs.count, hs.result⟩
  | readSet c hc hset =>
      exact ⟨holds_set hs hc rfl hset fun _ _ _ => id,
        hs.placed.set hc (by simp) rfl rfl rfl, hs.count, hs.result⟩
  | locked c hc hfree =>
      refine ⟨holds_set hs hc rfl rfl fun i r hne hr => ?_,
        hs.placed.set hc (by simp) rfl rfl rfl, hs.count, hs.result⟩
      exact hr.frame hne (Or.inl hfree) id
  | rereadNull c hc hnull =>
      have hmutex : s.mutex = some c := hs.holds c _ hc
      exact ⟨holds_set hs hc rfl ⟨hmutex, hnull, hs.made_eq_nil hc hnull⟩ fun _ _ _ => id,
        hs.placed.set hc (by simp) rfl rfl rfl, hs.count, hs.result⟩
  | rereadSet c hc hset =>
      have hmutex : s.mutex = some c := hs.holds c _ hc
      exact ⟨holds_set hs hc rfl ⟨hmutex, hset⟩ fun _ _ _ => id,
        hs.placed.set hc (by simp) rfl rfl rfl, hs.count, hs.result⟩
  | made c p hc =>
      obtain ⟨hmutex, hnull, hnil⟩ := hs.holds c _ hc
      have hmade : s.made ++ [p] = [p] := by rw [hnil, List.nil_append]
      have hstoring : (s.points.set c (.storing p))[c]? = some (.storing p) :=
        (getElem?_set_iff hc).mpr (Or.inl ⟨rfl, rfl⟩)
      refine ⟨holds_set hs hc rfl ⟨hmutex, hnull, hmade⟩ fun i r hne hr => ?_,
        Or.inr ⟨hnull, c, p, hstoring, hmade⟩, ?_, hs.result⟩
      · exact hr.frame hne (Or.inr hmutex) id
      · show s.executed + 1 = (s.made ++ [p]).length + s.thrown
        rw [hs.count, List.length_append, List.length_singleton]
        omega
  | threw c hc =>
      obtain ⟨hmutex, -, -⟩ := hs.holds c _ hc
      refine ⟨holds_set hs hc rfl hmutex fun _ _ _ => id,
        hs.placed.set hc (by simp) rfl rfl rfl, ?_, hs.result⟩
      show s.executed + 1 = s.made.length + (s.thrown + 1)
      rw [hs.count]
      omega
  | stored c p hc =>
      obtain ⟨hmutex, hnull, hmade⟩ := hs.holds c _ hc
      refine ⟨holds_set hs hc rfl ⟨hmutex, by simp⟩ fun i r hne hr => ?_, Or.inl hmade,
        hs.count, fun r hr => ?_⟩
      · exact hr.frame hne (Or.inr hmutex) fun _ => by simp
      · -- nothing has been returned while `ptr` was null
        obtain ⟨hne, heq⟩ := hs.result r hr
        exact absurd (heq.trans hnull) hne
  | unlocked c hc =>
      obtain ⟨hmutex, hset⟩ := hs.holds c _ hc
      refine ⟨holds_set hs hc rfl hset fun i r hne hr => ?_,
        hs.placed.set hc (by simp) rfl rfl rfl, hs.count, hs.result⟩
      exact hr.frame hne (Or.inr hmutex) id
  | unwound c hc =>
      have hmutex : s.mutex = some c := hs.holds c _ hc
      refine ⟨holds_set hs hc rfl trivial fun i r hne hr => ?_,
        hs.placed.set hc (by simp) rfl rfl rfl, hs.count, hs.result⟩
      exact hr.frame hne (Or.inr hmutex) id
  | returned c hc =>
      have hset : s.ptr ≠ none := hs.holds c _ hc
      refine ⟨holds_set hs hc rfl trivial fun _ _ _ => id,
        hs.placed.set hc (by simp) rfl rfl rfl, hs.count, fun r hr => ?_⟩
      rcases List.mem_append.mp hr with hold | hnew
      · exact hs.result r hold
      · obtain rfl := List.mem_singleton.mp hnew
        exact ⟨hset, rfl⟩

theorem inv_of_reachable {n : ℕ} {ok : Sys → Label → Prop} {s : Sys}
    (h : (system n).Reachable ok s) : Inv s := by
  refine LTS.Reachable.induction (I := Inv) ?_ ?_ h
  · rintro _ rfl
    refine ⟨fun c p hc => ?_, Or.inl rfl, rfl, fun r hr => absurd hr List.not_mem_nil⟩
    obtain rfl := List.eq_of_mem_replicate (List.mem_of_getElem? hc)
    trivial
  · intro s a t _ hs _ hstep
    exact hs.move (move_of_step hstep)

/-! ## Main result -/

theorem Inv.length_made_le {s : Sys} (hs : Inv s) : s.made.length ≤ 1 := by
  rcases hs.placed with hplaced | ⟨-, -, p, -, hmade⟩
  · rw [hplaced]
    cases s.ptr with
    | none => exact Nat.zero_le 1
    | some p => exact Nat.le_refl 1
  · rw [hmade]
    exact Nat.le_refl 1

/-- **The singleton is created at most once**: in every run of any number of threads
`make_shared` is executed at most once, apart from the executions that throw, and every
call that has returned has returned the one object there is. -/
theorem created_once {n : ℕ} {s : Sys} (h : (system n).Reachable (fun _ _ => True) s) :
    s.executed ≤ 1 + s.thrown ∧ s.made.length ≤ 1 ∧
      ∀ r ∈ s.returned, ∃ p, r = some p ∧ s.made = [p] := by
  have hs := inv_of_reachable h
  have hlen := hs.length_made_le
  refine ⟨?_, hlen, fun r hr => ?_⟩
  · rw [hs.count]
    omega
  · obtain ⟨hne, heq⟩ := hs.result r hr
    obtain ⟨p, rfl⟩ := Option.ne_none_iff_exists'.mp hne
    refine ⟨p, rfl, ?_⟩
    rcases hs.placed with hplaced | ⟨hnull, -⟩
    · rw [hplaced, ← heq]
      rfl
    · exact absurd (heq.trans hnull) hne

/-- Two threads find `ptr` null, and the first one creates the object. -/
def raceRun : List Label :=
  [.call 0, .call 1, .next 0, .next 1, .next 0, .next 0, .make 0 (some 7), .next 0, .next 0,
    .next 1, .next 1, .next 1, .next 1, .next 0]

/-- `created_once` at that run. -/
theorem created_once_race : ∃ s : Sys, s.returned = [some 7, some 7] ∧ s.executed = 1 ∧
    ∀ r ∈ s.returned, ∃ p, r = some p ∧ s.made = [p] := by
  have hreach : (system 2).Reachable (fun _ _ => True) _ :=
    LTS.reachable_of_exec rfl (show LTS.exec _ _ (fresh 2) raceRun = some _ from rfl)
  exact ⟨_, rfl, rfl, (created_once hreach).2.2⟩

end Singleton
