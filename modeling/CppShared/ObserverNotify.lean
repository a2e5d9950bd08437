/-
# Observers that change the subscription

`Subject::notify` runs a range-`for` loop over `observerList`: the loop fixes `begin()` and
`end()` when it starts, and between two tests the observer at hand may call `attach` and
`detach` on the same `Subject`.  A `push_back` and an `erase` that takes an element out
invalidate the past-the-end iterator of a vector, so the next test of the loop is
undefined.  `detach` itself stops its loop as soon as it has erased an element.

The places of the list are numbered in the order in which they were attached, so that a
second attachment of an observer is told from the first (`attach_observers` and
`detach_observers` say that the numbers do not matter to the list).

`tolerates_iff` says that `notify` does what it should exactly if no observer changes the
list.
-/
import CppShared.Observer
import CppShared.Transition
import Mathlib.Data.List.Count
import Mathlib.Data.List.Nodup

open Observer (Subject)

namespace ObserverNotify

variable {O : Type*}

/-! ## The loop -/

/-- Where `notify` is. -/
inductive Point
  /-- At the test of the loop, with its position. -/
  | testing (i : ℕ)
  /-- In the `updtae` of the observer at its position. -/
  | calling (i : ℕ)
  | done
  | undefined
  deriving DecidableEq, Repr

/-- What happens to a place of the list. -/
inductive Event
  /-- Its observer is called. -/
  | called (id : ℕ)
  /-- It is erased. -/
  | detached (id : ℕ)
  deriving DecidableEq, Repr

/-- A call of `notify`. -/
structure Sys (O : Type*) where
  /-- `observerList`, with the number of each place. -/
  entries : List (ℕ × O)
  /-- The number of the next place. -/
  next : ℕ
  /-- The position of the `end()` that the loop has fixed. -/
  last : ℕ
  /-- That iterator is still valid. -/
  valid : Bool
  point : Point
  log : List Event

/-- A step of `notify` or of an observer that it calls. -/
inductive Label (O : Type*)
  /-- The test of the loop and, if it goes on, the call of `updtae`. -/
  | next
  | attach (observer : Option O)
  | detach (observer : Option O)
  /-- `updtae` returns and the loop increments its iterator. -/
  | ret
  deriving DecidableEq, Repr

/-- The observers in the list. -/
def Sys.observers (s : Sys O) : List O := s.entries.map Prod.snd

/-- `attach`. -/
def attach (s : Sys O) : Option O → Sys O
  | some x =>
      { s with entries := s.entries ++ [(s.next, x)], next := s.next + 1, valid := false }
  | none => s

/-- `attach` does to the observers what `Subject::attach` does. -/
theorem attach_observers (s : Sys O) (observer : Option O) :
    (attach s observer).observers = (Subject.attach ⟨s.observers⟩ observer).observerList := by
  cases observer with
  | none => rfl
  | some x =>
      show (s.entries ++ [(s.next, x)]).map Prod.snd = s.entries.map Prod.snd ++ [x]
      rw [List.map_append]
      rfl

/-- `notify` is called on a `Subject`. -/
def fresh (subject : Subject O) : Sys O where
  entries := subject.observerList.mapIdx fun id x => (id, x)
  next := subject.observerList.length
  last := subject.observerList.length
  valid := true
  point := .testing 0
  log := []

theorem fresh_observers (subject : Subject O) :
    (fresh subject).observers = subject.observerList := by
  show (subject.observerList.mapIdx fun id x => (id, x)).map Prod.snd = subject.observerList
  apply List.ext_getElem?
  intro i
  rw [List.getElem?_map, List.getElem?_mapIdx]
  cases subject.observerList[i]? with
  | none => rfl
  | some x => rfl

/-- The test of the loop. -/
def test (s : Sys O) (i : ℕ) : Sys O :=
  if s.valid = false then { s with point := .undefined }
  else if i = s.last then { s with point := .done }
  else
    match s.entries[i]? with
    | some e => { s with point := .calling i, log := s.log ++ [.called e.1] }
    | none => { s with point := .undefined }

/-! ## The property -/

/-- `notify` is over. -/
def Point.ended : Point → Bool
  | .done | .undefined => true
  | .testing _ | .calling _ => false

/-- The loop has used valid iterators only; each place that was there at the beginning was
called once, or was detached and not called; and none was called after it was detached. -/
structure Tolerates (subject : Subject O) (s : Sys O) : Prop where
  defined : s.point ≠ .undefined
  once : ∀ id < subject.observerList.length, s.log.count (.called id) = 1 ∨
    s.log.count (.called id) = 0 ∧ Event.detached id ∈ s.log
  attached : ∀ before id after, s.log = before ++ .called id :: after →
    Event.detached id ∉ before

/-! ## The loop over a list that nobody changes -/

/-- The calls of the first `k` places, in their order. -/
def firstCalls (k : ℕ) : List Event := (List.range k).map .called

/-- How far the loop over `n` places has come. -/
def Progress (n : ℕ) (log : List Event) : Point → Prop
  | .testing i => i ≤ n ∧ log = firstCalls i
  | .calling i => i < n ∧ log = firstCalls (i + 1)
  | .done => log = firstCalls n
  | .undefined => False

/-- The list is as it was at the beginning. -/
structure Undisturbed (subject : Subject O) (s : Sys O) : Prop where
  entries : s.entries = (fresh subject).entries
  last : s.last = subject.observerList.length
  valid : s.valid = true
  progress : Progress subject.observerList.length s.log s.point

/-- **Step lemma** for the test of the loop. -/
theorem Undisturbed.test {subject : Subject O} {s : Sys O} (h : Undisturbed subject s) {i : ℕ}
    (hp : s.point = .testing i) : Undisturbed subject (test s i) := by
  have hprogress := h.progress
  rw [hp] at hprogress
  obtain ⟨hle, hlog⟩ := hprogress
  unfold ObserverNotify.test
  rw [if_neg (by simp [h.valid])]
  by_cases hend : i = s.last
  · rw [if_pos hend]
    refine ⟨h.entries, h.last, h.valid, ?_⟩
    show s.log = firstCalls subject.observerList.length
    rw [hlog, hend, h.last]
  · rw [if_neg hend]
    rw [h.last] at hend
    have hlt : i < subject.observerList.length := by omega
    have hget : s.entries[i]? = some (i, subject.observerList[i]) := by
      rw [h.entries]
      show (subject.observerList.mapIdx fun id x => (id, x))[i]? = _
      rw [List.getElem?_mapIdx, List.getElem?_eq_getElem hlt]
      rfl
    simp only [hget]
    refine ⟨h.entries, h.last, h.valid, hlt, ?_⟩
    show s.log ++ [.called i] = firstCalls (i + 1)
    rw [hlog, firstCalls, firstCalls, List.range_succ, List.map_append]
    rfl

/-- A loop that was not disturbed has called each place once. -/
theorem Undisturbed.tolerates {subject : Subject O} {s : Sys O} (h : Undisturbed subject s)
    (hover : s.point.ended = true) : Tolerates subject s := by
  have hprogress := h.progress
  cases hp : s.point with
  | testing i | calling i =>
      rw [hp] at hover
      exact absurd hover Bool.noConfusion
  | undefined =>
      rw [hp] at hprogress
      exact absurd hprogress id
  | done =>
      rw [hp] at hprogress
      replace hprogress : s.log = firstCalls subject.observerList.length := hprogress
      refine ⟨by simp [hp], fun id hid => Or.inl ?_, fun before id after hlog hmem => ?_⟩
      · have hinj : Function.Injective Event.called := fun _ _ => Event.called.inj
        rw [hprogress, firstCalls, List.count_map_of_injective _ _ hinj]
        exact List.count_eq_one_of_mem List.nodup_range (List.mem_range.mpr hid)
      · have hin : Event.detached id ∈ firstCalls subject.observerList.length := by
          rw [← hprogress, hlog]
          exact List.mem_append_left _ hmem
        obtain ⟨k, -, heq⟩ := List.mem_map.mp hin
        exact Event.noConfusion heq

/-! ## The steps -/

variable [DecidableEq O]

/-- `detach`. -/
def detach (s : Sys O) : Option O → Sys O
  | some x =>
      match s.entries.find? fun e => e.2 = x with
      | some e =>
          { s with
            entries := s.entries.eraseP fun e => e.2 = x
            valid := false
            log := s.log ++ [.detached e.1] }
      | none => s
  | none => s

/-- One step. -/
def step (s : Sys O) (a : Label O) : Option (Sys O) :=
  match s.point with
  | .testing i =>
      match a with
      | .next => some (test s i)
      | _ => none
  | .calling i =>
      match a with
      | .attach observer => some (attach s observer)
      | .detach observer => some (detach s observer)
      | .ret => some { s with point := .testing (i + 1) }
      | .next => none
  | .done | .undefined => none

/-- `notify` and the observers. -/
def system (subject : Subject O) : LTS (Sys O) (Label O) where
  init s := s = fresh subject
  step := step

/-- What `detach` looks for is found if and only if the observer is in the list. -/
theorem find?_eq_none_iff {s : Sys O} {x : O} :
    (s.entries.find? fun e => e.2 = x) = none ↔ x ∉ s.observers := by
  rw [List.find?_eq_none]
  constructor
  · intro hnone hmem
    obtain ⟨e, he, rfl⟩ := List.mem_map.mp hmem
    exact hnone e he (decide_eq_true rfl)
  · intro hout e he heq
    exact hout (List.mem_map.mpr ⟨e, he, of_decide_eq_true heq⟩)

/-- A `detach` of an observer that is not in the list does nothing. -/
theorem detach_of_not_mem {s : Sys O} {x : O} (h : x ∉ s.observers) : detach s (some x) = s := by
  have hfind := find?_eq_none_iff.mpr h
  simp only [detach, hfind]

/-- A `detach` of one that is there erases a place and invalidates the iterators. -/
theorem detach_of_mem {s : Sys O} {x : O} (h : x ∈ s.observers) :
    ∃ id, detach s (some x) =
      { s with
        entries := s.entries.eraseP fun e => e.2 = x
        valid := false
        log := s.log ++ [.detached id] } := by
  cases hfind : s.entries.find? fun e => e.2 = x with
  | none => exact absurd h (find?_eq_none_iff.mp hfind)
  | some e => exact ⟨e.1, by simp only [detach, hfind]⟩

/-- `detach` does to the observers what `Subject::detach` does. -/
theorem detach_observers (s : Sys O) (observer : Option O) :
    (detach s observer).observers = (Subject.detach ⟨s.observers⟩ observer).observerList := by
  cases observer with
  | none => rfl
  | some x =>
      show (detach s (some x)).observers = s.observers.erase x
      by_cases hx : x ∈ s.observers
      · obtain ⟨id, hdetach⟩ := detach_of_mem hx
        rw [hdetach, Sys.observers, Sys.observers, List.erase_eq_eraseP, List.eraseP_map]
        apply congrArg (List.map Prod.snd)
        apply congrArg (fun p => s.entries.eraseP p)
        funext e
        simp [Bool.beq_eq_decide_eq, eq_comm]
      · rw [detach_of_not_mem hx, List.erase_of_not_mem hx]

/-- A callback stays in `updtae`, and no iterator becomes valid again. -/
theorem detach_frame (s : Sys O) (observer : Option O) :
    (detach s observer).point = s.point ∧
      (s.valid = false → (detach s observer).valid = false) := by
  cases observer with
  | none => exact ⟨rfl, id⟩
  | some x =>
      by_cases hx : x ∈ s.observers
      · obtain ⟨id, hdetach⟩ := detach_of_mem hx
        rw [hdetach]
        exact ⟨rfl, fun _ => rfl⟩
      · rw [detach_of_not_mem hx]
        exact ⟨rfl, id⟩

/-- The steps, one constructor for each label. -/
inductive Move (s : Sys O) : Label O → Sys O → Prop
  | tested (i : ℕ) (hp : s.point = .testing i) : Move s .next (test s i)
  | attached (i : ℕ) (observer : Option O) (hp : s.point = .calling i) :
      Move s (.attach observer) (attach s observer)
  | detached (i : ℕ) (observer : Option O) (hp : s.point = .calling i) :
      Move s (.detach observer) (detach s observer)
  | returned (i : ℕ) (hp : s.point = .calling i) : Move s .ret { s with point := .testing (i + 1) }

/-- **Inversion.**  Every step is one of the moves. -/
theorem move_of_step {s t : Sys O} {a : Label O} (h : step s a = some t) : Move s a t := by
  unfold step at h
  cases hp : s.point with
  | testing i =>
      rw [hp] at h
      cases a with
      | next =>
          obtain rfl := Option.some.inj h
          exact .tested i hp
      | _ => simp at h
  | calling i =>
      rw [hp] at h
      cases a with
      | next => simp at h
      | attach observer =>
          obtain rfl := Option.some.inj h
          exact .attached i observer hp
      | detach observer =>
          obtain rfl := Option.some.inj h
          exact .detached i observer hp
      | ret =>
          obtain rfl := Option.some.inj h
          exact .returned i hp
  | done => simp [hp] at h
  | undefined => simp [hp] at h

/-! ## The condition -/

/-- The observer that is called does not change the list. -/
def leavesList (s : Sys O) : Label O → Prop
  | .attach observer => observer = none
  | .detach observer => ∀ x ∈ observer, x ∉ s.observers
  | .next | .ret => True

instance (s : Sys O) (a : Label O) : Decidable (leavesList s a) :=
  match a with
  | .attach observer => inferInstanceAs (Decidable (observer = none))
  | .detach observer => inferInstanceAs (Decidable (∀ x ∈ observer, x ∉ s.observers))
  | .next | .ret => inferInstanceAs (Decidable True)

/-! ## The runs in which nobody changes the list -/

/-- **Step lemma.** -/
theorem Undisturbed.move {subject : Subject O} {s t : Sys O} {a : Label O}
    (h : Undisturbed subject s) (hok : leavesList s a) (hm : Move s a t) :
    Undisturbed subject t := by
  cases hm with
  | tested i hp => exact h.test hp
  | attached i observer hp =>
      obtain rfl : observer = none := hok
      exact h
  | detached i observer hp =>
      cases observer with
      | none => exact h
      | some x =>
          rw [detach_of_not_mem (hok x rfl)]
          exact h
  | returned i hp =>
      have hprogress := h.progress
      rw [hp] at hprogress
      exact ⟨h.entries, h.last, h.valid, hprogress.1, hprogress.2⟩

theorem undisturbed_of_reachable {subject : Subject O} {s : Sys O}
    (h : (system subject).Reachable leavesList s) : Undisturbed subject s := by
  refine LTS.Reachable.induction (I := Undisturbed subject) ?_ ?_ h
  · rintro _ rfl
    exact ⟨rfl, rfl, rfl, Nat.zero_le _, rfl⟩
  · intro s a t _ hs hok hstep
    exact hs.move hok (move_of_step hstep)

/-! ## The exact condition -/

/-- An observer that changes the list invalidates the iterator of the loop. -/
theorem valid_of_not_leavesList {s t : Sys O} {a : Label O} (hnot : ¬leavesList s a)
    (hm : Move s a t) : t.valid = false ∧ t.point ≠ .done := by
  cases hm with
  | tested | returned => exact absurd trivial hnot
  | attached i observer hp =>
      cases observer with
      | none => exact absurd rfl hnot
      | some x => exact ⟨rfl, by simp [attach, hp]⟩
  | detached i observer hp =>
      refine ⟨?_, by simp [detach_frame, hp]⟩
      cases observer with
      | none => exact absurd (fun _ hx => absurd hx (by simp)) hnot
      | some x =>
          have hmem : x ∈ s.observers := by
            by_contra hout
            refine hnot fun y hy => ?_
            obtain rfl := Option.some.inj hy
            exact hout
          obtain ⟨id, hdetach⟩ := detach_of_mem hmem
          rw [hdetach]

/-- With an invalid iterator the loop does not come to its end. -/
theorem Move.invalid {s t : Sys O} {a : Label O} (hm : Move s a t) (hs : s.valid = false) :
    t.valid = false ∧ t.point ≠ .done := by
  cases hm with
  | tested i hp =>
      unfold test
      rw [if_pos hs]
      exact ⟨hs, by simp⟩
  | attached i observer hp =>
      cases observer with
      | none => exact ⟨hs, by simp [attach, hp]⟩
      | some x => exact ⟨rfl, by simp [attach, hp]⟩
  | detached i observer hp =>
      obtain ⟨hpoint, hvalid⟩ := detach_frame s observer
      exact ⟨hvalid hs, by simp [hpoint, hp]⟩
  | returned i hp => exact ⟨hs, by simp⟩

/-- **`notify` tolerates the observers it calls** exactly if none of them attaches an
observer or detaches one that is in the list. -/
theorem tolerates_iff {subject : Subject O} {s : Sys O} {as : List (Label O)}
    (h : (system subject).Path (fun _ _ => True) (fresh subject) as s)
    (hs : s.point.ended = true) :
    Tolerates subject s ↔ (system subject).Path leavesList (fresh subject) as s := by
  have h₀ : (system subject).init (fresh subject) := rfl
  constructor
  · intro htolerates
    have hrestrict : (system subject).Path leavesList (fresh subject) as s ∨
        s.valid = false ∧ s.point ≠ .done := by
      apply LTS.Path.restrict h₀ h
      · intro s a t _ _ hnot hstep
        exact valid_of_not_leavesList hnot (move_of_step hstep)
      · intro s a t _ hbad _ hstep
        exact (move_of_step hstep).invalid hbad.1
    rcases hrestrict with hpath | ⟨-, hdone⟩
    · exact hpath
    · have hdefined := htolerates.defined
      cases hp : s.point with
      | done => exact absurd hp hdone
      | undefined => exact absurd hp hdefined
      | testing | calling =>
          rw [hp] at hs
          exact absurd hs Bool.noConfusion
  · intro hpath
    exact (undisturbed_of_reachable ⟨as, _, h₀, hpath⟩).tolerates hs

/-- Three observers, the second of which detaches itself. -/
def selfDetachRun : List (Label ℕ) :=
  [.next, .ret, .next, .detach (some 11), .ret, .next]

/-- Three observers, two of which try to change nothing. -/
def quietRun : List (Label ℕ) :=
  [.next, .attach none, .ret, .next, .detach (some 13), .ret, .next, .ret, .next]

/-- `tolerates_iff` at that run. -/
theorem tolerates_iff_quiet : ∃ s,
    Tolerates ⟨[10, 11, 12]⟩ s ↔
      (system ⟨[10, 11, 12]⟩).Path leavesList (fresh ⟨[10, 11, 12]⟩) quietRun s :=
  ⟨_, tolerates_iff (LTS.path_of_exec (show LTS.exec _ _ _ quietRun = some _ from rfl)) rfl⟩

/-- The loop goes on with an iterator that the observer has invalidated. -/
theorem notify_undefined : ¬∀ s, (system ⟨[10, 11, 12]⟩).Reachable (fun _ _ => True) s →
    s.point.ended = true → Tolerates ⟨[10, 11, 12]⟩ s := by
  intro hall
  have hreach : (system ⟨[10, 11, 12]⟩).Reachable (fun _ _ => True) _ :=
    LTS.reachable_of_exec rfl
      (show LTS.exec _ _ (fresh ⟨[10, 11, 12]⟩) selfDetachRun = some _ from rfl)
  exact (hall _ hreach rfl).defined rfl

end ObserverNotify
