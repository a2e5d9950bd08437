/-
# A crew of workers behind one condition variable

The counting abstraction of a monitor with one queue: how many items are queued,
how many workers are blocked on the condition (`parked`), how many are awake and
on their way to the critical section (`awake`), and how many are out working
(`busy`).  Nothing is said about which worker or which item.

The moves follow the usual discipline: an item is posted together with one
notification, a worker that finds the queue empty blocks, the worker that takes
the last item notifies everybody.  A worker may also wake up without a
notification, and a busy worker may come back and take an item before the one
that was notified for it.

`crew_law`: a worker is blocked only while every queued item has an awake worker
to go for it.
-/
import CppShared.Transition

/-- The counts. -/
structure Crew where
  queued : ℕ
  parked : ℕ
  awake : ℕ
  busy : ℕ

/-- What can happen to the counts. -/
inductive CrewMove
  /-- A new worker starts. -/
  | hire
  /-- An item is posted and one blocked worker, if there is one, is notified. -/
  | post
  /-- An awake worker takes an item and leaves others queued. -/
  | take
  /-- An awake worker takes the last item and notifies all blocked workers. -/
  | takeLast
  /-- An awake worker finds no item and blocks. -/
  | park
  /-- A busy worker is done. -/
  | finish
  /-- A blocked worker wakes up by itself. -/
  | rouse

namespace Crew

/-- The effect of a move; a move without its worker or item is disabled. -/
def step (c : Crew) : CrewMove → Option Crew
  | .hire => some { c with awake := c.awake + 1 }
  | .post =>
      if c.parked = 0 then some { c with queued := c.queued + 1 }
      else some { c with
        queued := c.queued + 1
        parked := c.parked - 1
        awake := c.awake + 1 }
  | .take =>
      if 0 < c.awake ∧ 1 < c.queued then
        some { c with
          queued := c.queued - 1
          awake := c.awake - 1
          busy := c.busy + 1 }
      else none
  | .takeLast =>
      if 0 < c.awake ∧ c.queued = 1 then
        some ⟨0, 0, c.awake - 1 + c.parked, c.busy + 1⟩
      else none
  | .park =>
      if 0 < c.awake ∧ c.queued = 0 then
        some { c with parked := c.parked + 1, awake := c.awake - 1 }
      else none
  | .finish =>
      if 0 < c.busy then some { c with awake := c.awake + 1, busy := c.busy - 1 } else none
  | .rouse =>
      if 0 < c.parked then some { c with parked := c.parked - 1, awake := c.awake + 1 } else none

/-- While somebody is blocked, every queued item has an awake worker. -/
def Law (c : Crew) : Prop := 0 < c.parked → c.queued ≤ c.awake

/-- Every move keeps the law. -/
theorem law_step {c d : Crew} {m : CrewMove} (h : c.Law) (hstep : c.step m = some d) :
    d.Law := by
  unfold Law at h ⊢
  cases m with
  | hire =>
      obtain rfl := Option.some.inj hstep
      simp only
      omega
  | post =>
      simp only [step] at hstep
      -- with a waiter the new item comes with a new awake worker, without one there is
      -- nothing to show
      split_ifs at hstep <;> obtain rfl := Option.some.inj hstep <;> simp only <;> omega
  | take =>
      obtain ⟨⟨hawake, hqueued⟩, heq⟩ := Option.ite_none_right_eq_some.mp hstep
      obtain rfl := Option.some.inj heq
      simp only
      omega
  | takeLast =>
      obtain ⟨-, heq⟩ := Option.ite_none_right_eq_some.mp hstep
      obtain rfl := Option.some.inj heq
      simp
  | park =>
      obtain ⟨⟨hawake, hqueued⟩, heq⟩ := Option.ite_none_right_eq_some.mp hstep
      obtain rfl := Option.some.inj heq
      simp only
      omega
  | finish =>
      obtain ⟨hbusy, heq⟩ := Option.ite_none_right_eq_some.mp hstep
      obtain rfl := Option.some.inj heq
      simp only
      omega
  | rouse =>
      obtain ⟨hparked, heq⟩ := Option.ite_none_right_eq_some.mp hstep
      obtain rfl := Option.some.inj heq
      simp only
      omega

end Crew

/-- The crew as a transition system, without workers at the start. -/
def crew : LTS Crew CrewMove where
  init c := c = ⟨0, 0, 0, 0⟩
  step := Crew.step

/-- **Work conservation** of the crew. -/
theorem crew_law {c : Crew} (h : crew.Reachable (fun _ _ => True) c) :
    0 < c.parked → c.queued ≤ c.awake := by
  refine LTS.Reachable.induction (I := Crew.Law) ?_ ?_ h
  · rintro _ rfl hpos
    exact absurd hpos (by simp)
  · intro c m d _ hlaw _ hstep
    exact Crew.law_step hlaw hstep

/-- One move, as a path of the crew. -/
theorem crew_move {c d : Crew} (m : CrewMove) (h : c.step m = some d) :
    ∃ bs, crew.Path (fun _ _ => True) c bs d :=
  ⟨[m], LTS.Path.single trivial h⟩

/-- No move, as a path of the crew. -/
theorem crew_idle (c : Crew) : ∃ bs, crew.Path (fun _ _ => True) c bs c :=
  ⟨[], LTS.Path.nil c⟩
