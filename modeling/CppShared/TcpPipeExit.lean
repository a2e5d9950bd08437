/-
# The end of the process (`TcpServer::~TcpServer` in `tcppipe.hpp`)

`TcpPipe::server` is a static object: its destructor runs when `main` has returned, and joins
`ioThread`.  Nothing clears `isRunning` again, so the thread comes to the end of `Epoll::run` only
when a call of epoll fails.  Of `epoll_wait` an `EINTR` does not count.  An `epoll_ctl` that fails
for a client that was accepted closes `epfd`, and the loop goes on: it ends at its next
`epoll_wait`, which finds no descriptor.  The `epoll_ctl` of `receive` nobody looks at.  Without a
pipe there is no thread, and the `join` throws out of a destructor; so does that of a `TcpClient`
whose connection was not begun, when the constructor of a pipe throws.

* `exit_returns_iff`: behind the return of `main` the process can come to its end exactly if one
  of these calls, but for that of `receive`, has failed before, whatever the constructors and the
  io thread have done.
-/
import CppShared.TcpPipe

namespace PipeExit

open TcpPipe (Wrote constructStep ioStep)

/-! ## The process -/

/-- How far the process is. -/
inductive Phase
  | running
  /-- `main` has returned, and the destructor of the server is at its `join`. -/
  | joining
  /-- `std::terminate` was called. -/
  | terminated
  | exited
  deriving DecidableEq, Repr

/-- The process and the static server; `events` are those of the batch that the io thread has
not come to yet. -/
structure Process where
  server : TcpPipe.Sys
  phase : Phase
  events : ℕ
  /-- A failing `epoll_ctl` has closed `epfd`. -/
  closed : Bool
  deriving DecidableEq

/-- What the io thread does with an event of its batch. -/
inductive Event
  /-- No call of epoll: it is not `EPOLLIN`, or nobody is to be accepted, or a message came. -/
  | quiet
  /-- The `epoll_ctl` that adds an accepted client. -/
  | add (result : ℤ)
  /-- The `epoll_ctl` of `receive`. -/
  | delete (result : ℤ)
  deriving DecidableEq, Repr

/-- What happens next. -/
inductive Label
  | go (a : TcpPipe.Label)
  | event (e : Event)
  | mainReturns
  | join
  deriving DecidableEq, Repr

/-- The constructor of a pipe throws: `tcp` gives no descriptor, for the server or for the
client. -/
def throws (s : TcpPipe.Sys) (result : ℤ) : Prop :=
  (s.constructor = .tcp ∨ s.constructor = .connectHost) ∧ result < 0

instance (s : TcpPipe.Sys) (result : ℤ) : Decidable (throws s result) :=
  inferInstanceAs (Decidable (_ ∧ _))

/-- The loop goes on behind the last event of a batch, and without `epfd` an `epoll_wait`
fails. -/
def Process.admits (p : Process) (result : ℤ) (interrupted : Bool) : Prop :=
  match p.server.io with
  | .loopTest => p.events = 0
  | .epollWait => p.closed = true → result < 0 ∧ interrupted = false
  | _ => True

instance (p : Process) (result : ℤ) (interrupted : Bool) :
    Decidable (p.admits result interrupted) := by
  unfold Process.admits
  split <;> infer_instance

/-- The events behind a statement of the io thread. -/
def Process.batch (p : Process) (result : ℤ) : ℕ :=
  if p.server.io = .epollWait then result.toNat else 0

/-- An event; without `epfd` a call of `epoll_ctl` fails. -/
def Process.handle (p : Process) : Event → Option Process
  | .quiet => some { p with events := p.events - 1 }
  | .add result =>
      if p.closed = true ∧ 0 ≤ result then none
      else some { p with events := p.events - 1, closed := p.closed || decide (result < 0) }
  | .delete result =>
      if p.closed = true ∧ 0 ≤ result then none else some { p with events := p.events - 1 }

/-- The process goes on. -/
def Process.active (p : Process) : Prop := p.phase = .running ∨ p.phase = .joining

instance (p : Process) : Decidable p.active := inferInstanceAs (Decidable (_ ∨ _))

/-- One step. -/
def step (p : Process) : Label → Option Process
  | .go (.construct result) =>
      if p.phase = .running then
        (TcpPipe.step p.server (.construct result)).map fun s => { p with
          server := s
          phase := if throws p.server result then .terminated else .running }
      else none
  | .go (.io result interrupted) =>
      if p.active ∧ p.admits result interrupted then
        (TcpPipe.step p.server (.io result interrupted)).map fun s => { p with
          server := s
          events := p.batch result }
      else none
  | .event e =>
      if p.active ∧ p.server.terminated = false ∧ 0 < p.events then p.handle e else none
  | .mainReturns =>
      if p.phase = .running ∧ p.server.constructor = .outside ∧ p.server.terminated = false then
        some { p with phase := if p.server.joinable then .joining else .terminated }
      else none
  | .join =>
      -- the sockets are closed behind the `join`
      if p.phase = .joining ∧ p.server.io = .left then some { p with phase := .exited } else none

/-- The process at the start of `main`. -/
def fresh : Process := ⟨TcpPipe.fresh, .running, 0, false⟩

/-- The process from the start of `main` on. -/
def system : LTS Process Label where
  init p := p = fresh
  step := step

/-- A call of epoll fails that ends the loop, at once or at the next `epoll_wait`: those of
`epoll_create1` and `epoll_ctl` in front of the loop, an `epoll_wait` without `EINTR`, or the
`epoll_ctl` of the accept branch.  What fails because that one has closed `epfd` is not
counted. -/
def fails (p : Process) : Label → Prop
  | .go (.io result interrupted) =>
      (p.server.io = .epollCreate ∨ p.server.io = .epollCtl) ∧ result < 0 ∨
        p.server.io = .epollWait ∧ result < 0 ∧ interrupted = false ∧ p.closed = false
  | .event (.add result) => result < 0 ∧ p.closed = false
  | _ => False

instance (p : Process) (l : Label) : Decidable (fails p l) :=
  match l with
  | .go (.io _ _) => inferInstanceAs (Decidable (_ ∨ _))
  | .event (.add _) => inferInstanceAs (Decidable (_ ∧ _))
  | .go (.construct _) | .event .quiet | .event (.delete _) | .mainReturns | .join =>
      inferInstanceAs (Decidable False)

/-- No call of epoll fails so. -/
def healthy (p : Process) (l : Label) : Prop := ¬fails p l

instance (p : Process) (l : Label) : Decidable (healthy p l) :=
  inferInstanceAs (Decidable (¬fails p l))

/-! ## What a step does -/

/-- The effect of a step, case by case. -/
inductive Move (p : Process) : Label → Process → Prop
  | construct (result s phase) (hrunning : p.phase = .running)
      (hphase : phase = .running ∨ phase = .terminated)
      (hstep : TcpPipe.step p.server (.construct result) = some s) :
      Move p (.go (.construct result)) { p with server := s, phase := phase }
  | io (result interrupted s) (hactive : p.active) (hadmits : p.admits result interrupted)
      (hstep : TcpPipe.step p.server (.io result interrupted) = some s) :
      Move p (.go (.io result interrupted)) { p with server := s, events := p.batch result }
  | quiet (hactive : p.active) (hevents : 0 < p.events) :
      Move p (.event .quiet) { p with events := p.events - 1 }
  | add (result) (hactive : p.active) (hevents : 0 < p.events) :
      Move p (.event (.add result))
        { p with events := p.events - 1, closed := p.closed || decide (result < 0) }
  | delete (result) (hactive : p.active) (hevents : 0 < p.events) :
      Move p (.event (.delete result)) { p with events := p.events - 1 }
  | mainReturns (phase) (hterminated : p.server.terminated = false)
      (hphase : phase = .joining ∨ phase = .terminated) :
      Move p .mainReturns { p with phase := phase }
  | join (hleft : p.server.io = .left) : Move p .join { p with phase := .exited }

/-- **Step inversion.** -/
theorem move_of_step {p q : Process} {l : Label} (h : step p l = some q) : Move p l q := by
  cases l with
  | go a =>
      cases a with
      | construct result =>
          obtain ⟨hrunning, h⟩ := Option.ite_none_right_eq_some.mp h
          obtain ⟨s, hstep, rfl⟩ := Option.map_eq_some_iff.mp h
          refine Move.construct result s _ hrunning ?_ hstep
          split_ifs <;> simp
      | io result interrupted =>
          obtain ⟨⟨hactive, hadmits⟩, h⟩ := Option.ite_none_right_eq_some.mp h
          obtain ⟨s, hstep, rfl⟩ := Option.map_eq_some_iff.mp h
          exact Move.io result interrupted s hactive hadmits hstep
  | event e =>
      obtain ⟨⟨hactive, -, hevents⟩, h⟩ := Option.ite_none_right_eq_some.mp h
      cases e with
      | quiet =>
          obtain rfl := Option.some.inj h
          exact Move.quiet hactive hevents
      | add result =>
          obtain ⟨-, h⟩ := Option.ite_none_left_eq_some.mp h
          obtain rfl := Option.some.inj h
          exact Move.add result hactive hevents
      | delete result =>
          obtain ⟨-, h⟩ := Option.ite_none_left_eq_some.mp h
          obtain rfl := Option.some.inj h
          exact Move.delete result hactive hevents
  | mainReturns =>
      obtain ⟨⟨-, -, hterminated⟩, h⟩ := Option.ite_none_right_eq_some.mp h
      obtain rfl := Option.some.inj h
      refine Move.mainReturns _ hterminated ?_
      split_ifs <;> simp
  | join =>
      obtain ⟨hcond, h⟩ := Option.ite_none_right_eq_some.mp h
      obtain rfl := Option.some.inj h
      exact Move.join hcond.2

/-- What is known of the static server holds here as well. -/
theorem refines_server (ok : Process → Label → Prop) :
    LTS.Refines system ok TcpPipe.system Process.server where
  init p h := by
    rw [h]
    rfl
  step p l q _ _ hstep := by
    cases move_of_step hstep with
    | construct result s phase hrunning hphase hserver =>
        exact ⟨[.construct result], LTS.Path.single trivial hserver⟩
    | io result interrupted s hactive hadmits hserver =>
        exact ⟨[.io result interrupted], LTS.Path.single trivial hserver⟩
    | quiet | add | delete | mainReturns | join => exact ⟨[], LTS.Path.nil _⟩

theorem wrote_of_reachable {ok : Process → Label → Prop} {p : Process}
    (h : system.Reachable ok p) : Wrote p.server :=
  TcpPipe.wrote_of_reachable ((refines_server ok).reachable h)

/-! ## The io thread -/

theorem ioStep_of_step {s t : TcpPipe.Sys} {result : ℤ} {interrupted : Bool}
    (h : TcpPipe.step s (.io result interrupted) = some t) :
    ioStep s result interrupted = some t :=
  (Option.ite_none_left_eq_some.mp h).2

/-- The step is one of the process as well. -/
theorem step_io {p : Process} {result : ℤ} {interrupted : Bool} {t : TcpPipe.Sys}
    (hactive : p.active) (hadmits : p.admits result interrupted)
    (hterminated : p.server.terminated = false)
    (hstep : ioStep p.server result interrupted = some t) :
    step p (.go (.io result interrupted)) =
      some { p with server := t, events := p.batch result } := by
  have hserver : TcpPipe.step p.server (.io result interrupted) = some t := by
    rw [TcpPipe.step, if_neg (by simp [hterminated])]
    exact hstep
  rw [step, if_pos ⟨hactive, hadmits⟩, hserver]
  rfl

/-- The io thread was not made yet, or goes on for ever. -/
def Alive (s : TcpPipe.Sys) : Prop :=
  match s.io with
  | .absent | .test | .store => s.isRunning = false
  | .epollCreate | .epollCtl | .loopTest | .epollWait => s.isRunning = true
  | .left => False

theorem Alive.not_left {s : TcpPipe.Sys} (h : Alive s) : s.io ≠ .left := by
  intro hleft
  rw [Alive, hleft] at h
  exact h

/-- A constructor makes one io thread at most, while the flag is not set. -/
theorem Alive.construct {s t : TcpPipe.Sys} {result : ℤ} (h : Alive s) (hw : Wrote s)
    (hm : TcpPipe.Move s (.construct result) t) : Alive t := by
  cases hm with
  | assigned result hc hjoin =>
      -- a flag that is set means a joinable thread, and the assignment has found none
      show s.isRunning = false
      rw [← Bool.not_eq_true]
      intro hrun
      exact Bool.false_ne_true (hjoin.symm.trans (hw.flag hrun))
  | enter | startRunning | startIdle | tcpThrows | tcpDone => exact h
  | reused | bindFails | bindDone | listenFails | listenDone => exact h
  | runRunning | runIdle | overwritten | connected => exact h

/-- **Step lemma** for the io thread. -/
theorem Alive.io {p : Process} {t : TcpPipe.Sys} {result : ℤ} {interrupted : Bool}
    (h : Alive p.server) (hok : healthy p (.go (.io result interrupted))) (hopen : p.closed = false)
    (hstep : ioStep p.server result interrupted = some t) : Alive t := by
  cases hio : p.server.io with
  | absent => simp [ioStep, hio] at hstep
  | left => exact absurd hio h.not_left
  | test =>
      rw [Alive, hio] at h
      simp only [ioStep, hio, h] at hstep
      obtain rfl := Option.some.inj hstep
      rfl
  | store =>
      simp only [ioStep, hio] at hstep
      obtain rfl := Option.some.inj hstep
      rfl
  | epollCreate | epollCtl =>
      rw [Alive, hio] at h
      have hresult : ¬result < 0 := fun hneg => hok (Or.inl ⟨by simp [hio], hneg⟩)
      simp only [ioStep, hio, if_neg hresult] at hstep
      obtain rfl := Option.some.inj hstep
      exact h
  | loopTest =>
      rw [Alive, hio] at h
      simp only [ioStep, hio, h] at hstep
      obtain rfl := Option.some.inj hstep
      rfl
  | epollWait =>
      rw [Alive, hio] at h
      have hresult : ¬(result < 0 ∧ interrupted = false) := fun hneg =>
        hok (Or.inr ⟨hio, hneg.1, hneg.2, hopen⟩)
      simp only [ioStep, hio, if_neg hresult] at hstep
      obtain rfl := Option.some.inj hstep
      exact h

/-- In a run in which no call of epoll fails the process does not come to its end. -/
structure Endless (p : Process) : Prop where
  alive : Alive p.server
  opened : p.closed = false
  phase : p.phase ≠ .exited

/-- **Step lemma.** -/
theorem Endless.move {p q : Process} {l : Label} (h : Endless p) (hw : Wrote p.server)
    (hok : healthy p l) (hm : Move p l q) : Endless q := by
  cases hm with
  | construct result s phase hrunning hphase hstep =>
      refine ⟨h.alive.construct hw (TcpPipe.move_of_step hstep).2, h.opened, ?_⟩
      rcases hphase with rfl | rfl <;> simp
  | io result interrupted s hactive hadmits hstep =>
      exact ⟨h.alive.io hok h.opened (ioStep_of_step hstep), h.opened, h.phase⟩
  | quiet => exact ⟨h.alive, h.opened, h.phase⟩
  | delete => exact ⟨h.alive, h.opened, h.phase⟩
  | add result hactive hevents =>
      refine ⟨h.alive, ?_, h.phase⟩
      show (p.closed || decide (result < 0)) = false
      rw [h.opened, Bool.false_or]
      exact decide_eq_false fun hneg => hok ⟨hneg, h.opened⟩
  | mainReturns phase hterminated hphase =>
      refine ⟨h.alive, h.opened, ?_⟩
      rcases hphase with rfl | rfl <;> simp
  | join hleft => exact absurd hleft h.alive.not_left

theorem endless_of_reachable {p : Process} (h : system.Reachable healthy p) : Endless p := by
  refine LTS.Reachable.induction (I := Endless) ?_ ?_ h
  · rintro _ rfl
    exact ⟨rfl, rfl, by simp [fresh]⟩
  · intro p l q hreach hp hok hstep
    exact hp.move (wrote_of_reachable hreach) hok (move_of_step hstep)

/-! ## The thread that has seen a failure -/

/-- It has left the loop, or will do so at its next `epoll_wait`. -/
def Doomed (p : Process) : Prop := p.server.io = .left ∨ p.closed = true

/-- A step that is not healthy dooms the thread. -/
theorem doomed_of_fails {p q : Process} {l : Label} (hbad : ¬healthy p l) (hm : Move p l q) :
    Doomed q := by
  have hfails := not_not.mp hbad
  cases hm with
  | io result interrupted s hactive hadmits hstep =>
      have hio := ioStep_of_step hstep
      refine Or.inl ?_
      rcases hfails with ⟨hat | hat, hneg⟩ | ⟨hat, hneg, hno, -⟩
      · simp only [ioStep, hat, if_pos hneg] at hio
        exact congrArg TcpPipe.Sys.io (Option.some.inj hio).symm
      · simp only [ioStep, hat, if_pos hneg] at hio
        exact congrArg TcpPipe.Sys.io (Option.some.inj hio).symm
      · simp only [ioStep, hat, if_pos (And.intro hneg hno)] at hio
        exact congrArg TcpPipe.Sys.io (Option.some.inj hio).symm
  | add result hactive hevents =>
      refine Or.inr ?_
      show (p.closed || decide (result < 0)) = true
      rw [decide_eq_true hfails.1, Bool.or_true]
  | construct | quiet | delete | mainReturns | join => exact absurd hfails id

/-- And no other one is made. -/
theorem Doomed.move {p q : Process} {l : Label} (h : Doomed p) (hw : Wrote p.server)
    (hm : Move p l q) : Doomed q := by
  rcases h with hleft | hclosed
  · refine Or.inl ?_
    cases hm with
    | construct result s phase hrunning hphase hstep =>
        cases (TcpPipe.move_of_step hstep).2 with
        | assigned result hc hjoin =>
            -- the thread that has left is still joinable, so none is put in its place
            have hjoined := hw.io (by simp [hleft])
            exact absurd (hjoin.symm.trans hjoined) Bool.false_ne_true
        | enter | startRunning | startIdle | tcpThrows | tcpDone => exact hleft
        | reused | bindFails | bindDone | listenFails | listenDone => exact hleft
        | runRunning | runIdle | overwritten | connected => exact hleft
    | io result interrupted s hactive hadmits hstep =>
        have hio := ioStep_of_step hstep
        simp [ioStep, hleft] at hio
    | quiet | add | delete | mainReturns | join => exact hleft
  · refine Or.inr ?_
    cases hm with
    | add result hactive hevents =>
        show (p.closed || decide (result < 0)) = true
        rw [hclosed, Bool.true_or]
    | construct | io | quiet | delete | mainReturns | join => exact hclosed

/-- Where the io thread is while a batch is open, and when `epfd` was closed; nobody calls
`std::terminate` once the destructor of the server is at its `join`. -/
structure InLoop (p : Process) : Prop where
  batch : 0 < p.events → p.server.io = .loopTest
  closed : p.closed = true → p.server.io = .loopTest ∨ p.server.io = .epollWait ∨
    p.server.io = .left
  terminated : p.phase = .joining → p.server.terminated = false

/-- A statement of the constructor of a pipe leaves an io thread alone that has come to its
loop. -/
theorem io_of_construct {s t : TcpPipe.Sys} {result : ℤ} (hw : Wrote s)
    (hm : TcpPipe.Move s (.construct result) t) (hio : s.io ≠ .absent) : t.io = s.io := by
  cases hm with
  | assigned result hc hjoin =>
      exact absurd (hjoin.symm.trans (hw.io hio)) Bool.false_ne_true
  | enter | startRunning | startIdle | tcpThrows | tcpDone => rfl
  | reused | bindFails | bindDone | listenFails | listenDone => rfl
  | runRunning | runIdle | overwritten | connected => rfl

theorem terminated_of_ioStep {s t : TcpPipe.Sys} {result : ℤ} {interrupted : Bool}
    (h : ioStep s result interrupted = some t) : t.terminated = s.terminated := by
  cases TcpPipe.ioMove h with
  | ioStored | ioMoved => rfl

/-- **Step lemma.** -/
theorem InLoop.move {p q : Process} {l : Label} (h : InLoop p) (hw : Wrote p.server)
    (hm : Move p l q) : InLoop q := by
  cases hm with
  | construct result s phase hrunning hphase hstep =>
      have hsame := io_of_construct hw (TcpPipe.move_of_step hstep).2
      refine ⟨fun hevents => ?_, fun hclosed => ?_, fun hjoining => ?_⟩
      · have hio := h.batch hevents
        rw [hsame (by simp [hio]), hio]
      · have hio := h.closed hclosed
        rw [hsame (by rcases hio with hio | hio | hio <;> simp [hio])]
        exact hio
      · rcases hphase with rfl | rfl <;> exact absurd hjoining (by simp)
  | io result interrupted s hactive hadmits hstep =>
      have hio := ioStep_of_step hstep
      refine ⟨fun hevents => ?_, fun hclosed => ?_, fun hjoining => ?_⟩
      · -- only an `epoll_wait` with a result opens a batch
        have hevents' : 0 < p.batch result := hevents
        rw [Process.batch] at hevents'
        split_ifs at hevents' with hwait
        · have hpos : ¬(result < 0 ∧ interrupted = false) := by omega
          simp only [ioStep, hwait, if_neg hpos] at hio
          exact congrArg TcpPipe.Sys.io (Option.some.inj hio).symm
        · exact absurd hevents' (Nat.lt_irrefl 0)
      · rcases h.closed hclosed with hat | hat | hat
        · simp only [ioStep, hat] at hio
          obtain rfl := Option.some.inj hio
          dsimp only
          split_ifs <;> simp
        · simp only [ioStep, hat] at hio
          obtain rfl := Option.some.inj hio
          dsimp only
          split_ifs <;> simp
        · simp [ioStep, hat] at hio
      · rw [show s.terminated = p.server.terminated from terminated_of_ioStep hio]
        exact h.terminated hjoining
  | quiet hactive hevents => exact ⟨fun _ => h.batch hevents, h.closed, h.terminated⟩
  | add result hactive hevents =>
      exact ⟨fun _ => h.batch hevents, fun _ => Or.inl (h.batch hevents), h.terminated⟩
  | delete result hactive hevents => exact ⟨fun _ => h.batch hevents, h.closed, h.terminated⟩
  | mainReturns phase hterminated hphase => exact ⟨h.batch, h.closed, fun _ => hterminated⟩
  | join hleft => exact ⟨h.batch, h.closed, by simp⟩

theorem inLoop_of_reachable {ok : Process → Label → Prop} {p : Process}
    (h : system.Reachable ok p) : InLoop p := by
  refine LTS.Reachable.induction (I := InLoop) ?_ ?_ h
  · rintro _ rfl
    exact ⟨by simp [fresh], by simp [fresh], by simp [fresh]⟩
  · intro p l q hreach hp _ hstep
    exact hp.move (wrote_of_reachable hreach) (move_of_step hstep)

/-! ## Main result -/

/-- The process can come to its end, and no call of epoll fails on the way but for want of the
`epfd` that the loop has closed. -/
def Exits (p : Process) : Prop := ∃ ls q, system.Path healthy p ls q ∧ q.phase = .exited

/-- Behind a path of such steps. -/
theorem Exits.of_path {p q : Process} {ls : List Label} (h : system.Path healthy p ls q)
    (hq : Exits q) : Exits p := by
  obtain ⟨ms, r, hpath, hexited⟩ := hq
  exact ⟨ls ++ ms, r, h.append hpath, hexited⟩

/-- The thread has left. -/
theorem exits_of_left {p : Process} (hjoining : p.phase = .joining)
    (hleft : p.server.io = .left) : Exits p := by
  have hjoin : system.step p .join = some { p with phase := .exited } :=
    if_pos ⟨hjoining, hleft⟩
  have hok : healthy p .join := id
  exact ⟨[.join], _, LTS.Path.single hok hjoin, rfl⟩

/-- The thread is at an `epoll_wait` without a descriptor. -/
theorem exits_of_wait {p : Process} (hjoining : p.phase = .joining)
    (hterminated : p.server.terminated = false) (hclosed : p.closed = true)
    (hwait : p.server.io = .epollWait) : Exits p := by
  have hadmits : p.admits (-1) false := by
    rw [Process.admits, hwait]
    exact fun _ => ⟨by decide, rfl⟩
  have hio : ioStep p.server (-1) false = some { p.server with io := .left } := by
    simp [ioStep, hwait]
  have hok : healthy p (.go (.io (-1) false)) := by
    rintro (⟨hat | hat, -⟩ | ⟨-, -, -, hopen⟩)
    · exact absurd (hwait.symm.trans hat) (by decide)
    · exact absurd (hwait.symm.trans hat) (by decide)
    · exact absurd (hclosed.symm.trans hopen) (by decide)
  exact Exits.of_path (LTS.Path.single hok (step_io (Or.inr hjoining) hadmits hterminated hio))
    (exits_of_left hjoining rfl)

/-- The thread comes to the end of its batch, and to `epoll_wait`. -/
theorem exits_of_closed {p : Process} (hjoining : p.phase = .joining)
    (hterminated : p.server.terminated = false) (hclosed : p.closed = true)
    (hio : p.server.io = .loopTest) : Exits p := by
  induction hevents : p.events generalizing p with
  | zero =>
      have hadmits : p.admits 0 false := by
        rw [Process.admits, hio]
        exact hevents
      have htest : ioStep p.server 0 false =
          some { p.server with io := if p.server.isRunning then .epollWait else .left } := by
        simp [ioStep, hio]
      have hok : healthy p (.go (.io 0 false)) := by
        simp [healthy, fails]
      refine Exits.of_path
        (LTS.Path.single hok (step_io (Or.inr hjoining) hadmits hterminated htest)) ?_
      cases hrunning : p.server.isRunning with
      | true => exact exits_of_wait hjoining hterminated hclosed rfl
      | false => exact exits_of_left hjoining rfl
  | succ k ih =>
      have hquiet : system.step p (.event .quiet) = some { p with events := p.events - 1 } :=
        if_pos ⟨Or.inr hjoining, hterminated, by omega⟩
      have hok : healthy p (.event .quiet) := id
      refine Exits.of_path (LTS.Path.single hok hquiet) (ih hjoining hterminated hclosed hio ?_)
      show p.events - 1 = k
      omega

/-- **When a process with pipes ends**: once `main` has returned and the destructor of the server
is at its `join`, exactly if a call of epoll whose failure ends the loop has failed in the run so
far. -/
theorem exit_returns_iff {p q : Process} {as : List Label} (h₀ : system.init p)
    (h : system.Path (fun _ _ => True) p as q) (hjoining : q.phase = .joining) :
    Exits q ↔ ¬system.Path healthy p as q := by
  constructor
  · rintro ⟨ls, r, hpath, hexited⟩ hhealthy
    exact (endless_of_reachable ⟨as ++ ls, p, h₀, hhealthy.append hpath⟩).phase hexited
  · intro hfailed
    have hloop := inLoop_of_reachable ⟨as, p, h₀, h⟩
    have hterminated := hloop.terminated hjoining
    have hdoomed : Doomed q := by
      have hrestrict : system.Path healthy p as q ∨ Doomed q := by
        refine LTS.Path.restrict h₀ h ?_ ?_
        · intro u l v _ _ hbad hstep
          exact doomed_of_fails hbad (move_of_step hstep)
        · intro u l v hreach hdoomed _ hstep
          exact hdoomed.move (wrote_of_reachable hreach) (move_of_step hstep)
      exact hrestrict.resolve_left hfailed
    rcases hdoomed with hleft | hclosed
    · exact exits_of_left hjoining hleft
    · rcases hloop.closed hclosed with hio | hio | hio
      · exact exits_of_closed hjoining hterminated hclosed hio
      · exact exits_of_wait hjoining hterminated hclosed hio
      · exact exits_of_left hjoining hio

/-- One pipe is made, its connection is accepted, and closed again with an `epoll_ctl` that
fails, and `main` returns while the io thread waits. -/
def onePipeRun : List Label :=
  [.go (.construct 0), .go (.construct 0), .go (.construct 3), .go (.construct 0),
    .go (.construct 0), .go (.construct 0), .go (.construct 0), .go (.construct 0),
    .go (.io 0 false), .go (.io 0 false), .go (.construct 0), .go (.io 4 false),
    .go (.io 0 false), .go (.io 0 false), .go (.io 1 false), .event (.add 0), .go (.io 0 false),
    .go (.io 1 false), .event (.delete (-1)), .go (.io 0 false), .mainReturns]

/-- `exit_returns_iff` at that run. -/
theorem exit_returns_iff_onePipe : ∃ p, p.phase = .joining ∧ p.server.io = .epollWait ∧
    ¬Exits p := by
  obtain ⟨p, hpath, hjoining, hwaits⟩ : ∃ p,
      system.Path healthy fresh onePipeRun p ∧ p.phase = .joining ∧
        p.server.io = .epollWait :=
    ⟨_, LTS.path_of_exec (show LTS.exec _ _ _ onePipeRun = some _ from rfl), rfl, rfl⟩
  have hany : system.Path (fun _ _ => True) fresh onePipeRun p :=
    hpath.mono fun _ _ _ => trivial
  refine ⟨p, hjoining, hwaits, fun hexits => ?_⟩
  exact (exit_returns_iff rfl hany hjoining).mp hexits hpath

end PipeExit
