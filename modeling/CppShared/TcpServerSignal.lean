/-
# `stop` in the signal handler (`serverd.cpp`)

`serverd` calls `stop` in the handler of `SIGINT` and `SIGTERM`, which runs on the
thread of `run` and suspends it wherever it is.  Then a critical section is no longer
one step: `run` can be stopped while it holds a mutex.

The model puts the two mutexes of the server, the one of the queue and the one of
`objectPool`, on top of the steps of `TcpServer.system`: who holds them, and the
locking around the sections that are single steps there (`refines_system`).  While
`stop` is under way the main thread takes no other step.

`stop` waits for the process thread, so it must not find `run` with a mutex that the
process thread still needs (`calmSignal`).
-/
import CppShared.TcpServerStop

namespace TcpServer

/-! ## The mutexes -/

/-- The threads that lock. -/
inductive Holder
  | run
  | process
  deriving DecidableEq, Repr

/-- The server and who holds its mutexes. -/
structure Locked where
  sys : Sys
  mutex : Option Holder
  poolMutex : Option Holder

/-- `run` is about to queue a packet, which it does under `mutex`. -/
def Run.inQueue : Run → Bool
  | .queueing _ _ _ => true
  | _ => false

/-- `run` is about to execute `objectPool.get()`. -/
def Run.inPool : Run → Bool
  | .getting _ _ _ => true
  | _ => false

/-- `process` is about to execute `objectPool.push(packet)`. -/
def Process.inPool : Process → Bool
  | .returning _ => true
  | _ => false

/-- The main thread takes a step: the handler is not on top of it, and it holds the
mutex of the section it is in and no other. -/
def mayRun (s : Locked) : Prop :=
  s.sys.stopper = .outside ∧ (s.mutex = some .run ↔ s.sys.runner.inQueue = true) ∧
    (s.poolMutex = some .run ↔ s.sys.runner.inPool = true)

instance (s : Locked) : Decidable (mayRun s) := inferInstanceAs (Decidable (_ ∧ _ ∧ _))

/-- The process thread takes a step. -/
def mayProcess (s : Locked) : Prop :=
  (s.mutex = some .process ↔ s.sys.processor = .waiting) ∧
    (s.poolMutex = some .process ↔ s.sys.processor.inPool = true)

instance (s : Locked) : Decidable (mayProcess s) := inferInstanceAs (Decidable (_ ∧ _))

/-- `stop` takes a step; its `objectPool.push` needs the mutex of the pool. -/
def mayStop (s : Locked) : Prop := s.sys.stopper.hand ≠ [] → s.poolMutex = none

instance (s : Locked) : Decidable (mayStop s) := inferInstanceAs (Decidable (_ → _))

/-- A step of a thread, or of a mutex. -/
inductive LockLabel
  | step (a : Label)
  | lock (holder : Holder)
  | unlock (holder : Holder)
  | lockPool (holder : Holder)
  | unlockPool (holder : Holder)
  deriving DecidableEq

/-- The thread stands in front of a section of `mutex`. -/
def wantsMutex (s : Locked) : Holder → Prop
  | .run => s.sys.stopper = .outside ∧ s.sys.runner.inQueue = true
  | .process => s.sys.processor = .waiting

instance (s : Locked) (holder : Holder) : Decidable (wantsMutex s holder) := by
  cases holder <;> unfold wantsMutex <;> infer_instance

/-- The section is over, or `wait_for` releases the mutex for the time it waits. -/
def leavesMutex (s : Locked) : Holder → Prop
  | .run => s.sys.stopper = .outside ∧ s.sys.runner.inQueue = false
  | .process => s.sys.processor ≠ .waiting ∨ ¬(s.sys.state = .dataReady ∨ s.sys.state = .terminate)

instance (s : Locked) (holder : Holder) : Decidable (leavesMutex s holder) := by
  cases holder <;> unfold leavesMutex <;> infer_instance

/-- The thread stands in front of a member function of `objectPool`. -/
def wantsPool (s : Locked) : Holder → Prop
  | .run => s.sys.stopper = .outside ∧ s.sys.runner.inPool = true
  | .process => s.sys.processor.inPool = true

instance (s : Locked) (holder : Holder) : Decidable (wantsPool s holder) := by
  cases holder <;> unfold wantsPool <;> infer_instance

/-- The member function of `objectPool` is over. -/
def leavesPool (s : Locked) : Holder → Prop
  | .run => s.sys.stopper = .outside ∧ s.sys.runner.inPool = false
  | .process => s.sys.processor.inPool = false

instance (s : Locked) (holder : Holder) : Decidable (leavesPool s holder) := by
  cases holder <;> unfold leavesPool <;> infer_instance

/-- The thread that takes a step may take it. -/
def may (s : Locked) : Label → Prop
  | .process => mayProcess s
  | .answer _ _ => mayProcess s
  | .stop => mayStop s
  | _ => mayRun s

instance (s : Locked) (a : Label) : Decidable (may s a) := by
  unfold may
  split <;> infer_instance

/-- One step of the threads and mutexes. -/
def lockStep (s : Locked) : LockLabel → Option Locked
  | .step a => if may s a then (step s.sys a).map fun t => { s with sys := t } else none
  | .lock holder =>
      if wantsMutex s holder ∧ s.mutex = none then some { s with mutex := some holder } else none
  | .unlock holder =>
      if leavesMutex s holder ∧ s.mutex = some holder then some { s with mutex := none } else none
  | .lockPool holder =>
      if wantsPool s holder ∧ s.poolMutex = none then some { s with poolMutex := some holder }
      else none
  | .unlockPool holder =>
      if leavesPool s holder ∧ s.poolMutex = some holder then some { s with poolMutex := none }
      else none

/-- The server with its mutexes. -/
def lockSystem : LTS Locked LockLabel where
  init s := s = ⟨fresh, none, none⟩
  step := lockStep

/-- Under the mutexes the server takes the steps of `system`. -/
theorem refines_system :
    LTS.Refines lockSystem (fun _ _ => True) system Locked.sys where
  init := by
    rintro _ rfl
    rfl
  step s a t _ _ hstep := by
    cases a with
    | step a =>
        obtain ⟨-, hstep⟩ := Option.ite_none_right_eq_some.mp hstep
        obtain ⟨u, hu, rfl⟩ := Option.map_eq_some_iff.mp hstep
        exact ⟨[a], LTS.Path.single trivial hu⟩
    | lock holder =>
        obtain ⟨-, hstep⟩ := Option.ite_none_right_eq_some.mp hstep
        obtain rfl := Option.some.inj hstep
        exact ⟨[], LTS.Path.nil _⟩
    | unlock holder =>
        obtain ⟨-, hstep⟩ := Option.ite_none_right_eq_some.mp hstep
        obtain rfl := Option.some.inj hstep
        exact ⟨[], LTS.Path.nil _⟩
    | lockPool holder =>
        obtain ⟨-, hstep⟩ := Option.ite_none_right_eq_some.mp hstep
        obtain rfl := Option.some.inj hstep
        exact ⟨[], LTS.Path.nil _⟩
    | unlockPool holder =>
        obtain ⟨-, hstep⟩ := Option.ite_none_right_eq_some.mp hstep
        obtain rfl := Option.some.inj hstep
        exact ⟨[], LTS.Path.nil _⟩

/-! ## Deadlock -/

/-- `stop` waits for the process thread, which waits for a mutex that `run` holds. -/
def Deadlocked (s : Locked) : Prop :=
  s.sys.stopper = .joining ∧
    (s.sys.processor = .waiting ∧ s.mutex = some .run ∨
      s.sys.processor.inPool = true ∧ s.poolMutex = some .run)

/-- Only `stop` moves `stopper`. -/
theorem stopper_stable {s t : Sys} {a : Label} (hm : Move s a t) (ha : a ≠ .stop) :
    t.stopper = s.stopper := by
  cases hm <;> first | rfl | exact absurd rfl ha

/-- A step of the main thread needs a handler that has returned. -/
theorem mayRun_of_may {s : Locked} {a : Label} (h : may s a) (hprocess : ¬a.isProcess = true)
    (hstop : a ≠ .stop) : mayRun s := by
  cases a with
  | process | answer => exact absurd rfl hprocess
  | stop => exact absurd rfl hstop
  | _ => exact h

/-- A step of the process thread needs its mutexes. -/
theorem mayProcess_of_may {s : Locked} {a : Label} (h : may s a) (ha : a.isProcess = true) :
    mayProcess s := by
  cases a with
  | process | answer => exact h
  | _ => exact Bool.noConfusion ha

/-- `processThread` is without a thread only before the thread is created and after it
was joined. -/
theorem over_of_not_joinable {ok : Sys → Label → Prop} {s : Sys} (h : system.Reachable ok s) :
    s.joinable = false → s.processor = .absent ∨ s.processor = .exited := by
  refine LTS.Reachable.induction
    (I := fun s => s.joinable = false → s.processor = .absent ∨ s.processor = .exited) ?_ ?_ h
  · rintro _ rfl _
    exact Or.inl rfl
  · intro s a t _ hs _ hstep
    -- a step of the process thread needs the thread
    have hprocess : ∀ {p : Process}, s.processor = p → p ≠ .absent → p ≠ .exited →
        s.joinable = false → t.processor = .absent ∨ t.processor = .exited := by
      intro p hp habsent hexited hj
      rcases hs hj with hover | hover
      · exact absurd (hp.symm.trans hover) habsent
      · exact absurd (hp.symm.trans hover) hexited
    cases move_of_step hstep with
    | launched hr => exact fun hj => absurd hj (by simp)
    | joined hstop hj hp => exact fun _ => Or.inr hp
    | checked hp | timedOut hp | underflow hp | took _ _ hp | terminated _ _ hp
    | unanswered _ hp | found _ _ hp | rewritten _ _ _ _ hp | sent _ _ hp | unsent _ _ hp
    | gaveBack _ hp => exact hprocess hp (by simp) (by simp)
    | _ => exact hs

/-- While `stop` is in `join`, its next step is the return from it. -/
theorem over_of_join {s t : Sys} (hreach : system.Reachable (fun _ _ => True) s)
    (hs : s.stopper = .joining) (h : step s .stop = some t) :
    s.processor = .absent ∨ s.processor = .exited := by
  have hjoin : join s = some t := by
    rw [← h]
    show join s = stopStep s
    rw [stopStep, hs]
  unfold join at hjoin
  split_ifs at hjoin with hj hp
  · exact Or.inr hp
  · exact over_of_not_joinable hreach (by simpa using hj)

/-- A deadlock is for ever. -/
theorem Deadlocked.step {s t : Locked} {l : LockLabel}
    (hreach : lockSystem.Reachable (fun _ _ => True) s) (h : Deadlocked s)
    (hstep : lockStep s l = some t) : Deadlocked t := by
  obtain ⟨hjoining, hneeds⟩ := h
  have hinside : s.sys.stopper ≠ .outside := by simp [hjoining]
  -- the process thread is in its loop
  have hbusy : ¬(s.sys.processor = .absent ∨ s.sys.processor = .exited) := by
    rintro (hover | hover)
    all_goals
      rcases hneeds with ⟨hp, -⟩ | ⟨hp, -⟩
      · exact absurd (hover.symm.trans hp) (by simp)
      · rw [hover] at hp
        exact absurd hp (by decide)
  cases l with
  | step a =>
      obtain ⟨hmay, hstep⟩ := Option.ite_none_right_eq_some.mp hstep
      obtain ⟨u, hu, rfl⟩ := Option.map_eq_some_iff.mp hstep
      exfalso
      by_cases hprocess : a.isProcess = true
      · -- it waits for the mutex
        have hmay := mayProcess_of_may hmay hprocess
        rcases hneeds with ⟨hp, hheld⟩ | ⟨hp, hheld⟩
        · exact absurd (hheld.symm.trans (hmay.1.mpr hp)) (by simp)
        · exact absurd (hheld.symm.trans (hmay.2.mpr hp)) (by simp)
      · by_cases hstop : a = .stop
        · -- and `stop` waits for it
          subst hstop
          exact hbusy (over_of_join (refines_system.reachable hreach) hjoining hu)
        · exact hinside (mayRun_of_may hmay hprocess hstop).1
  | lock holder =>
      obtain ⟨⟨-, hfree⟩, hstep⟩ := Option.ite_none_right_eq_some.mp hstep
      obtain rfl := Option.some.inj hstep
      rcases hneeds with ⟨-, hheld⟩ | hpool
      · exact absurd (hfree.symm.trans hheld) (by simp)
      · exact ⟨hjoining, Or.inr hpool⟩
  | unlock holder =>
      obtain ⟨⟨hleaves, hholds⟩, hstep⟩ := Option.ite_none_right_eq_some.mp hstep
      obtain rfl := Option.some.inj hstep
      rcases hneeds with ⟨-, hheld⟩ | hpool
      · obtain rfl := Option.some.inj (hheld.symm.trans hholds)
        exact absurd hleaves.1 hinside
      · exact ⟨hjoining, Or.inr hpool⟩
  | lockPool holder =>
      obtain ⟨⟨-, hfree⟩, hstep⟩ := Option.ite_none_right_eq_some.mp hstep
      obtain rfl := Option.some.inj hstep
      rcases hneeds with hqueue | ⟨-, hheld⟩
      · exact ⟨hjoining, Or.inl hqueue⟩
      · exact absurd (hfree.symm.trans hheld) (by simp)
  | unlockPool holder =>
      obtain ⟨⟨hleaves, hholds⟩, hstep⟩ := Option.ite_none_right_eq_some.mp hstep
      obtain rfl := Option.some.inj hstep
      rcases hneeds with hqueue | ⟨-, hheld⟩
      · exact ⟨hjoining, Or.inl hqueue⟩
      · obtain rfl := Option.some.inj (hheld.symm.trans hholds)
        exact absurd hleaves.1 hinside

/-! ## The condition on the signal -/

/-- When `stop` is called and is going to join, `run` does not hold `mutex`, and if it
holds the mutex of the pool, the process thread has no packet and finds none. -/
def calmSignal (s : Locked) : LockLabel → Prop
  | .step .stop => s.sys.stopper = .outside → s.sys.isRunning = true →
      s.mutex ≠ some .run ∧
        (s.poolMutex = some .run → s.sys.dataQueue = [] ∧ s.sys.processor.hand = [])
  | _ => True

instance decidableCalmSignal (s : Locked) (l : LockLabel) : Decidable (calmSignal s l) := by
  unfold calmSignal
  split <;> infer_instance

/-- What the process thread needs of `run` while `stop` is on its way through `join`. -/
def SignalInv (s : Locked) : Prop :=
  s.sys.stopper = .storing ∨ s.sys.stopper = .joining → s.mutex ≠ some .run ∧
    (s.poolMutex = some .run → s.sys.dataQueue = [] ∧ s.sys.processor.hand = [])

/-- Without packets the process thread gets none. -/
theorem empty_handed {s t : Sys} {a : Label} (hm : Move s a t) (ha : a.isProcess = true)
    (hqueue : s.dataQueue = []) (hhand : s.processor.hand = []) :
    t.dataQueue = [] ∧ t.processor.hand = [] := by
  -- it has a packet, or takes one
  have hholds : ∀ {p : Process} {packet : ℕ} {rest : List ℕ}, s.processor = p →
      p.hand = packet :: rest → t.dataQueue = [] ∧ t.processor.hand = [] := by
    intro p packet rest hp hpacket
    rw [hp, hpacket] at hhand
    exact absurd hhand (by simp)
  cases hm with
  | checked hp =>
      refine ⟨hqueue, ?_⟩
      show (if s.isRunning then Process.waiting else .exited).hand = []
      split <;> rfl
  | timedOut hp => exact ⟨hqueue, rfl⟩
  | underflow hp => exact ⟨hqueue, rfl⟩
  | took packet rest hp hs hq => exact absurd (hqueue.symm.trans hq) (by simp)
  | terminated packet rest hp hs hq => exact absurd (hqueue.symm.trans hq) (by simp)
  | unanswered packet hp => exact hholds hp rfl
  | found packet sock hp => exact hholds hp rfl
  | rewritten packet sock stack behind hp => exact hholds hp rfl
  | sent packet sock hp => exact hholds hp rfl
  | unsent packet sock hp => exact hholds hp rfl
  | gaveBack packet hp => exact hholds hp rfl
  | _ => exact Bool.noConfusion ha

/-- **Step lemma.**  Every step under the condition keeps the invariant. -/
theorem SignalInv.step {s t : Locked} {l : LockLabel} (h : SignalInv s) (hok : calmSignal s l)
    (hstep : lockStep s l = some t) : SignalInv t := by
  cases l with
  | step a =>
      obtain ⟨hmay, hstep⟩ := Option.ite_none_right_eq_some.mp hstep
      obtain ⟨u, hu, rfl⟩ := Option.map_eq_some_iff.mp hstep
      have hm : Move s.sys a u := move_of_step hu
      intro hjoins
      by_cases hprocess : a.isProcess = true
      · have hstop : a ≠ .stop := by
          rintro rfl
          exact Bool.noConfusion hprocess
        rw [stopper_stable hm hstop] at hjoins
        obtain ⟨hmutex, hpool⟩ := h hjoins
        exact ⟨hmutex, fun hheld => empty_handed hm hprocess (hpool hheld).1 (hpool hheld).2⟩
      · by_cases hstop : a = .stop
        · subst hstop
          have hnot : ∀ {x : Stop}, u.stopper = x → x ≠ .storing → x ≠ .joining → False := by
            intro x hx hstoring hjoining
            rcases hjoins with hj | hj
            · exact hstoring (hx.symm.trans hj)
            · exact hjoining (hx.symm.trans hj)
          cases hm with
          | stopCalled hs =>
              by_cases hrunning : s.sys.isRunning = true
              · exact hok hs hrunning
              · exact (hnot (if_neg hrunning) (by simp) (by simp)).elim
          | stored hs => exact h (Or.inl hs)
          | drainTested hs =>
              exfalso
              by_cases hempty : s.sys.dataQueue.isEmpty = true
              · exact hnot (if_pos hempty) (by simp) (by simp)
              · exact hnot (if_neg hempty) (by simp) (by simp)
          | _ => exact (hnot rfl (by simp) (by simp)).elim
        · -- the main thread has returned from the handler
          rw [stopper_stable hm hstop, (mayRun_of_may hmay hprocess hstop).1] at hjoins
          simp at hjoins
  | lock holder =>
      obtain ⟨⟨hwants, -⟩, hstep⟩ := Option.ite_none_right_eq_some.mp hstep
      obtain rfl := Option.some.inj hstep
      intro hjoins
      cases holder with
      | run =>
          rw [hwants.1] at hjoins
          simp at hjoins
      | process => exact ⟨by simp, (h hjoins).2⟩
  | unlock holder =>
      obtain ⟨-, hstep⟩ := Option.ite_none_right_eq_some.mp hstep
      obtain rfl := Option.some.inj hstep
      exact fun hjoins => ⟨by simp, (h hjoins).2⟩
  | lockPool holder =>
      obtain ⟨⟨hwants, -⟩, hstep⟩ := Option.ite_none_right_eq_some.mp hstep
      obtain rfl := Option.some.inj hstep
      intro hjoins
      cases holder with
      | run =>
          rw [hwants.1] at hjoins
          simp at hjoins
      | process => exact ⟨(h hjoins).1, fun hheld => absurd hheld (by simp)⟩
  | unlockPool holder =>
      obtain ⟨-, hstep⟩ := Option.ite_none_right_eq_some.mp hstep
      obtain rfl := Option.some.inj hstep
      exact fun hjoins => ⟨(h hjoins).1, fun hheld => absurd hheld (by simp)⟩

/-! ## Main result -/

/-- **A signal at a calm moment does not deadlock.**  In every run in which the
condition is met whenever `stop` is called, no reachable state has `stop` in `join`
and the process thread in front of a mutex that `run` holds. -/
theorem signal_stop_no_deadlock {s : Locked} (h : lockSystem.Reachable calmSignal s) :
    ¬Deadlocked s := by
  have hinv : SignalInv s := by
    refine LTS.Reachable.induction (I := SignalInv) ?_ ?_ h
    · rintro _ rfl hjoins
      simp [fresh] at hjoins
    · intro s l t _ hs hok hstep
      exact hs.step hok hstep
  rintro ⟨hjoining, hneeds⟩
  obtain ⟨hmutex, hpool⟩ := hinv (Or.inr hjoining)
  rcases hneeds with ⟨-, hheld⟩ | ⟨hp, hheld⟩
  · exact hmutex hheld
  · have hhand := (hpool hheld).2
    cases hprocessor : s.sys.processor with
    | returning packet =>
        rw [hprocessor] at hhand
        exact absurd hhand (by simp [Process.hand])
    | _ =>
        rw [hprocessor] at hp
        exact absurd hp (by simp [Process.inPool])

/-- A client connects and sends a byte; `run` has received and stamped it, and the
process thread is at `wait_for`. -/
def receivedRun : List LockLabel :=
  [.start (.listens 3), .run, .run, .run, .run, .select (.ready {3}) 0, .run,
    .accept (.connection 4 ⟨127, 0, 0, 1, 5000⟩), .run, .run, .run, .run,
    .select (.ready {4}) 0, .run, .run].map .step ++
  [.lockPool .run, .step .run, .unlockPool .run, .step (.recv (.data [1])), .step .run,
    .step .process]

/-- The signal arrives before `run` locks `mutex`. -/
theorem signal_stop_no_deadlock_received :
    ∃ s : Locked, s.sys.stopper = .joining ∧ s.sys.processor = .waiting ∧ ¬Deadlocked s := by
  have hreach : lockSystem.Reachable calmSignal _ :=
    LTS.reachable_of_exec rfl
      (show LTS.exec _ _ _ (receivedRun ++ [.step .stop, .step .stop]) = _ from rfl)
  exact ⟨_, rfl, rfl, signal_stop_no_deadlock hreach⟩

/-- The signal arrives after `run` has locked `mutex`. -/
theorem signal_stop_deadlocks :
    ¬∀ s, lockSystem.Reachable (fun _ _ => True) s → ¬Deadlocked s := by
  intro h
  have hreach : lockSystem.Reachable (fun _ _ => True) _ :=
    LTS.reachable_of_exec rfl
      (show LTS.exec _ _ _ (receivedRun ++ [.lock .run, .step .stop, .step .stop]) = _ from rfl)
  exact h _ hreach ⟨rfl, Or.inl ⟨rfl, rfl⟩⟩

end TcpServer
