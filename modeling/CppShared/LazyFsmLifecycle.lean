/-
# Starting and stopping the event machine

`status` is the work signal of a `LazyFSM` and at the same time says whether there is a
worker: `start` and `stop` take everything but `FSM_NONE` for a running one.  Two things
go wrong.

* A `setEvent` before `start` sets the signal without a worker, so that `start` does
  nothing and `stop` joins no thread.  Without such a call the flag is right
  (`lifecycle_iff`).
* The predicate of `condit.wait` is false under `FSM_TERMINATE`, and `stop` keeps `mutex`
  while it joins.  So the worker never reaches the branch that ends `run`, and every
  `stop` of a started machine waits for ever (`stop_deadlocks`).
-/
import CppShared.LazyFsmTable

namespace LazyFsm

variable {A : Type*}

/-! ## The thread object -/

/-- `listenThread` holds a thread exactly while there is a worker, and was never assigned
over. -/
structure Threads (s : Sys A) : Prop where
  holds : s.listenThread = true ↔ s.worker ≠ .absent
  aborted : s.aborted = false

theorem threads_step {s t : Sys A} {a : Label A} (halone : Alone s) (hs : Threads s)
    (h : step s a = some t) : Threads t := by
  obtain ⟨hholds, haborted⟩ := hs
  cases move_of_step h with
  | setReady =>
      refine ⟨hholds.trans ?_, haborted⟩
      simp
  | spawnOver state ho hth => exact absurd ho ((halone.running (hholds.mp hth)).2 state)
  | spawn => exact ⟨by simp, haborted⟩
  | joined ho hth hw => exact absurd hw halone.stays
  | park hw | null _ _ hw | exec _ _ hw | wake hw | fail _ _ hw | chained _ _ _ hw
  | unchained _ _ hw =>
      refine ⟨hholds.trans ?_, haborted⟩
      simp [hw]
  | _ => exact ⟨hholds, haborted⟩

theorem threads_of_reachable {ok : Sys A → Label A → Prop} {s : Sys A}
    (h : system.Reachable ok s) : Threads s := by
  refine LTS.Reachable.induction ?_ ?_ h
  · rintro s ⟨id, state, rfl⟩
    exact ⟨by simp [fresh], rfl⟩
  · intro s a t hreach hs _ hstep
    exact threads_step (alone_of_reachable hreach) hs hstep

/-- The program goes on. -/
theorem Threads.running {s : Sys A} (h : Threads s) : ¬s.aborted = true := by
  rw [h.aborted]
  exact Bool.false_ne_true

theorem step_owner {s : Sys A} (h : Threads s) : system.step s .owner = ownerStep s :=
  if_neg h.running

theorem step_worker {s : Sys A} (h : Threads s) : system.step s .worker = workerStep s :=
  if_neg h.running

theorem step_start {s : Sys A} (h : Threads s) (state : ℤ) :
    system.step s (.start state) = start s state :=
  if_neg h.running

/-- An action returns. -/
theorem step_ret {s : Sys A} (h : Threads s) {x : Begun A} (hw : s.worker = .executing x)
    (ret : ℤ) : system.step s (.ret ret) = some (finish s x ret) := by
  show step s (.ret ret) = _
  unfold step
  rw [if_neg h.running]
  simp only [hw]

/-! ## `stop` waits for ever -/

/-- While `stop` joins, `status` is `FSM_TERMINATE` and the worker does not hold the
mutex. -/
def Joining (s : Sys A) : Prop :=
  s.owner = .joining → s.status = .terminate ∧ s.worker.holds = false

theorem joining_step {s t : Sys A} {a : Label A} (hs : Joining s) (h : step s a = some t) :
    Joining t := by
  intro hj
  cases move_of_step h with
  | setAgain id e he hf | setReady id e he hf =>
      have hj' : s.owner = .joining := hj
      simp [Sys.free, hj'] at hf
  | stopLock ho hf =>
      have hfree : s.worker.holds = false := by
        simp only [Sys.free, Bool.and_eq_true, Bool.not_eq_true'] at hf
        exact hf.1
      exact ⟨rfl, hfree⟩
  | park hw ho | null _ _ hw ho | exec _ _ hw ho => exact absurd hj ho
  | fail x ret hw | chained x p id hw | unchained x p hw =>
      have hheld := (hs hj).2
      rw [hw] at hheld
      exact absurd hheld.symm Bool.false_ne_true
  | wake => exact ⟨(hs hj).1, rfl⟩
  | spawnOver state ho =>
      have hj' : s.owner = .joining := hj
      simp [ho] at hj'
  | registerEvent | setUnknown | startSkip | stopSkip => exact hs hj
  | _ => simp at hj

theorem joining_of_reachable {ok : Sys A → Label A → Prop} {s : Sys A}
    (h : system.Reachable ok s) : Joining s := by
  refine LTS.Reachable.induction (I := Joining) ?_ ?_ h
  · rintro s ⟨id, state, rfl⟩ hj
    simp [fresh] at hj
  · intro s a t _ hs _ hstep
    exact joining_step hs hstep

/-- `stop` waits in `join`, and whatever happens the worker neither gets the mutex nor
finds its wait predicate true, and does not leave. -/
structure Deadlocked (s : Sys A) : Prop where
  joining : s.owner = .joining
  waits : s.listenThread = true
  forever : ∀ as t, system.Path (fun _ _ => True) s as t →
    t.owner = .joining ∧ t.worker ≠ .left ∧ system.step t .worker = none ∧ t.status ≠ .ready

/-- Nobody gets `stop` out of `join`. -/
theorem joining_stays {s t : Sys A} {a : Label A} (halone : Alone s)
    (hs : s.owner = .joining ∧ s.listenThread = true) (h : step s a = some t) :
    t.owner = .joining ∧ t.listenThread = true := by
  obtain ⟨hj, hth⟩ := hs
  cases move_of_step h with
  | startCall state ho | stopCall ho | stopExit ho | stopAgain ho | stopLock ho
  | spawnOver state ho | spawn state ho => simp [hj] at ho
  | joined ho hth' hw => exact absurd hw halone.stays
  | joinThrew ho hnone => exact absurd (hth.symm.trans hnone) (by simp)
  | _ => exact ⟨hj, hth⟩

/-- In `join` everybody waits. -/
theorem deadlocked_of_joining {s : Sys A} (h : system.Reachable (fun _ _ => True) s)
    (hj : s.owner = .joining) (hth : s.listenThread = true) : Deadlocked s := by
  refine ⟨hj, hth, fun as t hpath => ?_⟩
  have hstay : t.owner = .joining ∧ t.listenThread = true := by
    induction hpath with
    | nil => exact ⟨hj, hth⟩
    | snoc hp _ hstep ih =>
        have hreach := h.path hp
        exact joining_stays (alone_of_reachable hreach) ih hstep
  have hreach := h.path hpath
  refine ⟨hstay.1, (alone_of_reachable hreach).stays, ?_, ?_⟩
  · rw [step_worker (threads_of_reachable hreach), workerStep]
    split
    · exact if_pos hstay.1
    · rfl
  · rw [(joining_of_reachable hreach hstay.1).1]
    simp

/-- From the test of its loop `stop` gets into `join` when nobody holds the mutex. -/
theorem joining_of_free {s : Sys A} (h : system.Reachable (fun _ _ => True) s)
    (hth : s.listenThread = true) (hw : s.worker.holds = false)
    (ho : s.owner = .stopTest ∨ s.owner = .stopLock ∨ s.owner = .joining) :
    ∃ as t, system.Path (fun _ _ => True) s as t ∧ t.owner = .joining ∧
      t.listenThread = true := by
  have hthreads := threads_of_reachable h
  -- the step that takes the lock
  have hlock : ∀ {s : Sys A}, Threads s → s.listenThread = true → s.worker.holds = false →
      s.owner = .stopLock → ∃ t, system.step s .owner = some t ∧ t.owner = .joining ∧
        t.listenThread = true := by
    intro s hs hth hw ho
    have hfree : s.free = true := by simp [Sys.free, hw, ho]
    refine ⟨{ s with status := .terminate, owner := .joining }, ?_, rfl, hth⟩
    rw [step_owner hs, ownerStep, ho]
    exact if_pos hfree
  rcases ho with ho | ho | ho
  · have hbusy : s.status ≠ .none :=
      ((alone_of_reachable h).running (hthreads.holds.mp hth)).1
    have htest : system.step s .owner = some { s with owner := .stopLock } := by
      rw [step_owner hthreads, ownerStep, ho]
      simp [hbusy]
    have hreach := h.step trivial htest
    obtain ⟨t, hstep, ht⟩ := hlock (threads_of_reachable hreach) hth hw rfl
    exact ⟨_, t, (LTS.Path.single trivial htest).snoc trivial hstep, ht⟩
  · obtain ⟨t, hstep, ht⟩ := hlock hthreads hth hw ho
    exact ⟨_, t, LTS.Path.single trivial hstep, ht⟩
  · exact ⟨[], s, LTS.Path.nil s, ho, hth⟩

/-- **Every `stop` of a started machine deadlocks.**  From wherever it is in `stop`, the
branch that ends `run` is never reached, and unless the worker has called a null action
the deadlock is. -/
theorem stop_deadlocks {s : Sys A} (h : system.Reachable (fun _ _ => True) s)
    (hth : s.listenThread = true)
    (ho : s.owner = .stopTest ∨ s.owner = .stopLock ∨ s.owner = .joining) :
    (∀ as t, system.Path (fun _ _ => True) s as t → t.worker ≠ .left) ∧
      (s.worker ≠ .undefined →
        ∃ as t, system.Path (fun _ _ => True) s as t ∧ Deadlocked t) := by
  constructor
  · exact fun as t hpath => (alone_of_reachable (h.path hpath)).stays
  · intro hdefined
    -- the worker lets the mutex go
    have hrelease : ∃ as t, system.Path (fun _ _ => True) s as t ∧ t.listenThread = true ∧
        t.worker.holds = false ∧ t.owner = s.owner := by
      cases hw : s.worker with
      | executing x =>
          have hstep := step_ret (threads_of_reachable h) hw 1
          exact ⟨_, _, LTS.Path.single trivial hstep, hth, rfl, rfl⟩
      | undefined => exact absurd hw hdefined
      | _ => exact ⟨[], s, LTS.Path.nil s, hth, by rw [hw]; rfl, rfl⟩
    obtain ⟨as, t, hpath, hth', hfree, howner⟩ := hrelease
    rw [← howner] at ho
    obtain ⟨bs, u, hpath', hj, hju⟩ := joining_of_free (h.path hpath) hth' hfree ho
    have hall := hpath.append hpath'
    exact ⟨_, u, hall, deadlocked_of_joining (h.path hall) hj hju⟩

/-- A machine with one event is started and stopped before the worker has made a step. -/
def earlyStopRun : List (Label Unit) :=
  [.registerEvent 1 1 1 (some ()), .start 1, .owner, .stop]

/-- `stop_deadlocks` at a run of the machine. -/
theorem stop_deadlocks_early : ∃ s : Sys Unit, s.owner = .stopTest ∧
    ∃ as t, system.Path (fun _ _ => True) s as t ∧ Deadlocked t := by
  have hreach : system.Reachable (fun _ _ => True) _ :=
    LTS.reachable_of_exec ⟨0, 0, rfl⟩ (show LTS.exec _ _ _ earlyStopRun = some _ from rfl)
  exact ⟨_, rfl, (stop_deadlocks hreach rfl (Or.inl rfl)).2 (by decide)⟩

/-- `stop` can wait in `join` for a worker that is still in `run`. -/
theorem exists_deadlocked :
    ¬∀ s : Sys Unit, system.Reachable (fun _ _ => True) s → ¬Deadlocked s := by
  intro hall
  have hreach : system.Reachable (fun _ _ => True) _ :=
    LTS.reachable_of_exec ⟨0, 0, rfl⟩
      (show LTS.exec _ _ _ (earlyStopRun ++ [.owner, .owner]) = some _ from rfl)
  exact hall _ hreach (deadlocked_of_joining hreach rfl rfl)

/-! ## The lifecycle flag -/

/-- `status` says whether there is a worker, `start` makes one when there is none, and
`stop` joins a thread that is there. -/
structure Lifecycle (s : Sys A) : Prop where
  status : s.status = .none ↔ s.worker = .absent ∨ s.worker = .left
  launches : s.owner = .outside → s.worker = .absent ∨ s.worker = .left → ∀ state, ∃ t u,
    system.step s (.start state) = some t ∧ system.step t .owner = some u ∧ u.worker = .entering
  joins : s.owner = .joining → s.listenThread = true

/-- The calls of the owner and of the clients come one after another. -/
def Sequential (s : Sys A) : Label A → Prop
  | .setEvent _ => s.owner = .outside
  | _ => True

/-- A `setEvent` on a registered id finds a worker. -/
def Launched (s : Sys A) : Label A → Prop
  | .setEvent id => s.events.find? id ≠ none → s.worker ≠ .absent
  | _ => True

/-- Without a worker the flag is `FSM_NONE` and nobody is in `stop`. -/
def Idle (s : Sys A) : Prop :=
  s.worker = .absent → s.status = .none ∧
    (s.owner = .outside ∨ ∃ state, s.owner = .starting state)

theorem idle_step {s t : Sys A} {a : Label A} (halone : Alone s) (hthreads : Threads s)
    (hs : Idle s) (hok : Launched s a) (h : step s a = some t) : Idle t := by
  intro hw
  cases move_of_step h with
  | registerEvent | setUnknown | startSkip | stopSkip => exact hs hw
  | setAgain id e he | setReady id e he =>
      have hsome : s.events.find? id ≠ none := by simp [he]
      exact absurd (by simpa using hw) (hok hsome)
  | startCall state ho hnone => exact ⟨hnone, Or.inr ⟨state, rfl⟩⟩
  | stopCall ho hbusy => exact absurd (hs hw).1 hbusy
  | stopExit ho | stopAgain ho | stopLock ho | joinThrew ho =>
      rcases (hs hw).2 with hout | ⟨state, hstart⟩
      · simp [ho] at hout
      · simp [ho] at hstart
  | joined ho hth hleft => exact absurd hleft halone.stays
  | spawnOver state ho hth => exact absurd hw (hthreads.holds.mp hth)
  | _ => simp at hw

theorem idle_of_reachable {ok : Sys A → Label A → Prop} (hok : ∀ s a, ok s a → Launched s a)
    {s : Sys A} (h : system.Reachable ok s) : Idle s := by
  refine LTS.Reachable.induction (I := Idle) ?_ ?_ h
  · rintro s ⟨id, state, rfl⟩ _
    exact ⟨rfl, Or.inl rfl⟩
  · intro s a t hreach hs hguard hstep
    exact idle_step (alone_of_reachable hreach) (threads_of_reachable hreach) hs
      (hok s a hguard) hstep

/-- A machine that is idle without a worker has a right lifecycle flag. -/
theorem Idle.lifecycle {s : Sys A} (hs : Idle s) (halone : Alone s) (hthreads : Threads s) :
    Lifecycle s := by
  have habs : s.worker = .absent ∨ s.worker = .left → s.worker = .absent :=
    fun hw => hw.resolve_right halone.stays
  refine ⟨⟨fun hnone => ?_, fun hw => (hs (habs hw)).1⟩, fun ho hw state => ?_, fun ho => ?_⟩
  · by_contra hw
    rw [not_or] at hw
    exact (halone.running hw.1).1 hnone
  · -- `start` reads `FSM_NONE` and finds a thread object without a thread
    have hnone := (hs (habs hw)).1
    have hth : s.listenThread = false := by
      rw [← Bool.not_eq_true, hthreads.holds]
      exact not_not.mpr (habs hw)
    have hcall : system.step s (.start state) = some { s with owner := .starting state } := by
      rw [step_start hthreads, start, ho]
      exact congrArg some (if_pos hnone)
    have hnext : Threads { s with owner := .starting state } := ⟨hthreads.holds, hthreads.aborted⟩
    refine ⟨_, spawn { s with owner := .starting state } state, hcall, ?_, ?_⟩
    · rw [step_owner hnext]
      rfl
    · rw [spawn, hth]
      rfl
  · by_contra hth
    rw [hthreads.holds, not_not] at hth
    rcases (hs hth).2 with hout | ⟨state, hstart⟩
    · simp [ho] at hout
    · simp [ho] at hstart

/-- The flag is set without a worker, and no `start` will make one. -/
def Orphaned (s : Sys A) : Prop :=
  s.worker = .absent ∧ s.status ≠ .none ∧ ∀ state, s.owner ≠ .starting state

theorem orphaned_of_early {s t : Sys A} {a : Label A} (hseq : Sequential s a)
    (hearly : ¬Launched s a) (h : step s a = some t) : Orphaned t := by
  cases move_of_step h with
  | setUnknown id hnone => exact absurd (fun hsome => absurd hnone hsome) hearly
  | setAgain id e he hf hready =>
      have ho : s.owner = .outside := hseq
      have hw : s.worker = .absent := by
        by_contra hw
        exact hearly fun _ => hw
      exact ⟨hw, by simp [hready], fun state => by simp [ho]⟩
  | setReady id e he =>
      have ho : s.owner = .outside := hseq
      have hw : s.worker = .absent := by
        by_contra hw
        exact hearly fun _ => hw
      exact ⟨by simp [hw, Worker.notified], by simp, fun state => by simp [ho]⟩
  | _ => exact absurd trivial hearly

theorem orphaned_step {s t : Sys A} {a : Label A} (hs : Orphaned s) (h : step s a = some t) :
    Orphaned t := by
  obtain ⟨hw, hbusy, ho⟩ := hs
  cases move_of_step h with
  | setReady => exact ⟨by simp [hw, Worker.notified], by simp, ho⟩
  | startCall state ho' hnone => exact absurd hnone hbusy
  | stopCall | stopAgain | joinThrew => exact ⟨hw, hbusy, by simp⟩
  | stopExit ho' hnone => exact absurd hnone hbusy
  | stopLock => exact ⟨hw, by simp, by simp⟩
  | spawnOver state ho' | spawn state ho' => exact absurd ho' (ho state)
  | joined _ _ hw' | park hw' | null _ _ hw' | exec _ _ hw' | wake hw' | fail _ _ hw'
  | chained _ _ _ hw' | unchained _ _ hw' => simp [hw] at hw'
  | _ => exact ⟨hw, hbusy, ho⟩

/-- **The lifecycle flag is right** after every sequence of calls in which no `setEvent`
on a registered id comes before there is a worker, and after no other. -/
theorem lifecycle_iff {s₀ s : Sys A} {as : List (Label A)} (h₀ : system.init s₀)
    (h : system.Path Sequential s₀ as s) :
    Lifecycle s ↔ system.Path (fun s a => Sequential s a ∧ Launched s a) s₀ as s := by
  have hlifecycle : ∀ {s : Sys A},
      system.Reachable (fun s a => Sequential s a ∧ Launched s a) s → Lifecycle s := by
    intro s hreach
    exact (idle_of_reachable (fun _ _ hok => hok.2) hreach).lifecycle
      (alone_of_reachable hreach) (threads_of_reachable hreach)
  refine LTS.Path.exact (B := Orphaned) h₀ h ?_ ?_ ?_ ?_ ?_
  · exact fun s hs => hlifecycle (LTS.Reachable.init hs)
  · exact fun s a t hreach _ hok hstep => hlifecycle (hreach.step hok hstep)
  · intro s a t _ hseq hearly hstep
    exact orphaned_of_early hseq (fun hok => hearly ⟨hseq, hok⟩) hstep
  · intro s a t _ hbad _ hstep
    exact orphaned_step hbad hstep
  · rintro s hs ⟨hw, hbusy, -⟩
    exact hbusy (hs.status.mpr (Or.inl hw))

instance decidableSequential (s : Sys Unit) (a : Label Unit) : Decidable (Sequential s a) :=
  match a with
  | .setEvent _ => inferInstanceAs (Decidable (s.owner = .outside))
  | .registerEvent _ _ _ _ | .start _ | .stop | .owner | .worker | .ret _ | .wake =>
      inferInstanceAs (Decidable True)

/-- `lifecycle_iff` at a run of the machine. -/
theorem lifecycle_loop : ∃ s : Sys Unit, Lifecycle s ↔
    system.Path (fun s a => Sequential s a ∧ Launched s a) (fresh 0 0) loopRun s :=
  ⟨_, lifecycle_iff ⟨0, 0, rfl⟩ (LTS.path_of_exec (show LTS.exec _ _ _ loopRun = some _ from rfl))⟩

/-- A request comes first: `start` does not start, and `stop` joins no thread. -/
def earlyRequestRun : List (Label Unit) :=
  [.registerEvent 1 1 1 (some ()), .setEvent 1, .start 1, .stop, .owner, .owner]

/-- The flag is set without a worker, and `stop` joins a thread object that holds none. -/
theorem exists_not_lifecycle :
    ∃ s : Sys Unit, system.Path Sequential (fresh 0 0) earlyRequestRun s ∧
      s.worker = .absent ∧ s.status ≠ .none ∧ s.owner = .joining ∧ s.listenThread = false ∧
      ¬Lifecycle s := by
  refine ⟨_, LTS.path_of_exec (show LTS.exec _ _ _ earlyRequestRun = some _ from rfl),
    rfl, by decide, rfl, rfl, fun hs => ?_⟩
  exact absurd (hs.joins rfl) (by decide)

end LazyFsm
