/-
# The pipeline of worker threads (`src/pipeline.hpp`)

`Pipeline<T>` owns one queue of values, one word `state` and four worker
threads.  Callers put values in with `dispatch`; the workers take them out and
call the handler registered for the value's type.  Everything shared is touched
in critical sections of one mutex, apart from the reads of `state` in `start`
and `stop`, which take no lock.

The model is a transition system.  Its atomic steps are the critical sections
(`dispatch`, the assignments of `start` and `stop`, the wait-and-take section of
`impl`) and, separately, each unlocked read of `state`, each thread creation and
each `join`.  A label says which thread moves and carries the scheduler's
choices: the waiter that `notify_one` wakes, and spurious wakeups.

* `workers` holds every worker thread ever created, a `std::thread` object in
  `threads` refers to one of them by its index;
* `callers` are the client threads that run `start` and `stop`, any number of
  them; `dispatch` is one critical section and may be executed by anybody at any
  time, handlers included;
* `accepted`, `taken` and `calls` record what `dispatch` accepted, what the
  workers dequeued and which handlers they called.
-/
import CppShared.Transition
import CppShared.OrderedMap

namespace Pipeline

/-- `max_thread_num`. -/
def maxThreadNum : ℕ := 4

/-- `enum State`. -/
inductive State
  | none
  | idel
  | ready
  | terminate
  deriving DecidableEq, Repr

/-- Where a worker thread is in `impl`. -/
inductive Worker (T : Type*)
  /-- About to lock `mutex`: at the head of the loop, or woken inside `condit.wait`. -/
  | entering
  /-- Blocked in `condit.wait`, the mutex released. -/
  | parked
  /-- Out of the section with the `k`-th dequeued value, at `mapper.find`. -/
  | taken (k : ℕ) (value : T)
  /-- Inside the handler called for the `k`-th dequeued value. -/
  | handling (k : ℕ) (value : T)
  /-- Returned from `impl`. -/
  | left
  /-- Executed `front()`/`pop()` on an empty queue. -/
  | undefined
  deriving DecidableEq, Repr

/-- Where a client thread is in `start` or `stop`. -/
inductive Caller
  | outside
  /-- `start` read `STATE_NONE` and is about to lock and assign `STATE_IDEL`. -/
  | startLock
  /-- `start` is about to assign `threads[i]`. -/
  | startSpawn (i : ℕ)
  /-- `stop` is at the test of `while (state != STATE_NONE)`. -/
  | stopTest
  /-- `stop` is about to lock and assign `STATE_TERMINATE`. -/
  | stopLock
  /-- `stop` is about to join `threads[i]`. -/
  | stopJoin (i : ℕ)
  /-- `join` on a thread object without a thread threw. -/
  | threw
  deriving DecidableEq, Repr

/-- A handler call: the worker, the position of the value among the dequeued
values, the handler and the value it was called with. -/
structure Call (T F : Type*) where
  worker : ℕ
  index : ℕ
  func : F
  value : T
  deriving DecidableEq, Repr

/-- The object, its threads, its clients and the history of the run. -/
structure Sys (T F : Type*) where
  dataQueue : List T
  state : State
  threads : List (Option ℕ)
  workers : List (Worker T)
  callers : List Caller
  /-- `std::terminate` was called: a thread object was assigned over. -/
  aborted : Bool
  accepted : List T
  taken : List (ℕ × T)
  calls : List (Call T F)

/-- A step: which thread moves, and the choices it depends on. -/
inductive Label (T : Type*)
  /-- Somebody calls `dispatch`; `woken` is the waiter that `notify_one` unblocks. -/
  | dispatch (data : T) (woken : Option ℕ)
  /-- Client `c` calls `start` and reads `state`. -/
  | start (c : ℕ)
  /-- Client `c` calls `stop` and reads `state`. -/
  | stop (c : ℕ)
  /-- Client `c` takes its next step inside `start` or `stop`. -/
  | caller (c : ℕ)
  /-- Worker `w` takes its next step in `impl`. -/
  | worker (w : ℕ)
  /-- Worker `w` wakes up spuriously. -/
  | wake (w : ℕ)
  deriving DecidableEq, Repr

variable {T F Ty : Type*}

/-! ## The condition variable -/

/-- Blocked in `condit.wait`. -/
def Worker.isParked : Worker T → Bool
  | .parked => true
  | _ => false

/-- A thread blocked on `condit` goes for the mutex again; others are unaffected. -/
def Worker.notified : Worker T → Worker T
  | .parked => .entering
  | w => w

/-- `condit.notify_all()`. -/
def notifyAll (ws : List (Worker T)) : List (Worker T) := ws.map Worker.notified

/-- `condit.notify_one()`: one of the blocked threads is unblocked, none only
when no thread is blocked. -/
def notifyOne (ws : List (Worker T)) : Option ℕ → Option (List (Worker T))
  | some w =>
      match ws[w]? with
      | some .parked => some (ws.set w .entering)
      | _ => none
  | none => if ws.any Worker.isParked then none else some ws

/-! ## Registration and dispatch -/

/-- `registerHandler`: `map::insert` keeps a handler that is already there. -/
def registerHandler [LinearOrder Ty] (mapper : OrderedMap Ty F) (type : Ty) (func : F) :
    OrderedMap Ty F :=
  mapper.insert type func

/-- `dispatch`, one critical section. -/
def dispatch (s : Sys T F) (data : T) (woken : Option ℕ) : Option (Sys T F) :=
  if s.state = .none ∨ s.state = .terminate then some s
  else
    (notifyOne s.workers woken).map fun ws =>
      { s with
        dataQueue := s.dataQueue ++ [data]
        state := .ready
        workers := ws
        accepted := s.accepted ++ [data] }

/-! ## The worker loop `impl` -/

/-- The wait-and-take section of `impl`, entered by worker `w`: the predicate of
`condit.wait` is evaluated under the lock, and the thread either blocks or runs
to the end of the section. -/
def waitAndTake (s : Sys T F) (w : ℕ) : Sys T F :=
  match s.state with
  | .terminate => { s with state := .none, workers := s.workers.set w .left }
  | .ready =>
      match s.dataQueue with
      | [] => { s with workers := s.workers.set w .undefined }
      | value :: rest =>
          let workers := s.workers.set w (.taken s.taken.length value)
          if rest.isEmpty then
            { s with
              dataQueue := rest
              state := .idel
              workers := notifyAll workers
              taken := s.taken ++ [(w, value)] }
          else
            { s with
              dataQueue := rest
              workers := workers
              taken := s.taken ++ [(w, value)] }
  | _ => { s with workers := s.workers.set w .parked }

section Steps

variable [LinearOrder Ty] (type : T → Ty) (mapper : OrderedMap Ty F)

/-- `mapper.find(value.type)` and, if there is a handler, its call. -/
def lookup (s : Sys T F) (w k : ℕ) (value : T) : Sys T F :=
  match mapper.find? (type value) with
  | none => { s with workers := s.workers.set w .entering }
  | some func =>
      { s with
        workers := s.workers.set w (.handling k value)
        calls := s.calls ++ [⟨w, k, func, value⟩] }

/-- The next step of worker `w`; disabled while it is blocked and once it left. -/
def workerStep (s : Sys T F) (w : ℕ) : Option (Sys T F) :=
  match s.workers[w]? with
  | some .entering => some (waitAndTake s w)
  | some (.taken k value) => some (lookup type mapper s w k value)
  | some (.handling _ _) => some { s with workers := s.workers.set w .entering }
  | _ => none

/-- `condit.wait` returns without a notification. -/
def wake (s : Sys T F) (w : ℕ) : Option (Sys T F) :=
  match s.workers[w]? with
  | some .parked => some { s with workers := s.workers.set w .entering }
  | _ => none

/-! ## `start` and `stop` -/

/-- The first, unlocked read of `start`. -/
def start (s : Sys T F) (c : ℕ) : Option (Sys T F) :=
  match s.callers[c]? with
  | some .outside =>
      if s.state = .none then some { s with callers := s.callers.set c .startLock } else some s
  | _ => none

/-- The first, unlocked read of `stop`. -/
def stop (s : Sys T F) (c : ℕ) : Option (Sys T F) :=
  match s.callers[c]? with
  | some .outside =>
      if s.state = .none then some s else some { s with callers := s.callers.set c .stopTest }
  | _ => none

/-- `threads[i] = std::thread(&Pipeline::impl, this)`; assigning over an object
that still holds a thread calls `std::terminate`. -/
def spawn (s : Sys T F) (c i : ℕ) : Sys T F :=
  if i < maxThreadNum then
    match s.threads[i]? with
    | some (some _) => { s with aborted := true }
    | _ =>
        { s with
          workers := s.workers ++ [.entering]
          threads := s.threads.set i (some s.workers.length)
          callers := s.callers.set c (.startSpawn (i + 1)) }
  else { s with callers := s.callers.set c .outside }

/-- `threads[i].join()`: blocks until the thread has left `impl`. -/
def join (s : Sys T F) (c i : ℕ) : Option (Sys T F) :=
  if i < maxThreadNum then
    match s.threads[i]? with
    | some (some w) =>
        match s.workers[w]? with
        | some .left =>
            some { s with
              threads := s.threads.set i none
              callers := s.callers.set c (.stopJoin (i + 1)) }
        | _ => none
    | _ => some { s with callers := s.callers.set c .threw }
  else some { s with callers := s.callers.set c .outside }

/-- The next step of client `c` inside `start` or `stop`. -/
def callerStep (s : Sys T F) (c : ℕ) : Option (Sys T F) :=
  match s.callers[c]? with
  | some .startLock =>
      some { s with
        state := .idel
        workers := notifyAll s.workers
        callers := s.callers.set c (.startSpawn 0) }
  | some (.startSpawn i) => some (spawn s c i)
  | some .stopTest =>
      some { s with
        callers := s.callers.set c (if s.state = .none then .stopJoin 0 else .stopLock) }
  | some .stopLock =>
      some { s with
        state := .terminate
        workers := notifyAll s.workers
        callers := s.callers.set c .stopTest }
  | some (.stopJoin i) => join s c i
  | _ => none

/-! ## The system -/

/-- One step of the pipeline and everything around it. -/
def step (s : Sys T F) (a : Label T) : Option (Sys T F) :=
  if s.aborted then none
  else
    match a with
    | .dispatch data woken => dispatch s data woken
    | .start c => start s c
    | .stop c => stop s c
    | .caller c => callerStep s c
    | .worker w => workerStep type mapper s w
    | .wake w => wake s w

/-- A constructed pipeline and `n` clients outside of it. -/
def fresh (n : ℕ) : Sys T F where
  dataQueue := []
  state := .none
  threads := List.replicate maxThreadNum none
  workers := []
  callers := List.replicate n .outside
  aborted := false
  accepted := []
  taken := []
  calls := []

/-- The pipeline with any number of clients. -/
def system : LTS (Sys T F) (Label T) where
  init s := ∃ n, s = fresh n
  step := step type mapper

/-! ## What a step can do

`Move s a t` lists the outcomes of every label once; the invariants are proved by
cases on it and never unfold the step function. -/

/-- The outcomes of a step, one constructor for each path through the code. -/
inductive Move (s : Sys T F) : Label T → Sys T F → Prop
  | refused (data : T) (woken : Option ℕ) (h : s.state = .none ∨ s.state = .terminate) :
      Move s (.dispatch data woken) s
  | accepted (data : T) (woken : Option ℕ) (ws : List (Worker T))
      (h : ¬(s.state = .none ∨ s.state = .terminate)) (hws : notifyOne s.workers woken = some ws) :
      Move s (.dispatch data woken)
        { s with
          dataQueue := s.dataQueue ++ [data]
          state := .ready
          workers := ws
          accepted := s.accepted ++ [data] }
  | startSkip (c : ℕ) (hc : s.callers[c]? = some .outside) (h : s.state ≠ .none) :
      Move s (.start c) s
  | startCall (c : ℕ) (hc : s.callers[c]? = some .outside) (h : s.state = .none) :
      Move s (.start c) { s with callers := s.callers.set c .startLock }
  | stopSkip (c : ℕ) (hc : s.callers[c]? = some .outside) (h : s.state = .none) :
      Move s (.stop c) s
  | stopCall (c : ℕ) (hc : s.callers[c]? = some .outside) (h : s.state ≠ .none) :
      Move s (.stop c) { s with callers := s.callers.set c .stopTest }
  | startLock (c : ℕ) (hc : s.callers[c]? = some .startLock) :
      Move s (.caller c)
        { s with
          state := .idel
          workers := notifyAll s.workers
          callers := s.callers.set c (.startSpawn 0) }
  | spawnOver (c i w : ℕ) (hc : s.callers[c]? = some (.startSpawn i)) (hi : i < maxThreadNum)
      (hth : s.threads[i]? = some (some w)) :
      Move s (.caller c) { s with aborted := true }
  | spawn (c i : ℕ) (hc : s.callers[c]? = some (.startSpawn i)) (hi : i < maxThreadNum)
      (hth : ∀ w, s.threads[i]? ≠ some (some w)) :
      Move s (.caller c)
        { s with
          workers := s.workers ++ [.entering]
          threads := s.threads.set i (some s.workers.length)
          callers := s.callers.set c (.startSpawn (i + 1)) }
  | startDone (c i : ℕ) (hc : s.callers[c]? = some (.startSpawn i)) (hi : ¬i < maxThreadNum) :
      Move s (.caller c) { s with callers := s.callers.set c .outside }
  | stopExit (c : ℕ) (hc : s.callers[c]? = some .stopTest) (h : s.state = .none) :
      Move s (.caller c) { s with callers := s.callers.set c (.stopJoin 0) }
  | stopAgain (c : ℕ) (hc : s.callers[c]? = some .stopTest) (h : s.state ≠ .none) :
      Move s (.caller c) { s with callers := s.callers.set c .stopLock }
  | stopLock (c : ℕ) (hc : s.callers[c]? = some .stopLock) :
      Move s (.caller c)
        { s with
          state := .terminate
          workers := notifyAll s.workers
          callers := s.callers.set c .stopTest }
  | joined (c i w : ℕ) (hc : s.callers[c]? = some (.stopJoin i)) (hi : i < maxThreadNum)
      (hth : s.threads[i]? = some (some w)) (hw : s.workers[w]? = some .left) :
      Move s (.caller c)
        { s with
          threads := s.threads.set i none
          callers := s.callers.set c (.stopJoin (i + 1)) }
  | joinThrew (c i : ℕ) (hc : s.callers[c]? = some (.stopJoin i)) (hi : i < maxThreadNum)
      (hth : ∀ w, s.threads[i]? ≠ some (some w)) :
      Move s (.caller c) { s with callers := s.callers.set c .threw }
  | stopDone (c i : ℕ) (hc : s.callers[c]? = some (.stopJoin i)) (hi : ¬i < maxThreadNum) :
      Move s (.caller c) { s with callers := s.callers.set c .outside }
  | leave (w : ℕ) (hw : s.workers[w]? = some .entering) (h : s.state = .terminate) :
      Move s (.worker w) { s with state := .none, workers := s.workers.set w .left }
  | underflow (w : ℕ) (hw : s.workers[w]? = some .entering) (h : s.state = .ready)
      (hq : s.dataQueue = []) :
      Move s (.worker w) { s with workers := s.workers.set w .undefined }
  | takeLast (w : ℕ) (value : T) (hw : s.workers[w]? = some .entering) (h : s.state = .ready)
      (hq : s.dataQueue = [value]) :
      Move s (.worker w)
        { s with
          dataQueue := []
          state := .idel
          workers := notifyAll (s.workers.set w (.taken s.taken.length value))
          taken := s.taken ++ [(w, value)] }
  | take (w : ℕ) (value : T) (rest : List T) (hw : s.workers[w]? = some .entering)
      (h : s.state = .ready) (hq : s.dataQueue = value :: rest) (hrest : rest ≠ []) :
      Move s (.worker w)
        { s with
          dataQueue := rest
          workers := s.workers.set w (.taken s.taken.length value)
          taken := s.taken ++ [(w, value)] }
  | park (w : ℕ) (hw : s.workers[w]? = some .entering)
      (h : s.state = .none ∨ s.state = .idel) :
      Move s (.worker w) { s with workers := s.workers.set w .parked }
  | unhandled (w k : ℕ) (value : T) (hw : s.workers[w]? = some (.taken k value))
      (hf : mapper.find? (type value) = none) :
      Move s (.worker w) { s with workers := s.workers.set w .entering }
  | call (w k : ℕ) (value : T) (func : F) (hw : s.workers[w]? = some (.taken k value))
      (hf : mapper.find? (type value) = some func) :
      Move s (.worker w)
        { s with
          workers := s.workers.set w (.handling k value)
          calls := s.calls ++ [⟨w, k, func, value⟩] }
  | finish (w k : ℕ) (value : T) (hw : s.workers[w]? = some (.handling k value)) :
      Move s (.worker w) { s with workers := s.workers.set w .entering }
  | wake (w : ℕ) (hw : s.workers[w]? = some .parked) :
      Move s (.wake w) { s with workers := s.workers.set w .entering }

variable {type mapper}

/-- The wait-and-take section has the outcomes of `Move`. -/
theorem move_waitAndTake {s : Sys T F} {w : ℕ} (hw : s.workers[w]? = some .entering) :
    Move type mapper s (.worker w) (waitAndTake s w) := by
  cases hs : s.state with
  | none =>
      have hpark : waitAndTake s w = { s with workers := s.workers.set w .parked } := by
        simp [waitAndTake, hs]
      exact hpark ▸ .park w hw (.inl hs)
  | idel =>
      have hpark : waitAndTake s w = { s with workers := s.workers.set w .parked } := by
        simp [waitAndTake, hs]
      exact hpark ▸ .park w hw (.inr hs)
  | terminate =>
      have hleave : waitAndTake s w =
          { s with state := .none, workers := s.workers.set w .left } := by
        simp [waitAndTake, hs]
      exact hleave ▸ .leave w hw hs
  | ready =>
      cases hq : s.dataQueue with
      | nil =>
          have hunder : waitAndTake s w = { s with workers := s.workers.set w .undefined } := by
            simp [waitAndTake, hs, hq]
          exact hunder ▸ .underflow w hw hs hq
      | cons value rest =>
          by_cases hrest : rest = []
          · subst hrest
            have hlast : Move type mapper s (.worker w) _ := .takeLast w value hw hs hq
            simpa [waitAndTake, hs, hq] using hlast
          · have htake : Move type mapper s (.worker w) _ := .take w value rest hw hs hq hrest
            simpa [waitAndTake, hs, hq, hrest] using htake

/-- A step of a worker has the outcomes of `Move`. -/
theorem move_workerStep {s t : Sys T F} {w : ℕ} (h : workerStep type mapper s w = some t) :
    Move type mapper s (.worker w) t := by
  unfold workerStep at h
  cases hw : s.workers[w]? with
  | none => simp [hw] at h
  | some p =>
      cases p with
      | entering =>
          obtain rfl : waitAndTake s w = t := by simpa [hw] using h
          exact move_waitAndTake hw
      | taken k value =>
          obtain rfl : lookup type mapper s w k value = t := by simpa [hw] using h
          unfold lookup
          cases hf : mapper.find? (type value) with
          | none => exact .unhandled w k value hw hf
          | some func => exact .call w k value func hw hf
      | handling k value =>
          obtain rfl := Option.some.inj (by simpa [hw] using h)
          exact .finish w k value hw
      | parked => simp [hw] at h
      | left => simp [hw] at h
      | undefined => simp [hw] at h

/-- A step of a client inside `start` or `stop` has the outcomes of `Move`. -/
theorem move_callerStep {s t : Sys T F} {c : ℕ} (h : callerStep s c = some t) :
    Move type mapper s (.caller c) t := by
  unfold callerStep at h
  cases hc : s.callers[c]? with
  | none => simp [hc] at h
  | some p =>
      cases p with
      | outside => simp [hc] at h
      | threw => simp [hc] at h
      | startLock =>
          obtain rfl := Option.some.inj (by simpa [hc] using h)
          exact .startLock c hc
      | startSpawn i =>
          obtain rfl : spawn s c i = t := by simpa [hc] using h
          unfold spawn
          split_ifs with hi
          · split
            · next w hth => exact .spawnOver c i w hc hi hth
            · next hth => exact .spawn c i hc hi hth
          · exact .startDone c i hc hi
      | stopTest =>
          obtain rfl := Option.some.inj (by simpa [hc] using h)
          by_cases hs : s.state = .none
          · simpa [hs] using Move.stopExit c hc hs
          · simpa [hs] using Move.stopAgain c hc hs
      | stopLock =>
          obtain rfl := Option.some.inj (by simpa [hc] using h)
          exact .stopLock c hc
      | stopJoin i =>
          replace h : join s c i = some t := by simpa [hc] using h
          unfold join at h
          split_ifs at h with hi
          · split at h
            · next w hth =>
                split at h
                · next hw =>
                    obtain rfl := Option.some.inj h
                    exact .joined c i w hc hi hth hw
                · exact absurd h (by simp)
            · next hth =>
                obtain rfl := Option.some.inj h
                exact .joinThrew c i hc hi hth
          · obtain rfl := Option.some.inj h
            exact .stopDone c i hc hi

/-- Nothing moves once the program was aborted. -/
theorem not_aborted_of_step {s t : Sys T F} {a : Label T}
    (h : (system type mapper).step s a = some t) : s.aborted = false := by
  by_contra hab
  rw [Bool.not_eq_false] at hab
  have hnone : (system type mapper).step s a = none := by
    show step type mapper s a = none
    unfold step
    exact if_pos hab
  rw [hnone] at h
  exact absurd h (by simp)

/-- **Step inversion**: a step of the system is one of the moves. -/
theorem move_of_step {s t : Sys T F} {a : Label T} (h : (system type mapper).step s a = some t) :
    Move type mapper s a t := by
  change step type mapper s a = some t at h
  unfold step at h
  split_ifs at h
  cases a with
  | dispatch data woken =>
      change dispatch s data woken = some t at h
      unfold dispatch at h
      split_ifs at h with hs
      · obtain rfl := Option.some.inj h
        exact .refused data woken hs
      · obtain ⟨ws, hws, rfl⟩ := Option.map_eq_some_iff.mp h
        exact .accepted data woken ws hs hws
  | start c =>
      change start s c = some t at h
      unfold start at h
      split at h
      · next hc =>
          split_ifs at h with hs
          · obtain rfl := Option.some.inj h
            exact .startCall c hc hs
          · obtain rfl := Option.some.inj h
            exact .startSkip c hc hs
      · exact absurd h (by simp)
  | stop c =>
      change stop s c = some t at h
      unfold stop at h
      split at h
      · next hc =>
          split_ifs at h with hs
          · obtain rfl := Option.some.inj h
            exact .stopSkip c hc hs
          · obtain rfl := Option.some.inj h
            exact .stopCall c hc hs
      · exact absurd h (by simp)
  | caller c => exact move_callerStep h
  | worker w => exact move_workerStep h
  | wake w =>
      change wake s w = some t at h
      unfold wake at h
      split at h
      · next hw =>
          obtain rfl := Option.some.inj h
          exact .wake w hw
      · exact absurd h (by simp)

end Steps

end Pipeline
