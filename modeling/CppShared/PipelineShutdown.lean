/-
# Stopping the pipeline

`stop` tells the workers to leave by writing `STATE_TERMINATE` into the state
word, and a worker that leaves answers by writing `STATE_NONE` into the same
word.  One answer ends the loop of `stop`, however many workers are still in
`impl`; these find `STATE_NONE` and block for good, and `stop` waits for them in
`join`.

The runs considered are those of one client that starts the pipeline once and
stops it (`oneStop`), with any dispatchers.  The main result is the exact
condition: `stop` never deadlocks while every `STATE_NONE` its test reads comes
after the last worker has left (`exitOk`), and from every state that violates
this a deadlock is reachable.
-/
import CppShared.PipelineQueue

namespace Pipeline

variable {T F Ty : Type*}

/-! ## The runs of one `start` and one `stop` -/

/-- Client `0` alone calls `start`, before there is any worker, and `stop`. -/
def oneStop (s : Sys T F) : Label T → Prop
  | .start c => c = 0 ∧ s.workers.isEmpty
  | .stop c => c = 0
  | _ => True

instance (s : Sys T F) (a : Label T) : Decidable (oneStop s a) :=
  match a with
  | .start c => inferInstanceAs (Decidable (c = 0 ∧ s.workers.isEmpty))
  | .stop c => inferInstanceAs (Decidable (c = 0))
  | .dispatch _ _ | .caller _ | .worker _ | .wake _ => inferInstanceAs (Decidable True)

/-- When the test of `stop` reads `STATE_NONE`, every worker has left `impl`. -/
def exitOk (s : Sys T F) : Label T → Prop
  | .caller c => s.callers[c]? = some .stopTest → s.state = .none → ∀ p ∈ s.workers, p = .left
  | _ => True

instance [DecidableEq T] (s : Sys T F) (a : Label T) : Decidable (exitOk s a) :=
  match a with
  | .caller c => inferInstanceAs (Decidable
      (s.callers[c]? = some .stopTest → s.state = .none → ∀ p ∈ s.workers, p = .left))
  | .dispatch _ _ | .start _ | .stop _ | .worker _ | .wake _ => inferInstanceAs (Decidable True)

/-- A remaining step of `stop` or of a worker. -/
def stopOrWorker (_ : Sys T F) : Label T → Prop
  | .caller c => c = 0
  | .worker _ => True
  | .wake _ => True
  | _ => False

/-- The predicate of `condit.wait`. -/
def waitPredicate (s : Sys T F) : Prop := s.state = .ready ∨ s.state = .terminate

section Shutdown

variable [LinearOrder Ty] (type : T → Ty) (mapper : OrderedMap Ty F)

/-- `stop` waits in `join`, a worker is blocked on `condit`, and no remaining step
of `stop` or of a worker makes the wait predicate true. -/
structure Deadlocked (s : Sys T F) : Prop where
  joining : ∃ i, s.callers[0]? = some (.stopJoin i)
  parked : ∃ w : ℕ, s.workers[w]? = some .parked
  forever : ∀ as t, (system type mapper).Path stopOrWorker s as t → ¬waitPredicate t

variable {type mapper}

/-! ## One client -/

/-- The clients other than `0` stay outside, and an aborted program was in `start`. -/
structure OneClient (s : Sys T F) : Prop where
  others : ∀ c : ℕ, c ≠ 0 → ∀ p ∈ s.callers[c]?, p = .outside
  aborted : s.aborted = true → ∃ i, s.callers[0]? = some (.startSpawn i)

/-- The client that moves inside `start` or `stop` is client `0`. -/
theorem OneClient.eq_zero {s : Sys T F} (h : OneClient s) {c : ℕ} {p : Caller}
    (hc : s.callers[c]? = some p) (hp : p ≠ .outside) : c = 0 := by
  by_contra hne
  exact hp (h.others c hne p hc)

/-- A step that leaves the clients alone and does not abort. -/
theorem OneClient.congr {s t : Sys T F} (h : OneClient s) (hcallers : t.callers = s.callers)
    (haborted : t.aborted = s.aborted) : OneClient t := by
  constructor
  · rw [hcallers]
    exact h.others
  · rw [hcallers, haborted]
    exact h.aborted

/-- A step of client `0` that does not abort. -/
theorem OneClient.set {s t : Sys T F} (h : OneClient s) {p q : Caller}
    (hc : s.callers[0]? = some p) (hcallers : t.callers = s.callers.set 0 q)
    (haborted : t.aborted = false) : OneClient t := by
  constructor
  · intro c hne r hr
    rw [hcallers] at hr
    rcases (getElem?_set_iff hc).mp hr with ⟨rfl, -⟩ | ⟨-, hr⟩
    · exact absurd rfl hne
    · exact h.others c hne r hr
  · intro hab
    rw [haborted] at hab
    exact absurd hab (by simp)

/-- **Step lemma.**  One client stays one client. -/
theorem OneClient.move {s t : Sys T F} {a : Label T} (h : OneClient s) (hok : oneStop s a)
    (hab : s.aborted = false) (hm : Move type mapper s a t) : OneClient t := by
  -- a client that moves is client 0
  have hset : ∀ {c : ℕ} {p q : Caller} {u : Sys T F}, s.callers[c]? = some p → c = 0 →
      u.callers = s.callers.set c q → u.aborted = s.aborted → OneClient u := by
    rintro c p q u hc rfl hu hab'
    exact h.set hc hu (hab'.trans hab)
  cases hm with
  | startCall c hc => exact hset hc hok.1 rfl rfl
  | stopCall c hc => exact hset hc hok rfl rfl
  | startLock _ hc | spawn _ _ hc | startDone _ _ hc | stopExit _ hc | stopAgain _ hc
  | stopLock _ hc | joined _ _ _ hc | joinThrew _ _ hc | stopDone _ _ hc =>
      exact hset hc (h.eq_zero hc (by simp)) rfl rfl
  | spawnOver c i w hc =>
      obtain rfl := h.eq_zero hc (by simp)
      exact ⟨h.others, fun _ => ⟨i, hc⟩⟩
  | _ => exact h.congr rfl rfl

/-- Every state of a run of one client has one client. -/
theorem oneClient_of_reachable {s : Sys T F} (h : (system type mapper).Reachable oneStop s) :
    OneClient s := by
  refine LTS.Reachable.induction (I := OneClient) ?_ ?_ h
  · rintro _ ⟨n, rfl⟩
    refine ⟨fun c _ p hp => ?_, fun hab => absurd hab (by simp [fresh])⟩
    exact List.eq_of_mem_replicate (List.mem_of_getElem? hp)
  · intro s a t _ hs hok hstep
    exact hs.move hok (not_aborted_of_step hstep) (move_of_step hstep)

/-! ## No deadlock when `stop` leaves its loop last -/

/-- Past the loop of `stop` every worker has left `impl`. -/
def AllOut (s : Sys T F) : Prop :=
  ∀ i, s.callers[0]? = some (.stopJoin i) → ∀ p ∈ s.workers, p = .left

/-- With all workers gone a notification reaches nobody. -/
theorem notifyOne_of_left {ws ws' : List (Worker T)} {woken : Option ℕ}
    (hall : ∀ p ∈ ws, p = .left) (h : notifyOne ws woken = some ws') : ws' = ws := by
  cases woken with
  | none =>
      simp only [notifyOne] at h
      split_ifs at h
      exact (Option.some.inj h).symm
  | some w =>
      simp only [notifyOne] at h
      split at h
      · next hw => exact absurd (hall _ (List.mem_of_getElem? hw)) (by simp)
      · exact absurd h (by simp)

/-- **Step lemma.**  While `stop` leaves its loop only after the last worker, the
workers are out whenever it joins. -/
theorem AllOut.move {s t : Sys T F} {a : Label T} (h : AllOut s) (hone : OneClient s)
    (hok : oneStop s a) (hexit : exitOk s a) (hm : Move type mapper s a t) : AllOut t := by
  -- a worker that moves has not left, so `stop` is not past its loop
  have hworker : ∀ {w : ℕ} {p : Worker T} {u : Sys T F}, s.workers[w]? = some p → p ≠ .left →
      u.callers = s.callers → AllOut u := by
    intro w p u hw hp hu i hi
    rw [hu] at hi
    exact absurd (h i hi p (List.mem_of_getElem? hw)) hp
  -- client 0 moves to a place before the joins
  have hset : ∀ {c : ℕ} {p q : Caller} {u : Sys T F}, s.callers[c]? = some p → c = 0 →
      u.callers = s.callers.set c q → (∀ i, q ≠ .stopJoin i) → AllOut u := by
    rintro c p q u hc rfl hu hq i hi
    rw [hu] at hi
    rcases (getElem?_set_iff hc).mp hi with ⟨-, heq⟩ | ⟨hne, -⟩
    · exact absurd heq (hq i)
    · exact absurd rfl hne
  cases hm with
  | refused | startSkip | stopSkip | spawnOver => exact h
  | accepted data woken ws hs hws =>
      intro i hi
      rw [notifyOne_of_left (h i hi) hws]
      exact h i hi
  | startCall c hc => exact hset hc hok.1 rfl (by simp)
  | stopCall c hc => exact hset hc hok rfl (by simp)
  | startLock _ hc | spawn _ _ hc | startDone _ _ hc | stopAgain _ hc | stopLock _ hc
  | joinThrew _ _ hc | stopDone _ _ hc =>
      exact hset hc (hone.eq_zero hc (by simp)) rfl (by simp)
  | stopExit c hc hs => exact fun _ _ => hexit hc hs
  | joined c i w hc =>
      obtain rfl := hone.eq_zero hc (by simp)
      exact fun _ _ => h i hc
  | leave _ hw | underflow _ hw | takeLast _ _ hw | take _ _ _ hw | park _ hw
  | unhandled _ _ _ hw | call _ _ _ _ hw | finish _ _ _ hw | wake _ hw =>
      exact hworker hw (by simp) rfl

/-- In the runs whose exits from the loop of `stop` are in time, the workers are
out whenever it joins. -/
theorem allOut_of_reachable {s : Sys T F}
    (h : (system type mapper).Reachable (fun s a => oneStop s a ∧ exitOk s a) s) : AllOut s := by
  refine LTS.Reachable.induction (I := AllOut) ?_ ?_ h
  · rintro _ ⟨n, rfl⟩ i hi
    exact absurd hi (by simp [fresh, List.getElem?_replicate])
  · intro s a t hreach hs hok hstep
    have hone := oneClient_of_reachable (hreach.mono fun _ _ hok => hok.1)
    exact hs.move hone hok.1 hok.2 (move_of_step hstep)

/-! ## A deadlock when it does not -/

/-- `stop` is past its loop, or through, and the state word is `STATE_NONE`. -/
structure Quiescent (s : Sys T F) : Prop where
  state : s.state = .none
  caller : ∀ p ∈ s.callers[0]?, p = .outside ∨ p = .threw ∨ ∃ i, p = .stopJoin i

/-- Neither `stop` nor a worker touches the state word any more. -/
theorem Quiescent.move {s t : Sys T F} {a : Label T} (h : Quiescent s) (hok : stopOrWorker s a)
    (hm : Move type mapper s a t) : Quiescent t := by
  have hstate := h.state
  have hcaller := h.caller
  have hset : ∀ {p q : Caller} {ths : List (Option ℕ)}, s.callers[0]? = some p →
      (q = .outside ∨ q = .threw ∨ ∃ i, q = .stopJoin i) →
      Quiescent { s with threads := ths, callers := s.callers.set 0 q } := by
    intro p q ths hc hq
    refine ⟨hstate, fun r hr => ?_⟩
    rcases (getElem?_set_iff hc).mp hr with ⟨-, rfl⟩ | ⟨hne, -⟩
    · exact hq
    · exact absurd rfl hne
  cases hm with
  | refused | startSkip | stopSkip => exact h
  | accepted data woken ws hs => exact absurd (.inl hstate) hs
  | startCall => exact hok.elim
  | stopCall => exact hok.elim
  | startLock c hc | spawn c _ hc | startDone c _ hc | stopLock c hc =>
      obtain rfl : c = 0 := hok
      exact absurd (hcaller _ hc) (by simp)
  | spawnOver | park | unhandled | call | finish | wake =>
      exact ⟨hstate, hcaller⟩
  | stopExit c hc =>
      obtain rfl : c = 0 := hok
      exact hset hc (.inr (.inr ⟨0, rfl⟩))
  | stopAgain c hc hs => exact absurd hstate hs
  | joined c i w hc =>
      obtain rfl : c = 0 := hok
      exact hset hc (.inr (.inr ⟨i + 1, rfl⟩))
  | joinThrew c i hc =>
      obtain rfl : c = 0 := hok
      exact hset hc (.inr (.inl rfl))
  | stopDone c i hc =>
      obtain rfl : c = 0 := hok
      exact hset hc (.inl rfl)
  | leave _ _ hs | underflow _ _ hs | takeLast _ _ _ hs | take _ _ _ _ hs =>
      exact absurd (hstate.symm.trans hs) (by simp)

/-- From a quiescent state on, the wait predicate stays false. -/
theorem Quiescent.forever {s t : Sys T F} {as : List (Label T)} (h : Quiescent s)
    (hp : (system type mapper).Path stopOrWorker s as t) : ¬waitPredicate t := by
  have ht : Quiescent t :=
    hp.preserves h fun s a t hs hok hstep => hs.move hok (move_of_step hstep)
  rw [waitPredicate, ht.state]
  simp

/-- What a worker can reach on its own with `STATE_NONE` in the state word: it
blocks, and nothing else has changed. -/
def Parks (type : T → Ty) (mapper : OrderedMap Ty F) (s : Sys T F) (w : ℕ) : Prop :=
  ∃ as t, (system type mapper).Path oneStop s as t ∧ t.state = .none ∧ t.callers = s.callers ∧
    t.workers[w]? = some .parked

/-- One step of a worker, as a path. -/
theorem path_worker {s t : Sys T F} {w : ℕ} (hab : s.aborted = false)
    (h : workerStep type mapper s w = some t) :
    (system type mapper).Path oneStop s [.worker w] t := by
  refine LTS.Path.single trivial ?_
  show step type mapper s (.worker w) = some t
  rw [step, if_neg (by simp [hab])]
  exact h

/-- A worker step that leaves state word and clients alone can come first. -/
theorem Parks.step {s t : Sys T F} {w : ℕ} (hab : s.aborted = false)
    (h : workerStep type mapper s w = some t) (hcallers : t.callers = s.callers)
    (ht : Parks type mapper t w) : Parks type mapper s w := by
  obtain ⟨as, u, hpath, hstate, hcall, hpark⟩ := ht
  exact ⟨_, u, (path_worker hab h).append hpath, hstate, hcall.trans hcallers, hpark⟩

/-- At the head of its loop a worker that finds `STATE_NONE` blocks. -/
theorem parks_entering {s : Sys T F} {w : ℕ} (hab : s.aborted = false) (hs : s.state = .none)
    (hw : s.workers[w]? = some .entering) : Parks type mapper s w := by
  have hstep : workerStep type mapper s w =
      some { s with workers := s.workers.set w .parked } := by
    simp [workerStep, hw, waitAndTake, hs]
  exact ⟨_, _, path_worker hab hstep, hs, rfl, (getElem?_set_iff hw).mpr (.inl ⟨rfl, rfl⟩)⟩

/-- A worker in its handler comes back and blocks. -/
theorem parks_handling {s : Sys T F} {w k : ℕ} {value : T} (hab : s.aborted = false)
    (hs : s.state = .none) (hw : s.workers[w]? = some (.handling k value)) :
    Parks type mapper s w := by
  have hstep : workerStep type mapper s w =
      some { s with workers := s.workers.set w .entering } := by
    simp [workerStep, hw]
  refine Parks.step hab hstep rfl (parks_entering hab hs ?_)
  exact (getElem?_set_iff hw).mpr (.inl ⟨rfl, rfl⟩)

/-- A worker with a value calls its handler, if there is one, and blocks. -/
theorem parks_taken {s : Sys T F} {w k : ℕ} {value : T} (hab : s.aborted = false)
    (hs : s.state = .none) (hw : s.workers[w]? = some (.taken k value)) :
    Parks type mapper s w := by
  have hget : ∀ q : Worker T, (s.workers.set w q)[w]? = some q := fun q =>
    (getElem?_set_iff hw).mpr (.inl ⟨rfl, rfl⟩)
  cases hf : mapper.find? (type value) with
  | none =>
      have hstep : workerStep type mapper s w =
          some { s with workers := s.workers.set w .entering } := by
        simp [workerStep, hw, lookup, hf]
      exact Parks.step hab hstep rfl (parks_entering hab hs (hget _))
  | some func =>
      have hstep : workerStep type mapper s w =
          some { s with
            workers := s.workers.set w (.handling k value)
            calls := s.calls ++ [⟨w, k, func, value⟩] } := by
        simp [workerStep, hw, lookup, hf]
      exact Parks.step hab hstep rfl (parks_handling hab hs (hget _))

/-- Every worker that has not left blocks. -/
theorem parks {s : Sys T F} {w : ℕ} {p : Worker T} (hab : s.aborted = false)
    (hs : s.state = .none) (hw : s.workers[w]? = some p) (hleft : p ≠ .left)
    (hdefined : p ≠ .undefined) : Parks type mapper s w := by
  cases p with
  | entering => exact parks_entering hab hs hw
  | parked => exact ⟨[], s, LTS.Path.nil s, hs, rfl, hw⟩
  | taken k value => exact parks_taken hab hs hw
  | handling k value => exact parks_handling hab hs hw
  | left => exact absurd rfl hleft
  | undefined => exact absurd rfl hdefined

/-- When the test of `stop` reads `STATE_NONE` and a worker has not left, a deadlock
is reachable. -/
theorem deadlock_of_early_exit {s : Sys T F} (h : (system type mapper).Reachable oneStop s)
    (hc : s.callers[0]? = some .stopTest) (hs : s.state = .none)
    (hin : ∃ p ∈ s.workers, p ≠ .left) :
    ∃ as t, (system type mapper).Path oneStop s as t ∧ Deadlocked type mapper t := by
  obtain ⟨p, hp, hleft⟩ := hin
  obtain ⟨w, hw⟩ := List.getElem?_of_mem hp
  have hab : s.aborted = false := by
    by_contra hab
    rw [Bool.not_eq_false] at hab
    obtain ⟨i, hi⟩ := (oneClient_of_reachable h).aborted hab
    exact absurd (hc.symm.trans hi) (by simp)
  -- `stop` goes on to its joins, then the worker blocks
  have hexit : (system type mapper).Path oneStop s [.caller 0]
      { s with callers := s.callers.set 0 (.stopJoin 0) } := by
    refine LTS.Path.single trivial ?_
    show step type mapper s (.caller 0) = _
    simp [step, hab, callerStep, hc, hs]
  have hdefined : p ≠ .undefined := by
    rintro rfl
    exact (inv_of_reachable h).defined w hw
  have hparks : Parks type mapper { s with callers := s.callers.set 0 (.stopJoin 0) } w :=
    parks hab hs hw hleft hdefined
  obtain ⟨as, t, hpath, hstate, hcallers, hpark⟩ := hparks
  have hjoin : t.callers[0]? = some (.stopJoin 0) := by
    rw [hcallers]
    exact (getElem?_set_iff hc).mpr (.inl ⟨rfl, rfl⟩)
  have hquiet : Quiescent t := by
    refine ⟨hstate, fun q hq => .inr (.inr ⟨0, ?_⟩)⟩
    exact Option.some.inj (hq.symm.trans hjoin)
  exact ⟨_, t, hexit.append hpath, ⟨0, hjoin⟩, ⟨w, hpark⟩, fun _ _ => hquiet.forever⟩

/-! ## Main result -/

/-- **Shutdown.**  `stop` never deadlocks in a run in which every `STATE_NONE` that
its test reads comes after the last worker has left, and a deadlock is reachable
from every state in which the test is about to read `STATE_NONE` earlier. -/
theorem shutdown_deadlock_iff_early_exit :
    (∀ s, (system type mapper).Reachable (fun s a => oneStop s a ∧ exitOk s a) s →
      ¬Deadlocked type mapper s) ∧
    ∀ s, (system type mapper).Reachable oneStop s → s.callers[0]? = some .stopTest →
      s.state = .none → (∃ p ∈ s.workers, p ≠ .left) →
      ∃ as t, (system type mapper).Path oneStop s as t ∧ Deadlocked type mapper t := by
  constructor
  · intro s h hdead
    obtain ⟨i, hi⟩ := hdead.joining
    obtain ⟨w, hw⟩ := hdead.parked
    exact absurd (allOut_of_reachable h i hi _ (List.mem_of_getElem? hw)) (by simp)
  · intro s h hc hs hin
    exact deadlock_of_early_exit h hc hs hin

end Shutdown

/-! ## Both kinds of run -/

/-- One client starts the pipeline and stops it; its test reads `STATE_TERMINATE`
three times while a worker leaves, and `STATE_NONE` after the fourth. -/
def inTimeRun : List (Label ℕ) :=
  [.start 0, .caller 0, .caller 0, .caller 0, .caller 0, .caller 0, .caller 0,
    .stop 0, .caller 0, .caller 0, .caller 0, .worker 0, .caller 0, .caller 0, .worker 1,
    .caller 0, .caller 0, .worker 2, .caller 0, .worker 3, .caller 0]

/-- The same client, whose test reads the `STATE_NONE` of the first worker to leave. -/
def earlyExitRun : List (Label ℕ) :=
  [.start 0, .caller 0, .caller 0, .caller 0, .caller 0, .caller 0, .caller 0, .worker 1,
    .stop 0, .caller 0, .caller 0, .worker 0]

/-- Both parts at these runs. -/
theorem shutdown_deadlock_iff_early_exit_runs :
    (∃ s : Sys ℕ ℕ, s.callers[0]? = some (.stopJoin 0) ∧
      ¬Deadlocked id OrderedMap.empty s) ∧
    ∃ s t : Sys ℕ ℕ, s.callers[0]? = some .stopTest ∧
      (∃ as, (system id OrderedMap.empty).Path oneStop s as t) ∧
      Deadlocked id OrderedMap.empty t := by
  constructor
  · have hreach : (system id OrderedMap.empty).Reachable
        (fun (s : Sys ℕ ℕ) a => oneStop s a ∧ exitOk s a) _ :=
      LTS.reachable_of_exec ⟨1, rfl⟩ (show LTS.exec _ _ _ inTimeRun = _ from rfl)
    exact ⟨_, rfl, shutdown_deadlock_iff_early_exit.1 _ hreach⟩
  · have hreach : (system id OrderedMap.empty).Reachable (oneStop : Sys ℕ ℕ → _) _ :=
      LTS.reachable_of_exec ⟨1, rfl⟩ (show LTS.exec _ _ _ earlyExitRun = _ from rfl)
    obtain ⟨as, t, hpath, hdead⟩ :=
      shutdown_deadlock_iff_early_exit.2 _ hreach rfl rfl ⟨.entering, by decide, by decide⟩
    exact ⟨_, t, rfl, ⟨as, hpath⟩, hdead⟩

/-- After the early exit worker `1`, back from its wakeup, blocks: a reachable
deadlock. -/
theorem deadlock_reachable :
    ∃ s : Sys ℕ ℕ, (system id OrderedMap.empty).Reachable oneStop s ∧
      Deadlocked id OrderedMap.empty s := by
  have hreach : (system id OrderedMap.empty).Reachable (oneStop : Sys ℕ ℕ → _) _ :=
    LTS.reachable_of_exec ⟨1, rfl⟩
      (show LTS.exec _ _ _ (earlyExitRun ++ [.caller 0, .worker 1]) = _ from rfl)
  refine ⟨_, hreach, ⟨0, rfl⟩, ⟨1, rfl⟩, fun as t hpath => Quiescent.forever ⟨rfl, ?_⟩ hpath⟩
  intro p hp
  exact .inr (.inr ⟨0, (Option.some.inj hp).symm⟩)

end Pipeline
