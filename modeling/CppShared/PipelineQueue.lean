/-
# The queue discipline of the pipeline

What holds in every reachable state of `Pipeline`, under any interleaving of
dispatchers, clients that start and stop, and workers:

* no worker ever executes `front()`/`pop()` on an empty queue, because
  `STATE_READY` implies a non-empty queue (`Inv.ready`);
* the pipeline refines the FIFO queue with history (`refines_fifo`): the values
  accepted are the values taken followed by the content of `dataQueue`;
* every dequeued value belongs to the worker that took it, and that worker calls
  the handler registered for its type once, or nothing when there is none.
-/
import CppShared.Pipeline
import CppShared.Fifo
import CppShared.Table

namespace Pipeline

variable {T F Ty : Type*}

/-! ## Waking threads leaves the busy ones alone -/

/-- From `ws` to `ws'` no worker takes a value, gives one up before its lookup or
runs into an empty queue. -/
structure Quiet (ws ws' : List (Worker T)) : Prop where
  undefined : ∀ i : ℕ, ws'[i]? = some .undefined → ws[i]? = some .undefined
  taken : ∀ (i k : ℕ) (v : T), ws'[i]? = some (.taken k v) ↔ ws[i]? = some (.taken k v)
  handling : ∀ (i k : ℕ) (v : T), ws'[i]? = some (.handling k v) → ws[i]? = some (.handling k v)

theorem Quiet.refl (ws : List (Worker T)) : Quiet ws ws :=
  ⟨fun _ => id, fun _ _ _ => Iff.rfl, fun _ _ _ => id⟩

/-- A notification of all waiters is quiet. -/
theorem quiet_notifyAll (ws : List (Worker T)) : Quiet ws (notifyAll ws) := by
  have hget : ∀ i : ℕ, (notifyAll ws)[i]? = ws[i]?.map Worker.notified := by
    intro i
    simp [notifyAll]
  refine ⟨fun i => ?_, fun i k v => ?_, fun i k v => ?_⟩ <;> rw [hget] <;>
    cases hw : ws[i]? with
    | none => simp
    | some p => cases p <;> simp [Worker.notified]

/-- Moving a worker that holds no value to a place where it holds none is quiet. -/
theorem quiet_set {ws : List (Worker T)} {w : ℕ} {p q : Worker T} (hp : ws[w]? = some p)
    (hold : ∀ k v, p ≠ .taken k v) (hnew : q = .entering ∨ q = .parked ∨ q = .left) :
    Quiet ws (ws.set w q) := by
  refine ⟨fun i h => ?_, fun i k v => ⟨fun h => ?_, fun h => ?_⟩, fun i k v h => ?_⟩
  · rcases (getElem?_set_iff hp).mp h with ⟨-, rfl⟩ | ⟨-, h⟩
    · simp at hnew
    · exact h
  · rcases (getElem?_set_iff hp).mp h with ⟨-, rfl⟩ | ⟨-, h⟩
    · simp at hnew
    · exact h
  · refine (getElem?_set_iff hp).mpr (.inr ⟨?_, h⟩)
    rintro rfl
    exact hold k v (Option.some.inj (hp.symm.trans h))
  · rcases (getElem?_set_iff hp).mp h with ⟨-, rfl⟩ | ⟨-, h⟩
    · simp at hnew
    · exact h

/-- A notification of one waiter is quiet. -/
theorem quiet_notifyOne {ws ws' : List (Worker T)} {woken : Option ℕ}
    (h : notifyOne ws woken = some ws') : Quiet ws ws' := by
  cases woken with
  | none =>
      simp only [notifyOne] at h
      split_ifs at h
      exact Option.some.inj h ▸ Quiet.refl ws
  | some w =>
      simp only [notifyOne] at h
      split at h
      · next hw =>
          exact Option.some.inj h ▸ quiet_set hw (by simp) (.inl rfl)
      · exact absurd h (by simp)

/-- A new thread at the head of its loop is quiet. -/
theorem quiet_append (ws : List (Worker T)) : Quiet ws (ws ++ [.entering]) := by
  refine ⟨fun i h => ?_, fun i k v => ?_, fun i k v h => ?_⟩
  · simpa using getElem?_concat_iff.mp h
  · simp [getElem?_concat_iff]
  · simpa using getElem?_concat_iff.mp h

/-! ## The invariant -/

section Invariant

variable [LinearOrder Ty] (type : T → Ty) (mapper : OrderedMap Ty F)

/-- The handler calls made for the `k`-th dequeued value. -/
def callsOf (s : Sys T F) (k : ℕ) : List (Call T F) :=
  s.calls.filter (fun call => call.index = k)

/-- The calls the value `v`, dequeued as the `k`-th by worker `w`, is due: one of
its registered handler, none without a registration. -/
def due (w k : ℕ) (v : T) : List (Call T F) :=
  (mapper.find? (type v)).toList.map fun func => ⟨w, k, func, v⟩

/-- The invariant of the queue and of the values taken from it. -/
structure Inv (s : Sys T F) : Prop where
  ready : s.state = .ready → s.dataQueue ≠ []
  defined : ∀ w : ℕ, s.workers[w]? ≠ some .undefined
  taken_owner : ∀ (w k : ℕ) (v : T), s.workers[w]? = some (.taken k v) → s.taken[k]? = some (w, v)
  handling_owner : ∀ (w k : ℕ) (v : T), s.workers[w]? = some (.handling k v) →
    s.taken[k]? = some (w, v)
  calls_lt : ∀ call ∈ s.calls, call.index < s.taken.length
  pending : ∀ (w k : ℕ) (v : T), s.workers[w]? = some (.taken k v) → callsOf s k = []
  served : ∀ (k w : ℕ) (v : T), s.taken[k]? = some (w, v) → s.workers[w]? ≠ some (.taken k v) →
    callsOf s k = due type mapper w k v

variable {type mapper}

/-- A step that leaves the histories alone and moves the workers quietly keeps
the invariant once `STATE_READY` still means a non-empty queue. -/
theorem Inv.quiet {s t : Sys T F} (h : Inv type mapper s) (htaken : t.taken = s.taken)
    (hcalls : t.calls = s.calls) (hw : Quiet s.workers t.workers)
    (hready : t.state = .ready → t.dataQueue ≠ []) : Inv type mapper t where
  ready := hready
  defined w hu := h.defined w (hw.undefined w hu)
  taken_owner w k v hk := by
    rw [htaken]
    exact h.taken_owner w k v ((hw.taken w k v).mp hk)
  handling_owner w k v hk := by
    rw [htaken]
    exact h.handling_owner w k v (hw.handling w k v hk)
  calls_lt call hc := by
    rw [hcalls] at hc
    rw [htaken]
    exact h.calls_lt call hc
  pending w k v hk := by
    have hold := h.pending w k v ((hw.taken w k v).mp hk)
    simpa [callsOf, hcalls] using hold
  served k w v hk hnot := by
    rw [htaken] at hk
    have hold := h.served k w v hk (fun hw' => hnot ((hw.taken w k v).mpr hw'))
    simpa [callsOf, hcalls] using hold

/-- Nothing has been called yet for a value that is about to be dequeued. -/
theorem Inv.callsOf_length {s : Sys T F} (h : Inv type mapper s) :
    callsOf s s.taken.length = [] := by
  refine List.filter_eq_nil_iff.mpr fun call hc => ?_
  have hlt := h.calls_lt call hc
  simp only [decide_eq_true_eq]
  omega

/-- Taking the front value keeps the invariant. -/
theorem Inv.take {s : Sys T F} (h : Inv type mapper s) {w : ℕ} (value : T) (rest : List T)
    (state : State) (hw : s.workers[w]? = some .entering) (hready : state = .ready → rest ≠ []) :
    Inv type mapper
      { s with
        dataQueue := rest
        state := state
        workers := s.workers.set w (.taken s.taken.length value)
        taken := s.taken ++ [(w, value)] } := by
  refine ⟨hready, fun i hi => ?_, fun i k v hi => ?_, fun i k v hi => ?_, fun call hc => ?_,
    fun i k v hi => ?_, fun k i v hk hnot => ?_⟩
  · rcases (getElem?_set_iff hw).mp hi with ⟨-, heq⟩ | ⟨-, hi⟩
    · simp at heq
    · exact h.defined i hi
  · rcases (getElem?_set_iff hw).mp hi with ⟨rfl, heq⟩ | ⟨-, hi⟩
    · simp only [Worker.taken.injEq] at heq
      exact getElem?_concat_iff.mpr (.inr ⟨heq.1.symm, by rw [heq.2]⟩)
    · exact getElem?_concat_iff.mpr (.inl (h.taken_owner i k v hi))
  · rcases (getElem?_set_iff hw).mp hi with ⟨-, heq⟩ | ⟨-, hi⟩
    · simp at heq
    · exact getElem?_concat_iff.mpr (.inl (h.handling_owner i k v hi))
  · have hlt := h.calls_lt call hc
    simp only [List.length_append, List.length_singleton]
    omega
  · rcases (getElem?_set_iff hw).mp hi with ⟨-, heq⟩ | ⟨-, hi⟩
    · simp only [Worker.taken.injEq] at heq
      exact heq.1 ▸ h.callsOf_length
    · exact h.pending i k v hi
  · rcases getElem?_concat_iff.mp hk with hk | ⟨rfl, heq⟩
    · -- an older value: its worker was not at that lookup before the step either
      refine h.served k i v hk fun hi => hnot ((getElem?_set_iff hw).mpr (.inr ⟨?_, hi⟩))
      rintro rfl
      simp [hw] at hi
    · -- the value just taken is at its lookup
      obtain ⟨rfl, rfl⟩ := Prod.mk.inj heq
      exact absurd ((getElem?_set_iff hw).mpr (.inl ⟨rfl, rfl⟩)) hnot

/-- Every call a value is due carries the position of the value. -/
theorem index_of_mem_due {w k : ℕ} {v : T} {call : Call T F}
    (h : call ∈ due type mapper w k v) : call.index = k := by
  obtain ⟨func, -, rfl⟩ := List.mem_map.mp h
  rfl

/-- The calls due for the `k`-th value are calls of the `k`-th value only. -/
theorem filter_due (w k j : ℕ) (v : T) :
    (due type mapper w k v).filter (fun call => call.index = j) =
      if j = k then due type mapper w k v else [] := by
  split_ifs with hj
  · refine List.filter_eq_self.mpr fun call hc => ?_
    simp [index_of_mem_due hc, hj]
  · refine List.filter_eq_nil_iff.mpr fun call hc => ?_
    simpa [index_of_mem_due hc] using fun heq => hj heq.symm

/-- Going on from the lookup of the `k`-th value, with the calls due for it made,
keeps the invariant. -/
theorem Inv.lookup {s : Sys T F} (h : Inv type mapper s) {w k : ℕ} {value : T} {p : Worker T}
    (hw : s.workers[w]? = some (.taken k value))
    (hp : p = .entering ∨ p = .handling k value) :
    Inv type mapper
      { s with
        workers := s.workers.set w p
        calls := s.calls ++ due type mapper w k value } := by
  have howner := h.taken_owner w k value hw
  have hcalls : ∀ j, callsOf { s with calls := s.calls ++ due type mapper w k value } j =
      callsOf s j ++ if j = k then due type mapper w k value else [] := by
    intro j
    simp only [callsOf, List.filter_append, filter_due]
  refine ⟨h.ready, fun i hi => ?_, fun i j v hi => ?_, fun i j v hi => ?_, fun call hc => ?_,
    fun i j v hi => ?_, fun j i v hj hnot => ?_⟩
  · rcases (getElem?_set_iff hw).mp hi with ⟨-, rfl⟩ | ⟨-, hi⟩
    · simp at hp
    · exact h.defined i hi
  · rcases (getElem?_set_iff hw).mp hi with ⟨-, rfl⟩ | ⟨-, hi⟩
    · simp at hp
    · exact h.taken_owner i j v hi
  · rcases (getElem?_set_iff hw).mp hi with ⟨rfl, rfl⟩ | ⟨-, hi⟩
    · obtain ⟨rfl, rfl⟩ : j = k ∧ v = value := by simpa using hp
      exact howner
    · exact h.handling_owner i j v hi
  · rcases List.mem_append.mp hc with hc | hc
    · exact h.calls_lt call hc
    · rw [index_of_mem_due hc]
      exact (List.getElem?_eq_some_iff.mp howner).1
  · rcases (getElem?_set_iff hw).mp hi with ⟨-, rfl⟩ | ⟨hne, hbefore⟩
    · simp at hp
    · have hjk : j ≠ k := by
        rintro rfl
        have heq := (h.taken_owner i j v hbefore).symm.trans howner
        exact hne (Prod.mk.inj (Option.some.inj heq)).1
      have hold := h.pending i j v hbefore
      exact (hcalls j).trans (by simp [hjk, hold])
  · refine (hcalls j).trans ?_
    by_cases hjk : j = k
    · -- the value looked up: nothing was called before, everything due is called now
      subst hjk
      obtain ⟨rfl, rfl⟩ := Prod.mk.inj (Option.some.inj (hj.symm.trans howner))
      simp [h.pending i j v hw]
    · have hold : callsOf s j = due type mapper i j v := by
        refine h.served j i v hj fun hi => hnot ((getElem?_set_iff hw).mpr (.inr ⟨?_, hi⟩))
        rintro rfl
        rw [hw] at hi
        simp only [Option.some.injEq, Worker.taken.injEq] at hi
        exact hjk hi.1.symm
      simp [hjk, hold]

/-- The invariant holds before the first step. -/
theorem inv_fresh (n : ℕ) : Inv type mapper (fresh n : Sys T F) := by
  refine ⟨?_, ?_, ?_, ?_, ?_, ?_, ?_⟩ <;> simp [fresh]

/-- **Step lemma.**  Every move keeps the invariant. -/
theorem Inv.move {s t : Sys T F} {a : Label T} (h : Inv type mapper s)
    (hm : Move type mapper s a t) : Inv type mapper t := by
  cases hm with
  | refused => exact h
  | accepted data woken ws hs hws =>
      exact h.quiet rfl rfl (quiet_notifyOne hws) (fun _ => by simp)
  | startSkip => exact h
  | startCall | stopCall | spawnOver | startDone | stopExit | stopAgain | joined | joinThrew
  | stopDone =>
      exact h.quiet rfl rfl (Quiet.refl _) h.ready
  | stopSkip => exact h
  | startLock => exact h.quiet rfl rfl (quiet_notifyAll _) (by simp)
  | spawn => exact h.quiet rfl rfl (quiet_append _) h.ready
  | stopLock => exact h.quiet rfl rfl (quiet_notifyAll _) (by simp)
  | leave w hw hs =>
      exact h.quiet rfl rfl (quiet_set hw (by simp) (.inr (.inr rfl))) (by simp)
  | underflow w hw hs hq => exact absurd hq (h.ready hs)
  | takeLast w value hw hs hq =>
      have htake := h.take value [] .idel hw (by simp)
      exact htake.quiet rfl rfl (quiet_notifyAll _) (by simp)
  | take w value rest hw hs hq hrest => exact h.take value rest s.state hw (fun _ => hrest)
  | park w hw hs =>
      exact h.quiet rfl rfl (quiet_set hw (by simp) (.inr (.inl rfl))) h.ready
  | unhandled w k value hw hf =>
      have hlook := h.lookup hw (.inl rfl)
      simpa [due, hf] using hlook
  | call w k value func hw hf =>
      have hlook := h.lookup hw (.inr rfl)
      simpa [due, hf] using hlook
  | finish w k value hw =>
      exact h.quiet rfl rfl (quiet_set hw (by simp) (.inl rfl)) h.ready
  | wake w hw =>
      exact h.quiet rfl rfl (quiet_set hw (by simp) (.inl rfl)) h.ready

/-- Every reachable state satisfies the invariant. -/
theorem inv_of_reachable {ok : Sys T F → Label T → Prop} {s : Sys T F}
    (h : (system type mapper).Reachable ok s) : Inv type mapper s := by
  refine LTS.Reachable.induction (I := Inv type mapper) ?_ ?_ h
  · rintro _ ⟨n, rfl⟩
    exact inv_fresh n
  · intro s a t _ hs _ hstep
    exact hs.move (move_of_step hstep)

/-! ## The pipeline refines the FIFO queue -/

/-- The queue seen without the threads. -/
def queueOf (s : Sys T F) : FifoState T := ⟨s.accepted, s.taken.map Prod.snd, s.dataQueue⟩

/-- Every step is a push, a pop or nothing on the queue. -/
theorem refines_fifo (ok : Sys T F → Label T → Prop) :
    LTS.Refines (system type mapper) ok (fifo T) queueOf where
  init := by
    rintro _ ⟨n, rfl⟩
    rfl
  step s a t _ _ hstep := by
    cases move_of_step hstep with
    | accepted data => exact fifo_push (queueOf s) data
    | takeLast w value hw hs hq =>
        have hpop := fifo_pop s.accepted (s.taken.map Prod.snd) [] value
        simpa [queueOf, hq] using hpop
    | take w value rest hw hs hq =>
        have hpop := fifo_pop s.accepted (s.taken.map Prod.snd) rest value
        simpa [queueOf, hq] using hpop
    | _ => exact fifo_idle _

/-! ## Main result -/

/-- **Queue discipline.**  In every reachable state: no worker has run into an
empty queue; the accepted values are the dequeued ones followed by the content of
the queue; a value a worker holds was dequeued by it; no handler has been called
for a value still at its lookup, and the calls made for any other dequeued value
are exactly the one its worker owes it; every call belongs to a dequeued value. -/
theorem queue_discipline {s : Sys T F}
    (h : (system type mapper).Reachable (fun _ _ => True) s) :
    (∀ w : ℕ, s.workers[w]? ≠ some .undefined) ∧
    s.accepted = s.taken.map Prod.snd ++ s.dataQueue ∧
    (∀ (w k : ℕ) (v : T), s.workers[w]? = some (.taken k v) ∨ s.workers[w]? = some (.handling k v) →
      s.taken[k]? = some (w, v)) ∧
    (∀ (k w : ℕ) (v : T), s.taken[k]? = some (w, v) →
      (s.workers[w]? = some (.taken k v) → callsOf s k = []) ∧
      (s.workers[w]? ≠ some (.taken k v) → callsOf s k = due type mapper w k v)) ∧
    ∀ call ∈ s.calls, call.index < s.taken.length := by
  have hinv := inv_of_reachable h
  refine ⟨hinv.defined, fifo_law_of_refines (refines_fifo _) h, ?_, ?_, hinv.calls_lt⟩
  · rintro w k v (hw | hw)
    · exact hinv.taken_owner w k v hw
    · exact hinv.handling_owner w k v hw
  · intro k w v hk
    exact ⟨hinv.pending w k v, hinv.served k w v hk⟩

end Invariant

/-- A client starts the pipeline, `7` is dispatched, worker `0` takes it and calls
its handler. -/
def oneValueRun : List (Label ℕ) :=
  [.start 0, .caller 0, .caller 0, .dispatch 7 none, .worker 0, .worker 0]

/-- The discipline in the state that `oneValueRun` leads to. -/
theorem queue_discipline_oneValue :
    ∃ s : Sys ℕ ℕ,
      (system id (registerHandler OrderedMap.empty 7 1)).exec (fun _ _ => True) (fresh 1)
        oneValueRun = some s ∧
      s.calls = [⟨0, 0, 1, 7⟩] ∧ s.accepted = s.taken.map Prod.snd ++ s.dataQueue := by
  refine ⟨_, rfl, rfl, ?_⟩
  have hreach : (system id (registerHandler OrderedMap.empty 7 1)).Reachable (fun _ _ => True) _ :=
    LTS.reachable_of_exec ⟨1, rfl⟩ (show LTS.exec _ _ _ oneValueRun = _ from rfl)
  exact (queue_discipline hreach).2.1

end Pipeline
