/-
# Stopping and starting again

From the moment `stop` writes `STATE_TERMINATE` the pipeline takes nothing in and hands
nothing out: `dispatch` refuses, and no worker finds `STATE_READY`.  Only the workers
that have a value already call its handler, once each (`shutdown_final`).

What lies in the queue then stays there, and the next `start` writes `STATE_IDEL`
without a look at it.  The values are stranded until some `dispatch` wakes the workers;
they are not exactly if every `start` finds the queue empty (`idel_empty_iff`).
-/
import CppShared.PipelineQueue
import Mathlib.Data.List.Nodup

namespace Pipeline

variable {T F Ty : Type*} [LinearOrder Ty] {type : T → Ty} {mapper : OrderedMap Ty F}

/-! ## Shutdown is final -/

/-- `start` does not assign `STATE_IDEL`. -/
def notStarting (s : Sys T F) : Label T → Prop
  | .caller c => s.callers[c]? ≠ some .startLock
  | _ => True

/-- What may have happened since `stop` wrote `STATE_TERMINATE` in state `s`: the
handlers `calls` were called, by workers that had their value. -/
structure Over (s t : Sys T F) (calls : List (Call T F)) : Prop where
  state : t.state = .terminate ∨ t.state = .none
  dataQueue : t.dataQueue = s.dataQueue
  taken : t.taken = s.taken
  calls_eq : t.calls = s.calls ++ calls
  holder : ∀ call ∈ calls, s.workers[call.worker]? = some (.taken call.index call.value) ∧
    ∀ k v, t.workers[call.worker]? ≠ some (.taken k v)
  once : (calls.map Call.worker).Nodup
  still : ∀ (w k : ℕ) (v : T), t.workers[w]? = some (.taken k v) → s.workers[w]? = some (.taken k v)
  handling : ∀ (w k : ℕ) (v : T), t.workers[w]? = some (.handling k v) →
    s.workers[w]? = some (.handling k v) ∨
      ∃ call ∈ calls, call.worker = w ∧ call.index = k ∧ call.value = v

theorem Over.refl {s : Sys T F} (h : s.state = .terminate ∨ s.state = .none) : Over s s [] where
  state := h
  dataQueue := rfl
  taken := rfl
  calls_eq := (List.append_nil _).symm
  holder := fun _ hc => absurd hc List.not_mem_nil
  once := List.nodup_nil
  still := fun _ _ _ => id
  handling := fun _ _ _ => Or.inl

/-- A step that takes nothing and calls nothing. -/
theorem Over.quiet {s t u : Sys T F} {calls : List (Call T F)} (h : Over s t calls)
    (hstate : u.state = .terminate ∨ u.state = .none) (hqueue : u.dataQueue = t.dataQueue)
    (htaken : u.taken = t.taken) (hcalls : u.calls = t.calls)
    (hworkers : Quiet t.workers u.workers) : Over s u calls where
  state := hstate
  dataQueue := hqueue.trans h.dataQueue
  taken := htaken.trans h.taken
  calls_eq := hcalls.trans h.calls_eq
  holder := fun call hc => ⟨(h.holder call hc).1, fun k v hw =>
    (h.holder call hc).2 k v ((hworkers.taken _ k v).mp hw)⟩
  once := h.once
  still := fun w k v hw => h.still w k v ((hworkers.taken w k v).mp hw)
  handling := fun w k v hw => h.handling w k v (hworkers.handling w k v hw)

/-- A value without a handler is given up. -/
theorem Over.unhandled {s t : Sys T F} {calls : List (Call T F)} (h : Over s t calls) {w k : ℕ}
    {value : T} (hw : t.workers[w]? = some (.taken k value)) :
    Over s { t with workers := t.workers.set w .entering } calls := by
  refine { h with holder := fun call hc => ?_, still := fun i j v hi => ?_, handling := ?_ }
  · refine ⟨(h.holder call hc).1, fun j v hi => ?_⟩
    rcases (getElem?_set_iff hw).mp hi with ⟨-, heq⟩ | ⟨-, hi⟩
    · simp at heq
    · exact (h.holder call hc).2 j v hi
  · rcases (getElem?_set_iff hw).mp hi with ⟨-, heq⟩ | ⟨-, hi⟩
    · simp at heq
    · exact h.still i j v hi
  · intro i j v hi
    rcases (getElem?_set_iff hw).mp hi with ⟨-, heq⟩ | ⟨-, hi⟩
    · simp at heq
    · exact h.handling i j v hi

/-- A worker calls the handler of the value it holds. -/
theorem Over.call {s t : Sys T F} {calls : List (Call T F)} (h : Over s t calls) {w k : ℕ}
    {value : T} (func : F) (hw : t.workers[w]? = some (.taken k value)) :
    Over s
      { t with
        workers := t.workers.set w (.handling k value)
        calls := t.calls ++ [⟨w, k, func, value⟩] }
      (calls ++ [⟨w, k, func, value⟩]) := by
  -- the worker has called nothing before
  have hnew : w ∉ calls.map Call.worker := by
    intro hmem
    obtain ⟨call, hc, rfl⟩ := List.mem_map.mp hmem
    exact (h.holder call hc).2 k value hw
  refine ⟨h.state, h.dataQueue, h.taken, ?_, fun call hc => ?_, ?_, fun i j v hi => ?_,
    fun i j v hi => ?_⟩
  · show t.calls ++ _ = _
    rw [h.calls_eq, List.append_assoc]
  · rcases List.mem_append.mp hc with hc | hc
    · refine ⟨(h.holder call hc).1, fun j v hi => ?_⟩
      rcases (getElem?_set_iff hw).mp hi with ⟨-, heq⟩ | ⟨-, hi⟩
      · simp at heq
      · exact (h.holder call hc).2 j v hi
    · obtain rfl := List.mem_singleton.mp hc
      refine ⟨h.still w k value hw, fun j v hi => ?_⟩
      rcases (getElem?_set_iff hw).mp hi with ⟨-, heq⟩ | ⟨hne, -⟩
      · simp at heq
      · exact hne rfl
  · rw [List.map_append]
    refine List.nodup_append.mpr ⟨h.once, List.nodup_singleton _, fun i hi j hj heq => ?_⟩
    obtain rfl := List.mem_singleton.mp hj
    exact hnew (heq ▸ hi)
  · rcases (getElem?_set_iff hw).mp hi with ⟨-, heq⟩ | ⟨-, hi⟩
    · simp at heq
    · exact h.still i j v hi
  · rcases (getElem?_set_iff hw).mp hi with ⟨rfl, heq⟩ | ⟨-, hi⟩
    · obtain ⟨rfl, rfl⟩ : k = j ∧ value = v := by simpa using heq
      exact Or.inr ⟨_, List.mem_append_right _ (List.mem_singleton_self _), rfl, rfl, rfl⟩
    · rcases h.handling i j v hi with hold | ⟨call, hc, hcall⟩
      · exact Or.inl hold
      · exact Or.inr ⟨call, List.mem_append_left _ hc, hcall⟩

/-- **Step lemma.**  After `STATE_TERMINATE` no step takes anything in or out. -/
theorem Over.move {s t u : Sys T F} {a : Label T} {calls : List (Call T F)} (h : Over s t calls)
    (hok : notStarting t a) (hm : Move type mapper t a u) : ∃ calls', Over s u calls' := by
  have hready : t.state ≠ .ready := by
    rcases h.state with hst | hst <;> simp [hst]
  cases hm with
  | refused | startSkip | stopSkip => exact ⟨calls, h⟩
  | accepted data woken ws hst =>
      exact absurd h.state.symm hst
  | startLock c hc => exact absurd hc hok
  | stopLock =>
      exact ⟨calls, h.quiet (Or.inl rfl) rfl rfl rfl (quiet_notifyAll _)⟩
  | spawn => exact ⟨calls, h.quiet h.state rfl rfl rfl (quiet_append _)⟩
  | leave w hw =>
      exact ⟨calls, h.quiet (Or.inr rfl) rfl rfl rfl (quiet_set hw (by simp) (.inr (.inr rfl)))⟩
  | underflow w hw hst => exact absurd hst hready
  | takeLast w value hw hst => exact absurd hst hready
  | take w value rest hw hst => exact absurd hst hready
  | park w hw =>
      exact ⟨calls, h.quiet h.state rfl rfl rfl (quiet_set hw (by simp) (.inr (.inl rfl)))⟩
  | unhandled w k value hw => exact ⟨calls, h.unhandled hw⟩
  | call w k value func hw => exact ⟨_, h.call func hw⟩
  | finish w k value hw =>
      exact ⟨calls, h.quiet h.state rfl rfl rfl (quiet_set hw (by simp) (.inl rfl))⟩
  | wake w hw =>
      exact ⟨calls, h.quiet h.state rfl rfl rfl (quiet_set hw (by simp) (.inl rfl))⟩
  | _ => exact ⟨calls, h.quiet h.state rfl rfl rfl (Quiet.refl _)⟩

/-- Everything that happens after `STATE_TERMINATE`. -/
theorem over_of_path {s t : Sys T F} {as : List (Label T)}
    (hs : s.state = .terminate ∨ s.state = .none)
    (h : (system type mapper).Path notStarting s as t) : ∃ calls, Over s t calls := by
  induction h with
  | nil => exact ⟨[], Over.refl hs⟩
  | snoc _ hok hstep ih =>
      obtain ⟨calls, hover⟩ := ih
      exact hover.move hok (move_of_step hstep)

/-- **Shutdown is final.**  After a `stop` has written `STATE_TERMINATE`, and as long as
no `start` writes `STATE_IDEL`: the state word says `STATE_TERMINATE` or `STATE_NONE`,
the queue does not change, and the handlers that are called or running are those of
values dequeued before, one for each worker. -/
theorem shutdown_final {r s t : Sys T F} {c : ℕ} {as : List (Label T)}
    (h : (system type mapper).Reachable (fun _ _ => True) r)
    (hc : r.callers[c]? = some .stopLock) (hstop : (system type mapper).step r (.caller c) = some s)
    (hpath : (system type mapper).Path notStarting s as t) :
    (t.state = .terminate ∨ t.state = .none) ∧ t.dataQueue = s.dataQueue ∧
      ∃ calls, t.calls = s.calls ++ calls ∧ (calls.map Call.worker).Nodup ∧
        (∀ call ∈ calls, s.taken[call.index]? = some (call.worker, call.value) ∧
          ∀ k v, s.workers[call.worker]? ≠ some (.handling k v)) ∧
        ∀ (w k : ℕ) (v : T), t.workers[w]? = some (.handling k v) →
          s.taken[k]? = some (w, v) ∧ (s.workers[w]? = some (.handling k v) ∨
            ∃ call ∈ calls, call.worker = w ∧ call.index = k ∧ call.value = v) := by
  have hterminate : s.state = .terminate := by
    cases move_of_step hstop with
    | stopLock => rfl
    | startLock _ hc' | spawnOver _ _ _ hc' | spawn _ _ hc' | startDone _ _ hc' | stopExit _ hc'
    | stopAgain _ hc' | joined _ _ _ hc' | joinThrew _ _ hc' | stopDone _ _ hc' =>
        simp [hc] at hc'
  have hinv := inv_of_reachable (h.step trivial hstop)
  obtain ⟨calls, hover⟩ := over_of_path (Or.inl hterminate) hpath
  refine ⟨hover.state, hover.dataQueue, calls, hover.calls_eq, hover.once, fun call hcall => ?_,
    fun w k v hw => ?_⟩
  · have hholder := (hover.holder call hcall).1
    refine ⟨hinv.taken_owner _ _ _ hholder, fun k v hw => ?_⟩
    rw [hholder] at hw
    simp at hw
  · refine ⟨?_, hover.handling w k v hw⟩
    rcases hover.handling w k v hw with hold | ⟨call, hcall, rfl, rfl, rfl⟩
    · exact hinv.handling_owner w k v hold
    · exact hinv.taken_owner _ _ _ (hover.holder call hcall).1

/-- `start` makes its four threads and worker `0` takes the one value. -/
def startedRun : List (Label ℕ) :=
  [.start 0, .caller 0, .caller 0, .caller 0, .caller 0, .caller 0, .caller 0,
    .dispatch 7 none, .worker 0]

/-- `shutdown_final` at a run in which worker `0` still calls its handler. -/
theorem shutdown_final_oneCall : ∃ s t : Sys ℕ ℕ, s.calls = [] ∧ t.calls = [⟨0, 0, 1, 7⟩] ∧
    t.dataQueue = s.dataQueue := by
  have hreach : (system id (registerHandler OrderedMap.empty 7 1)).Reachable
      (fun _ _ => True) _ :=
    LTS.reachable_of_exec ⟨1, rfl⟩
      (show LTS.exec _ _ _ (startedRun ++ [.stop 0, .caller 0]) = some _ from rfl)
  refine ⟨_, _, ?_, ?_,
    (shutdown_final (c := 0) hreach rfl rfl
      (LTS.Path.single (show notStarting _ (Label.worker 0) from trivial) rfl)).2.1⟩
  · rfl
  · rfl

/-! ## Restart -/

/-- The calls of `start` and `stop` come one after another. -/
def turns (s : Sys T F) : Label T → Prop
  | .start _ | .stop _ => ∀ p ∈ s.callers, p = .outside
  | _ => True

instance (s : Sys T F) (a : Label T) : Decidable (turns s a) :=
  match a with
  | .start _ | .stop _ => inferInstanceAs (Decidable (∀ p ∈ s.callers, p = .outside))
  | .dispatch _ _ | .caller _ | .worker _ | .wake _ => inferInstanceAs (Decidable True)

/-- `start` finds the queue empty when it assigns `STATE_IDEL`. -/
def startsEmpty (s : Sys T F) : Label T → Prop
  | .caller c => s.callers[c]? = some .startLock → s.dataQueue = []
  | _ => True

/-- With `STATE_IDEL` the workers have nothing to do. -/
def IdelEmpty (s : Sys T F) : Prop := s.state = .idel → s.dataQueue = []

/-- **Step lemma.**  The workers and `dispatch` write `STATE_IDEL` for an empty queue. -/
theorem IdelEmpty.move {s t : Sys T F} {a : Label T} (h : IdelEmpty s) (hok : startsEmpty s a)
    (hm : Move type mapper s a t) : IdelEmpty t := by
  intro hidel
  cases hm with
  | accepted | stopLock | leave => simp at hidel
  | startLock c hc => exact hok hc
  | takeLast => rfl
  | take w value rest hw hst =>
      exact absurd (hst.symm.trans hidel) (by simp)
  | _ => exact h hidel

/-- **A restarted pipeline strands no work** exactly if every `start` finds the queue
empty. -/
theorem idel_empty_iff {n : ℕ} {s : Sys T F} {as : List (Label T)}
    (h : (system type mapper).Path turns (fresh n) as s) :
    (∀ bs t, bs <+: as → (system type mapper).Path turns (fresh n) bs t → IdelEmpty t) ↔
      (system type mapper).Path (fun s a => turns s a ∧ startsEmpty s a) (fresh n) as s := by
  have h₀ : (system type mapper).init (fresh n) := ⟨n, rfl⟩
  apply LTS.Path.always_iff h₀ h
  · rintro s ⟨m, rfl⟩
    exact fun _ => rfl
  · intro s a t _ hs hok hstep
    exact hs.move hok.2 (move_of_step hstep)
  · intro s a t _ hturns hnot hstep hs
    replace hnot : ¬startsEmpty s a := fun hok => hnot ⟨hturns, hok⟩
    cases move_of_step hstep with
    | startLock c hc => exact hnot fun _ => hs rfl
    | refused | accepted | startSkip | startCall | stopSkip | stopCall | wake =>
        exact hnot trivial
    | leave | underflow | takeLast | take | park | unhandled | call | finish => exact hnot trivial
    | spawnOver _ _ _ hc | spawn _ _ hc | startDone _ _ hc | stopExit _ hc | stopAgain _ hc
    | stopLock _ hc | joined _ _ _ hc | joinThrew _ _ hc | stopDone _ _ hc =>
        exact hnot fun hc' => absurd (hc.symm.trans hc') (by simp)
  · exact fun s a => And.left

/-- `idel_empty_iff` at a run of one session. -/
theorem idel_empty_iff_oneSession : ∃ s : Sys ℕ ℕ,
    (∀ bs t, bs <+: startedRun →
      (system id (OrderedMap.empty : OrderedMap ℕ ℕ)).Path turns (fresh 1) bs t → IdelEmpty t) ↔
    (system id (OrderedMap.empty : OrderedMap ℕ ℕ)).Path (fun s a => turns s a ∧ startsEmpty s a)
      (fresh 1) startedRun s :=
  ⟨_, idel_empty_iff (LTS.path_of_exec (show LTS.exec _ _ _ startedRun = some _ from rfl))⟩

/-- A value is dispatched, and before a worker has taken it the client stops the pipeline:
each worker finds `STATE_TERMINATE` in time.  Then the client starts it again. -/
def strandedRun : List (Label ℕ) :=
  startedRun.dropLast ++ [.stop 0, .caller 0] ++
    [.caller 0, .caller 0, .worker 0, .caller 0, .caller 0, .worker 1, .caller 0, .caller 0,
      .worker 2, .caller 0, .worker 3] ++
    [.caller 0, .caller 0, .caller 0, .caller 0, .caller 0, .caller 0, .start 0, .caller 0]

/-- The value is left behind workers that wait. -/
theorem value_stranded : ∃ s : Sys ℕ ℕ,
    (system id (OrderedMap.empty : OrderedMap ℕ ℕ)).Path turns (fresh 1) strandedRun s ∧
      s.state = .idel ∧ s.dataQueue = [7] := by
  refine ⟨_, LTS.path_of_exec (show LTS.exec _ _ _ strandedRun = some _ from rfl), rfl, rfl⟩

end Pipeline
