/-
# No lost wakeup in the pipeline

From the construction of a `Pipeline` through its first `start` and up to `stop`
the workers, counted by where they are, behave like a crew behind one condition
variable (`Crew`).  The work-conservation law of the crew then says that a worker
is blocked on `condit` only while every queued value has an awake worker on its
way to it; in particular nothing is queued while all workers are blocked.

The runs considered are those in which nobody calls `stop` and one client calls
`start` (`beforeStop`); dispatchers, handlers, notifications and spurious wakeups
are unrestricted.
-/
import CppShared.PipelineQueue
import CppShared.Crew
import CppShared.Table

namespace Pipeline

variable {T F Ty : Type*}

/-! ## Counting the workers -/

/-- Awake and on the way to the critical section. -/
def Worker.isEntering : Worker T → Bool
  | .entering => true
  | _ => false

/-- Between taking a value and the return of its handler. -/
def Worker.isBusy : Worker T → Bool
  | .taken _ _ => true
  | .handling _ _ => true
  | _ => false

/-- After a notification of all waiters nobody is blocked. -/
theorem countP_isParked_notifyAll (ws : List (Worker T)) :
    (notifyAll ws).countP Worker.isParked = 0 := by
  refine List.countP_eq_zero.mpr fun p hp => ?_
  obtain ⟨q, -, rfl⟩ := List.mem_map.mp hp
  cases q <;> simp [Worker.notified, Worker.isParked]

/-- A notification of all waiters sends every blocked worker to the section. -/
theorem countP_isEntering_notifyAll (ws : List (Worker T)) :
    (notifyAll ws).countP Worker.isEntering =
      ws.countP Worker.isEntering + ws.countP Worker.isParked := by
  induction ws with
  | nil => rfl
  | cons p ws ih =>
      simp only [notifyAll, List.map_cons, List.countP_cons] at ih ⊢
      rw [ih]
      cases p <;> simp [Worker.notified, Worker.isEntering, Worker.isParked] <;> omega

/-- A notification does not touch the busy workers. -/
theorem countP_isBusy_notifyAll (ws : List (Worker T)) :
    (notifyAll ws).countP Worker.isBusy = ws.countP Worker.isBusy := by
  rw [notifyAll, List.countP_map]
  refine List.countP_congr fun p _ => ?_
  cases p <;> simp [Worker.notified, Worker.isBusy]

/-- The counts of a state. -/
def crewOf (s : Sys T F) : Crew where
  queued := s.dataQueue.length
  parked := s.workers.countP Worker.isParked
  awake := s.workers.countP Worker.isEntering
  busy := s.workers.countP Worker.isBusy

/-- What moving worker `w` from `p` to `q` does to the three counts. -/
theorem counts_set {ws : List (Worker T)} {w : ℕ} {p : Worker T} (hw : ws[w]? = some p)
    (q : Worker T) :
    (ws.set w q).countP Worker.isParked + (if p.isParked then 1 else 0) =
      ws.countP Worker.isParked + (if q.isParked then 1 else 0) ∧
    (ws.set w q).countP Worker.isEntering + (if p.isEntering then 1 else 0) =
      ws.countP Worker.isEntering + (if q.isEntering then 1 else 0) ∧
    (ws.set w q).countP Worker.isBusy + (if p.isBusy then 1 else 0) =
      ws.countP Worker.isBusy + (if q.isBusy then 1 else 0) :=
  ⟨countP_set_add hw q _, countP_set_add hw q _, countP_set_add hw q _⟩

/-- A worker leaves the section with a value. -/
theorem counts_take {ws : List (Worker T)} {w : ℕ} (hw : ws[w]? = some .entering) (k : ℕ)
    (value : T) :
    (ws.set w (.taken k value)).countP Worker.isParked = ws.countP Worker.isParked ∧
    (ws.set w (.taken k value)).countP Worker.isEntering + 1 = ws.countP Worker.isEntering ∧
    (ws.set w (.taken k value)).countP Worker.isBusy = ws.countP Worker.isBusy + 1 :=
  counts_set hw (.taken k value)

/-- A worker blocks. -/
theorem counts_park {ws : List (Worker T)} {w : ℕ} (hw : ws[w]? = some .entering) :
    (ws.set w .parked).countP Worker.isParked = ws.countP Worker.isParked + 1 ∧
    (ws.set w .parked).countP Worker.isEntering + 1 = ws.countP Worker.isEntering ∧
    (ws.set w .parked).countP Worker.isBusy = ws.countP Worker.isBusy :=
  counts_set hw .parked

/-- A blocked worker is woken. -/
theorem counts_rouse {ws : List (Worker T)} {w : ℕ} (hw : ws[w]? = some .parked) :
    (ws.set w .entering).countP Worker.isParked + 1 = ws.countP Worker.isParked ∧
    (ws.set w .entering).countP Worker.isEntering = ws.countP Worker.isEntering + 1 ∧
    (ws.set w .entering).countP Worker.isBusy = ws.countP Worker.isBusy :=
  counts_set hw .entering

/-- A busy worker is back at the head of its loop. -/
theorem counts_finish {ws : List (Worker T)} {w : ℕ} {p : Worker T} (hw : ws[w]? = some p)
    (hp : p.isBusy = true) :
    (ws.set w .entering).countP Worker.isParked = ws.countP Worker.isParked ∧
    (ws.set w .entering).countP Worker.isEntering = ws.countP Worker.isEntering + 1 ∧
    (ws.set w .entering).countP Worker.isBusy + 1 = ws.countP Worker.isBusy := by
  cases p with
  | taken k value => exact counts_set hw .entering
  | handling k value => exact counts_set hw .entering
  | _ => exact absurd hp Bool.false_ne_true

/-! ## The runs up to `stop` -/

/-- Nobody calls `stop`, and only client `0` calls `start`. -/
def beforeStop (_ : Sys T F) : Label T → Prop
  | .stop _ => False
  | .start c => c = 0
  | _ => True

instance (s : Sys T F) (a : Label T) : Decidable (beforeStop s a) :=
  match a with
  | .stop _ => inferInstanceAs (Decidable False)
  | .start c => inferInstanceAs (Decidable (c = 0))
  | .dispatch _ _ | .caller _ | .worker _ | .wake _ => inferInstanceAs (Decidable True)

/-- Where a client can be before `stop`. -/
def Caller.Starting (state : State) : Caller → Prop
  | .outside => True
  | .startLock => state = .none
  | .startSpawn _ => state ≠ .none
  | _ => False

/-- The invariant of the runs up to `stop`: the state word says whether the queue
is empty, nobody works before the state leaves `STATE_NONE`, and the clients are
outside or in `start`. -/
structure Started (s : Sys T F) : Prop where
  noTerminate : s.state ≠ .terminate
  queue_nil : s.state ≠ .ready → s.dataQueue = []
  early : s.state = .none → s.workers = []
  first : ∀ p ∈ s.callers[0]?, p.Starting s.state
  others : ∀ c : ℕ, c ≠ 0 → ∀ p ∈ s.callers[c]?, p = .outside

section Invariant

variable [LinearOrder Ty] {type : T → Ty} {mapper : OrderedMap Ty F}

/-- Before `stop` the client that moves inside `start` or `stop` is client `0`, and
it is in `start`. -/
theorem Started.caller {s : Sys T F} (h : Started s) {c : ℕ} {p : Caller}
    (hc : s.callers[c]? = some p) (hp : p ≠ .outside) : c = 0 ∧ p.Starting s.state := by
  by_cases hc0 : c = 0
  · subst hc0
    exact ⟨rfl, h.first p hc⟩
  · exact absurd (h.others c hc0 p hc) hp

/-- Moving client `0` within `start` keeps the two statements about the clients. -/
theorem starting_set {callers : List Caller} {p q : Caller} {state : State}
    (hc : callers[0]? = some p) (hq : q.Starting state)
    (hothers : ∀ c : ℕ, c ≠ 0 → ∀ p ∈ callers[c]?, p = .outside) :
    (∀ r ∈ (callers.set 0 q)[0]?, r.Starting state) ∧
    ∀ d : ℕ, d ≠ 0 → ∀ r ∈ (callers.set 0 q)[d]?, r = .outside := by
  constructor
  · intro r hr
    rcases (getElem?_set_iff hc).mp hr with ⟨-, rfl⟩ | ⟨hne, -⟩
    · exact hq
    · exact absurd rfl hne
  · intro d hd r hr
    rcases (getElem?_set_iff hc).mp hr with ⟨rfl, -⟩ | ⟨-, hr⟩
    · exact absurd rfl hd
    · exact hothers d hd r hr

/-- The constructed pipeline satisfies the invariant. -/
theorem started_fresh (n : ℕ) : Started (fresh n : Sys T F) := by
  have hout : ∀ c : ℕ, ∀ p ∈ (List.replicate n Caller.outside)[c]?, p = .outside := by
    intro c p hp
    exact List.eq_of_mem_replicate (List.mem_of_getElem? hp)
  refine ⟨by simp [fresh], fun _ => rfl, fun _ => rfl, fun p hp => ?_, fun c _ => hout c⟩
  rw [hout 0 p hp]
  trivial

/-- A client that is still in `start` keeps being so when the state word moves
between `STATE_IDEL` and `STATE_READY`. -/
theorem Caller.Starting.state_change {p : Caller} {state state' : State} (h : p.Starting state)
    (hold : state ≠ .none) (hnew : state' ≠ .none) : p.Starting state' := by
  cases p <;> simp_all [Caller.Starting]

/-- A worker step from `STATE_READY` or `STATE_IDEL` keeps the clients' part. -/
theorem Started.of_workers {s t : Sys T F} (h : Started s) (hcallers : t.callers = s.callers)
    (hne : s.state ≠ .none) (hstate : t.state = .ready ∨ t.state = .idel)
    (hnil : t.state ≠ .ready → t.dataQueue = []) : Started t := by
  have hnone : t.state ≠ .none := by rcases hstate with h | h <;> simp [h]
  refine ⟨?_, hnil, fun h => absurd h hnone, ?_, ?_⟩
  · rcases hstate with h | h <;> simp [h]
  · rw [hcallers]
    exact fun p hp => (h.first p hp).state_change hne hnone
  · rw [hcallers]
    exact h.others

/-- A worker exists only once the state has left `STATE_NONE`. -/
theorem Started.state_ne_none {s : Sys T F} (h : Started s) {w : ℕ} {p : Worker T}
    (hw : s.workers[w]? = some p) : s.state ≠ .none := by
  intro hs
  simp [h.early hs] at hw

/-- A state other than `STATE_NONE` is `STATE_READY` or `STATE_IDEL` here. -/
theorem Started.ready_or_idel {s : Sys T F} (h : Started s) (hs : s.state ≠ .none) :
    s.state = .ready ∨ s.state = .idel := by
  have hterm := h.noTerminate
  cases hstate : s.state <;> simp_all

/-- **Step lemma.**  Every move before `stop` keeps the invariant. -/
theorem Started.move {s t : Sys T F} {a : Label T} (h : Started s) (hok : beforeStop s a)
    (hm : Move type mapper s a t) : Started t := by
  -- a worker's move that leaves queue and state alone
  have hworker : ∀ {w : ℕ} {p : Worker T} {ws : List (Worker T)} {calls : List (Call T F)},
      s.workers[w]? = some p → Started { s with workers := ws, calls := calls } := by
    intro w p ws calls hw
    have hne := h.state_ne_none hw
    exact h.of_workers rfl hne (h.ready_or_idel hne) h.queue_nil
  cases hm with
  | refused | startSkip | stopSkip => exact h
  | accepted data woken ws hs hws =>
      exact h.of_workers rfl (fun hn => hs (.inl hn)) (.inl rfl) (by simp)
  | startCall c hc hs =>
      obtain rfl : c = 0 := hok
      obtain ⟨hfirst, hothers⟩ := starting_set hc (q := .startLock) hs h.others
      exact ⟨h.noTerminate, h.queue_nil, h.early, hfirst, hothers⟩
  | stopCall => exact hok.elim
  | startLock c hc =>
      obtain ⟨rfl, hnone⟩ := h.caller hc (by simp)
      have hnil : s.dataQueue = [] := h.queue_nil (by rw [show s.state = .none from hnone]; simp)
      obtain ⟨hfirst, hothers⟩ :=
        starting_set hc (q := .startSpawn 0) (show State.idel ≠ .none by simp) h.others
      exact ⟨by simp, fun _ => hnil, by simp, hfirst, hothers⟩
  | spawnOver => exact ⟨h.noTerminate, h.queue_nil, h.early, h.first, h.others⟩
  | spawn c i hc =>
      obtain ⟨rfl, hne⟩ := h.caller hc (by simp)
      obtain ⟨hfirst, hothers⟩ := starting_set hc (q := .startSpawn (i + 1)) hne h.others
      exact ⟨h.noTerminate, h.queue_nil, fun hs => absurd hs hne, hfirst, hothers⟩
  | startDone c i hc =>
      obtain ⟨rfl, hne⟩ := h.caller hc (by simp)
      have hout : Caller.outside.Starting s.state := trivial
      obtain ⟨hfirst, hothers⟩ := starting_set hc hout h.others
      exact ⟨h.noTerminate, h.queue_nil, h.early, hfirst, hothers⟩
  | stopExit _ hc | stopAgain _ hc | stopLock _ hc | joined _ _ _ hc | joinThrew _ _ hc
  | stopDone _ _ hc =>
      exact (h.caller hc (by simp)).2.elim
  | leave w hw hs => exact absurd hs h.noTerminate
  | underflow _ hw | park _ hw | unhandled _ _ _ hw | call _ _ _ _ hw | finish _ _ _ hw
  | wake _ hw =>
      exact hworker hw
  | takeLast w value hw hs hq =>
      exact h.of_workers rfl (h.state_ne_none hw) (.inr rfl) (fun _ => rfl)
  | take w value rest hw hs hq hrest =>
      exact h.of_workers rfl (h.state_ne_none hw) (.inl hs) (fun hne => absurd hs hne)

/-- Every state reachable before `stop` satisfies the invariant. -/
theorem started_of_reachable {s : Sys T F} (h : (system type mapper).Reachable beforeStop s) :
    Started s := by
  refine LTS.Reachable.induction (I := Started) ?_ ?_ h
  · rintro _ ⟨n, rfl⟩
    exact started_fresh n
  · intro s a t _ hs hok hstep
    exact hs.move hok (move_of_step hstep)

/-! ## The pipeline refines the crew -/

/-- `dispatch` of a value is a post. -/
theorem crewOf_post {s : Sys T F} {data : T} {woken : Option ℕ} {ws : List (Worker T)}
    (hws : notifyOne s.workers woken = some ws) :
    (crewOf s).step .post =
      some (crewOf { s with
        dataQueue := s.dataQueue ++ [data]
        state := .ready
        workers := ws
        accepted := s.accepted ++ [data] }) := by
  cases woken with
  | none =>
      simp only [notifyOne] at hws
      split_ifs at hws with hany
      obtain rfl := Option.some.inj hws
      have hparked : s.workers.countP Worker.isParked = 0 := by
        rw [List.countP_eq_zero]
        intro p hp hpark
        exact hany (List.any_eq_true.mpr ⟨p, hp, hpark⟩)
      simp [Crew.step, crewOf, hparked]
  | some w =>
      simp only [notifyOne] at hws
      split at hws
      · next hw =>
          obtain rfl := Option.some.inj hws
          obtain ⟨hp, he, hb⟩ := counts_rouse hw
          have hpos : s.workers.countP Worker.isParked ≠ 0 := by omega
          simp only [Crew.step, crewOf, hpos, if_false, List.length_append, List.length_singleton,
            Option.some.injEq, Crew.mk.injEq, true_and]
          omega
      · exact absurd hws (by simp)

/-- Every step before `stop` is a move of the crew, or none. -/
theorem refines_crew : LTS.Refines (system type mapper) beforeStop crew crewOf where
  init := by
    rintro _ ⟨n, rfl⟩
    rfl
  step s a t hreach hok hstep := by
    have hinv := started_of_reachable hreach
    have hm := move_of_step hstep
    cases hm with
    | accepted data woken ws hs hws => exact crew_move .post (crewOf_post hws)
    | startLock c hc =>
        -- nobody works yet, so the notification of `start` reaches no one
        obtain ⟨rfl, hnone⟩ := hinv.caller hc (by simp)
        have hws : s.workers = [] := hinv.early hnone
        simpa [crewOf, hws, notifyAll] using crew_idle (crewOf s)
    | spawn c i hc =>
        refine crew_move .hire ?_
        simp [Crew.step, crewOf, Worker.isParked, Worker.isEntering, Worker.isBusy]
    | leave w hw hs => exact absurd hs hinv.noTerminate
    | underflow w hw hs hq =>
        -- not a move of the crew: the queue invariant excludes it
        exact absurd hq ((inv_of_reachable hreach).ready hs)
    | takeLast w value hw hs hq =>
        obtain ⟨hp, he, hb⟩ := counts_take hw s.taken.length value
        refine crew_move .takeLast ?_
        have hawake : 0 < s.workers.countP Worker.isEntering := by omega
        simp only [Crew.step, crewOf, hq, hawake, List.length_singleton, and_self, if_true,
          countP_isParked_notifyAll, countP_isEntering_notifyAll, countP_isBusy_notifyAll,
          List.length_nil, Option.some.injEq, Crew.mk.injEq, true_and]
        omega
    | take w value rest hw hs hq hrest =>
        obtain ⟨hp, he, hb⟩ := counts_take hw s.taken.length value
        have hlen : 0 < rest.length := List.length_pos_iff.mpr hrest
        have hmany : 1 < rest.length + 1 := by omega
        have hawake : 0 < s.workers.countP Worker.isEntering := by omega
        refine crew_move .take ?_
        simp only [Crew.step, crewOf, hq, hawake, hmany, List.length_cons, and_self, if_true,
          Option.some.injEq, Crew.mk.injEq]
        omega
    | park w hw hs =>
        obtain ⟨hp, he, hb⟩ := counts_park hw
        have hnil : s.dataQueue = [] := hinv.queue_nil (by rcases hs with hs | hs <;> simp [hs])
        have hawake : 0 < s.workers.countP Worker.isEntering := by omega
        refine crew_move .park ?_
        simp only [Crew.step, crewOf, hnil, hawake, List.length_nil, and_self, if_true,
          Option.some.injEq, Crew.mk.injEq, true_and]
        omega
    | call w k value func hw =>
        obtain ⟨hp, he, hb⟩ := counts_set hw (.handling k value)
        simp only [Worker.isParked, Worker.isEntering, Worker.isBusy, if_true, if_false,
          Bool.false_eq_true, Nat.add_zero, Nat.add_right_cancel_iff] at hp he hb
        simpa [crewOf, hp, he, hb] using crew_idle (crewOf s)
    | unhandled w k value hw | finish w k value hw =>
        obtain ⟨hp, he, hb⟩ := counts_finish hw rfl
        have hbusy : 0 < s.workers.countP Worker.isBusy := by omega
        refine crew_move .finish ?_
        simp only [Crew.step, crewOf, hbusy, if_true, Option.some.injEq, Crew.mk.injEq, true_and]
        omega
    | wake w hw =>
        obtain ⟨hp, he, hb⟩ := counts_rouse hw
        have hparked : 0 < s.workers.countP Worker.isParked := by omega
        refine crew_move .rouse ?_
        simp only [Crew.step, crewOf, hparked, if_true, Option.some.injEq, Crew.mk.injEq, true_and]
        omega
    | stopCall => exact hok.elim
    | stopLock c hc => exact (hinv.caller hc (by simp)).2.elim
    | _ => exact crew_idle _

/-! ## Main result -/

/-- **Work conservation.**  Before `stop`, a worker is blocked on `condit` only
while the queue is no longer than the number of workers on their way to the
critical section; in particular the queue is empty while all workers there are
are blocked. -/
theorem work_conservation {s : Sys T F} (h : (system type mapper).Reachable beforeStop s) :
    (0 < s.workers.countP Worker.isParked →
      s.dataQueue.length ≤ s.workers.countP Worker.isEntering) ∧
    (s.workers ≠ [] → (∀ p ∈ s.workers, p = .parked) → s.dataQueue = []) := by
  have hlaw : 0 < s.workers.countP Worker.isParked →
      s.dataQueue.length ≤ s.workers.countP Worker.isEntering :=
    crew_law (refines_crew.reachable h)
  refine ⟨hlaw, fun hne hall => ?_⟩
  obtain ⟨p, hp⟩ := List.exists_mem_of_ne_nil _ hne
  have hparked : 0 < s.workers.countP Worker.isParked :=
    List.countP_pos_iff.mpr ⟨p, hp, by simp [hall p hp, Worker.isParked]⟩
  have hawake : s.workers.countP Worker.isEntering = 0 :=
    List.countP_eq_zero.mpr fun p hp => by simp [hall p hp, Worker.isEntering]
  have hlen := hlaw hparked
  exact List.length_eq_zero_iff.mp (by omega)

end Invariant

/-- Worker `0` blocks, and the value dispatched then is left to worker `1`, which
was notified for it. -/
def oneParkedRun : List (Label ℕ) :=
  [.start 0, .caller 0, .caller 0, .caller 0, .worker 0, .worker 1, .dispatch 7 (some 1)]

/-- The law in the state that `oneParkedRun` leads to. -/
theorem work_conservation_oneParked :
    ∃ s : Sys ℕ ℕ, 0 < s.workers.countP Worker.isParked ∧ s.dataQueue = [7] ∧
      s.dataQueue.length ≤ s.workers.countP Worker.isEntering := by
  have hreach : (system id (registerHandler OrderedMap.empty 7 1)).Reachable beforeStop _ :=
    LTS.reachable_of_exec ⟨1, rfl⟩ (show LTS.exec _ _ _ oneParkedRun = _ from rfl)
  exact ⟨_, by decide, by decide, (work_conservation hreach).1 (by decide)⟩

end Pipeline
