/-
# The event machine (`src/LazyFsm.h`)

`LazyFSM` keeps a table of events: an event has an id, the state it leaves, the
state it leads to and an action.  `setEvent` puts an id into the one slot
`currentEventID` and makes the worker run that event; when its action returns 0
the worker looks the next event up in the table (`transit`) and goes on by itself.

The model is a transition system.  `setEvent` is one step: `find` reads a map
that nobody changes once the worker exists, and what follows is one critical
section of `mutex`.  The worker holds `mutex` from the return of `condit.wait` to
the end of the loop body, the action included, so its body is two steps: the start
of the action and, with what `exec()` returned, the rest.  `stop` holds `mutex`
while it joins.

* `int` is `ℤ`: states and ids are only stored and compared;
* `currentEventID` and `currentState` are not initialised by the constructor, so
  an initial state has arbitrary values there;
* one *owner* calls `registerEvent`, `start` and `stop`; any number of clients
  call `setEvent`;
* `registered`, `chooser`, `origin` and `finished` record what was registered, what
  assigned `currentEventID` last, the state the machine was started in and the
  executions so far.
-/
import CppShared.Transition
import CppShared.OrderedMap

namespace LazyFsm

/-- `Event`; `action` is `none` for a null pointer. -/
structure Event (A : Type*) where
  id : ℤ
  state : ℤ
  nextState : ℤ
  action : Option A
  deriving DecidableEq, Repr

/-- `Event()`. -/
def Event.default {A : Type*} : Event A := ⟨0, 0, 0, none⟩

/-- `enum Status`. -/
inductive Status
  | none
  | ready
  | wait
  | terminate
  deriving DecidableEq, Repr

/-- What assigned `currentEventID`: a client, or `transit` having found an event. -/
inductive Chooser
  | setEvent
  | transit
  deriving DecidableEq, Repr

/-- An execution: `events[currentEventID]` as the worker read it, what chose the id
(`none`: nothing did, or a `transit` that found nothing) and `currentState` then. -/
structure Begun (A : Type*) where
  id : ℤ
  event : Event A
  chooser : Option Chooser
  before : ℤ
  deriving DecidableEq, Repr

/-- An execution whose action has returned, with what it returned and `currentState`
after the worker dealt with it. -/
structure Finished (A : Type*) where
  begun : Begun A
  ret : ℤ
  after : ℤ
  deriving DecidableEq, Repr

/-- Where the worker thread is in `run`. -/
inductive Worker (A : Type*)
  /-- There is no worker thread. -/
  | absent
  /-- About to lock `mutex`: at the head of the loop, or woken inside `condit.wait`. -/
  | entering
  /-- Blocked in `condit.wait`, the mutex released. -/
  | parked
  /-- Inside `exec()`, holding the mutex. -/
  | executing (x : Begun A)
  /-- Returned from `run`. -/
  | left
  /-- Called `exec()` through a null pointer. -/
  | undefined
  deriving DecidableEq, Repr

/-- Where the owner is in `start` or `stop`. -/
inductive Owner
  | outside
  /-- `start` read `FSM_NONE` and is about to assign the fields and `listenThread`. -/
  | starting (state : ℤ)
  /-- `stop` is at the test of `while (status != FSM_NONE)`. -/
  | stopTest
  /-- `stop` is about to lock and assign `FSM_TERMINATE`. -/
  | stopLock
  /-- `stop` is in `listenThread.join()`, holding the mutex. -/
  | joining
  /-- `join` on a thread object without a thread threw. -/
  | threw
  deriving DecidableEq, Repr

/-- The object, its worker, its owner and the history of the run. -/
structure Sys (A : Type*) where
  status : Status
  currentEventID : ℤ
  currentState : ℤ
  /-- `listenThread` holds a thread. -/
  listenThread : Bool
  events : OrderedMap ℤ (Event A)
  worker : Worker A
  owner : Owner
  /-- `std::terminate` was called: `listenThread` was assigned over. -/
  aborted : Bool
  registered : List ℤ
  chooser : Option Chooser
  origin : ℤ
  finished : List (Finished A)

/-- A step: which thread moves, and the choices it depends on. -/
inductive Label (A : Type*)
  /-- The owner calls `registerEvent`. -/
  | registerEvent (id state nextState : ℤ) (action : Option A)
  /-- Somebody calls `setEvent`. -/
  | setEvent (id : ℤ)
  /-- The owner calls `start` and reads `status`. -/
  | start (state : ℤ)
  /-- The owner calls `stop` and reads `status`. -/
  | stop
  /-- The owner takes its next step inside `start` or `stop`. -/
  | owner
  /-- The worker goes through `condit.wait`. -/
  | worker
  /-- The action returns `ret`. -/
  | ret (ret : ℤ)
  /-- The worker wakes up spuriously. -/
  | wake
  deriving DecidableEq, Repr

variable {A : Type*}

/-! ## The table of events -/

/-- `events[id]`: a key that is missing is inserted with a default event. -/
def index (events : OrderedMap ℤ (Event A)) (id : ℤ) : OrderedMap ℤ (Event A) × Event A :=
  match events.find? id with
  | some e => (events, e)
  | none => (events.insert id .default, .default)

/-- The first event, in the order of the ids, whose state is `state`. -/
def follower (events : OrderedMap ℤ (Event A)) (state : ℤ) : Option ℤ :=
  (events.entries.find? (fun e => e.2.state = state)).map Prod.fst

theorem index_of_some {events : OrderedMap ℤ (Event A)} {id : ℤ} {e : Event A}
    (h : events.find? id = some e) : index events id = (events, e) := by
  simp [index, h]

/-- What `transit` finds is a registered event that leaves the requested state. -/
theorem follower_some {events : OrderedMap ℤ (Event A)} {state id : ℤ}
    (h : follower events state = some id) :
    ∃ e, events.find? id = some e ∧ e.state = state := by
  obtain ⟨e, he, rfl⟩ := Option.map_eq_some_iff.mp h
  exact ⟨e.2, OrderedMap.find?_of_mem (List.mem_of_find?_eq_some he),
    by simpa using List.find?_some he⟩

/-- `transit` finds an event exactly if one leaves the requested state. -/
theorem follower_ne_none_iff {events : OrderedMap ℤ (Event A)} {state : ℤ} :
    follower events state ≠ none ↔ ∃ id e, events.find? id = some e ∧ e.state = state := by
  constructor
  · intro h
    obtain ⟨id, hid⟩ := Option.ne_none_iff_exists'.mp h
    exact ⟨id, follower_some hid⟩
  · rintro ⟨id, e, he, rfl⟩ hnone
    have hall := List.find?_eq_none.mp (Option.map_eq_none_iff.mp hnone)
    exact hall (id, e) (OrderedMap.mem_of_find? he) (by simp)

/-- An event that is there stays when another one is inserted. -/
theorem find?_insert_of_some {events : OrderedMap ℤ (Event A)} {k id : ℤ} {e d : Event A}
    (h : events.find? k = some e) : (events.insert id d).find? k = some e := by
  rw [OrderedMap.find?_insert]
  split_ifs with hk
  · rw [← hk, h]
    rfl
  · exact h

/-- An event that is there stays when the table is indexed. -/
theorem find?_index {events : OrderedMap ℤ (Event A)} {k : ℤ} {e : Event A} (id : ℤ)
    (h : events.find? k = some e) : (index events id).1.find? k = some e := by
  unfold index
  split
  · exact h
  · exact find?_insert_of_some h

/-! ## The condition variable and the mutex -/

/-- `condit.notify_all()`. -/
def Worker.notified : Worker A → Worker A
  | .parked => .entering
  | w => w

/-- A notification wakes the worker up and does nothing else. -/
@[simp] theorem Worker.notified_eq_iff {w v : Worker A} (hp : v ≠ .parked) (he : v ≠ .entering) :
    w.notified = v ↔ w = v := by
  cases w with
  | parked => simp [Worker.notified, hp.symm, he.symm]
  | _ => rfl

/-- The worker holds `mutex`. -/
def Worker.holds : Worker A → Bool
  | .executing _ => true
  | .undefined => true
  | _ => false

/-- Nobody holds `mutex`. -/
def Sys.free (s : Sys A) : Bool := !s.worker.holds && decide (s.owner ≠ .joining)

/-! ## The calls of the owner and of the clients -/

/-- `registerEvent`: `map::insert` keeps an event that is already there. -/
def registerEvent (s : Sys A) (id state nextState : ℤ) (action : Option A) : Option (Sys A) :=
  match s.owner with
  | .outside =>
      some { s with
        events := s.events.insert id ⟨id, state, nextState, action⟩
        registered := s.registered ++ [id] }
  | _ => none

/-- `setEvent`. -/
def setEvent (s : Sys A) (id : ℤ) : Option (Sys A) :=
  if s.events.find? id = none then some s
  else if s.free then
    let t := { s with currentEventID := id, chooser := some .setEvent }
    some (if s.status = .ready then t
      else { t with status := .ready, worker := s.worker.notified })
  else none

/-- The first, unlocked read of `start`. -/
def start (s : Sys A) (state : ℤ) : Option (Sys A) :=
  match s.owner with
  | .outside => some (if s.status = .none then { s with owner := .starting state } else s)
  | _ => none

/-- The first, unlocked read of `stop`. -/
def stop (s : Sys A) : Option (Sys A) :=
  match s.owner with
  | .outside => some (if s.status = .none then s else { s with owner := .stopTest })
  | _ => none

/-- The assignments of `start`; assigning over a thread object that still holds a
thread calls `std::terminate`. -/
def spawn (s : Sys A) (state : ℤ) : Sys A :=
  if s.listenThread then
    { s with currentState := state, status := .ready, origin := state, aborted := true }
  else
    { s with
      currentState := state
      status := .ready
      listenThread := true
      worker := .entering
      owner := .outside
      origin := state }

/-- `listenThread.join()`: blocks until the worker has left `run`. -/
def join (s : Sys A) : Option (Sys A) :=
  if s.listenThread then
    match s.worker with
    | .left => some { s with listenThread := false, worker := .absent, owner := .stopTest }
    | _ => none
  else some { s with owner := .threw }

/-- The next step of the owner inside `start` or `stop`. -/
def ownerStep (s : Sys A) : Option (Sys A) :=
  match s.owner with
  | .starting state => some (spawn s state)
  | .stopTest => some { s with owner := if s.status = .none then .outside else .stopLock }
  | .stopLock => if s.free then some { s with status := .terminate, owner := .joining } else none
  | .joining => join s
  | _ => none

/-! ## The worker -/

/-- `condit.wait` and what follows up to the call of `exec()`: the predicate is
evaluated under the lock, and the worker either blocks or goes on. -/
def waitAndExec (s : Sys A) : Sys A :=
  if s.status = .ready then
    if s.status = .terminate then { s with status := .none, worker := .left }
    else
      let p := index s.events s.currentEventID
      match p.2.action with
      | none => { s with events := p.1, worker := .undefined }
      | some _ =>
          { s with
            events := p.1
            worker := .executing ⟨s.currentEventID, p.2, s.chooser, s.currentState⟩ }
  else { s with worker := .parked }

/-- The worker locks the mutex and goes through `condit.wait`. -/
def workerStep (s : Sys A) : Option (Sys A) :=
  match s.worker with
  | .entering => if s.owner = .joining then none else some (waitAndExec s)
  | _ => none

/-- `transit`: the state after it and the id it returns. -/
def transit (s : Sys A) (nextState : ℤ) : Sys A × ℤ :=
  match follower s.events nextState with
  | none => (s, 0)
  | some id =>
      ({ s with
        currentState := nextState
        status := if nextState = 0 then .wait else s.status }, id)

/-- The rest of the loop body once `exec()` has returned `ret`. -/
def finish (s : Sys A) (x : Begun A) (ret : ℤ) : Sys A :=
  if ret = 0 then
    let p := index s.events s.currentEventID
    let t := transit { s with events := p.1 } p.2.nextState
    { t.1 with
      currentEventID := t.2
      worker := .entering
      chooser := (follower p.1 p.2.nextState).map fun _ => .transit
      finished := s.finished ++ [⟨x, ret, t.1.currentState⟩] }
  else
    { s with
      status := .wait
      worker := .entering
      finished := s.finished ++ [⟨x, ret, s.currentState⟩] }

/-! ## The system -/

/-- One step of the machine and everything around it. -/
def step (s : Sys A) (a : Label A) : Option (Sys A) :=
  if s.aborted then none
  else
    match a with
    | .registerEvent id state nextState action => registerEvent s id state nextState action
    | .setEvent id => setEvent s id
    | .start state => start s state
    | .stop => stop s
    | .owner => ownerStep s
    | .worker => workerStep s
    | .ret ret =>
        match s.worker with
        | .executing x => some (finish s x ret)
        | _ => none
    | .wake =>
        match s.worker with
        | .parked => some { s with worker := .entering }
        | _ => none

/-- A constructed machine; the two fields the constructor leaves alone hold `id`
and `state`. -/
def fresh (id state : ℤ) : Sys A where
  status := .none
  currentEventID := id
  currentState := state
  listenThread := false
  events := .empty
  worker := .absent
  owner := .outside
  aborted := false
  registered := []
  chooser := none
  origin := state
  finished := []

/-- The event machine with its owner and any number of clients. -/
def system : LTS (Sys A) (Label A) where
  init s := ∃ id state, s = fresh id state
  step := step

/-! ## What a step can do -/

/-- The outcomes of a step, one constructor for each path through the code. -/
inductive Move (s : Sys A) : Label A → Sys A → Prop
  | registerEvent (id state nextState : ℤ) (action : Option A) (ho : s.owner = .outside) :
      Move s (.registerEvent id state nextState action)
        { s with
          events := s.events.insert id ⟨id, state, nextState, action⟩
          registered := s.registered ++ [id] }
  | setUnknown (id : ℤ) (h : s.events.find? id = none) : Move s (.setEvent id) s
  | setAgain (id : ℤ) (e : Event A) (he : s.events.find? id = some e) (hf : s.free = true)
      (h : s.status = .ready) :
      Move s (.setEvent id) { s with currentEventID := id, chooser := some .setEvent }
  | setReady (id : ℤ) (e : Event A) (he : s.events.find? id = some e) (hf : s.free = true)
      (h : s.status ≠ .ready) :
      Move s (.setEvent id)
        { s with
          status := .ready
          currentEventID := id
          chooser := some .setEvent
          worker := s.worker.notified }
  | startSkip (state : ℤ) (ho : s.owner = .outside) (h : s.status ≠ .none) :
      Move s (.start state) s
  | startCall (state : ℤ) (ho : s.owner = .outside) (h : s.status = .none) :
      Move s (.start state) { s with owner := .starting state }
  | stopSkip (ho : s.owner = .outside) (h : s.status = .none) : Move s .stop s
  | stopCall (ho : s.owner = .outside) (h : s.status ≠ .none) :
      Move s .stop { s with owner := .stopTest }
  | spawnOver (state : ℤ) (ho : s.owner = .starting state) (hth : s.listenThread = true) :
      Move s .owner
        { s with currentState := state, status := .ready, origin := state, aborted := true }
  | spawn (state : ℤ) (ho : s.owner = .starting state) (hth : s.listenThread = false) :
      Move s .owner
        { s with
          currentState := state
          status := .ready
          listenThread := true
          worker := .entering
          owner := .outside
          origin := state }
  | stopExit (ho : s.owner = .stopTest) (h : s.status = .none) :
      Move s .owner { s with owner := .outside }
  | stopAgain (ho : s.owner = .stopTest) (h : s.status ≠ .none) :
      Move s .owner { s with owner := .stopLock }
  | stopLock (ho : s.owner = .stopLock) (hf : s.free = true) :
      Move s .owner { s with status := .terminate, owner := .joining }
  | joined (ho : s.owner = .joining) (hth : s.listenThread = true) (hw : s.worker = .left) :
      Move s .owner
        { s with listenThread := false, worker := .absent, owner := .stopTest }
  | joinThrew (ho : s.owner = .joining) (hth : s.listenThread = false) :
      Move s .owner { s with owner := .threw }
  | park (hw : s.worker = .entering) (ho : s.owner ≠ .joining) (h : s.status ≠ .ready) :
      Move s .worker { s with worker := .parked }
  | null (p : OrderedMap ℤ (Event A) × Event A) (hp : index s.events s.currentEventID = p)
      (hw : s.worker = .entering) (ho : s.owner ≠ .joining) (h : s.status = .ready)
      (ha : p.2.action = none) :
      Move s .worker { s with events := p.1, worker := .undefined }
  | exec (e : Event A) (f : A) (hw : s.worker = .entering) (ho : s.owner ≠ .joining)
      (h : s.status = .ready) (he : s.events.find? s.currentEventID = some e)
      (ha : e.action = some f) :
      Move s .worker
        { s with worker := .executing ⟨s.currentEventID, e, s.chooser, s.currentState⟩ }
  | fail (x : Begun A) (ret : ℤ) (hw : s.worker = .executing x) (hret : ret ≠ 0) :
      Move s (.ret ret)
        { s with
          status := .wait
          worker := .entering
          finished := s.finished ++ [⟨x, ret, s.currentState⟩] }
  | chained (x : Begun A) (p : OrderedMap ℤ (Event A) × Event A) (id : ℤ)
      (hw : s.worker = .executing x) (hp : index s.events s.currentEventID = p)
      (hid : follower p.1 p.2.nextState = some id) :
      Move s (.ret 0)
        { s with
          status := if p.2.nextState = 0 then .wait else s.status
          events := p.1
          currentState := p.2.nextState
          currentEventID := id
          worker := .entering
          chooser := some .transit
          finished := s.finished ++ [⟨x, 0, p.2.nextState⟩] }
  | unchained (x : Begun A) (p : OrderedMap ℤ (Event A) × Event A)
      (hw : s.worker = .executing x) (hp : index s.events s.currentEventID = p)
      (hid : follower p.1 p.2.nextState = none) :
      Move s (.ret 0)
        { s with
          events := p.1
          currentEventID := 0
          worker := .entering
          chooser := none
          finished := s.finished ++ [⟨x, 0, s.currentState⟩] }
  | wake (hw : s.worker = .parked) : Move s .wake { s with worker := .entering }

/-- The wait and the call of the action have the outcomes of `Move`. -/
theorem move_waitAndExec {s : Sys A} (hw : s.worker = .entering) (ho : s.owner ≠ .joining) :
    Move s .worker (waitAndExec s) := by
  by_cases h : s.status = .ready
  · have hne : s.status ≠ .terminate := by simp [h]
    cases ha : (index s.events s.currentEventID).2.action with
    | none =>
        have hnull : waitAndExec s =
            { s with events := (index s.events s.currentEventID).1, worker := .undefined } := by
          simp [waitAndExec, h, ha]
        exact hnull ▸ .null _ rfl hw ho h ha
    | some f =>
        cases he : s.events.find? s.currentEventID with
        | none => simp [index, he, Event.default] at ha
        | some e =>
            replace ha : e.action = some f := by simpa [index_of_some he] using ha
            have hexec : waitAndExec s =
                { s with
                  worker := .executing ⟨s.currentEventID, e, s.chooser, s.currentState⟩ } := by
              simp [waitAndExec, h, index_of_some he, ha]
            exact hexec ▸ .exec e f hw ho h he ha
  · have hpark : waitAndExec s = { s with worker := .parked } := by
      simp [waitAndExec, h]
    exact hpark ▸ .park hw ho h

/-- The end of the loop body has the outcomes of `Move`. -/
theorem move_finish {s : Sys A} {x : Begun A} (hw : s.worker = .executing x) (ret : ℤ) :
    Move s (.ret ret) (finish s x ret) := by
  unfold finish
  by_cases hret : ret = 0
  · subst hret
    rw [if_pos rfl]
    cases hid : follower (index s.events s.currentEventID).1
        (index s.events s.currentEventID).2.nextState with
    | none =>
        simp only [transit, hid]
        exact .unchained x _ hw rfl hid
    | some id =>
        simp only [transit, hid]
        exact .chained x _ id hw rfl hid
  · rw [if_neg hret]
    exact .fail x ret hw hret

/-- `setEvent` has the outcomes of `Move`. -/
theorem move_setEvent {s t : Sys A} {id : ℤ} (h : setEvent s id = some t) :
    Move s (.setEvent id) t := by
  unfold setEvent at h
  split_ifs at h with hnone hfree hready
  · obtain rfl := Option.some.inj h
    exact .setUnknown id hnone
  · obtain ⟨e, he⟩ := Option.ne_none_iff_exists'.mp hnone
    obtain rfl := Option.some.inj h
    exact .setAgain id e he hfree hready
  · obtain ⟨e, he⟩ := Option.ne_none_iff_exists'.mp hnone
    obtain rfl := Option.some.inj h
    exact .setReady id e he hfree hready

/-- The steps of the owner have the outcomes of `Move`. -/
theorem move_owner {s t : Sys A} (h : ownerStep s = some t) : Move s .owner t := by
  unfold ownerStep at h
  split at h
  · next state ho =>
      obtain rfl := Option.some.inj h
      unfold spawn
      split_ifs with hth
      · exact .spawnOver state ho hth
      · exact .spawn state ho (by simpa using hth)
  · next ho =>
      obtain rfl := Option.some.inj h
      split_ifs with hs
      · exact .stopExit ho hs
      · exact .stopAgain ho hs
  · next ho =>
      split_ifs at h with hf
      obtain rfl := Option.some.inj h
      exact .stopLock ho hf
  · next ho =>
      unfold join at h
      split_ifs at h with hth
      · split at h
        · next hw =>
            obtain rfl := Option.some.inj h
            exact .joined ho hth hw
        · simp at h
      · obtain rfl := Option.some.inj h
        exact .joinThrew ho (by simpa using hth)
  · simp at h

/-- **Inversion.**  Every step is one of the moves. -/
theorem move_of_step {s t : Sys A} {a : Label A} (h : step s a = some t) : Move s a t := by
  unfold step at h
  split at h
  · simp at h
  cases a with
  | registerEvent id state nextState action =>
      simp only [registerEvent] at h
      split at h
      · next ho =>
          obtain rfl := Option.some.inj h
          exact .registerEvent id state nextState action ho
      · simp at h
  | setEvent id => exact move_setEvent h
  | start state =>
      simp only [start] at h
      split at h
      · next ho =>
          obtain rfl := Option.some.inj h
          split_ifs with hs
          · exact .startCall state ho hs
          · exact .startSkip state ho hs
      · simp at h
  | stop =>
      simp only [stop] at h
      split at h
      · next ho =>
          obtain rfl := Option.some.inj h
          split_ifs with hs
          · exact .stopSkip ho hs
          · exact .stopCall ho hs
      · simp at h
  | owner => exact move_owner h
  | worker =>
      simp only [workerStep] at h
      split at h
      · next hw =>
          split_ifs at h with ho
          obtain rfl := Option.some.inj h
          exact move_waitAndExec hw ho
      · simp at h
  | ret ret =>
      simp only at h
      split at h
      · next x hw =>
          obtain rfl := Option.some.inj h
          exact move_finish hw ret
      · simp at h
  | wake =>
      simp only at h
      split at h
      · next hw =>
          obtain rfl := Option.some.inj h
          exact .wake hw
      · simp at h

end LazyFsm
