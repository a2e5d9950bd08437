/-
# Requests and follow-ups

A request (`setEvent`) and a follow-up (what `transit` found) lie in the one slot
`currentEventID` until the worker executes them, and the worker lets the mutex go
between two executions.  So a later request replaces an earlier one, or the follow-up
of the last execution.  Nothing else is lost: `transit` never replaces a request, and
what is in the slot is what the worker executes next (`requests_served`).

The runs are those of a started machine: the events are registered with an action
before `start`, every action returns 0, and nobody stops the machine.
-/
import CppShared.LazyFsmLifecycle
import Mathlib.Data.List.Chain

namespace LazyFsm

variable {A : Type*}

/-! ## What happens to the slot -/

/-- What an observer sees of a run. -/
inductive Happening
  /-- A `setEvent` on a registered id. -/
  | request (id : ℤ)
  /-- `transit` found an event. -/
  | followUp (id : ℤ)
  /-- The worker begins to execute an event. -/
  | execution (id : ℤ)
  deriving DecidableEq, Repr

/-- What the step shows. -/
def happening (s : Sys A) : Label A → List Happening
  | .setEvent id => if s.events.find? id = none then [] else [.request id]
  | .worker =>
      match s.status, (index s.events s.currentEventID).2.action with
      | .ready, some _ => [.execution s.currentEventID]
      | _, _ => []
  | .ret ret =>
      if ret = 0 then
        let p := index s.events s.currentEventID
        ((follower p.1 p.2.nextState).map Happening.followUp).toList
      else []
  | _ => []

/-- A started machine whose actions return 0. -/
def Working (s : Sys A) : Label A → Prop
  | .registerEvent _ _ _ action => s.worker = .absent ∧ action ≠ none
  | .setEvent _ => s.worker ≠ .absent
  | .stop => False
  | .ret ret => ret = 0
  | _ => True

/-- The events of a started machine are set up. -/
theorem working_setup (s : Sys A) (a : Label A) (h : Working s a) : Setup s a := by
  cases a with
  | registerEvent id state nextState action => exact h
  | _ => trivial

/-- The machine and what was seen of it. -/
abbrev watched : LTS (Sys A × List Happening) (Label A) := system.watch happening

/-- A request or a follow-up is executed next. -/
def Prompt : Happening → Happening → Prop
  | .request id, next => next = .execution id
  | .followUp id, next => next = .execution id
  | .execution _, _ => True

/-- A request or a follow-up is executed next, if not another request comes first. -/
def PromptOrReplaced (x y : Happening) : Prop := Prompt x y ∨ ∃ id, y = .request id

/-! ## The slot -/

/-- A machine that nobody stops. -/
def Unstopped (s : Sys A) : Prop := s.owner = .outside ∨ ∃ state, s.owner = .starting state

theorem unstopped_step {s t : Sys A} {a : Label A} (hs : Unstopped s) (hok : Working s a)
    (h : step s a = some t) : Unstopped t := by
  cases move_of_step h with
  | stopSkip | stopCall => exact hok.elim
  | startCall state => exact Or.inr ⟨state, rfl⟩
  | spawn => exact Or.inl rfl
  | stopExit ho | stopAgain ho | stopLock ho | joined ho | joinThrew ho =>
      rcases hs with hout | ⟨state, hstart⟩
      · simp [ho] at hout
      · simp [ho] at hstart
  | _ => exact hs

theorem unstopped_of_reachable {s : Sys A} (h : system.Reachable Working s) : Unstopped s := by
  refine LTS.Reachable.induction (I := Unstopped) ?_ ?_ h
  · rintro s ⟨id, state, rfl⟩
    exact Or.inl rfl
  · intro s a t _ hs hok hstep
    exact unstopped_step hs hok hstep

/-- A blocked worker has no work, a working one has. -/
structure Signal (s : Sys A) : Prop where
  parked : s.worker = .parked → s.status ≠ .ready
  executing : ∀ x, s.worker = .executing x → s.status = .ready

theorem signal_step {s t : Sys A} {a : Label A} (halone : Alone s) (hs : Signal s)
    (h : step s a = some t) : Signal t := by
  obtain ⟨hparked, hexec⟩ := hs
  cases move_of_step h with
  | setAgain id e he hf hready =>
      exact ⟨fun hw => absurd hready (hparked hw), fun _ _ => hready⟩
  | setReady id e he hf =>
      refine ⟨fun hw => ?_, fun x _ => rfl⟩
      cases hw' : s.worker <;> simp [hw', Worker.notified] at hw
  | spawnOver state ho =>
      exact ⟨fun hw => absurd ho ((halone.running (by simp [show s.worker = _ from hw])).2 state),
        fun x _ => rfl⟩
  | stopLock ho hf =>
      refine ⟨fun _ => by simp, fun x hw => ?_⟩
      have hw' : s.worker = .executing x := hw
      simp [Sys.free, hw', Worker.holds] at hf
  | park hw ho hbusy => exact ⟨fun _ => hbusy, by simp⟩
  | exec e f hw ho hready => exact ⟨by simp, fun _ _ => hready⟩
  | registerEvent | setUnknown | startSkip | startCall | stopSkip | stopCall | stopExit
  | stopAgain | joinThrew => exact ⟨hparked, hexec⟩
  | _ => exact ⟨by simp, by simp⟩

theorem signal_of_reachable {ok : Sys A → Label A → Prop} {s : Sys A}
    (h : system.Reachable ok s) : Signal s := by
  refine LTS.Reachable.induction ?_ ?_ h
  · rintro s ⟨id, state, rfl⟩
    exact ⟨by simp [fresh], by simp [fresh]⟩
  · intro s a t hreach hs _ hstep
    exact signal_step (alone_of_reachable hreach) hs hstep

/-- What happened last is still in the slot, as long as it was not executed; a follow-up
that leaves state 0 waits. -/
def InSlot (s : Sys A) : Happening → Prop
  | .request id => s.currentEventID = id ∧ s.events.find? id ≠ none ∧
      s.status = .ready ∧ s.worker = .entering
  | .followUp id => s.currentEventID = id ∧ s.events.find? id ≠ none ∧
      (s.status = .ready ∧ s.worker = .entering ∨
        s.status = .wait ∧ s.currentState = 0 ∧ (s.worker = .entering ∨ s.worker = .parked))
  | .execution _ => True

/-- What waits in the slot waits for a worker that is not inside an action. -/
theorem InSlot.execution_of_busy {s : Sys A} {x : Happening} (h : InSlot s x)
    (hw : s.worker ≠ .entering) (hp : s.worker ≠ .parked) : ∃ id, x = .execution id := by
  cases x with
  | request id => exact absurd h.2.2.2 hw
  | followUp id =>
      rcases h.2.2 with ⟨-, hentering⟩ | ⟨-, -, hentering | hparked⟩
      · exact absurd hentering hw
      · exact absurd hentering hw
      · exact absurd hparked hp
  | execution id => exact ⟨id, rfl⟩

/-- A step that leaves the slot alone. -/
theorem InSlot.frame {s t : Sys A} {x : Happening} (h : InSlot s x)
    (hid : t.currentEventID = s.currentEventID)
    (hevents : ∀ k, s.events.find? k ≠ none → t.events.find? k ≠ none)
    (hstatus : t.status = s.status) (hstate : t.currentState = s.currentState)
    (hworker : t.worker = s.worker) : InSlot t x := by
  cases x with
  | request id =>
      obtain ⟨hslot, hfind, hready, hw⟩ := h
      exact ⟨hid.trans hslot, hevents id hfind, hstatus.trans hready, hworker.trans hw⟩
  | followUp id =>
      obtain ⟨hslot, hfind, hrest⟩ := h
      refine ⟨hid.trans hslot, hevents id hfind, ?_⟩
      rw [hstatus, hstate, hworker]
      exact hrest
  | execution id => trivial

/-- A request gets into the slot of a machine whose mutex is free, and there is a worker
to see it. -/
theorem inSlot_request {s t : Sys A} {id : ℤ} (halone : Alone s) (hsignal : Signal s)
    (hok : Working s (.setEvent id)) (hfind : s.events.find? id ≠ none)
    (h : step s (.setEvent id) = some t) : InSlot t (.request id) := by
  -- the worker is at the mutex or blocked
  have hworker : s.free = true → s.worker = .entering ∨ s.worker = .parked := by
    intro hf
    cases hw : s.worker with
    | absent => exact absurd hw hok
    | entering => exact Or.inl rfl
    | parked => exact Or.inr rfl
    | left => exact absurd hw halone.stays
    | executing x => simp [Sys.free, hw, Worker.holds] at hf
    | undefined => simp [Sys.free, hw, Worker.holds] at hf
  cases move_of_step h with
  | setUnknown _ hnone => exact absurd hnone hfind
  | setAgain _ e he hf hready =>
      refine ⟨rfl, hfind, hready, (hworker hf).resolve_right fun hp => ?_⟩
      exact hsignal.parked hp hready
  | setReady _ e he hf =>
      refine ⟨rfl, hfind, rfl, ?_⟩
      rcases hworker hf with hw | hw
      · simp [hw, Worker.notified]
      · simp [hw, Worker.notified]

/-- A follow-up that leaves state 0 goes on waiting. -/
theorem InSlot.park {s : Sys A} {x : Happening} (h : InSlot s x) (hbusy : s.status ≠ .ready) :
    InSlot { s with worker := .parked } x := by
  cases x with
  | request id => exact absurd h.2.2.1 hbusy
  | followUp id =>
      obtain ⟨hslot, hfind, hrest⟩ := h
      rcases hrest with ⟨hready, -⟩ | ⟨hwait, hzero, -⟩
      · exact absurd hready hbusy
      · exact ⟨hslot, hfind, Or.inr ⟨hwait, hzero, Or.inr rfl⟩⟩
  | execution id => trivial

/-- A worker that wakes up comes to the predicate again. -/
theorem InSlot.wake {s : Sys A} {x : Happening} (h : InSlot s x) (hw : s.worker = .parked) :
    InSlot { s with worker := .entering } x := by
  cases x with
  | request id => exact absurd (hw.symm.trans h.2.2.2) (by simp)
  | followUp id =>
      obtain ⟨hslot, hfind, hrest⟩ := h
      rcases hrest with ⟨-, hentering⟩ | ⟨hwait, hzero, -⟩
      · exact absurd (hw.symm.trans hentering) (by simp)
      · exact ⟨hslot, hfind, Or.inr ⟨hwait, hzero, Or.inl rfl⟩⟩
  | execution id => trivial

/-- What is in the slot is an event of the table. -/
theorem InSlot.of_unknown {s t : Sys A} {x : Happening} (h : InSlot s x)
    (hnone : s.events.find? s.currentEventID = none) : InSlot t x := by
  cases x with
  | request id => exact absurd (h.1 ▸ hnone) h.2.1
  | followUp id => exact absurd (h.1 ▸ hnone) h.2.1
  | execution id => trivial

/-- The worker executes what is in the slot, and nothing else gets there meanwhile. -/
structure Served (p : Sys A × List Happening) : Prop where
  chain : p.2.IsChain PromptOrReplaced
  last : ∀ x ∈ p.2.getLast?, InSlot p.1 x

/-- Nothing happens. -/
theorem Served.silent {s t : Sys A} {record : List Happening} {a : Label A}
    (h : Served (s, record)) (hnothing : happening s a = [])
    (hslot : ∀ x, InSlot s x → InSlot t x) : Served (t, record ++ happening s a) := by
  rw [hnothing, List.append_nil]
  exact ⟨h.chain, fun x hx => hslot x (h.last x hx)⟩

/-- Something happens. -/
theorem Served.snoc {s t : Sys A} {record : List Happening} (h : Served (s, record))
    {y : Happening} (hnext : ∀ x, InSlot s x → PromptOrReplaced x y) (hslot : InSlot t y) :
    Served (t, record ++ [y]) := by
  constructor
  · refine List.isChain_append.mpr ⟨h.chain, List.isChain_singleton y, fun x hx z hz => ?_⟩
    obtain rfl := Option.some.inj hz
    exact hnext x (h.last x hx)
  · intro x hx
    rw [List.getLast?_concat] at hx
    obtain rfl := Option.some.inj hx
    exact hslot

/-- What the worker begins to execute is what is in the slot. -/
theorem promptOrReplaced_execution {s : Sys A} {x : Happening} (h : InSlot s x) :
    PromptOrReplaced x (.execution s.currentEventID) := by
  cases x with
  | request id => exact Or.inl (congrArg Happening.execution h.1)
  | followUp id => exact Or.inl (congrArg Happening.execution h.1)
  | execution id => exact Or.inl trivial

/-- **Step lemma.**  A step of a started machine keeps what is in the slot or executes
it. -/
theorem Served.step {s t : Sys A} {record : List Happening} {a : Label A}
    (hs : Served (s, record)) (hreach : system.Reachable Working s) (hok : Working s a)
    (h : step s a = some t) : Served (t, record ++ happening s a) := by
  have halone := alone_of_reachable hreach
  have htidy := tidy_of_reachable working_setup hreach
  cases move_of_step h with
  | registerEvent id state nextState action =>
      refine hs.silent rfl fun x hx => hx.frame rfl (fun k hk => ?_) rfl rfl rfl
      obtain ⟨e, he⟩ := Option.ne_none_iff_exists'.mp hk
      simp [find?_insert_of_some he]
  | setUnknown id hnone => exact hs.silent (if_pos hnone) fun _ hx => hx
  | setAgain id e he | setReady id e he =>
      have hfind : s.events.find? id ≠ none := by simp [he]
      have hsome : happening s (.setEvent id) = [.request id] := if_neg hfind
      rw [hsome]
      refine hs.snoc (fun x _ => Or.inr ⟨id, rfl⟩) ?_
      exact inSlot_request halone (signal_of_reachable hreach) hok hfind h
  | startSkip | startCall =>
      exact hs.silent rfl fun x hx => hx.frame rfl (fun _ => id) rfl rfl rfl
  | spawnOver state ho | spawn state ho =>
      refine hs.silent rfl fun x hx => ?_
      have habs := halone.absent_of_starting ho
      obtain ⟨id, rfl⟩ := hx.execution_of_busy (by simp [habs]) (by simp [habs])
      trivial
  | stopExit ho | stopAgain ho | stopLock ho | joined ho | joinThrew ho =>
      rcases unstopped_of_reachable hreach with hout | ⟨state, hstart⟩
      · simp [ho] at hout
      · simp [ho] at hstart
  | stopSkip | stopCall => exact hok.elim
  | park hw ho hbusy =>
      have hnothing : happening s .worker = [] := by
        cases hst : s.status <;> simp [happening, hst] at hbusy ⊢
      exact hs.silent hnothing fun x hx => hx.park hbusy
  | null p hp hw ho hready ha =>
      have hnothing : happening s .worker = [] := by
        simp [happening, hready, hp, ha]
      refine hs.silent hnothing fun x hx => ?_
      -- the events in the table have actions
      have hnone : s.events.find? s.currentEventID = none := by
        by_contra hsome
        obtain ⟨e, he⟩ := Option.ne_none_iff_exists'.mp hsome
        obtain rfl : p = (s.events, e) := hp ▸ index_of_some he
        exact ((htidy (by simp [hw])).known _ _ he).2 ha
      exact hx.of_unknown hnone
  | exec e f hw ho hready he ha =>
      have hsome : happening s .worker = [.execution s.currentEventID] := by
        simp [happening, hready, index_of_some he, ha]
      rw [hsome]
      exact hs.snoc (fun x hx => promptOrReplaced_execution hx) trivial
  | fail x ret hw hret => exact absurd hok hret
  | chained x p id hw hp hid =>
      have hsome : happening s (.ret 0) = [.followUp id] := by
        simp [happening, hp, hid]
      rw [hsome]
      refine hs.snoc (fun y hy => ?_) ?_
      · obtain ⟨k, rfl⟩ := hy.execution_of_busy (by simp [hw]) (by simp [hw])
        exact Or.inl trivial
      · obtain ⟨e, he, -⟩ := follower_some hid
        refine ⟨rfl, by simp [he], ?_⟩
        by_cases hzero : p.2.nextState = 0
        · exact Or.inr ⟨if_pos hzero, hzero, Or.inl rfl⟩
        · exact Or.inl ⟨(if_neg hzero).trans ((signal_of_reachable hreach).executing x hw), rfl⟩
  | unchained x p hw hp hid =>
      have hnothing : happening s (.ret 0) = [] := by
        simp [happening, hp, hid]
      refine hs.silent hnothing fun y hy => ?_
      obtain ⟨k, rfl⟩ := hy.execution_of_busy (by simp [hw]) (by simp [hw])
      trivial
  | wake hw => exact hs.silent rfl fun x hx => hx.wake hw

/-- Every run of a started machine. -/
theorem served_of_run {as : List (Label A)} {p : Sys A × List Happening}
    (h : watched.Run (fun p a => Working p.1 a) as p) : Served p := by
  refine LTS.Run.induction (I := fun _ => Served) ?_ ?_ h
  · rintro ⟨s, record⟩ ⟨-, rfl⟩
    exact ⟨List.isChain_nil, by simp⟩
  · rintro as ⟨s, record⟩ a ⟨t, record'⟩ hrun hs hok hstep
    obtain ⟨hst, rfl⟩ := LTS.watch_step.mp hstep
    exact hs.step hrun.unwatch.reachable hok hst

/-- The worker is able to execute what is in the slot. -/
theorem execution_of_ready {s : Sys A} (hreach : system.Reachable Working s) {id : ℤ}
    (hslot : s.currentEventID = id) (hfind : s.events.find? id ≠ none)
    (hready : s.status = .ready) (hw : s.worker = .entering) :
    ∃ t, system.step s .worker = some t ∧ happening s .worker = [.execution id] := by
  obtain ⟨e, he⟩ := Option.ne_none_iff_exists'.mp hfind
  have htidy := tidy_of_reachable working_setup hreach (by simp [hw])
  obtain ⟨f, hf⟩ := Option.ne_none_iff_exists'.mp (htidy.known id e he).2
  have hunjoined : s.owner ≠ .joining := by
    rcases unstopped_of_reachable hreach with ho | ⟨state, ho⟩
    · simp [ho]
    · simp [ho]
  refine ⟨waitAndExec s, ?_, ?_⟩
  · rw [step_worker (threads_of_reachable hreach), workerStep, hw]
    exact if_neg hunjoined
  · subst hslot
    simp [happening, hready, index_of_some he, hf]

/-- **Requests and follow-ups are served.**  In every run of a started machine what
happens after a request or a follow-up is its execution or another request, and the
next step of the worker executes what is in the slot: a request always, a follow-up
unless it leaves state 0. -/
theorem requests_served {as : List (Label A)} {s : Sys A} {record : List Happening}
    (h : watched.Run (fun p a => Working p.1 a) as (s, record)) :
    record.IsChain PromptOrReplaced ∧
      (∀ id, record.getLast? = some (.request id) →
        ∃ t, system.step s .worker = some t ∧ happening s .worker = [.execution id]) ∧
      ∀ id, record.getLast? = some (.followUp id) → s.currentState ≠ 0 →
        ∃ t, system.step s .worker = some t ∧ happening s .worker = [.execution id] := by
  have hserved := served_of_run h
  have hreach : system.Reachable Working s := h.unwatch.reachable
  refine ⟨hserved.chain, fun id hlast => ?_, fun id hlast hstate => ?_⟩
  · obtain ⟨hslot, hfind, hready, hw⟩ := hserved.last _ hlast
    exact execution_of_ready hreach hslot hfind hready hw
  · obtain ⟨hslot, hfind, hrest⟩ := hserved.last _ hlast
    rcases hrest with ⟨hready, hw⟩ | ⟨-, hzero, -⟩
    · exact execution_of_ready hreach hslot hfind hready hw
    · exact absurd hzero hstate

instance decidableWorking (s : Sys Unit) (a : Label Unit) : Decidable (Working s a) :=
  match a with
  | .registerEvent _ _ _ action => inferInstanceAs (Decidable (s.worker = .absent ∧ action ≠ none))
  | .setEvent _ => inferInstanceAs (Decidable (s.worker ≠ .absent))
  | .stop => inferInstanceAs (Decidable False)
  | .ret ret => inferInstanceAs (Decidable (ret = 0))
  | .start _ | .owner | .worker | .wake => inferInstanceAs (Decidable True)

/-- Event 1 is requested, executed, and followed by itself. -/
theorem requests_served_loop : ∃ s : Sys Unit,
    watched.Run (fun p a => Working p.1 a) loopRun
      (s, [.request 1, .execution 1, .followUp 1]) ∧
    List.IsChain PromptOrReplaced [.request 1, .execution 1, .followUp 1] := by
  have hpath := LTS.path_of_exec (show LTS.exec watched (fun p a => Working p.1 a)
    (fresh 0 0, []) loopRun = some (_, [.request 1, .execution 1, .followUp 1]) from rfl)
  have hrun : watched.Run (fun p a => Working p.1 a) loopRun _ := ⟨_, ⟨⟨0, 0, rfl⟩, rfl⟩, hpath⟩
  exact ⟨_, hrun, (requests_served hrun).1⟩

/-- Two clients ask for different events before the worker moves. -/
def replacedRun : List (Label Unit) :=
  [.registerEvent 1 1 1 (some ()), .registerEvent 2 1 1 (some ()), .start 1, .owner,
    .setEvent 1, .setEvent 2, .worker]

/-- The second client comes when event 1 was executed and has found itself to follow. -/
def overtakenRun : List (Label Unit) :=
  [.registerEvent 1 1 1 (some ()), .registerEvent 2 1 1 (some ()), .start 1, .owner,
    .setEvent 1, .worker, .ret 0, .setEvent 2, .worker]

/-- A request is lost in the first run, and a follow-up in the second one. -/
theorem request_lost :
    (¬∀ (as : List (Label Unit)) (s : Sys Unit) (record : List Happening),
      watched.Run (fun p a => Working p.1 a) as (s, record) →
        record.IsChain fun x next => ∀ id, x = .request id → next = .execution id) ∧
      ¬∀ (as : List (Label Unit)) (s : Sys Unit) (record : List Happening),
        watched.Run (fun p a => Working p.1 a) as (s, record) →
          record.IsChain fun x next => ∀ id, x = .followUp id → next = .execution id := by
  constructor
  · intro hall
    have hpath := LTS.path_of_exec (show LTS.exec watched (fun p a => Working p.1 a)
      (fresh 0 0, []) replacedRun = some (_, [.request 1, .request 2, .execution 2]) from rfl)
    have hchain := hall replacedRun _ _ ⟨_, ⟨⟨0, 0, rfl⟩, rfl⟩, hpath⟩
    exact absurd ((List.isChain_cons_cons.mp hchain).1 1 rfl) (by simp)
  · intro hall
    have hpath := LTS.path_of_exec (show LTS.exec watched (fun p a => Working p.1 a)
      (fresh 0 0, []) overtakenRun =
        some (_, [.request 1, .execution 1, .followUp 1, .request 2, .execution 2]) from rfl)
    have hchain := hall overtakenRun _ _ ⟨_, ⟨⟨0, 0, rfl⟩, rfl⟩, hpath⟩
    have hrest := (List.isChain_cons_cons.mp (List.isChain_cons_cons.mp hchain).2).2
    exact absurd ((List.isChain_cons_cons.mp hrest).1 1 rfl) (by simp)

end LazyFsm
