/-
# The event machine and its transition table

The events registered with a `LazyFSM` define a transition system on states: event
`id` leads from its `state` to its `nextState` when its action succeeds and stays
where it is when it fails (`table`).

* `Inv`: what every reachable state of the machine satisfies;
* `follows_iff`: the executions are a path of the table exactly in the runs in which
  an event that `transit` did not choose leaves the current state, and an event that
  succeeds has a follow-up in the table;
* `onlyRegistered_iff`: nothing but registered events is executed exactly in the runs
  in which the worker goes on only with a request or a follow-up.
-/
import CppShared.LazyFsm

namespace LazyFsm

variable {A : Type*}

/-- The event the worker is executing. -/
def Worker.current : Worker A → List (Begun A)
  | .executing x => [x]
  | _ => []

/-- The executions so far, the running one included. -/
def Sys.begun (s : Sys A) : List (Begun A) := s.finished.map Finished.begun ++ s.worker.current

/-! ## Invariants -/

/-- There is at most one worker, ever: `status` never returns to `FSM_NONE`. -/
structure Alone (s : Sys A) : Prop where
  running : s.worker ≠ .absent → s.status ≠ .none ∧ ∀ st, s.owner ≠ .starting st
  absent : s.worker = .absent →
    s.finished = [] ∧ s.chooser ≠ some .transit ∧ s.origin = s.currentState
  stays : s.worker ≠ .left

/-- A call of `start` that creates a thread finds none. -/
theorem Alone.absent_of_starting {s : Sys A} (hs : Alone s) {state : ℤ}
    (ho : s.owner = .starting state) : s.worker = .absent := by
  by_contra hw
  exact (hs.running hw).2 state ho

theorem alone_step {s t : Sys A} {a : Label A} (hs : Alone s) (h : step s a = some t) :
    Alone t := by
  obtain ⟨hrun, habs, hleft⟩ := hs
  cases move_of_step h with
  | registerEvent | setUnknown | startSkip | stopSkip => exact ⟨hrun, habs, hleft⟩
  | setAgain =>
      exact ⟨hrun, fun hw => ⟨(habs hw).1, by simp, (habs hw).2.2⟩, hleft⟩
  | setReady =>
      refine ⟨fun hw => ⟨by simp, (hrun ?_).2⟩, fun hw => ?_, ?_⟩
      · simpa using hw
      · have hw' : s.worker = .absent := by simpa using hw
        exact ⟨(habs hw').1, by simp, (habs hw').2.2⟩
      · simpa using hleft
  | startCall state ho hnone => exact ⟨fun hw => absurd hnone (hrun hw).1, habs, hleft⟩
  | stopCall | stopAgain | joinThrew => exact ⟨fun hw => ⟨(hrun hw).1, by simp⟩, habs, hleft⟩
  | stopExit ho hnone => exact ⟨fun hw => absurd hnone (hrun hw).1, habs, hleft⟩
  | stopLock => exact ⟨fun _ => by simp, habs, hleft⟩
  | spawnOver state ho =>
      exact ⟨fun hw => absurd ho ((hrun hw).2 state),
        fun hw => ⟨(habs hw).1, (habs hw).2.1, rfl⟩, hleft⟩
  | spawn => exact ⟨by simp, by simp, by simp⟩
  | joined ho hth hw => exact absurd hw hleft
  | park hw | exec _ _ hw | null _ _ hw | wake hw =>
      exact ⟨fun _ => hrun (by simp [hw]), by simp, by simp⟩
  | fail x ret hw => exact ⟨fun _ => ⟨by simp, (hrun (by simp [hw])).2⟩, by simp, by simp⟩
  | unchained x p hw => exact ⟨fun _ => hrun (by simp [hw]), by simp, by simp⟩
  | chained x p id hw =>
      have hs := hrun (by simp [hw])
      refine ⟨fun _ => ⟨?_, hs.2⟩, by simp, by simp⟩
      show (if p.2.nextState = 0 then Status.wait else s.status) ≠ .none
      split_ifs
      · simp
      · exact hs.1

theorem alone_of_reachable {ok : Sys A → Label A → Prop} {s : Sys A}
    (h : system.Reachable ok s) : Alone s := by
  refine LTS.Reachable.induction ?_ ?_ h
  · rintro s ⟨id, state, rfl⟩
    exact ⟨by simp [fresh], by simp [fresh], by simp [fresh]⟩
  · intro s a t _ hs _ hstep
    exact alone_step hs hstep

/-- What the worker knows of the event it is executing is what the table and the
fields say. -/
def Executing (s : Sys A) : Prop :=
  ∀ x, s.worker = .executing x →
    s.events.find? s.currentEventID = some x.event ∧ x.id = s.currentEventID ∧
      x.before = s.currentState ∧ x.chooser = s.chooser

theorem executing_step {s t : Sys A} {a : Label A} (halone : Alone s) (hs : Executing s)
    (h : step s a = some t) : Executing t := by
  intro x hx
  cases move_of_step h with
  | registerEvent => 
      obtain ⟨he, hrest⟩ := hs x hx
      exact ⟨find?_insert_of_some he, hrest⟩
  | setUnknown | startSkip | startCall | stopSkip | stopCall | stopExit | stopAgain | stopLock
  | joinThrew => exact hs x hx
  | setAgain id e he hf =>
      have hx' : s.worker = .executing x := hx
      simp [Sys.free, hx', Worker.holds] at hf
  | setReady id e he hf =>
      have hx' : s.worker = .executing x := by simpa using hx
      simp [Sys.free, hx', Worker.holds] at hf
  | spawnOver state ho =>
      have hx' : s.worker = .executing x := hx
      exact absurd ho ((halone.running (by simp [hx'])).2 state)
  | exec e f hw ho hst he ha =>
      obtain rfl : _ = x := by simpa using hx
      exact ⟨he, rfl, rfl, rfl⟩
  | _ => simp at hx

theorem executing_of_reachable {ok : Sys A → Label A → Prop} {s : Sys A}
    (h : system.Reachable ok s) : Executing s := by
  refine LTS.Reachable.induction ?_ ?_ h
  · rintro s ⟨id, state, rfl⟩ x hx
    simp [fresh] at hx
  · intro s a t hreach hs _ hstep
    exact executing_step (alone_of_reachable hreach) hs hstep

/-- Where the id in `currentEventID` comes from: if something chose it, it is in the
table; if `transit` did, its event leaves the current state and, as long as the worker
has not stopped to wait, follows the event that was executed last. -/
structure Chosen (s : Sys A) : Prop where
  present : s.chooser ≠ none → ∃ e, s.events.find? s.currentEventID = some e
  state : s.chooser = some .transit →
    ∃ e, s.events.find? s.currentEventID = some e ∧ e.state = s.currentState
  last : s.chooser = some .transit → s.status = .ready → ∃ y, s.finished.getLast? = some y ∧
    follower s.events y.begun.event.nextState ≠ none

/-- The table may grow without touching `Chosen`. -/
theorem Chosen.grow {s t : Sys A} (hs : Chosen s)
    (hfind : ∀ k e, s.events.find? k = some e → t.events.find? k = some e)
    (hid : t.currentEventID = s.currentEventID) (hstate : t.currentState = s.currentState)
    (hch : t.chooser = s.chooser) (hready : t.status = .ready → s.status = .ready)
    (hfin : t.finished = s.finished) : Chosen t := by
  refine ⟨fun hc => ?_, fun hc => ?_, fun hc hst => ?_⟩
  · obtain ⟨e, he⟩ := hs.present (hch ▸ hc)
    exact ⟨e, hid ▸ hfind _ _ he⟩
  · obtain ⟨e, he, hst⟩ := hs.state (hch ▸ hc)
    exact ⟨e, hid ▸ hfind _ _ he, hstate ▸ hst⟩
  · obtain ⟨y, hy, hf⟩ := hs.last (hch ▸ hc) (hready hst)
    obtain ⟨id, e, he, hst⟩ := follower_ne_none_iff.mp hf
    exact ⟨y, hfin ▸ hy, follower_ne_none_iff.mpr ⟨id, e, hfind _ _ he, hst⟩⟩

theorem chosen_step {s t : Sys A} {a : Label A} (halone : Alone s) (hexec : Executing s)
    (hs : Chosen s) (h : step s a = some t) : Chosen t := by
  cases move_of_step h with
  | registerEvent =>
      exact hs.grow (fun _ _ => find?_insert_of_some) rfl rfl rfl id rfl
  | setAgain id e he | setReady id e he =>
      exact ⟨fun _ => ⟨e, he⟩, by simp, by simp⟩
  | spawnOver state ho | spawn state ho =>
      have habs := halone.absent_of_starting ho
      have hc := (halone.absent habs).2.1
      exact ⟨hs.present, fun h => absurd h hc, fun h => absurd h hc⟩
  | null p hp =>
      exact hs.grow (fun _ _ he => hp ▸ find?_index _ he) rfl rfl rfl id rfl
  | chained x p id hw hp hid =>
      obtain ⟨hfind, -⟩ := hexec x hw
      obtain rfl : p = (s.events, x.event) := hp ▸ index_of_some hfind
      obtain ⟨e, he, hst⟩ := follower_some hid
      refine ⟨fun _ => ⟨e, he⟩, fun _ => ⟨e, he, hst⟩, fun _ _ => ⟨_, List.getLast?_concat, ?_⟩⟩
      exact hid ▸ Option.some_ne_none id
  | unchained => exact ⟨by simp, by simp, by simp⟩
  | fail => exact ⟨hs.present, hs.state, by simp⟩
  | stopLock => exact ⟨hs.present, hs.state, by simp⟩
  | _ => exact hs.grow (fun _ _ => id) rfl rfl rfl id rfl

theorem chosen_of_reachable {ok : Sys A → Label A → Prop} {s : Sys A}
    (h : system.Reachable ok s) : Chosen s := by
  refine LTS.Reachable.induction ?_ ?_ h
  · rintro s ⟨id, state, rfl⟩
    exact ⟨by simp [fresh], by simp [fresh], by simp [fresh]⟩
  · intro s a t hreach hs _ hstep
    exact chosen_step (alone_of_reachable hreach) (executing_of_reachable hreach) hs hstep

/-! ## The record of the executions -/

@[simp] theorem Worker.current_notified (w : Worker A) : w.notified.current = w.current := by
  cases w <;> rfl

/-- A step adds to the executions the one it begins, and forgets none. -/
theorem begun_step {s t : Sys A} {a : Label A} (halone : Alone s) (h : step s a = some t) :
    t.begun = s.begun ∨ a = .worker ∧ s.status = .ready ∧ ∃ e,
      s.events.find? s.currentEventID = some e ∧ e.action ≠ none ∧
        t.begun = s.begun ++ [⟨s.currentEventID, e, s.chooser, s.currentState⟩] := by
  cases move_of_step h with
  | setReady => exact Or.inl (by simp [Sys.begun])
  | spawn state ho =>
      have habs := halone.absent_of_starting ho
      exact Or.inl (by simp [Sys.begun, habs, Worker.current])
  | joined ho hth hw => exact Or.inl (by simp [Sys.begun, hw, Worker.current])
  | park hw | wake hw | null _ _ hw => exact Or.inl (by simp [Sys.begun, hw, Worker.current])
  | exec e f hw ho hst he ha =>
      exact Or.inr ⟨rfl, hst, e, he, ha ▸ Option.some_ne_none f,
        by simp [Sys.begun, hw, Worker.current]⟩
  | fail x ret hw | chained x p id hw | unchained x p hw =>
      exact Or.inl (by simp [Sys.begun, hw, Worker.current])
  | _ => exact Or.inl rfl

/-- A step adds to the finished executions the one whose action returned, and forgets
none. -/
theorem finished_step {s t : Sys A} {a : Label A} (h : step s a = some t) :
    t.finished = s.finished ∨ ∃ x ret, a = .ret ret ∧ s.worker = .executing x ∧
      t.finished = s.finished ++ [⟨x, ret, t.currentState⟩] := by
  cases move_of_step h with
  | fail x ret hw => exact Or.inr ⟨x, ret, rfl, hw, rfl⟩
  | chained x p id hw | unchained x p hw => exact Or.inr ⟨x, 0, rfl, hw, rfl⟩
  | _ => exact Or.inl rfl

theorem begun_subset {s t : Sys A} {a : Label A} (halone : Alone s) (h : step s a = some t) :
    s.begun ⊆ t.begun := by
  rcases begun_step halone h with heq | ⟨-, -, e, -, -, heq⟩
  · rw [heq]
    exact List.Subset.refl _
  · rw [heq]
    exact List.subset_append_left _ _

theorem finished_subset {s t : Sys A} {a : Label A} (h : step s a = some t) :
    s.finished ⊆ t.finished := by
  rcases finished_step h with heq | ⟨x, ret, -, -, heq⟩
  · rw [heq]
    exact List.Subset.refl _
  · rw [heq]
    exact List.subset_append_left _ _

/-! ## The executions follow the table -/

/-- The transition system the events define: a label is the id of an event and what
its action returned. -/
def table (events : OrderedMap ℤ (Event A)) : LTS ℤ (ℤ × ℤ) where
  init _ := True
  step state a :=
    match events.find? a.1 with
    | some e =>
        if e.state = state then some (if a.2 = 0 then e.nextState else state) else none
    | none => none

/-- The state the table prescribes after an execution. -/
def Finished.target (y : Finished A) : ℤ :=
  if y.ret = 0 then y.begun.event.nextState else y.begun.before

/-- The machine follows its table: it executes an event in the state the event leaves,
goes on in the state the table prescribes, and so walks along a path of the table. -/
structure Follows (s : Sys A) : Prop where
  enter : ∀ x ∈ s.begun, x.before = x.event.state
  leave : ∀ y ∈ s.finished, y.after = y.target
  path : (table s.events).Path (fun _ _ => True) s.origin
    (s.finished.map fun y => (y.begun.id, y.ret)) s.currentState

/-- An event that `transit` did not choose leaves the current state when the worker
reads it, and an event that succeeds has a follow-up in the table. -/
def Fits (s : Sys A) : Label A → Prop
  | .worker => s.status = .ready → s.chooser ≠ some .transit →
      ∀ e, s.events.find? s.currentEventID = some e → e.action ≠ none → e.state = s.currentState
  | .ret ret => ret = 0 →
      ∀ x, s.worker = .executing x → follower s.events x.event.nextState ≠ none
  | _ => True

/-- Some execution left the table. -/
def Strayed (s : Sys A) : Prop :=
  (∃ x ∈ s.begun, x.before ≠ x.event.state) ∨ ∃ y ∈ s.finished, y.after ≠ y.target

theorem Follows.not_strayed {s : Sys A} (h : Follows s) : ¬Strayed s := by
  rintro (⟨x, hx, hne⟩ | ⟨y, hy, hne⟩)
  · exact hne (h.enter x hx)
  · exact hne (h.leave y hy)

theorem strayed_step {s t : Sys A} {a : Label A} (halone : Alone s) (hs : Strayed s)
    (h : step s a = some t) : Strayed t := by
  rcases hs with ⟨x, hx, hne⟩ | ⟨y, hy, hne⟩
  · exact Or.inl ⟨x, begun_subset halone h hx, hne⟩
  · exact Or.inr ⟨y, finished_subset h hy, hne⟩

/-- A step that does not fit the table leaves it. -/
theorem strayed_of_not_fits {s t : Sys A} {a : Label A} (hexec : Executing s)
    (hfit : ¬Fits s a) (h : step s a = some t) : Strayed t := by
  cases move_of_step h with
  | park hw ho hst => exact absurd (fun hready => absurd hready hst) hfit
  | null p hp hw ho hst ha =>
      refine absurd (fun _ _ e he hact => ?_) hfit
      obtain rfl : p = (s.events, e) := hp ▸ index_of_some he
      exact absurd ha hact
  | exec e f hw ho hst he ha =>
      refine Or.inl ⟨⟨s.currentEventID, e, s.chooser, s.currentState⟩,
        by simp [Sys.begun, Worker.current], fun heq => hfit ?_⟩
      intro _ _ d hd _
      obtain rfl : e = d := Option.some.inj (he.symm.trans hd)
      exact heq.symm
  | fail x ret hw hret => exact absurd (fun h0 => absurd h0 hret) hfit
  | chained x p id hw hp hid =>
      refine absurd (fun _ y hy => ?_) hfit
      obtain rfl : x = y := Worker.executing.inj (hw.symm.trans hy)
      obtain rfl : p = (s.events, x.event) := hp ▸ index_of_some (hexec x hw).1
      exact hid ▸ Option.some_ne_none id
  | unchained x p hw hp hid =>
      obtain ⟨he, hid', hbefore, -⟩ := hexec x hw
      obtain rfl : p = (s.events, x.event) := hp ▸ index_of_some he
      by_cases hstate : x.before = x.event.state
      · -- no event leaves the next state, so it is not the state the event left
        refine Or.inr ⟨⟨x, 0, s.currentState⟩, by simp, fun heq => ?_⟩
        have hnext : x.event.nextState = x.event.state := by
          rw [← hstate, hbefore]
          exact heq.symm
        exact follower_ne_none_iff.mpr ⟨_, _, he, hnext.symm⟩ hid
      · exact Or.inl ⟨x, by simp [Sys.begun], hstate⟩
  | _ => exact absurd trivial hfit

/-- A path of a table is a path of every table that extends it. -/
theorem path_grow {events events' : OrderedMap ℤ (Event A)}
    (hfind : ∀ k e, events.find? k = some e → events'.find? k = some e) {p q : ℤ}
    {as : List (ℤ × ℤ)} (h : (table events).Path (fun _ _ => True) p as q) :
    (table events').Path (fun _ _ => True) p as q := by
  induction h with
  | nil => exact LTS.Path.nil _
  | snoc _ _ hstep ih =>
      refine LTS.Path.snoc ih trivial ?_
      simp only [table] at hstep ⊢
      split at hstep
      · next e he => rw [hfind _ _ he]; exact hstep
      · simp at hstep

/-- One execution in the state its event leaves is a step of the table. -/
theorem table_step {events : OrderedMap ℤ (Event A)} {id ret : ℤ} {e : Event A}
    (he : events.find? id = some e) :
    (table events).step e.state (id, ret) = some (if ret = 0 then e.nextState else e.state) := by
  simp [table, he]

/-- What an execution that returned adds to the record is on the table, if the machine
goes on in the state the table prescribes. -/
theorem Follows.finish {s : Sys A} (hs : Follows s) (hexec : Executing s) {x : Begun A}
    (hw : s.worker = .executing x) {ret next : ℤ}
    (hnext : next = if ret = 0 then x.event.nextState else s.currentState) :
    (∀ y ∈ s.finished ++ [(⟨x, ret, next⟩ : Finished A)], y.after = y.target) ∧
      (table s.events).Path (fun _ _ => True) s.origin
        ((s.finished ++ [(⟨x, ret, next⟩ : Finished A)]).map fun y => (y.begun.id, y.ret))
        next := by
  obtain ⟨he, hid, hbefore, -⟩ := hexec x hw
  have hst : x.before = x.event.state := hs.enter x (by simp [Sys.begun, hw, Worker.current])
  constructor
  · intro y hy
    rcases List.mem_append.mp hy with hy | hy
    · exact hs.leave y hy
    · obtain rfl := List.mem_singleton.mp hy
      rw [Finished.target, hnext, hbefore]
  · rw [List.map_append]
    refine LTS.Path.snoc hs.path trivial ?_
    show (table s.events).step s.currentState (x.id, ret) = some next
    rw [hnext, ← hbefore, hst, hid]
    exact table_step he

/-- A step that fits the table keeps the machine on it. -/
theorem follows_step {s t : Sys A} {a : Label A} (halone : Alone s) (hexec : Executing s)
    (hch : Chosen s) (hs : Follows s) (hfit : Fits s a) (h : step s a = some t) : Follows t := by
  obtain ⟨henter, hleave, hpath⟩ := hs
  have henter' : ∀ x ∈ t.begun, x.before = x.event.state := by
    rcases begun_step halone h with heq | ⟨rfl, hready, e, he, hact, heq⟩
    · rw [heq]
      exact henter
    · intro x hx
      rw [heq] at hx
      rcases List.mem_append.mp hx with hx | hx
      · exact henter x hx
      · obtain rfl := List.mem_singleton.mp hx
        show s.currentState = e.state
        by_cases htransit : s.chooser = some .transit
        · obtain ⟨d, hd, hst⟩ := hch.state htransit
          obtain rfl : e = d := Option.some.inj (he.symm.trans hd)
          exact hst.symm
        · exact (hfit hready htransit e he hact).symm
  cases move_of_step h with
  | registerEvent => exact ⟨henter', hleave, path_grow (fun _ _ => find?_insert_of_some) hpath⟩
  | spawn state ho | spawnOver state ho =>
      have habs := halone.absent_of_starting ho
      have hnil := (halone.absent habs).1
      refine ⟨henter', hleave, ?_⟩
      simp only [hnil]
      exact LTS.Path.nil state
  | null p hp =>
      exact ⟨henter', hleave, path_grow (fun _ _ he => hp ▸ find?_index _ he) hpath⟩
  | fail x ret hw hret =>
      obtain ⟨hl, hp⟩ := Follows.finish ⟨henter, hleave, hpath⟩ hexec hw (if_neg hret).symm
      exact ⟨henter', hl, hp⟩
  | chained x p id hw hp hid =>
      obtain rfl : p = (s.events, x.event) := hp ▸ index_of_some (hexec x hw).1
      obtain ⟨hl, hp⟩ := Follows.finish ⟨henter, hleave, hpath⟩ hexec hw (if_pos rfl).symm
      exact ⟨henter', hl, hp⟩
  | unchained x p hw hp hid =>
      obtain rfl : p = (s.events, x.event) := hp ▸ index_of_some (hexec x hw).1
      exact absurd hid (hfit rfl x hw)
  | _ => exact ⟨henter', hleave, hpath⟩

/-- **The machine follows its transition table** exactly in the runs whose every step
fits it: an event that `transit` did not choose leaves the current state, and an event
that succeeds has a follow-up. -/
theorem follows_iff {s₀ s : Sys A} {as : List (Label A)} (h₀ : system.init s₀)
    (h : system.Path (fun _ _ => True) s₀ as s) : Follows s ↔ system.Path Fits s₀ as s := by
  refine LTS.Path.exact (B := Strayed) h₀ h ?_ ?_ ?_ ?_ fun _ hs => hs.not_strayed
  · rintro s ⟨id, state, rfl⟩
    exact ⟨by simp [fresh, Sys.begun, Worker.current], by simp [fresh], LTS.Path.nil state⟩
  · intro s a t hreach hs hfit hstep
    exact follows_step (alone_of_reachable hreach) (executing_of_reachable hreach)
      (chosen_of_reachable hreach) hs hfit hstep
  · intro s a t hreach _ hfit hstep
    exact strayed_of_not_fits (executing_of_reachable hreach) hfit hstep
  · intro s a t hreach hbad _ hstep
    exact strayed_step (alone_of_reachable hreach) hbad hstep

/-- A run that fits: the event asked for leaves the start state, and it is its own
follow-up. -/
def loopRun : List (Label Unit) :=
  [.registerEvent 1 1 1 (some ()), .start 1, .owner, .setEvent 1, .worker, .ret 0]

/-- `follows_iff` at a run of the machine. -/
theorem follows_loop : ∃ s : Sys Unit, Follows s ↔ system.Path Fits (fresh 0 0) loopRun s :=
  ⟨_, follows_iff ⟨0, 0, rfl⟩ (LTS.path_of_exec (show LTS.exec _ _ _ loopRun = some _ from rfl))⟩

/-- The final state of a table is left by no event. -/
def finalStateRun : List (Label Unit) :=
  [.registerEvent 1 1 2 (some ()), .start 1, .owner, .setEvent 1, .worker, .ret 0]

/-- A client asks for an event that leaves another state. -/
def wrongStateRun : List (Label Unit) :=
  [.registerEvent 1 1 1 (some ()), .start 5, .owner, .setEvent 1, .worker]

/-- After an event to a final state the machine stays where it was, and an event is
executed in whatever state the machine is in. -/
theorem exists_not_follows :
    (∃ s : Sys Unit, system.Path (fun _ _ => True) (fresh 0 0) finalStateRun s ∧
      ∃ y ∈ s.finished, y.ret = 0 ∧ y.begun.event.nextState = 2 ∧ y.after = 1 ∧ ¬Follows s) ∧
    ∃ s : Sys Unit, system.Path (fun _ _ => True) (fresh 0 0) wrongStateRun s ∧
      ∃ x ∈ s.begun, x.before = 5 ∧ x.event.state = 1 ∧ ¬Follows s := by
  constructor
  · refine ⟨_, LTS.path_of_exec (show LTS.exec _ _ _ finalStateRun = some _ from rfl), _,
      List.mem_singleton.mpr rfl, rfl, rfl, rfl, fun hf => ?_⟩
    exact absurd (hf.leave _ (List.mem_singleton.mpr rfl)) (by decide)
  · refine ⟨_, LTS.path_of_exec (show LTS.exec _ _ _ wrongStateRun = some _ from rfl), _,
      List.mem_singleton.mpr rfl, rfl, rfl, fun hf => ?_⟩
    exact absurd (hf.enter _ (List.mem_singleton.mpr rfl)) (by decide)

/-! ## Only registered events are executed -/

/-- What is executed was registered and chosen by a client or by a `transit` that
found it, the table holds nothing that was not registered, and no null action was
called. -/
structure OnlyRegistered (s : Sys A) : Prop where
  registered : ∀ x ∈ s.begun, x.id ∈ s.registered
  chosen : ∀ x ∈ s.begun, x.chooser ≠ none
  noDefault : ∀ k ∈ s.events.keys, k ∈ s.registered
  noNull : s.worker ≠ .undefined

/-- Events are registered before the worker exists, and with an action. -/
def Setup (s : Sys A) : Label A → Prop
  | .registerEvent _ _ _ action => s.worker = .absent ∧ action ≠ none
  | _ => True

/-- There is something for the worker to execute: the id is that of the last request,
or the event executed last has a follow-up in the table. -/
def Asked (s : Sys A) : Label A → Prop
  | .worker => s.status = .ready → s.chooser = some .setEvent ∨
      ∃ y, s.finished.getLast? = some y ∧ follower s.events y.begun.event.nextState ≠ none
  | _ => True

/-- The table as it was set up: registered events only, and nothing chosen only when the
event executed last has no follow-up. -/
structure Tidy (s : Sys A) : Prop where
  known : ∀ k e, s.events.find? k = some e → k ∈ s.registered ∧ e.action ≠ none
  stuck : s.chooser = none → s.status = .ready →
    ∀ y, s.finished.getLast? = some y → follower s.events y.begun.event.nextState = none

/-- Until a null action is called the table is as it was set up. -/
theorem tidy_step {s t : Sys A} {a : Label A} (halone : Alone s) (hexec : Executing s)
    (hs : s.worker ≠ .undefined → Tidy s) (hset : Setup s a) (h : step s a = some t) :
    t.worker ≠ .undefined → Tidy t := by
  intro hw
  cases move_of_step h with
  | registerEvent id state nextState action =>
      obtain ⟨hknown, -⟩ := hs hw
      refine ⟨fun k e he => ?_, fun _ _ y hy => ?_⟩
      · rw [OrderedMap.find?_insert] at he
        split_ifs at he with hk
        · refine ⟨by simp [hk], ?_⟩
          cases hold : s.events.find? id with
          | none =>
              obtain rfl : _ = e := by simpa [hold] using he
              exact hset.2
          | some d =>
              obtain rfl : d = e := by simpa [hold] using he
              exact (hknown id d hold).2
        · exact ⟨List.mem_append_left _ (hknown k e he).1, (hknown k e he).2⟩
      · simp [(halone.absent hset.1).1] at hy
  | spawn state ho | spawnOver state ho =>
      have habs := halone.absent_of_starting ho
      have hnil := (halone.absent habs).1
      refine ⟨(hs (by simp [habs])).known, fun _ _ y hy => ?_⟩
      simp [hnil] at hy
  | setAgain => exact ⟨(hs hw).known, by simp⟩
  | setReady => exact ⟨(hs (by simpa using hw)).known, by simp⟩
  | stopLock => exact ⟨(hs hw).known, by simp⟩
  | joined _ _ hl => exact absurd hl halone.stays
  | park hw' | wake hw' | exec _ _ hw' =>
      obtain ⟨hknown, hstuck⟩ := hs (by simp [hw'])
      exact ⟨hknown, hstuck⟩
  | null => simp at hw
  | fail x ret hw' => exact ⟨(hs (by simp [hw'])).known, by simp⟩
  | chained x p id hw' hp =>
      obtain rfl : p = (s.events, x.event) := hp ▸ index_of_some (hexec x hw').1
      exact ⟨(hs (by simp [hw'])).known, by simp⟩
  | unchained x p hw' hp hid =>
      obtain rfl : p = (s.events, x.event) := hp ▸ index_of_some (hexec x hw').1
      refine ⟨(hs (by simp [hw'])).known, fun _ _ y hy => ?_⟩
      rw [List.getLast?_concat] at hy
      obtain rfl := Option.some.inj hy
      exact hid
  | _ =>
      obtain ⟨hknown, hstuck⟩ := hs hw
      exact ⟨hknown, hstuck⟩

theorem tidy_of_reachable {ok : Sys A → Label A → Prop} (hok : ∀ s a, ok s a → Setup s a)
    {s : Sys A} (h : system.Reachable ok s) (hw : s.worker ≠ .undefined) : Tidy s := by
  revert hw
  refine LTS.Reachable.induction (I := fun s => s.worker ≠ .undefined → Tidy s) ?_ ?_ h
  · rintro s ⟨id, state, rfl⟩ _
    exact ⟨by simp [fresh, OrderedMap.find?, OrderedMap.empty], by simp [fresh]⟩
  · intro s a t hreach hs hguard hstep
    exact tidy_step (alone_of_reachable hreach) (executing_of_reachable hreach) hs
      (hok s a hguard) hstep

/-- A null action was called, or something was executed that nothing chose. -/
def Spoilt (s : Sys A) : Prop := s.worker = .undefined ∨ ∃ x ∈ s.begun, x.chooser = none

theorem spoilt_step {s t : Sys A} {a : Label A} (halone : Alone s) (hs : Spoilt s)
    (h : step s a = some t) : Spoilt t := by
  rcases hs with hw | ⟨x, hx, hnone⟩
  · refine Or.inl ?_
    cases move_of_step h with
    | setReady => simpa using hw
    | spawn state ho =>
        exact absurd ho ((halone.running (by simp [hw])).2 state)
    | joined _ _ hw' | park hw' | exec _ _ hw' | fail _ _ hw' | chained _ _ _ hw'
    | unchained _ _ hw' | wake hw' => simp [hw] at hw'
    | null => rfl
    | _ => exact hw
  · exact Or.inr ⟨x, begun_subset halone h hx, hnone⟩

/-- Going on with nothing to execute spoils the run. -/
theorem spoilt_of_not_asked {s t : Sys A} {a : Label A} (hch : Chosen s) (hask : ¬Asked s a)
    (h : step s a = some t) : Spoilt t := by
  have hnone : a = .worker → s.status = .ready → s.chooser = none := by
    rintro rfl hready
    cases hc : s.chooser with
    | none => rfl
    | some c =>
        cases c with
        | setEvent => exact absurd (fun _ => Or.inl hc) hask
        | transit => exact absurd (fun _ => Or.inr (hch.last hc hready)) hask
  cases move_of_step h with
  | park hw ho hst => exact absurd (fun hready => absurd hready hst) hask
  | null => exact Or.inl rfl
  | exec e f hw ho hst he ha =>
      refine Or.inr ⟨⟨s.currentEventID, e, s.chooser, s.currentState⟩, ?_, hnone rfl hst⟩
      simp [Sys.begun, Worker.current]
  | _ => exact absurd trivial hask

theorem registered_subset {s t : Sys A} {a : Label A} (h : step s a = some t) :
    s.registered ⊆ t.registered := by
  cases move_of_step h with
  | registerEvent => exact List.subset_append_left _ _
  | _ => exact List.Subset.refl _

/-- A worker that is asked for something executes a registered event. -/
theorem onlyRegistered_step {s t : Sys A} {a : Label A} (halone : Alone s) (hch : Chosen s)
    (hts : Tidy s) (htt : t.worker ≠ .undefined → Tidy t) (hs : OnlyRegistered s)
    (hask : Asked s a) (h : step s a = some t) : OnlyRegistered t := by
  have hsome : a = .worker → s.status = .ready → s.chooser ≠ none := by
    rintro rfl hready hnone
    rcases hask hready with hc | ⟨y, hy, hf⟩
    · simp [hnone] at hc
    · exact hf (hts.stuck hnone hready y hy)
  have hnull : t.worker ≠ .undefined := by
    cases move_of_step h with
    | setReady => simpa using hs.noNull
    | null p hp hw ho hready ha =>
        obtain ⟨e, he⟩ := hch.present (hsome rfl hready)
        obtain rfl : p = (s.events, e) := hp ▸ index_of_some he
        exact absurd ha (hts.known _ _ he).2
    | spawn | joined | park | exec | fail | chained | unchained | wake => simp
    | _ => exact hs.noNull
  have hmem : ∀ x ∈ t.begun, x.id ∈ t.registered ∧ x.chooser ≠ none := by
    intro x hx
    have hold : x ∈ s.begun → x.id ∈ t.registered ∧ x.chooser ≠ none := fun hx =>
      ⟨registered_subset h (hs.registered x hx), hs.chosen x hx⟩
    rcases begun_step halone h with heq | ⟨ha, hready, e, he, -, heq⟩
    · exact hold (heq ▸ hx)
    · rw [heq] at hx
      rcases List.mem_append.mp hx with hx | hx
      · exact hold hx
      · obtain rfl := List.mem_singleton.mp hx
        exact ⟨registered_subset h (hts.known _ _ he).1, hsome ha hready⟩
  refine ⟨fun x hx => (hmem x hx).1, fun x hx => (hmem x hx).2, fun k hk => ?_, hnull⟩
  obtain ⟨e, he⟩ := OrderedMap.mem_keys_iff.mp hk
  exact ((htt hnull).known k e he).1

/-- **Only registered events are executed** exactly in the runs in which the worker, each
time it goes on, finds a request or the follow-up of the event it executed last. -/
theorem onlyRegistered_iff {s₀ s : Sys A} {as : List (Label A)} (h₀ : system.init s₀)
    (h : system.Path Setup s₀ as s) :
    OnlyRegistered s ↔ system.Path (fun s a => Setup s a ∧ Asked s a) s₀ as s := by
  refine LTS.Path.exact (B := Spoilt) h₀ h ?_ ?_ ?_ ?_ ?_
  · rintro s ⟨id, state, rfl⟩
    exact ⟨by simp [fresh, Sys.begun, Worker.current], by simp [fresh, Sys.begun, Worker.current],
      by simp [fresh, OrderedMap.keys, OrderedMap.empty], by simp [fresh]⟩
  · intro s a t hreach hs hguard hstep
    have hset : ∀ (s : Sys A) (a : Label A), Setup s a ∧ Asked s a → Setup s a :=
      fun _ _ hok => hok.1
    exact onlyRegistered_step (alone_of_reachable hreach) (chosen_of_reachable hreach)
      (tidy_of_reachable hset hreach hs.noNull)
      (tidy_of_reachable hset (hreach.step hguard hstep)) hs hguard.2 hstep
  · intro s a t hreach hset hguard hstep
    exact spoilt_of_not_asked (chosen_of_reachable hreach) (fun hask => hguard ⟨hset, hask⟩) hstep
  · intro s a t hreach hbad _ hstep
    exact spoilt_step (alone_of_reachable hreach) hbad hstep
  · rintro s hs (hw | ⟨x, hx, hnone⟩)
    · exact hs.noNull hw
    · exact hs.chosen x hx hnone

instance decidableSetup : ∀ (s : Sys Unit) (a : Label Unit), Decidable (Setup s a)
  | s, .registerEvent _ _ _ action =>
      inferInstanceAs (Decidable (s.worker = .absent ∧ action ≠ none))
  | _, .setEvent _ => isTrue trivial
  | _, .start _ => isTrue trivial
  | _, .stop => isTrue trivial
  | _, .owner => isTrue trivial
  | _, .worker => isTrue trivial
  | _, .ret _ => isTrue trivial
  | _, .wake => isTrue trivial

/-- `onlyRegistered_iff` at a run of the machine. -/
theorem onlyRegistered_loop : ∃ s : Sys Unit, OnlyRegistered s ↔
    system.Path (fun s a => Setup s a ∧ Asked s a) (fresh 0 0) loopRun s :=
  ⟨_, onlyRegistered_iff ⟨0, 0, rfl⟩
    (LTS.path_of_exec (show LTS.exec _ _ _ loopRun = some _ from rfl))⟩

/-- After an event to a final state the worker goes on with id 0, and before the first
request with whatever the memory held: both index the table with a key it does not have. -/
theorem exists_not_onlyRegistered :
    (∃ s : Sys Unit, system.Path Setup (fresh 0 0) (finalStateRun ++ [.worker]) s ∧
      s.worker = .undefined ∧ 0 ∈ s.events.keys ∧ 0 ∉ s.registered ∧ ¬OnlyRegistered s) ∧
    ∃ s : Sys Unit, system.Path Setup (fresh 7 0)
        [.registerEvent 1 1 1 (some ()), .start 1, .owner, .worker] s ∧
      s.worker = .undefined ∧ 7 ∈ s.events.keys ∧ 7 ∉ s.registered ∧ ¬OnlyRegistered s := by
  constructor
  · refine ⟨_, LTS.path_of_exec
        (show LTS.exec _ _ _ (finalStateRun ++ [.worker]) = some _ from rfl),
      rfl, by decide, by decide, fun hs => hs.noNull rfl⟩
  · refine ⟨_, LTS.path_of_exec (show LTS.exec _ _ _ _ = some _ from rfl),
      rfl, by decide, by decide, fun hs => hs.noNull rfl⟩

end LazyFsm
