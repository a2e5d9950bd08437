/-
# The event machine and its chains of events

A parked worker that gets a request runs a chain of events by itself: after an event
that succeeded `transit` chooses the smallest id whose event leaves the state reached.
`IsChain` says which ids these are without looking at the code.

`chain_runs`: on a table in which every state that is reached is left by some event,
the worker executes this chain, one event after the other, up to the first event that
fails or leads to state `0`; then it waits.  The proof follows the place in the chain the
machine is at (`At`).  An event that was registered without an action is where the chain
breaks off: `exec()` is then called through a null pointer.
-/
import CppShared.LazyFsmLifecycle
import CppShared.Table
import Mathlib.Order.Bounds.Basic

namespace LazyFsm

variable {A : Type*}

/-! ## The chain -/

/-- Every state that some event leads to is left by some event. -/
def Complete (events : OrderedMap ℤ (Event A)) : Prop :=
  ∀ id e, events.find? id = some e → ∃ id' e', events.find? id' = some e' ∧ e'.state = e.nextState

/-- `c 0` is `id`, and each later one the smallest id whose event leaves the state that
the one before leads to. -/
structure IsChain (events : OrderedMap ℤ (Event A)) (id : ℤ) (c : ℕ → ℤ) : Prop where
  first : c 0 = id
  next : ∀ k, ∃ e, events.find? (c k) = some e ∧
    IsLeast {i | ∃ d, events.find? i = some d ∧ d.state = e.nextState} (c (k + 1))

/-- `transit` finds the smallest id. -/
theorem follower_isLeast {events : OrderedMap ℤ (Event A)} {state id : ℤ}
    (h : follower events state = some id) :
    IsLeast {i | ∃ d, events.find? i = some d ∧ d.state = state} id := by
  refine ⟨follower_some h, ?_⟩
  obtain ⟨e, he, rfl⟩ := Option.map_eq_some_iff.mp h
  rintro i ⟨d, hd, hstate⟩
  exact OrderedMap.le_of_find?_entries he (OrderedMap.mem_of_find? hd) (decide_eq_true hstate)

/-- In a complete table `transit` finds an event. -/
theorem Complete.follower {events : OrderedMap ℤ (Event A)} (h : Complete events) {id : ℤ}
    {e : Event A} (he : events.find? id = some e) : ∃ i, follower events e.nextState = some i :=
  Option.ne_none_iff_exists'.mp (follower_ne_none_iff.mpr (h id e he))

/-- Every registered id of a complete table starts a chain. -/
theorem exists_isChain {events : OrderedMap ℤ (Event A)} (h : Complete events) {id : ℤ}
    {e : Event A} (he : events.find? id = some e) : ∃ c, IsChain events id c := by
  -- the id after a registered one
  have hnext : ∀ i : {i // ∃ e, events.find? i = some e}, ∃ j : {i // ∃ e, events.find? i = some e},
      ∃ e, events.find? i.1 = some e ∧
        IsLeast {i | ∃ d, events.find? i = some d ∧ d.state = e.nextState} j.1 := by
    rintro ⟨i, e, he⟩
    obtain ⟨j, hj⟩ := h.follower he
    obtain ⟨d, hd, -⟩ := follower_some hj
    exact ⟨⟨j, d, hd⟩, e, he, follower_isLeast hj⟩
  choose next hleast using hnext
  let c : ℕ → {i // ∃ e, events.find? i = some e} := fun k => next^[k] ⟨id, e, he⟩
  refine ⟨fun k => (c k).1, rfl, fun k => ?_⟩
  have hstep : c (k + 1) = next (c k) := Function.iterate_succ_apply' next k _
  rw [hstep]
  exact hleast (c k)

/-- The event of an id of the chain. -/
theorem IsChain.next_of_find? {events : OrderedMap ℤ (Event A)} {id : ℤ} {c : ℕ → ℤ}
    (h : IsChain events id c) {k : ℕ} {e : Event A} (he : events.find? (c k) = some e) {i : ℤ}
    (hi : follower events e.nextState = some i) : c (k + 1) = i := by
  obtain ⟨d, hd, hleast⟩ := h.next k
  obtain rfl : e = d := Option.some.inj (he.symm.trans hd)
  exact hleast.unique (follower_isLeast hi)

/-! ## The executions -/

/-- Only the worker moves. -/
def workerOnly (_ : Sys A) : Label A → Prop
  | .worker => True
  | .ret _ => True
  | .wake => True
  | _ => False

/-- What the action of a step returned. -/
def returned : Label A → Option ℤ
  | .ret ret => some ret
  | _ => none

/-- The chain ends with this execution. -/
def Finished.stops (y : Finished A) : Prop := y.ret ≠ 0 ∨ y.begun.event.nextState = 0

/-- The chain has ended. -/
def Over (ys : List (Finished A)) : Prop := ∃ y, ys.getLast? = some y ∧ y.stops

/-- The state the last event that succeeded leads to, `state` if there is none. -/
def stateAfter (state : ℤ) (ys : List (Finished A)) : ℤ :=
  match (ys.filter fun y => decide (y.ret = 0)).getLast? with
  | some y => y.begun.event.nextState
  | none => state

/-- The worker goes on: it takes the next step, whatever its action returns. -/
def GoesOn (u : Sys A) : Prop :=
  (∃ v, system.step u .worker = some v) ∨ ∀ ret, ∃ v, system.step u (.ret ret) = some v

/-- The worker called `exec()` through a null pointer: the next event has no action. -/
def Broken (events : OrderedMap ℤ (Event A)) (id : ℤ) (u : Sys A) : Prop :=
  u.worker = .undefined ∧ ∃ e, events.find? id = some e ∧ e.action = none

/-- The labels `as` have led from the request in `s` to `u`, along the chain `c`: `xs` was
executed since, and `ys` of it has returned.  Nothing is executed after what stops the
chain; until then each label begins or ends an execution. -/
structure Chained (s : Sys A) (c : ℕ → ℤ) (as : List (Label A)) (u : Sys A)
    (xs : List (Begun A)) (ys : List (Finished A)) : Prop where
  begun : u.begun = s.begun ++ xs
  finished : u.finished = s.finished ++ ys
  results : ys.map Finished.ret = as.filterMap returned
  executed : ∀ (k : ℕ) x, xs[k]? = some x → x.id = c k ∧ s.events.find? (c k) = some x.event
  returned : ∀ (k : ℕ) y, ys[k]? = some y → xs[k]? = some y.begun
  stops : ∀ (k : ℕ) y, ys[k]? = some y → y.stops → xs.length = k + 1
  state : u.currentState = stateAfter s.currentState ys
  ended : Over ys → u.status = .wait
  goes : ¬Over ys → (as.length = xs.length + ys.length ∧ GoesOn u) ∨ Broken s.events (c xs.length) u

/-! ## The place in the chain -/

/-- Where the worker is, after `ys` has returned. -/
inductive At (s : Sys A) (c : ℕ → ℤ) (as : List (Label A)) (u : Sys A) (ys : List (Finished A)) :
    Prop
  /-- About to execute the next event. -/
  | next (hover : ¬Over ys) (hst : u.status = .ready) (hid : u.currentEventID = c ys.length)
      (hw : u.worker = .entering) (hlen : as.length = ys.length + ys.length)
  | executing (x : Begun A) (hover : ¬Over ys) (hst : u.status = .ready)
      (hw : u.worker = .executing x) (hid : x.id = c ys.length)
      (he : s.events.find? (c ys.length) = some x.event)
      (hlen : as.length = ys.length + 1 + ys.length)
  | ended (hover : Over ys) (hst : u.status = .wait)
      (hw : u.worker = .entering ∨ u.worker = .parked)
  | broken (hover : ¬Over ys) (hbroken : Broken s.events (c ys.length) u)

/-- The invariant of the chain. -/
structure OnChain (s : Sys A) (c : ℕ → ℤ) (as : List (Label A)) (u : Sys A)
    (ys : List (Finished A)) : Prop where
  events : u.events = s.events
  owner : u.owner ≠ .joining
  finished : u.finished = s.finished ++ ys
  results : ys.map Finished.ret = as.filterMap returned
  executed : ∀ (k : ℕ) y, ys[k]? = some y →
    y.begun.id = c k ∧ s.events.find? (c k) = some y.begun.event
  stops : ∀ (k : ℕ) y, ys[k]? = some y → y.stops → ys.length = k + 1
  state : u.currentState = stateAfter s.currentState ys
  place : At s c as u ys

theorem over_concat {ys : List (Finished A)} {y : Finished A} : Over (ys ++ [y]) ↔ y.stops := by
  unfold Over
  rw [List.getLast?_concat]
  constructor
  · rintro ⟨z, hz, hstops⟩
    exact Option.some.inj hz ▸ hstops
  · exact fun hstops => ⟨y, rfl, hstops⟩

theorem not_over_nil : ¬Over ([] : List (Finished A)) := by
  rintro ⟨y, hy, -⟩
  simp at hy

/-- An event that failed leaves the state alone, one that succeeded sets it. -/
theorem stateAfter_concat (state : ℤ) (ys : List (Finished A)) (y : Finished A) :
    stateAfter state (ys ++ [y]) =
      if y.ret = 0 then y.begun.event.nextState else stateAfter state ys := by
  unfold stateAfter
  rw [List.filter_append]
  by_cases hret : y.ret = 0
  · rw [if_pos hret, List.filter_cons_of_pos (by simpa using hret), List.filter_nil,
      List.getLast?_concat]
  · rw [if_neg hret, List.filter_cons_of_neg (by simpa using hret), List.filter_nil,
      List.append_nil]

/-- An execution that stops the chain is the last one. -/
theorem OnChain.over_of_stops {s u : Sys A} {c : ℕ → ℤ} {as : List (Label A)}
    {ys : List (Finished A)} (h : OnChain s c as u ys) {k : ℕ} {y : Finished A}
    (hk : ys[k]? = some y) (hstops : y.stops) : Over ys := by
  refine ⟨y, ?_, hstops⟩
  rw [List.getLast?_eq_getElem?, h.stops k y hk hstops]
  exact hk

/-- A step without a result, in which the worker moves on. -/
theorem OnChain.pass {s u v : Sys A} {c : ℕ → ℤ} {as : List (Label A)} {ys : List (Finished A)}
    {a : Label A} (h : OnChain s c as u ys) (ha : returned a = none) (hevents : v.events = u.events)
    (howner : v.owner = u.owner) (hfinished : v.finished = u.finished)
    (hstate : v.currentState = u.currentState) (hplace : At s c (as ++ [a]) v ys) :
    OnChain s c (as ++ [a]) v ys := by
  refine ⟨hevents.trans h.events, howner ▸ h.owner, hfinished.trans h.finished, ?_, h.executed,
    h.stops, hstate.trans h.state, hplace⟩
  rw [List.filterMap_append, List.filterMap_cons_none ha, List.filterMap_nil, List.append_nil]
  exact h.results

/-- The action of an event of the chain returns. -/
theorem OnChain.finish {s u v : Sys A} {c : ℕ → ℤ} {as : List (Label A)} {ys : List (Finished A)}
    {x : Begun A} {ret after : ℤ} (h : OnChain s c as u ys) (hover : ¬Over ys)
    (hid : x.id = c ys.length) (he : s.events.find? (c ys.length) = some x.event)
    (hevents : v.events = u.events) (howner : v.owner = u.owner)
    (hfinished : v.finished = u.finished ++ [⟨x, ret, after⟩])
    (hstate : v.currentState = if ret = 0 then x.event.nextState else u.currentState)
    (hplace : At s c (as ++ [.ret ret]) v (ys ++ [⟨x, ret, after⟩])) :
    OnChain s c (as ++ [.ret ret]) v (ys ++ [⟨x, ret, after⟩]) := by
  refine ⟨hevents.trans h.events, howner ▸ h.owner, ?_, ?_, ?_, ?_, ?_, hplace⟩
  · rw [hfinished, h.finished, List.append_assoc]
  · rw [List.map_append, List.filterMap_append, h.results]
    rfl
  · intro k y hk
    rcases getElem?_concat_iff.mp hk with hk | ⟨rfl, rfl⟩
    · exact h.executed k y hk
    · exact ⟨hid, he⟩
  · intro k y hk hstops
    rw [List.length_append, List.length_singleton]
    rcases getElem?_concat_iff.mp hk with hk | ⟨rfl, -⟩
    · exact absurd (h.over_of_stops hk hstops) hover
    · rfl
  · rw [stateAfter_concat, hstate, h.state]

/-- The worker takes up the next event. -/
theorem OnChain.next {s u v : Sys A} {c : ℕ → ℤ} {as : List (Label A)} {ys : List (Finished A)}
    {a : Label A} {id : ℤ} (hc : IsChain s.events id c) (h : OnChain s c as u ys)
    (hover : ¬Over ys) (hst : u.status = .ready) (hid : u.currentEventID = c ys.length)
    (hw : u.worker = .entering) (hlen : as.length = ys.length + ys.length)
    (hok : workerOnly u a) (hm : Move u a v) : OnChain s c (as ++ [a]) v ys := by
  obtain ⟨e, he, -⟩ := hc.next ys.length
  have hfind : u.events.find? u.currentEventID = some e := by
    rw [h.events, hid]
    exact he
  cases hm with
  | park hw' ho hst' => exact absurd hst hst'
  | null p hp hw' ho hst' ha =>
      obtain rfl : p = (u.events, e) := hp ▸ index_of_some hfind
      exact h.pass rfl rfl rfl rfl rfl (.broken hover ⟨rfl, e, he, ha⟩)
  | exec d f hw' ho hst' hd ha =>
      obtain rfl : e = d := Option.some.inj (hfind.symm.trans hd)
      refine h.pass rfl rfl rfl rfl rfl (.executing _ hover hst rfl hid he ?_)
      rw [List.length_append, List.length_singleton, hlen]
      omega
  | fail _ _ hw' | chained _ _ _ hw' | unchained _ _ hw' | wake hw' =>
      exact absurd (hw.symm.trans hw') (by simp)
  | _ => exact hok.elim

/-- The action of the event returns. -/
theorem OnChain.execute {s u v : Sys A} {c : ℕ → ℤ} {as : List (Label A)} {ys : List (Finished A)}
    {a : Label A} {id : ℤ} (hcomplete : Complete s.events) (hc : IsChain s.events id c)
    (h : OnChain s c as u ys) (hexec : Executing u) {x : Begun A} (hover : ¬Over ys)
    (hst : u.status = .ready) (hw : u.worker = .executing x) (hid : x.id = c ys.length)
    (he : s.events.find? (c ys.length) = some x.event)
    (hlen : as.length = ys.length + 1 + ys.length) (hok : workerOnly u a) (hm : Move u a v) :
    ∃ y, OnChain s c (as ++ [a]) v (ys ++ [y]) := by
  obtain ⟨hcurrent, -⟩ := hexec x hw
  obtain ⟨i, hi⟩ := hcomplete.follower he
  cases hm with
  | fail x' ret hw' hret =>
      obtain rfl : x = x' := Worker.executing.inj (hw.symm.trans hw')
      refine ⟨_, h.finish hover hid he rfl rfl rfl (if_neg hret).symm (.ended ?_ rfl (Or.inl rfl))⟩
      exact over_concat.mpr (Or.inl hret)
  | chained x' p j hw' hp hj =>
      obtain rfl : x = x' := Worker.executing.inj (hw.symm.trans hw')
      obtain rfl : p = (u.events, x.event) := hp ▸ index_of_some hcurrent
      refine ⟨_, h.finish hover hid he rfl rfl rfl (if_pos rfl).symm ?_⟩
      by_cases hzero : x.event.nextState = 0
      · exact .ended (over_concat.mpr (Or.inr hzero)) (if_pos hzero) (Or.inl rfl)
      · have hnext : c (ys.length + 1) = j := by
          rw [h.events] at hj
          exact hc.next_of_find? he hj
        refine .next ?_ ((if_neg hzero).trans hst) ?_ rfl ?_
        · rw [over_concat]
          rintro (hret | hnext)
          · exact hret rfl
          · exact hzero hnext
        · rw [List.length_append, List.length_singleton, hnext]
        · simp only [List.length_append, List.length_singleton, hlen]
          omega
  | unchained x' p hw' hp hj =>
      obtain rfl : x = x' := Worker.executing.inj (hw.symm.trans hw')
      obtain rfl : p = (u.events, x.event) := hp ▸ index_of_some hcurrent
      rw [h.events] at hj
      exact absurd (hi.symm.trans hj) (Option.some_ne_none i)
  | park hw' | null _ _ hw' | exec _ _ hw' | wake hw' =>
      exact absurd (hw.symm.trans hw') (by simp)
  | _ => exact hok.elim

/-- After the chain the worker goes to sleep, and may wake up. -/
theorem OnChain.rest {s u v : Sys A} {c : ℕ → ℤ} {as : List (Label A)} {ys : List (Finished A)}
    {a : Label A} (h : OnChain s c as u ys) (hover : Over ys) (hst : u.status = .wait)
    (hw : u.worker = .entering ∨ u.worker = .parked) (hok : workerOnly u a) (hm : Move u a v) :
    OnChain s c (as ++ [a]) v ys := by
  have hidle : ∀ x, u.worker ≠ .executing x := by
    intro x hx
    rcases hw with hw | hw
    · exact absurd (hw.symm.trans hx) (by simp)
    · exact absurd (hw.symm.trans hx) (by simp)
  cases hm with
  | park => exact h.pass rfl rfl rfl rfl rfl (.ended hover hst (Or.inr rfl))
  | wake => exact h.pass rfl rfl rfl rfl rfl (.ended hover hst (Or.inl rfl))
  | null _ _ _ _ hst' | exec _ _ _ _ hst' => exact absurd (hst.symm.trans hst') (by simp)
  | fail x _ hw' | chained x _ _ hw' | unchained x _ hw' => exact absurd hw' (hidle x)
  | _ => exact hok.elim

/-- After a call through a null pointer the worker does not move. -/
theorem not_move_of_undefined {u v : Sys A} {a : Label A} (hw : u.worker = .undefined)
    (hok : workerOnly u a) (hm : Move u a v) : False := by
  cases hm with
  | park hw' | null _ _ hw' | exec _ _ hw' | fail _ _ hw' | chained _ _ _ hw' | unchained _ _ hw'
  | wake hw' => exact absurd (hw.symm.trans hw') (by simp)
  | _ => exact hok.elim

/-- **Step lemma.**  Every step of the worker goes along the chain. -/
theorem OnChain.step {s u v : Sys A} {c : ℕ → ℤ} {as : List (Label A)} {ys : List (Finished A)}
    {a : Label A} {id : ℤ} (hcomplete : Complete s.events) (hc : IsChain s.events id c)
    (h : OnChain s c as u ys) (hexec : Executing u) (hok : workerOnly u a) (hm : Move u a v) :
    ∃ ys', OnChain s c (as ++ [a]) v ys' := by
  cases h.place with
  | next hover hst hid hw hlen => exact ⟨ys, h.next hc hover hst hid hw hlen hok hm⟩
  | executing x hover hst hw hid he hlen =>
      obtain ⟨y, hy⟩ := h.execute hcomplete hc hexec hover hst hw hid he hlen hok hm
      exact ⟨ys ++ [y], hy⟩
  | ended hover hst hw => exact ⟨ys, h.rest hover hst hw hok hm⟩
  | broken hover hbroken => exact (not_move_of_undefined hbroken.1 hok hm).elim

/-- **Run lemma.**  The worker goes along the chain. -/
theorem onChain_of_path {s t u : Sys A} {c : ℕ → ℤ} {as : List (Label A)} {id : ℤ}
    (hcomplete : Complete s.events) (hc : IsChain s.events id c)
    (hreach : system.Reachable (fun _ _ => True) t) (h₀ : OnChain s c [] t [])
    (h : system.Path workerOnly t as u) : ∃ ys, OnChain s c as u ys := by
  induction h with
  | nil => exact ⟨[], h₀⟩
  | snoc hp hok hstep ih =>
      obtain ⟨ys, hys⟩ := ih
      have hu := hreach.path (hp.mono fun _ _ _ => trivial)
      exact hys.step hcomplete hc (executing_of_reachable hu) hok (move_of_step hstep)

/-! ## Main result -/

/-- A machine that waits is not being joined. -/
theorem not_joining_of_wait {s : Sys A} (h : system.Reachable (fun _ _ => True) s)
    (hst : s.status = .wait) : s.owner ≠ .joining := by
  intro hj
  have hterminate := (joining_of_reachable h hj).1
  exact absurd (hst.symm.trans hterminate) (by decide)

/-- A request wakes the worker up. -/
theorem setEvent_parked {s : Sys A} (h : system.Reachable (fun _ _ => True) s)
    (hw : s.worker = .parked) (hst : s.status = .wait) {id : ℤ} {e : Event A}
    (he : s.events.find? id = some e) :
    system.step s (.setEvent id) =
      some { s with
        status := .ready
        currentEventID := id
        chooser := some .setEvent
        worker := .entering } := by
  have howner := not_joining_of_wait h hst
  have hfree : s.free = true := by simp [Sys.free, hw, Worker.holds, howner]
  have hknown : s.events.find? id ≠ none := by simp [he]
  have hnot : s.status ≠ .ready := by simp [hst]
  show step s (.setEvent id) = _
  unfold step
  rw [if_neg (threads_of_reachable h).running]
  show setEvent s id = _
  unfold setEvent
  rw [if_neg hknown, if_pos hfree]
  dsimp only
  rw [if_neg hnot, hw]
  rfl

/-- What the invariant says about the record while no action runs. -/
theorem OnChain.chained {s u : Sys A} {c : ℕ → ℤ} {as : List (Label A)} {ys : List (Finished A)}
    (h : OnChain s c as u ys) (hs : s.begun = s.finished.map Finished.begun)
    (hcurrent : u.worker.current = [])
    (hgoes : ¬Over ys → (as.length = ys.length + ys.length ∧ GoesOn u) ∨
      Broken s.events (c ys.length) u) (hover : Over ys → u.status = .wait) :
    Chained s c as u (ys.map Finished.begun) ys := by
  refine ⟨?_, h.finished, h.results, ?_, ?_, ?_, h.state, hover, ?_⟩
  · rw [hs, Sys.begun, h.finished, hcurrent, List.map_append, List.append_nil]
  · intro k x hk
    rw [List.getElem?_map] at hk
    obtain ⟨y, hy, rfl⟩ := Option.map_eq_some_iff.mp hk
    exact h.executed k y hy
  · intro k y hk
    rw [List.getElem?_map, hk]
    rfl
  · rw [List.length_map]
    exact h.stops
  · rw [List.length_map]
    exact hgoes

/-- What the invariant says about the record while an action runs. -/
theorem OnChain.chained_executing {s u : Sys A} {c : ℕ → ℤ} {as : List (Label A)}
    {ys : List (Finished A)} (h : OnChain s c as u ys)
    (hs : s.begun = s.finished.map Finished.begun) (hthreads : Threads u) {x : Begun A}
    (hover : ¬Over ys) (hw : u.worker = .executing x) (hid : x.id = c ys.length)
    (he : s.events.find? (c ys.length) = some x.event)
    (hlen : as.length = ys.length + 1 + ys.length) :
    Chained s c as u (ys.map Finished.begun ++ [x]) ys := by
  refine ⟨?_, h.finished, h.results, ?_, ?_, ?_, h.state, fun hend => absurd hend hover, ?_⟩
  · rw [hs, Sys.begun, h.finished, hw, List.map_append, List.append_assoc]
    rfl
  · intro k z hk
    rcases getElem?_concat_iff.mp hk with hk | ⟨rfl, rfl⟩
    · rw [List.getElem?_map] at hk
      obtain ⟨y, hy, rfl⟩ := Option.map_eq_some_iff.mp hk
      exact h.executed k y hy
    · rw [List.length_map]
      exact ⟨hid, he⟩
  · intro k y hk
    refine getElem?_concat_iff.mpr (Or.inl ?_)
    rw [List.getElem?_map, hk]
    rfl
  · intro k y hk hstops
    exact absurd (h.over_of_stops hk hstops) hover
  · refine fun _ => Or.inl ⟨?_, Or.inr fun ret => ⟨_, step_ret hthreads hw ret⟩⟩
    rw [List.length_append, List.length_map, List.length_singleton, hlen]

/-- **The chain of a request.**  From a parked worker, on a complete table, a request for a
registered event makes the worker execute the chain that starts with it, whatever the
actions return. -/
theorem chain_runs {s : Sys A} (h : system.Reachable (fun _ _ => True) s)
    (hw : s.worker = .parked) (hst : s.status = .wait) (hcomplete : Complete s.events) {id : ℤ}
    {e : Event A} (he : s.events.find? id = some e) :
    ∃ c, IsChain s.events id c ∧ ∃ t, system.step s (.setEvent id) = some t ∧
      ∀ as u, system.Path workerOnly t as u → ∃ xs ys, Chained s c as u xs ys := by
  obtain ⟨c, hc⟩ := exists_isChain hcomplete he
  have hstep := setEvent_parked h hw hst he
  refine ⟨c, hc, _, hstep, fun as u hpath => ?_⟩
  have ht := h.step trivial hstep
  have howner : s.owner ≠ .joining := not_joining_of_wait h hst
  obtain ⟨ys, hys⟩ := onChain_of_path hcomplete hc ht
    ⟨rfl, howner, (List.append_nil _).symm, rfl, by simp, by simp, rfl,
      .next not_over_nil rfl hc.first.symm rfl rfl⟩ hpath
  have hthreads : Threads u := threads_of_reachable (ht.path (hpath.mono fun _ _ _ => trivial))
  have hs : s.begun = s.finished.map Finished.begun := by
    rw [Sys.begun, hw]
    exact List.append_nil _
  cases hys.place with
  | next hover hready hid hentering hlen =>
      refine ⟨_, ys, hys.chained hs (by rw [hentering]; rfl) (fun _ => Or.inl ⟨hlen, ?_⟩)
        fun hend => absurd hend hover⟩
      refine Or.inl ⟨waitAndExec u, ?_⟩
      rw [step_worker hthreads, workerStep, hentering]
      exact if_neg hys.owner
  | executing x hover hready hexecuting hid he hlen =>
      exact ⟨_, ys, hys.chained_executing hs hthreads hover hexecuting hid he hlen⟩
  | ended hover hwait hidle =>
      refine ⟨_, ys, hys.chained hs ?_ (fun hnot => absurd hover hnot) fun _ => hwait⟩
      rcases hidle with hidle | hidle
      · rw [hidle]
        rfl
      · rw [hidle]
        rfl
  | broken hover hbroken =>
      refine ⟨_, ys, hys.chained hs ?_ (fun _ => Or.inr hbroken) fun hend => absurd hend hover⟩
      rw [hbroken.1]
      rfl

/-- Two events that follow each other; the machine waits after it was started. -/
def pingPongRun : List (Label Unit) :=
  [.registerEvent 1 1 2 (some ()), .registerEvent 2 2 1 (some ()), .start 1, .owner, .setEvent 1,
    .worker, .ret 1, .worker]

/-- `chain_runs` at two events that follow each other. -/
theorem chain_runs_pingPong : ∃ s : Sys Unit, s.events.keys = [1, 2] ∧
    ∃ c, IsChain s.events 2 c ∧ ∃ t, system.step s (.setEvent 2) = some t ∧
      ∀ as u, system.Path workerOnly t as u → ∃ xs ys, Chained s c as u xs ys := by
  have hreach : system.Reachable (fun _ _ => True) _ :=
    LTS.reachable_of_exec ⟨0, 0, rfl⟩ (show LTS.exec _ _ _ pingPongRun = some _ from rfl)
  have hcomplete : Complete (A := Unit)
      ⟨[(1, ⟨1, 1, 2, some ()⟩), (2, ⟨2, 2, 1, some ()⟩)], by decide⟩ := by
    intro id e he
    rcases List.mem_pair.mp (OrderedMap.mem_of_find? he) with h | h
    · obtain ⟨-, rfl⟩ := Prod.mk.inj h
      exact ⟨2, _, rfl, rfl⟩
    · obtain ⟨-, rfl⟩ := Prod.mk.inj h
      exact ⟨1, _, rfl, rfl⟩
  exact ⟨_, rfl, chain_runs hreach rfl rfl hcomplete rfl⟩

end LazyFsm
