/-
# The end of a pipe (`TcpPipe` and `TcpClient` in `tcppipe.hpp`)

The constructor of a pipe connects and starts the thread of `TcpClient::receive`; the destructor
clears `isRunning` and joins that thread.  `Socket` has no destructor that closes, and the io
thread at the other end calls no `send`: a `recv` of the thread comes back when the io thread has
closed the connection, when it was reset, or with a signal.

Any number of pipes are made and destroyed at any time, next to the io thread of
`TcpPipeEpollStreams` and its other clients.

* `joined_iff`: a destructor that is at its `join` comes back by itself exactly if the thread is
  not in a `recv`, or the connection was reset;
* `destroyed_iff`: where no connection is reset and no signal comes, a pipe is or can be destroyed
  exactly if its thread has not come to its first test of `isRunning` before the destructor was
  called.  Every other destructor waits for ever.

Both are about a process in which nobody has called `std::terminate`, and about resets of
connections that were accepted: one in the queue of the listening socket is not there yet.
-/
import CppShared.TcpPipePush

namespace Pipes

open Epoll (Net Act)

/-! ## The pipes and the io thread -/

/-- Where the owner of a pipe is. -/
inductive Owner
  | alive
  /-- In the destructor, at the `join`. -/
  | joining
  | destroyed
  deriving DecidableEq, Repr

/-- Where `TcpClient::receive` is. -/
inductive Thread
  /-- `connectTo` has failed. -/
  | absent
  | testing
  | receiving
  | left
  deriving DecidableEq, Repr

/-- A pipe.  `connection` is the position that its connection has among those of the io thread,
or is going to have once it is accepted. -/
structure Pipe where
  isRunning : Bool
  owner : Owner
  thread : Thread
  connection : Option ℕ
  deriving DecidableEq, Repr

/-- The process: `terminated` says that `std::terminate` was called. -/
structure Sys where
  net : Net
  pipes : List Pipe
  terminated : Bool

/-- How the constructor of a pipe ends. -/
inductive Connect
  /-- `tcp` throws. -/
  | throws
  | refused
  | connects (i : ℕ)
  deriving DecidableEq, Repr

/-- What a pipe and its thread do. -/
inductive Doing
  /-- `isRunning.store(false)`. -/
  | store
  | join
  | test
  | recv
  /-- A signal ends a `recv`. -/
  | signal
  deriving DecidableEq, Repr

/-- What happens next. -/
inductive Label
  | net (a : Act)
  | construct (c : Connect)
  | pipe (p : ℕ) (d : Doing)
  /-- The `join` of a pipe without a thread. -/
  | joinNone (p : ℕ)
  deriving DecidableEq

/-- A `recv` from the connection returns, and gives nothing. -/
def woken (net : Net) (i : ℕ) : Bool :=
  (net.streams[i]?).any fun st => decide (st.fd = none ∨ st.line.peer = .reset)

/-- A step of a pipe. -/
def pipeStep (net : Net) (q : Pipe) : Doing → Option Pipe
  | .store =>
      if q.owner = .alive then some { q with isRunning := false, owner := .joining } else none
  | .join =>
      if q.owner = .joining ∧ q.thread = .left then some { q with owner := .destroyed } else none
  | .test =>
      if q.thread = .testing then
        some { q with thread := if q.isRunning then .receiving else .left }
      else none
  | .recv =>
      if q.thread = .receiving ∧ q.connection.any (woken net) then
        some { q with thread := .testing }
      else none
  | .signal => if q.thread = .receiving then some { q with thread := .testing } else none

/-- The end of the stream of a pipe: it would have to close its socket. -/
def closes (pipes : List Pipe) : Act → Prop
  | .client i .finish => ∃ q ∈ pipes, q.connection = some i
  | _ => False

instance (pipes : List Pipe) (a : Act) : Decidable (closes pipes a) :=
  match a with
  | .client i .finish => inferInstanceAs (Decidable (∃ q ∈ pipes, q.connection = some i))
  | .client _ (.send _) | .client _ .reset | .io _ => inferInstanceAs (Decidable False)

/-- One step. -/
def step (w : Sys) (l : Label) : Option Sys :=
  if w.terminated then none
  else match l with
    | .net a =>
        if closes w.pipes a then none
        else (Epoll.act w.net a).map fun net => { w with net := net }
    -- the base class was constructed, and joins a thread that there is not
    | .construct .throws => some { w with terminated := true }
    | .construct .refused => some { w with pipes := w.pipes ++ [⟨false, .alive, .absent, none⟩] }
    | .construct (.connects i) =>
        if w.net.streams.length ≤ i ∧ ∀ q ∈ w.pipes, q.connection ≠ some i then
          some { w with pipes := w.pipes ++ [⟨true, .alive, .testing, some i⟩] }
        else none
    | .pipe p d =>
        match w.pipes[p]? with
        | none => none
        | some q => (pipeStep w.net q d).map fun r => { w with pipes := w.pipes.set p r }
    | .joinNone p =>
        match w.pipes[p]? with
        | none => none
        | some q =>
            if q.owner = .joining ∧ q.thread = .absent then some { w with terminated := true }
            else none

/-- The pipes, the io thread and its other clients. -/
def system : LTS Sys Label where
  init w := Epoll.served.init w.net ∧ w.pipes = [] ∧ w.terminated = false
  step := step

/-! ## What a step does -/

/-- The effect of a step, case by case. -/
inductive Move (w : Sys) : Label → Sys → Prop
  | net (a v) (hopen : ¬closes w.pipes a) (hact : Epoll.act w.net a = some v) :
      Move w (.net a) { w with net := v }
  | throws : Move w (.construct .throws) { w with terminated := true }
  | refused :
      Move w (.construct .refused)
        { w with pipes := w.pipes ++ [⟨false, .alive, .absent, none⟩] }
  | connects (i) (hnew : w.net.streams.length ≤ i)
      (hfree : ∀ q ∈ w.pipes, q.connection ≠ some i) :
      Move w (.construct (.connects i))
        { w with pipes := w.pipes ++ [⟨true, .alive, .testing, some i⟩] }
  | pipe (p d q r) (hq : w.pipes[p]? = some q) (hstep : pipeStep w.net q d = some r) :
      Move w (.pipe p d) { w with pipes := w.pipes.set p r }
  | joinNone (p) : Move w (.joinNone p) { w with terminated := true }

/-- **Step inversion.** -/
theorem move_of_step {w v : Sys} {l : Label} (h : step w l = some v) :
    w.terminated = false ∧ Move w l v := by
  unfold step at h
  split_ifs at h with hend
  refine ⟨(Bool.not_eq_true _).mp hend, ?_⟩
  cases l with
  | net a =>
      obtain ⟨hopen, h⟩ := Option.ite_none_left_eq_some.mp h
      obtain ⟨net, hact, rfl⟩ := Option.map_eq_some_iff.mp h
      exact Move.net a net hopen hact
  | construct c =>
      cases c with
      | throws =>
          obtain rfl := Option.some.inj h
          exact Move.throws
      | refused =>
          obtain rfl := Option.some.inj h
          exact Move.refused
      | connects i =>
          obtain ⟨hnew, h⟩ := Option.ite_none_right_eq_some.mp h
          obtain rfl := Option.some.inj h
          exact Move.connects i hnew.1 hnew.2
  | pipe p d =>
      dsimp only at h
      cases hq : w.pipes[p]? with
      | none => simp [hq] at h
      | some q =>
          rw [hq] at h
          obtain ⟨r, hstep, rfl⟩ := Option.map_eq_some_iff.mp h
          exact Move.pipe p d q r hq hstep
  | joinNone p =>
      dsimp only at h
      cases hq : w.pipes[p]? with
      | none => simp [hq] at h
      | some q =>
          rw [hq] at h
          obtain ⟨-, h⟩ := Option.ite_none_right_eq_some.mp h
          obtain rfl := Option.some.inj h
          exact Move.joinNone p

/-- A step of a pipe in the process. -/
theorem step_pipe {w : Sys} (h : w.terminated = false) {p : ℕ} {q r : Pipe} {d : Doing}
    (hq : w.pipes[p]? = some q) (hstep : pipeStep w.net q d = some r) :
    step w (.pipe p d) = some { w with pipes := w.pipes.set p r } := by
  unfold step
  rw [h, if_neg Bool.false_ne_true]
  dsimp only
  rw [hq]
  dsimp only
  rw [hstep, Option.map_some]

/-- What is known of the io thread and its clients holds here as well. -/
theorem refines_served (ok : Sys → Label → Prop) :
    LTS.Refines system ok Epoll.served Sys.net where
  init w h := h.1
  step w l v _ _ hstep := by
    obtain ⟨-, hm⟩ := move_of_step hstep
    cases hm with
    | net a v hopen hact => exact ⟨[a], LTS.Path.single trivial hact⟩
    | throws | refused | joinNone p => exact ⟨[], LTS.Path.nil _⟩
    | connects i hnew hfree => exact ⟨[], LTS.Path.nil _⟩
    | pipe p d q r hq hstep => exact ⟨[], LTS.Path.nil _⟩

/-! ## The connections of the pipes -/

/-- How the other side of a connection came to where it is. -/
theorem peer_of_act {w v : Net} {a : Act} (h : Epoll.act w a = some v) {i : ℕ}
    {st : Epoll.Stream} (hst : v.streams[i]? = some st) :
    (∃ e, w.streams[i]? = some e ∧ st.line.peer = e.line.peer) ∨
      i = w.streams.length ∧ st.line.peer = .sending ∨
        a = .client i .finish ∨ a = .client i .reset ∧ st.line.peer = .reset := by
  cases a with
  | io a =>
      simp only [Epoll.act] at h
      cases ht : Epoll.sessions.step w.io a with
      | none => simp [ht] at h
      | some t =>
          rw [ht] at h
          obtain ⟨u, hkernel, rfl⟩ := Option.map_eq_some_iff.mp h
          rcases (Epoll.keeps_kernel hkernel).line i st hst with ⟨e, he, -, hpeer⟩ | ⟨hi, hnew⟩
          · exact Or.inl ⟨e, he, hpeer⟩
          · refine Or.inr (Or.inl ⟨hi, ?_⟩)
            rw [hnew]
            rfl
  | client j d =>
      simp only [Epoll.act] at h
      cases hj : w.streams[j]? with
      | none => simp [hj] at h
      | some e =>
          rw [hj] at h
          obtain ⟨line, hafter, rfl⟩ := Option.map_eq_some_iff.mp h
          rcases (getElem?_set_iff hj).mp hst with ⟨rfl, rfl⟩ | ⟨-, hi⟩
          · cases d with
            | send items =>
                obtain ⟨-, hafter⟩ := Option.ite_none_right_eq_some.mp hafter
                obtain rfl := Option.some.inj hafter
                exact Or.inl ⟨e, hj, rfl⟩
            | finish => exact Or.inr (Or.inr (Or.inl rfl))
            | reset =>
                obtain rfl := Option.some.inj hafter
                exact Or.inr (Or.inr (Or.inr ⟨rfl, rfl⟩))
          · exact Or.inl ⟨st, hi, rfl⟩

/-- The connection of a pipe, if it has one. -/
def connectionOf (w : Sys) (p : ℕ) : Option ℕ := (w.pipes[p]?).bind Pipe.connection

/-- No signal comes to the thread of a pipe, and its connection is not reset. -/
def calm (p : ℕ) (w : Sys) (l : Label) : Prop :=
  l ≠ .pipe p .signal ∧ ∀ i ∈ connectionOf w p, l ≠ .net (.client i .reset)

instance (p : ℕ) (w : Sys) (l : Label) : Decidable (calm p w l) :=
  inferInstanceAs (Decidable (_ ∧ _))

/-- Only a step of the io thread or of a client reaches the connections. -/
theorem Move.net_cases {w v : Sys} {l : Label} (hm : Move w l v) :
    v.net = w.net ∨
      ∃ a, l = .net a ∧ v.pipes = w.pipes ∧ ¬closes w.pipes a ∧ Epoll.act w.net a = some v.net := by
  cases hm with
  | net a net hopen hact => exact Or.inr ⟨a, rfl, rfl, hopen, hact⟩
  | throws | refused | connects | pipe | joinNone => exact Or.inl rfl

/-- What a step does to the row of a pipe. -/
theorem Move.row {w v : Sys} {l : Label} (hm : Move w l v) {p : ℕ} {r : Pipe}
    (hr : v.pipes[p]? = some r) :
    (w.pipes[p]? = some r ∧ ∀ d, l ≠ .pipe p d) ∨
      (∃ d q, l = .pipe p d ∧ v.net = w.net ∧ w.pipes[p]? = some q ∧
        pipeStep w.net q d = some r) ∨
      p = w.pipes.length ∧ v.net = w.net ∧ (∀ d, l ≠ .pipe p d) ∧
        (r.connection = none ∨
          ∃ i, w.net.streams.length ≤ i ∧ r = ⟨true, .alive, .testing, some i⟩) := by
  cases hm with
  | net a net hopen hact => exact Or.inl ⟨hr, by simp⟩
  | throws | joinNone => exact Or.inl ⟨hr, by simp⟩
  | refused =>
      rcases getElem?_concat_iff.mp hr with hr | ⟨hp, rfl⟩
      · exact Or.inl ⟨hr, by simp⟩
      · exact Or.inr (Or.inr ⟨hp, rfl, by simp, Or.inl rfl⟩)
  | connects i hnew hfree =>
      rcases getElem?_concat_iff.mp hr with hr | ⟨hp, rfl⟩
      · exact Or.inl ⟨hr, by simp⟩
      · exact Or.inr (Or.inr ⟨hp, rfl, by simp, Or.inr ⟨i, hnew, rfl⟩⟩)
  | pipe p' d q r' hq hstep =>
      rcases (getElem?_set_iff hq).mp hr with ⟨rfl, rfl⟩ | ⟨hne, hr⟩
      · exact Or.inr (Or.inl ⟨d, q, rfl, rfl, hq, hstep⟩)
      · exact Or.inl ⟨hr, fun d heq => hne (Label.pipe.inj heq).1.symm⟩

/-- A pipe that moves is there, and no pipe goes away. -/
theorem Move.length_le {w v : Sys} {l : Label} (hm : Move w l v) :
    w.pipes.length ≤ v.pipes.length ∧ ∀ p d, l = .pipe p d → p < w.pipes.length := by
  cases hm with
  | net | throws | joinNone => exact ⟨le_rfl, by simp⟩
  | refused | connects =>
      refine ⟨?_, by simp⟩
      rw [List.length_append]
      exact Nat.le_add_right _ _
  | pipe p d q r hq hstep =>
      refine ⟨List.length_set.ge, fun p' d' heq => ?_⟩
      obtain ⟨rfl, -⟩ := Label.pipe.inj heq
      exact (List.getElem?_eq_some_iff.mp hq).1

/-- And a row stays where it is. -/
theorem Move.row_ne {w v : Sys} {l : Label} (hm : Move w l v) {p : ℕ} {q : Pipe}
    (hq : w.pipes[p]? = some q) (hl : ∀ d, l ≠ .pipe p d) : v.pipes[p]? = some q := by
  cases hm with
  | net a net hopen hact => exact hq
  | throws | joinNone => exact hq
  | refused | connects => exact getElem?_concat_iff.mpr (Or.inl hq)
  | pipe p' d q' r hq' hstep =>
      refine (getElem?_set_iff hq').mpr (Or.inr ⟨?_, hq⟩)
      rintro rfl
      exact hl d rfl

/-- No step of a pipe changes its connection. -/
theorem connection_of_pipeStep {net : Net} {q r : Pipe} {d : Doing}
    (h : pipeStep net q d = some r) : r.connection = q.connection := by
  cases d with
  | store | join | test =>
      obtain ⟨-, h⟩ := Option.ite_none_right_eq_some.mp h
      obtain rfl := Option.some.inj h
      rfl
  | recv | signal =>
      obtain ⟨-, h⟩ := Option.ite_none_right_eq_some.mp h
      obtain rfl := Option.some.inj h
      rfl

/-- Nor does any other step. -/
theorem keeps_connection {ok : Sys → Label → Prop} {w v : Sys} {ls : List Label}
    (h : system.Path ok w ls v) {p : ℕ} {q : Pipe} (hq : w.pipes[p]? = some q) :
    ∃ r, v.pipes[p]? = some r ∧ r.connection = q.connection := by
  refine LTS.Path.preserves
    (I := fun u => ∃ r, u.pipes[p]? = some r ∧ r.connection = q.connection) h ⟨q, hq, rfl⟩ ?_
  rintro u l t ⟨r, hr, hconn⟩ - hstep
  obtain ⟨-, hm⟩ := move_of_step hstep
  by_cases hl : ∀ d, l ≠ .pipe p d
  · exact ⟨r, hm.row_ne hr hl, hconn⟩
  · push Not at hl
    obtain ⟨d, rfl⟩ := hl
    cases hm with
    | pipe _ _ r' r'' hr' hdone =>
        obtain rfl := Option.some.inj (hr.symm.trans hr')
        refine ⟨r'', (getElem?_set_iff hr).mpr (Or.inl ⟨rfl, rfl⟩), ?_⟩
        exact (connection_of_pipeStep hdone).trans hconn

/-- The other side of the connection of a pipe, once the connection is accepted. -/
def Peers (P : Peer → Prop) (w : Sys) (p : ℕ) : Prop :=
  ∀ i ∈ connectionOf w p, ∀ st, w.net.streams[i]? = some st → P st.line.peer

/-- **Step lemma**: the stream of a pipe does not end, and is reset by a reset only. -/
theorem Peers.move {P : Peer → Prop} (hsending : P .sending) {w v : Sys} {p : ℕ} {l : Label}
    (hreset : P .reset ∨ calm p w l) (h : Peers P w p) (hm : Move w l v) : Peers P v p := by
  intro i hi st hst
  obtain ⟨r, hr, hconn⟩ := Option.bind_eq_some_iff.mp hi
  rcases hm.row hr with ⟨hrow, -⟩ | ⟨d, q, -, hnet, hq, hstep⟩ |
    ⟨-, hnet, -, hnone | ⟨j, hnew, rfl⟩⟩
  · have hold : i ∈ connectionOf w p := Option.bind_eq_some_iff.mpr ⟨r, hrow, hconn⟩
    rcases hm.net_cases with hnet | ⟨a, rfl, hpipes, hopen, hact⟩
    · rw [hnet] at hst
      exact h i hold st hst
    · rcases peer_of_act hact hst with ⟨e, he, hpeer⟩ | ⟨-, hpeer⟩ | rfl | ⟨rfl, hpeer⟩
      · rw [hpeer]
        exact h i hold e he
      · rwa [hpeer]
      · -- a pipe does not close its socket, so its stream does not end
        exact absurd ⟨r, List.mem_of_getElem? hrow, hconn⟩ hopen
      · rw [hpeer]
        exact hreset.resolve_right fun hcalm => hcalm.2 i hold rfl
  · rw [connection_of_pipeStep hstep] at hconn
    rw [hnet] at hst
    exact h i (Option.bind_eq_some_iff.mpr ⟨q, hq, hconn⟩) st hst
  · rw [hnone] at hconn
    cases hconn
  · obtain rfl := Option.some.inj hconn
    rw [hnet] at hst
    exact absurd (List.getElem?_eq_some_iff.mp hst).1 (Nat.not_lt.mpr hnew)

/-- The io thread closes no connection whose other side still sends. -/
theorem not_woken {net : Net} (hnet : Epoll.Intact net) {i : ℕ}
    (h : ∀ st, net.streams[i]? = some st → st.line.peer = .sending) : woken net i = false := by
  unfold woken
  cases hst : net.streams[i]? with
  | none => rfl
  | some st =>
      have hsending := h st hst
      have hfd : st.fd ≠ none := fun hnone =>
        Inbound.not_ended_of_sending hsending (hnet.closed i st hst hnone)
      simp [hfd, hsending]

theorem intact_of_reachable {ok : Sys → Label → Prop} {w : Sys} (h : system.Reachable ok w) :
    Epoll.Intact w.net :=
  (Epoll.intact_of_reachable ((refines_served ok).reachable h)).2

/-! ## The way out of the destructor -/

/-- The destructor of a pipe comes to its end, without a signal and without a reset of its
connection. -/
def Ends (p : ℕ) (w : Sys) : Prop :=
  ∃ ls v, system.Path (calm p) w ls v ∧ ∃ r, v.pipes[p]? = some r ∧ r.owner = .destroyed

/-- A step of the pipe itself. -/
theorem Ends.step {w : Sys} (hrun : w.terminated = false) {p : ℕ} {q r : Pipe} {d : Doing}
    (hq : w.pipes[p]? = some q) (hstep : pipeStep w.net q d = some r) (hd : d ≠ .signal)
    (h : ∀ v : Sys, v.terminated = false → v.pipes[p]? = some r → Ends p v) : Ends p w := by
  have hrow : (w.pipes.set p r)[p]? = some r := (getElem?_set_iff hq).mpr (Or.inl ⟨rfl, rfl⟩)
  obtain ⟨ls, v, hpath, hv⟩ := h { w with pipes := w.pipes.set p r } hrun hrow
  have hcalm : calm p w (.pipe p d) := ⟨fun heq => hd (Label.pipe.inj heq).2, by simp⟩
  have hone : system.Path (calm p) w [.pipe p d] { w with pipes := w.pipes.set p r } :=
    LTS.Path.single hcalm (step_pipe hrun hq hstep)
  exact ⟨_, v, hone.append hpath, hv⟩

theorem ends_of_destroyed {w : Sys} {p : ℕ} {q : Pipe} (hq : w.pipes[p]? = some q)
    (howner : q.owner = .destroyed) : Ends p w :=
  ⟨[], w, LTS.Path.nil w, q, hq, howner⟩

theorem ends_of_left {w : Sys} (hrun : w.terminated = false) {p : ℕ} {q : Pipe}
    (hq : w.pipes[p]? = some q) (howner : q.owner = .joining) (hleft : q.thread = .left) :
    Ends p w := by
  have hjoin : pipeStep w.net q .join = some { q with owner := .destroyed } :=
    if_pos ⟨howner, hleft⟩
  exact Ends.step hrun hq hjoin (by simp) fun v _ hr => ends_of_destroyed hr rfl

theorem ends_of_testing {w : Sys} (hrun : w.terminated = false) {p : ℕ} {q : Pipe}
    (hq : w.pipes[p]? = some q) (howner : q.owner = .joining) (hclear : q.isRunning = false)
    (htesting : q.thread = .testing) : Ends p w := by
  have htest : pipeStep w.net q .test = some { q with thread := .left } := by
    unfold pipeStep
    rw [if_pos htesting, hclear, if_neg Bool.false_ne_true]
  exact Ends.step hrun hq htest (by simp) fun v hv hr => ends_of_left hv hr howner rfl

/-! ## Main results -/

/-- What holds of a connected pipe. -/
structure Sane (q : Pipe) : Prop where
  running : q.isRunning = true ↔ q.owner = .alive
  thread : q.thread ≠ .absent

/-- **Step lemma** for a pipe. -/
theorem Sane.step {net : Net} {q r : Pipe} {d : Doing} (h : Sane q)
    (hstep : pipeStep net q d = some r) : Sane r := by
  cases d with
  | store =>
      obtain ⟨-, hstep⟩ := Option.ite_none_right_eq_some.mp hstep
      obtain rfl := Option.some.inj hstep
      exact ⟨by simp, h.thread⟩
  | join =>
      obtain ⟨hcond, hstep⟩ := Option.ite_none_right_eq_some.mp hstep
      obtain rfl := Option.some.inj hstep
      have hclear : ¬q.isRunning = true := fun hrun => by simp [h.running.mp hrun] at hcond
      exact ⟨by simp [hclear], h.thread⟩
  | test =>
      obtain ⟨-, hstep⟩ := Option.ite_none_right_eq_some.mp hstep
      obtain rfl := Option.some.inj hstep
      refine ⟨h.running, ?_⟩
      dsimp only
      split_ifs <;> simp
  | recv | signal =>
      obtain ⟨-, hstep⟩ := Option.ite_none_right_eq_some.mp hstep
      obtain rfl := Option.some.inj hstep
      exact ⟨h.running, by simp⟩

/-- What holds of the pipe `p` in every run. -/
structure Inv (p : ℕ) (w : Sys) : Prop where
  sane : ∀ q, w.pipes[p]? = some q → q.connection ≠ none → Sane q
  peers : Peers (· ≠ .finished) w p

theorem inv_of_reachable {ok : Sys → Label → Prop} {w : Sys} (h : system.Reachable ok w) (p : ℕ) :
    Inv p w := by
  refine LTS.Reachable.induction (I := Inv p) ?_ ?_ h
  · rintro w ⟨-, hpipes, -⟩
    have hnone : w.pipes[p]? = none := by
      rw [hpipes]
      rfl
    refine ⟨fun q hq => absurd (hnone.symm.trans hq) (by simp), fun i hi => ?_⟩
    rw [connectionOf, hnone] at hi
    cases hi
  · intro w l v _ hw _ hstep
    obtain ⟨-, hm⟩ := move_of_step hstep
    refine ⟨fun r hr hconn => ?_, hw.peers.move (by simp) (Or.inl (by simp)) hm⟩
    rcases hm.row hr with ⟨hrow, -⟩ | ⟨d, q, -, -, hq, hdone⟩ | ⟨-, -, -, hnone | ⟨i, -, rfl⟩⟩
    · exact hw.sane r hrow hconn
    · rw [connection_of_pipeStep hdone] at hconn
      exact (hw.sane q hq hconn).step hdone
    · exact absurd hnone hconn
    · exact ⟨by simp, by simp⟩

/-- The thread is in a `recv` that nothing ends. -/
structure Asleep (p : ℕ) (q : Pipe) (w : Sys) : Prop where
  row : w.pipes[p]? = some q
  receiving : q.thread = .receiving
  joining : q.owner = .joining
  connected : q.connection ≠ none
  peers : Peers (· = .sending) w p

/-- A pipe that sleeps takes no step. -/
theorem pipeStep_of_asleep {net : Net} (hnet : Epoll.Intact net) {q : Pipe} {i : ℕ}
    (hreceiving : q.thread = .receiving) (hjoining : q.owner = .joining)
    (hi : q.connection = some i)
    (hpeer : ∀ st, net.streams[i]? = some st → st.line.peer = .sending) {d : Doing}
    (hd : d ≠ .signal) : pipeStep net q d = none := by
  cases d with
  | store => simp [pipeStep, hjoining]
  | join | test => simp [pipeStep, hreceiving]
  | recv => simp [pipeStep, hi, not_woken hnet hpeer]
  | signal => exact absurd rfl hd

/-- **Step lemma**: it goes on sleeping. -/
theorem Asleep.move {p : ℕ} {q : Pipe} {w v : Sys} {l : Label} (h : Asleep p q w)
    (hnet : Epoll.Intact w.net) (hcalm : calm p w l) (hm : Move w l v) : Asleep p q v := by
  obtain ⟨i, hi⟩ := Option.ne_none_iff_exists'.mp h.connected
  have hstays : ∀ d, l ≠ .pipe p d := by
    rintro d rfl
    cases hm with
    | pipe _ _ q' r hq' hdone =>
        obtain rfl := Option.some.inj (h.row.symm.trans hq')
        have hnone := pipeStep_of_asleep hnet h.receiving h.joining hi
          (h.peers i (Option.bind_eq_some_iff.mpr ⟨q, h.row, hi⟩)) fun hd => hcalm.1 (hd ▸ rfl)
        rw [hnone] at hdone
        cases hdone
  have hpeers : Peers (· = .sending) v p :=
    Peers.move (P := (· = .sending)) rfl (Or.inr hcalm) h.peers hm
  exact ⟨hm.row_ne h.row hstays, h.receiving, h.joining, h.connected, hpeers⟩

theorem Asleep.not_ends {p : ℕ} {q : Pipe} {w : Sys} (h : Asleep p q w)
    (hreach : system.Reachable (fun _ _ => True) w) : ¬Ends p w := by
  rintro ⟨ls, v, hpath, r, hr, hdestroyed⟩
  have hstays : system.Reachable (fun _ _ => True) v ∧ Asleep p q v := by
    refine LTS.Path.preserves
      (I := fun u => system.Reachable (fun _ _ => True) u ∧ Asleep p q u) hpath ⟨hreach, h⟩ ?_
    rintro u l t ⟨hu, hsleep⟩ hcalm hstep
    exact ⟨hu.step trivial hstep,
      hsleep.move (intact_of_reachable hu) hcalm (move_of_step hstep).2⟩
  obtain rfl := Option.some.inj (hstays.2.row.symm.trans hr)
  rw [h.joining] at hdestroyed
  cases hdestroyed

/-- **When a destructor comes back from its `join`**, as long as `std::terminate` was not called:
without another signal or reset, exactly if the thread of the pipe is not in its `recv`, or its
connection was accepted and reset already, whatever the io thread and all the others do. -/
theorem joined_iff {w : Sys} (h : system.Reachable (fun _ _ => True) w)
    (hrun : w.terminated = false) {p i : ℕ} {q : Pipe} (hq : w.pipes[p]? = some q)
    (hi : q.connection = some i) (hjoining : q.owner = .joining) :
    Ends p w ↔ (q.thread = .receiving →
      ∃ st, w.net.streams[i]? = some st ∧ st.line.peer = .reset) := by
  have hconn : i ∈ connectionOf w p := Option.bind_eq_some_iff.mpr ⟨q, hq, hi⟩
  have hconnected : q.connection ≠ none := by
    rw [hi]
    exact Option.some_ne_none i
  have hw := inv_of_reachable h p
  have hsane := hw.sane q hq hconnected
  have hclear : q.isRunning = false := by
    rw [← Bool.not_eq_true, hsane.running, hjoining]
    simp
  constructor
  · intro hends hreceiving
    by_contra hnot
    -- a connection that was not reset still sends, so the thread sleeps for good
    refine Asleep.not_ends ⟨hq, hreceiving, hjoining, hconnected, fun j hj st hst => ?_⟩ h hends
    obtain rfl := Option.some.inj (hconn.symm.trans hj)
    cases hpeer : st.line.peer with
    | sending => rfl
    | finished => exact absurd hpeer (hw.peers i hconn st hst)
    | reset => exact absurd ⟨st, hst, hpeer⟩ hnot
  · intro hreset
    cases hthread : q.thread with
    | absent => exact absurd hthread hsane.thread
    | testing => exact ends_of_testing hrun hq hjoining hclear hthread
    | left => exact ends_of_left hrun hq hjoining hthread
    | receiving =>
        obtain ⟨st, hst, hpeer⟩ := hreset hthread
        have hwoken : woken w.net i = true := by simp [woken, hst, hpeer]
        have hrecv : pipeStep w.net q .recv = some { q with thread := .testing } := by
          refine if_pos ⟨hthread, ?_⟩
          rw [hi]
          exact hwoken
        exact Ends.step hrun hq hrecv (by simp) fun v hv hr =>
          ends_of_testing hv hr hjoining hclear rfl

/-- The process before the first pipe. -/
def fresh : Sys := ⟨⟨Epoll.fresh, [], []⟩, [], false⟩

theorem init_fresh : system.init fresh := ⟨⟨Epoll.started_fresh, rfl, rfl⟩, rfl, rfl⟩

/-- A pipe pushes a message that is printed, and is destroyed while its thread waits. -/
def waitingRun : List Label :=
  [.construct (.connects 0), .net (.io (.loop (.test true))), .pipe 0 .test,
    .net (.io (.loop (.wait [⟨1, 3⟩]))),
    .net (.io (.loop (.accept 5 ⟨127, 0, 0, 1, 4000⟩ true))), .net (.client 0 (.send [104])),
    .net (.io (.loop (.test true))), .net (.io (.loop (.wait [⟨1, 5⟩]))), .pipe 0 .store,
    .net (.io (.loop (.receive [104])))]

theorem waitingRun_end :
    (LTS.exec system (calm 0) fresh waitingRun).map (fun w => (w.pipes, w.terminated)) =
      some ([⟨false, .joining, .receiving, some 0⟩], false) := by
  decide +kernel

theorem resetRun_end :
    (LTS.exec system (fun _ _ => True) fresh (waitingRun ++ [.net (.client 0 .reset)])).map
        (fun w => (w.pipes, w.terminated, w.net.streams)) =
      some ([⟨false, .joining, .receiving, some 0⟩], false,
        [⟨some 5, [104], [104], [], .reset, rfl⟩]) := by
  decide +kernel

/-- `joined_iff` at that run, when the connection is reset. -/
theorem joined_iff_reset : ∃ w q, w.pipes[0]? = some q ∧ q.thread = .receiving ∧ Ends 0 w := by
  obtain ⟨w, hexec, hend⟩ := Option.map_eq_some_iff.mp resetRun_end
  obtain ⟨hpipes, hterminated, hstreams⟩ : w.pipes = _ ∧ w.terminated = _ ∧ w.net.streams = _ :=
    ⟨(Prod.mk.inj hend).1, (Prod.mk.inj (Prod.mk.inj hend).2).1,
      (Prod.mk.inj (Prod.mk.inj hend).2).2⟩
  have hreach : system.Reachable (fun _ _ => True) w := LTS.reachable_of_exec init_fresh hexec
  have hq : w.pipes[0]? = some ⟨false, .joining, .receiving, some 0⟩ := by
    rw [hpipes]
    rfl
  have hst : w.net.streams[0]? = some ⟨some 5, [104], [104], [], .reset, rfl⟩ := by
    rw [hstreams]
    rfl
  exact ⟨w, _, hq, rfl, (joined_iff hreach hterminated hq rfl rfl).mpr fun _ => ⟨_, hst, rfl⟩⟩

/-- What a pipe has done, if it is one of the two that race: the test of the thread, and the store
of the destructor. -/
def racing (p : ℕ) : Label → Option Doing
  | .pipe p' d => if p' = p ∧ (d = .test ∨ d = .store) then some d else none
  | _ => none

/-- Which of the two came first. -/
def first (p : ℕ) (as : List Label) : Option Doing := as.findSome? (racing p)

theorem first_concat (p : ℕ) (as : List Label) (l : Label) :
    first p (as ++ [l]) = (first p as).or (racing p l) := by
  rw [first, List.findSome?_append, List.findSome?_singleton]
  rfl

theorem racing_ne {p : ℕ} {l : Label} (h : ∀ d, l ≠ .pipe p d) : racing p l = none := by
  cases l with
  | pipe p' d =>
      refine if_neg fun hcond => h d ?_
      rw [hcond.1]
  | net a | construct c | joinNone p' => rfl

theorem racing_test (p : ℕ) : racing p (.pipe p .test) = some .test := by simp [racing]

theorem racing_store (p : ℕ) : racing p (.pipe p .store) = some .store := by simp [racing]

/-- How far a pipe is whose connection is calm, with what came first. -/
inductive Course (i : ℕ) : Pipe → Option Doing → Prop
  | built : Course i ⟨true, .alive, .testing, some i⟩ none
  | receiving : Course i ⟨true, .alive, .receiving, some i⟩ (some .test)
  | waiting : Course i ⟨false, .joining, .receiving, some i⟩ (some .test)
  | hurried : Course i ⟨false, .joining, .testing, some i⟩ (some .store)
  | free : Course i ⟨false, .joining, .left, some i⟩ (some .store)
  | destroyed : Course i ⟨false, .destroyed, .left, some i⟩ (some .store)

/-- **Step lemma.** -/
theorem Course.step {net : Net} {i p : ℕ} {q r : Pipe} {f : Option Doing} {d : Doing}
    (h : Course i q f) (hasleep : woken net i = false) (hd : d ≠ .signal)
    (hstep : pipeStep net q d = some r) : Course i r (f.or (racing p (.pipe p d))) := by
  cases h with
  | built =>
      cases d with
      | store =>
          obtain rfl := Option.some.inj hstep
          rw [racing_store]
          exact Course.hurried
      | test =>
          obtain rfl := Option.some.inj hstep
          rw [racing_test]
          exact Course.receiving
      | join | recv | signal => simp [pipeStep] at hstep
  | receiving =>
      cases d with
      | store =>
          obtain rfl := Option.some.inj hstep
          exact Course.waiting
      | recv => simp [pipeStep, hasleep] at hstep
      | signal => exact absurd rfl hd
      | test | join => simp [pipeStep] at hstep
  | waiting =>
      cases d with
      | recv => simp [pipeStep, hasleep] at hstep
      | signal => exact absurd rfl hd
      | store | test | join => simp [pipeStep] at hstep
  | hurried =>
      cases d with
      | test =>
          obtain rfl := Option.some.inj hstep
          exact Course.free
      | store | join | recv | signal => simp [pipeStep] at hstep
  | free =>
      cases d with
      | join =>
          obtain rfl := Option.some.inj hstep
          exact Course.destroyed
      | store | test | recv | signal => simp [pipeStep] at hstep
  | destroyed =>
      cases d with
      | store | join | test | recv | signal => simp [pipeStep] at hstep

/-- A pipe with a calm connection, after the labels `as`. -/
structure Told (p : ℕ) (as : List Label) (w : Sys) : Prop where
  course : ∀ q i, w.pipes[p]? = some q → q.connection = some i → Course i q (first p as)
  peers : Peers (· = .sending) w p
  beyond : w.pipes.length ≤ p → first p as = none

theorem Course.connection {i : ℕ} {q : Pipe} {f : Option Doing} (h : Course i q f) :
    q.connection = some i := by
  cases h <;> rfl

/-- **Step lemma.** -/
theorem Told.move {p : ℕ} {as : List Label} {w v : Sys} {l : Label} (h : Told p as w)
    (hnet : Epoll.Intact w.net) (hcalm : calm p w l) (hm : Move w l v) :
    Told p (as ++ [l]) v := by
  have hpeers : Peers (· = .sending) v p :=
    Peers.move (P := (· = .sending)) rfl (Or.inr hcalm) h.peers hm
  refine ⟨fun r i hr hi => ?_, hpeers, fun hp => ?_⟩
  · rw [first_concat]
    rcases hm.row hr with ⟨hrow, hl⟩ | ⟨d, q, rfl, -, hq, hdone⟩ |
      ⟨hp, -, hl, hnone | ⟨j, -, rfl⟩⟩
    · rw [racing_ne hl, Option.or_none]
      exact h.course r i hrow hi
    · rw [connection_of_pipeStep hdone] at hi
      have hasleep := not_woken hnet (h.peers i (Option.bind_eq_some_iff.mpr ⟨q, hq, hi⟩))
      exact (h.course q i hq hi).step hasleep (fun hd => hcalm.1 (hd ▸ rfl)) hdone
    · rw [hnone] at hi
      cases hi
    · obtain rfl := Option.some.inj hi
      rw [racing_ne hl, Option.or_none, h.beyond hp.ge]
      exact Course.built
  · obtain ⟨hlength, hlt⟩ := hm.length_le
    have hw := hlength.trans hp
    rw [first_concat, h.beyond hw, racing_ne fun d heq => Nat.not_lt.mpr hw (hlt p d heq)]
    rfl

theorem told_of_run {p : ℕ} {as : List Label} {w : Sys} (h : system.Run (calm p) as w) :
    Told p as w := by
  refine LTS.Run.induction (I := Told p) ?_ ?_ h
  · rintro w ⟨-, hpipes, -⟩
    have hnone : w.pipes[p]? = none := by
      rw [hpipes]
      rfl
    refine ⟨fun q i hq => absurd (hnone.symm.trans hq) (by simp), fun i hi => ?_, fun _ => rfl⟩
    rw [connectionOf, hnone] at hi
    cases hi
  · intro as w l v hrun hw hcalm hstep
    exact hw.move (intact_of_reachable hrun.reachable) hcalm (move_of_step hstep).2

/-- **Which pipes can be destroyed**, as long as `std::terminate` was not called.  While no signal
comes to its thread and its connection, once it is accepted, is not reset, a pipe was destroyed,
or can be, exactly if its thread has not tested `isRunning` before the destructor has stored
`false` there: for every order in which the pipes, the io thread and the other clients go on. -/
theorem destroyed_iff {p i : ℕ} {as : List Label} {w : Sys} (h : system.Run (calm p) as w)
    (hrun : w.terminated = false) {q : Pipe} (hq : w.pipes[p]? = some q)
    (hi : q.connection = some i) : Ends p w ↔ first p as ≠ some .test := by
  have hcourse := (told_of_run h).course q i hq hi
  constructor
  · rintro ⟨ls, v, hpath, r, hr, hdestroyed⟩ htest
    -- the whole run, up to the end of the destructor, began with the test
    obtain ⟨s, hs, hbegin⟩ := h
    have htold : Told p (as ++ ls) v := told_of_run ⟨s, hs, hbegin.append hpath⟩
    have hconn : r.connection = some i := by
      obtain ⟨r', hr', hconn⟩ := keeps_connection hpath hq
      obtain rfl := Option.some.inj (hr.symm.trans hr')
      exact hconn.trans hi
    have hlast := htold.course r i hr hconn
    rw [first, List.findSome?_append] at hlast
    rw [show as.findSome? (racing p) = some .test from htest] at hlast
    -- behind the test the thread never leaves
    cases hlast with
    | receiving | waiting => cases hdestroyed
  · intro hfirst
    generalize hf : first p as = f at hcourse hfirst
    cases hcourse with
    | built =>
        have hstore : pipeStep w.net ⟨true, .alive, .testing, some i⟩ .store =
            some ⟨false, .joining, .testing, some i⟩ := rfl
        exact Ends.step hrun hq hstore (by simp) fun v hv hr => ends_of_testing hv hr rfl rfl rfl
    | receiving | waiting => exact absurd rfl hfirst
    | hurried => exact ends_of_testing hrun hq rfl rfl rfl
    | free => exact ends_of_left hrun hq rfl rfl
    | destroyed => exact ends_of_destroyed hq rfl

/-- `destroyed_iff` at `waitingRun`. -/
theorem destroyed_iff_waiting : ∃ w q, w.pipes[0]? = some q ∧ q.owner = .joining ∧ ¬Ends 0 w := by
  obtain ⟨w, hexec, hend⟩ := Option.map_eq_some_iff.mp waitingRun_end
  obtain ⟨hpipes, hterminated⟩ := Prod.mk.inj hend
  have hrun : system.Run (calm 0) waitingRun w := ⟨fresh, init_fresh, LTS.path_of_exec hexec⟩
  have hq : w.pipes[0]? = some ⟨false, .joining, .receiving, some 0⟩ := by
    rw [hpipes]
    rfl
  have htest : first 0 waitingRun = some .test := by decide
  exact ⟨w, _, hq, rfl, fun hends => (destroyed_iff hrun hterminated hq rfl).mp hends htest⟩

end Pipes
