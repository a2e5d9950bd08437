/-
# What the clients send (`Epoll::run` and `Epoll::receive` in `tcppipe.hpp`)

Here the kernel has the connections behind the descriptors of the io thread: a byte stream
for each client, which can send, finish and be reset at any time.  `epoll_wait` reports a
client with `EPOLLIN` alone if there is something to receive, or the end of the stream, and
with more than that if the connection was reset.  `recv` gives the next bytes of the stream,
at most `max_buffer_len` of them, and blocks while there are none and the client may send some.

* `streams_carried`: what the io thread prints of a connection is what its client has sent,
  in order and without a gap, whatever the batches are and however descriptors come back; it
  closes a connection that was not reset only after its last byte; and no `recv` blocks.
-/
import CppShared.Inbound
import CppShared.SocketSendString
import CppShared.TcpPipeEpollEvents

namespace Epoll

/-! ## The io thread and its clients -/

/-- A connection as the kernel has it: the descriptor up to its `close`, and the bytes. -/
structure Stream where
  fd : Option ℤ
  line : Inbound UInt8
  deriving DecidableEq

/-- What `epoll_wait` says of a connection with something to receive. -/
def Stream.Shows (st : Stream) (events : UInt32) : Prop :=
  if st.line.peer = .reset then events ≠ epollIn else events = epollIn ∧ st.line.Readable

instance (st : Stream) (events : UInt32) : Decidable (st.Shows events) :=
  inferInstanceAs (Decidable (if st.line.peer = .reset then _ else _))

/-- The io thread, the connections in the order of `sockets`, and the lines `message:` that
were printed, each with the connection it came from. -/
structure Net where
  io : Sys
  streams : List Stream
  printed : List (ℕ × Str)

/-- An event that `epoll_wait` can report. -/
def Reported (w : Net) (event : Event) : Prop :=
  event.fd = w.io.serverFd ∨ ∃ st ∈ w.streams, st.fd = some event.fd ∧ st.Shows event.events

instance (w : Net) (event : Event) : Decidable (Reported w event) :=
  inferInstanceAs (Decidable (_ ∨ _))

/-- The descriptor that `recvMessage` reads from. -/
def recvFd (s : Sys) : Option ℤ :=
  match s.point with
  | .handling event _ => (socketOf s event.fd).map Socket.fd
  | _ => none

/-- `recv` from the descriptor, and the `close` that follows if it gives nothing. -/
def recv (w : Net) (fd : ℤ) (content : Str) : Option Net :=
  let i := w.streams.findIdx fun st => st.fd = some fd
  match w.streams[i]? with
  | none => if content = [] then some w else none
  | some st =>
      if h : st.line.Gives SendString.maxBufferLen content then
        let fd := if content = [] then none else st.fd
        some { w with
          streams := w.streams.set i ⟨fd, st.line.take content h.1⟩
          printed := if content = [] then w.printed else w.printed ++ [(i, content)] }
      else none

/-- The part that the kernel has in an action of the io thread. -/
def kernel (w : Net) : Action → Option Net
  | .loop (.wait eventList) => if ∀ event ∈ eventList, Reported w event then some w else none
  -- what the client has sent before `accept` counts as sent behind it
  | .loop (.accept fd _ _) =>
      some { w with streams := w.streams ++ [⟨some fd, .new⟩] }
  | .loop (.receive content) =>
      match recvFd w.io with
      | none => some w
      | some fd => recv w fd content
  | _ => some w

/-- What happens next. -/
inductive Act
  | io (a : Action)
  | client (i : ℕ) (d : Deed UInt8)
  deriving DecidableEq

/-- One step. -/
def act (w : Net) : Act → Option Net
  | .io a =>
      match sessions.step w.io a with
      | none => none
      | some t => (kernel w a).map fun v => { v with io := t }
  | .client i d =>
      match w.streams[i]? with
      | none => none
      | some st =>
          (st.line.after d).map fun line =>
            { w with streams := w.streams.set i { st with line := line } }

/-- The io thread and its clients, from the first test of the loop on. -/
def served : LTS Net Act where
  init w := Started w.io ∧ w.streams = [] ∧ w.printed = []
  step := act

/-! ## What holds in every run -/

/-- The events that the `for` loop still comes to. -/
def eventsAt : Point → List Event
  | .handling event rest => event :: rest
  | _ => []

theorem eventsAt_resume (rest : List Event) : eventsAt (resume rest) = rest := by
  cases rest with
  | nil => rfl
  | cons event rest => rfl

/-- All that was printed of a connection. -/
def printedOf (w : Net) (i : ℕ) : Str := Inbound.joined w.printed i

/-- The table holds the connections with a descriptor. -/
def Entered (m : OrderedMap ℤ ℕ) (streams : List Stream) : Prop :=
  ∀ k i, m.find? k = some i ↔ ∃ st, streams[i]? = some st ∧ st.fd = some k

/-- A connection that keeps its descriptor. -/
theorem Entered.set {m : OrderedMap ℤ ℕ} {streams : List Stream} (h : Entered m streams) {i : ℕ}
    {st st' : Stream} (hst : streams[i]? = some st) (hfd : st'.fd = st.fd) :
    Entered m (streams.set i st') := by
  intro k j
  rw [h k j]
  constructor
  · rintro ⟨e, he, hk⟩
    by_cases hij : j = i
    · subst hij
      obtain rfl := Option.some.inj (hst.symm.trans he)
      exact ⟨st', (getElem?_set_iff hst).mpr (Or.inl ⟨rfl, rfl⟩), hfd.trans hk⟩
    · exact ⟨e, (getElem?_set_iff hst).mpr (Or.inr ⟨hij, he⟩), hk⟩
  · rintro ⟨e, he, hk⟩
    rcases (getElem?_set_iff hst).mp he with ⟨rfl, rfl⟩ | ⟨-, he⟩
    · exact ⟨st, hst, hfd.symm.trans hk⟩
    · exact ⟨e, he, hk⟩

/-- A connection that loses it. -/
theorem Entered.close {m : OrderedMap ℤ ℕ} {streams : List Stream} (h : Entered m streams) {i : ℕ}
    {st st' : Stream} {fd : ℤ} (hst : streams[i]? = some st) (hfd : st.fd = some fd)
    (hclosed : st'.fd = none) : Entered (m.eraseFound fd) (streams.set i st') := by
  intro k j
  rw [OrderedMap.find?_eraseFound]
  constructor
  · intro hj
    split_ifs at hj with hk
    obtain ⟨e, he, hek⟩ := (h k j).mp hj
    refine ⟨e, (getElem?_set_iff hst).mpr (Or.inr ⟨?_, he⟩), hek⟩
    rintro rfl
    obtain rfl := Option.some.inj (hst.symm.trans he)
    exact hk (Option.some.inj (hek.symm.trans hfd))
  · rintro ⟨e, he, hek⟩
    rcases (getElem?_set_iff hst).mp he with ⟨-, rfl⟩ | ⟨hij, he⟩
    · simp [hclosed] at hek
    · have hj := (h k j).mpr ⟨e, he, hek⟩
      rw [if_neg, hj]
      rintro rfl
      exact hij (Option.some.inj (hj.symm.trans ((h k i).mpr ⟨st, hst, hfd⟩)))

/-- A new connection under a descriptor that is not in use. -/
theorem Entered.snoc {m : OrderedMap ℤ ℕ} {streams : List Stream} (h : Entered m streams) {fd : ℤ}
    {st : Stream} (hnew : m.find? fd = none) (hfd : st.fd = some fd) :
    Entered (m.insert fd streams.length) (streams ++ [st]) := by
  intro k j
  have hinsert : (m.insert fd streams.length).find? k =
      if k = fd then some streams.length else m.find? k := by
    rw [OrderedMap.find?_insert, hnew]
    rfl
  rw [hinsert]
  constructor
  · intro hj
    split_ifs at hj with hk
    · obtain rfl := Option.some.inj hj
      exact ⟨st, getElem?_concat_iff.mpr (Or.inr ⟨rfl, rfl⟩), hfd.trans (congrArg some hk.symm)⟩
    · obtain ⟨e, he, hek⟩ := (h k j).mp hj
      exact ⟨e, getElem?_concat_iff.mpr (Or.inl he), hek⟩
  · rintro ⟨e, he, hek⟩
    rcases getElem?_concat_iff.mp he with he | ⟨rfl, rfl⟩
    · have hj := (h k j).mpr ⟨e, he, hek⟩
      rw [if_neg, hj]
      rintro rfl
      rw [hnew] at hj
      simp at hj
    · rw [if_pos (Option.some.inj (hek.symm.trans hfd))]

/-- The connections are those of `fd2Socket`, and nothing is lost on the way. -/
structure Intact (w : Net) : Prop where
  length : w.streams.length = w.io.sockets.length
  entry : Entered w.io.fd2Socket w.streams
  logged : Inbound.Logged (w.streams.map Stream.line) w.printed
  closed : ∀ (i : ℕ) st, w.streams[i]? = some st → st.fd = none → st.line.Ended
  /-- A client that was reported stays readable up to its `recv`. -/
  ready : ∀ event ∈ eventsAt w.io.point, event.events = epollIn → event.fd ≠ w.io.serverFd →
    ∃ (i : ℕ) (st : Stream),
      w.streams[i]? = some st ∧ st.fd = some event.fd ∧ st.line.Readable

theorem intact_of_init {w : Net} (h : served.init w) : Intact w := by
  obtain ⟨hstarted, hstreams, hprinted⟩ := h
  refine ⟨?_, fun k i => ?_, ?_, ?_, ?_⟩
  · rw [hstreams, hstarted.sockets]
    rfl
  · rw [hstreams, hstarted.fd2Socket]
    simp [OrderedMap.find?, OrderedMap.empty]
  · rw [hstreams, hprinted]
    exact Inbound.Logged.nil
  · simp [hstreams]
  · simp [hstarted.point, eventsAt]

/-- The line of a connection. -/
theorem getElem?_lines {w : Net} {i : ℕ} {st : Stream} (hst : w.streams[i]? = some st) :
    (w.streams.map Stream.line)[i]? = some st.line := by
  rw [List.getElem?_map, hst]
  rfl

/-- A step of the io thread that leaves the clients alone. -/
theorem Intact.frame {w : Net} (h : Intact w) {t : Sys} (hsockets : t.sockets = w.io.sockets)
    (htable : t.fd2Socket = w.io.fd2Socket) (hserver : t.serverFd = w.io.serverFd)
    (hevents : ∀ event ∈ eventsAt t.point, event ∈ eventsAt w.io.point) :
    Intact { w with io := t } where
  length := h.length.trans (congrArg List.length hsockets.symm)
  entry := by
    dsimp only
    rw [htable]
    exact h.entry
  logged := h.logged
  closed := h.closed
  ready event hmem hin hne := by
    dsimp only at hne
    rw [hserver] at hne
    exact h.ready event (hevents event hmem) hin hne

/-- The thread moves on to a place without events. -/
theorem Intact.goto {w : Net} (h : Intact w) {p : Point} (hp : eventsAt p = []) :
    Intact { w with io := { w.io with point := p } } := by
  refine h.frame rfl rfl rfl fun event hmem => ?_
  change event ∈ eventsAt p at hmem
  rw [hp] at hmem
  exact absurd hmem List.not_mem_nil

/-- The end of the body of the `for` loop. -/
theorem Intact.resume {w : Net} (h : Intact w) {event : Event} {rest : List Event}
    (hp : w.io.point = .handling event rest) {t : Sys} (hsockets : t.sockets = w.io.sockets)
    (htable : t.fd2Socket = w.io.fd2Socket) (hserver : t.serverFd = w.io.serverFd)
    (hpoint : t.point = Epoll.resume rest) : Intact { w with io := t } := by
  apply h.frame hsockets htable hserver
  intro e he
  rw [hpoint, eventsAt_resume] at he
  rw [hp]
  exact List.mem_cons_of_mem _ he

/-- The clients of the events behind the one at hand are readable. -/
theorem Intact.ready_rest {w : Net} (h : Intact w) {event e : Event} {rest : List Event}
    (hp : w.io.point = .handling event rest) (he : e ∈ rest) (hin : e.events = epollIn)
    (hne : e.fd ≠ w.io.serverFd) :
    ∃ (j : ℕ) (st : Stream), w.streams[j]? = some st ∧ st.fd = some e.fd ∧ st.line.Readable := by
  apply h.ready e ?_ hin hne
  rw [hp]
  exact List.mem_cons_of_mem _ he

/-- **Step lemma** for a client. -/
theorem Intact.client {w : Net} (h : Intact w) {i : ℕ} {st : Stream} {line : Inbound UInt8}
    (hst : w.streams[i]? = some st) (hgrows : st.line.Grows line) :
    Intact { w with streams := w.streams.set i { st with line := line } } := by
  have hget : ∀ {j : ℕ} {e : Stream},
      (w.streams.set i { st with line := line })[j]? = some e ↔
        (j = i ∧ { st with line := line } = e) ∨ (j ≠ i ∧ w.streams[j]? = some e) :=
    getElem?_set_iff hst
  refine ⟨List.length_set.trans h.length, h.entry.set hst rfl, ?_, fun j e he hnone => ?_,
    fun event hmem hin hne => ?_⟩
  · rw [List.map_set]
    exact h.logged.set (getElem?_lines hst) hgrows.taken
  · rcases hget.mp he with ⟨rfl, rfl⟩ | ⟨-, he⟩
    · exact hgrows.ended (h.closed j st hst hnone)
    · exact h.closed j e he hnone
  · obtain ⟨j, e, he, hk, hread⟩ := h.ready event hmem hin hne
    by_cases hij : j = i
    · subst hij
      obtain rfl := Option.some.inj (hst.symm.trans he)
      exact ⟨j, _, hget.mpr (Or.inl ⟨rfl, rfl⟩), hk, hgrows.readable hread⟩
    · exact ⟨j, e, hget.mpr (Or.inr ⟨hij, he⟩), hk, hread⟩

/-! ## Receiving -/

/-- No two connections have one descriptor. -/
theorem Intact.unique {w : Net} (h : Intact w) {i j : ℕ} {st e : Stream} {fd : ℤ}
    (hst : w.streams[i]? = some st) (hfd : st.fd = some fd) (he : w.streams[j]? = some e)
    (hk : e.fd = some fd) : j = i := by
  have hi := (h.entry fd i).mpr ⟨st, hst, hfd⟩
  have hj := (h.entry fd j).mpr ⟨e, he, hk⟩
  exact Option.some.inj (hj.symm.trans hi)

/-- `recv` reads from the connection of its descriptor. -/
theorem Intact.recv_eq {w : Net} (h : Intact w) {i : ℕ} {st : Stream} {fd : ℤ}
    (hst : w.streams[i]? = some st) (hfd : st.fd = some fd) (content : Str) :
    recv w fd content =
      if h : st.line.Gives SendString.maxBufferLen content then
        some { w with
          streams := w.streams.set i
            ⟨if content = [] then none else st.fd, st.line.take content h.1⟩
          printed := if content = [] then w.printed else w.printed ++ [(i, content)] }
      else none := by
  obtain ⟨hlt, hget⟩ := List.getElem?_eq_some_iff.mp hst
  have hidx : w.streams.findIdx (fun e => decide (e.fd = some fd)) = i := by
    apply (List.findIdx_eq hlt).mpr
    refine ⟨by simp [hget, hfd], fun j hj => ?_⟩
    have hj' : w.streams[j]? = some w.streams[j] := List.getElem?_eq_getElem (hj.trans hlt)
    apply decide_eq_false
    intro hk
    exact absurd (h.unique hst hfd hj' hk) (Nat.ne_of_lt hj)
  unfold recv
  simp only [hidx, hst]

/-- The event at hand is about a connection, and `recvMessage` reads from it. -/
theorem Intact.receiving {w : Net} (h : Intact w) (hinv : Inv w.io) {event : Event}
    {rest : List Event} (hp : w.io.point = .handling event rest)
    (hserver : event.fd ≠ w.io.serverFd) :
    recvFd w.io = some event.fd ∧ ∃ (i : ℕ) (sock : Socket) (st : Stream),
      w.io.fd2Socket.find? event.fd = some i ∧ w.io.sockets[i]? = some sock ∧
        sock.fd = event.fd ∧ w.streams[i]? = some st ∧ st.fd = some event.fd := by
  have hpending : event.fd ∈ pending w.io.point := by
    rw [hp]
    exact List.mem_cons_self
  obtain ⟨i, hi⟩ := OrderedMap.mem_keys_iff.mp ((hinv.pending _ hpending).resolve_left hserver)
  obtain ⟨⟨sock, hsock, hfd⟩, -⟩ := hinv.entry event.fd i hi
  obtain ⟨st, hst, hk⟩ := (h.entry event.fd i).mp hi
  refine ⟨?_, i, sock, st, hi, hsock, hfd, hst, hk⟩
  rw [recvFd, hp]
  dsimp only
  rw [socketOf, hi, Option.bind_some, hsock, Option.map_some, hfd]

/-- The thread is in `receive`. -/
theorem of_receive {s t : Sys} {content : Str} (h : step s (.receive content) = some t) :
    ∃ event rest, s.point = .handling event rest ∧ event.fd ≠ s.serverFd ∧
      t = receive s rest event.fd content := by
  unfold step at h
  cases hp : s.point with
  | handling event rest =>
      rw [hp] at h
      simp only [handle] at h
      split_ifs at h with hcond
      exact ⟨event, rest, rfl, hcond.2, (Option.some.inj h).symm⟩
  | head | epollWait => simp [hp] at h
  | crashed | left => simp [hp] at h

/-- The thread after `receive`. -/
theorem receive_eq {s : Sys} {rest : List Event} {fd : ℤ} {i : ℕ} {sock : Socket}
    (hi : s.fd2Socket.find? fd = some i) (hsock : s.sockets[i]? = some sock) (content : Str) :
    receive s rest fd content =
      if content ≠ [] then { s with point := resume rest } else closed s rest fd i sock := by
  unfold receive
  simp only [hi, hsock]

/-- **Step lemma** for a piece of a stream. -/
theorem Intact.message {w : Net} (h : Intact w) {event : Event} {rest : List Event} {i : ℕ}
    {st : Stream} {content : Str} (hp : w.io.point = .handling event rest)
    (honce : event.fd ∉ rest.map Event.fd) (hst : w.streams[i]? = some st)
    (hfd : st.fd = some event.fd) (hfront : content <+: st.line.waiting) :
    Intact ⟨{ w.io with point := Epoll.resume rest },
      w.streams.set i ⟨st.fd, st.line.take content hfront⟩, w.printed ++ [(i, content)]⟩ := by
  have hget : ∀ {j : ℕ} {e : Stream},
      (w.streams.set i ⟨st.fd, st.line.take content hfront⟩)[j]? = some e ↔
        (j = i ∧ ⟨st.fd, st.line.take content hfront⟩ = e) ∨ (j ≠ i ∧ w.streams[j]? = some e) :=
    getElem?_set_iff hst
  refine ⟨List.length_set.trans h.length, h.entry.set hst rfl, ?_, fun j e he hnone => ?_,
    fun e he hin hne => ?_⟩
  · rw [List.map_set]
    exact h.logged.take (getElem?_lines hst) hfront
  · rcases hget.mp he with ⟨rfl, rfl⟩ | ⟨-, he⟩
    · simp [hfd] at hnone
    · exact h.closed j e he hnone
  · change e ∈ eventsAt (Epoll.resume rest) at he
    rw [eventsAt_resume] at he
    obtain ⟨j, st', hst', hk, hread⟩ := h.ready_rest hp he hin hne
    -- the events behind it are about other clients: a batch has each descriptor once
    have hij : j ≠ i := by
      rintro rfl
      obtain rfl := Option.some.inj (hst.symm.trans hst')
      exact honce (Option.some.inj (hfd.symm.trans hk) ▸ List.mem_map_of_mem he)
    exact ⟨j, st', hget.mpr (Or.inr ⟨hij, hst'⟩), hk, hread⟩

/-- **Step lemma** for the end of a stream. -/
theorem Intact.disconnect {w : Net} (h : Intact w) {event : Event} {rest : List Event} {i : ℕ}
    {sock : Socket} {st : Stream} (hp : w.io.point = .handling event rest)
    (honce : event.fd ∉ rest.map Event.fd) (hst : w.streams[i]? = some st)
    (hfd : st.fd = some event.fd) (hended : st.line.Ended) (hfront : [] <+: st.line.waiting) :
    Intact ⟨Epoll.closed w.io rest event.fd i sock,
      w.streams.set i ⟨none, st.line.take [] hfront⟩, w.printed⟩ := by
  have hget : ∀ {j : ℕ} {e : Stream},
      (w.streams.set i ⟨none, st.line.take [] hfront⟩)[j]? = some e ↔
        (j = i ∧ ⟨none, st.line.take [] hfront⟩ = e) ∨ (j ≠ i ∧ w.streams[j]? = some e) :=
    getElem?_set_iff hst
  refine ⟨?_, h.entry.close hst hfd rfl, ?_, fun j e he hnone => ?_, fun e he hin hne => ?_⟩
  · show (w.streams.set i _).length = (w.io.sockets.set i (destroy sock)).length
    rw [List.length_set, List.length_set]
    exact h.length
  · rw [List.map_set]
    exact h.logged.set (getElem?_lines hst) (List.append_nil _)
  · rcases hget.mp he with ⟨rfl, rfl⟩ | ⟨-, he⟩
    · exact hended
    · exact h.closed j e he hnone
  · change e ∈ eventsAt (Epoll.resume rest) at he
    rw [eventsAt_resume] at he
    obtain ⟨j, st', hst', hk, hread⟩ := h.ready_rest hp he hin hne
    have hij : j ≠ i := by
      rintro rfl
      obtain rfl := Option.some.inj (hst.symm.trans hst')
      exact honce (Option.some.inj (hfd.symm.trans hk) ▸ List.mem_map_of_mem he)
    exact ⟨j, st', hget.mpr (Or.inr ⟨hij, hst'⟩), hk, hread⟩

/-- **Step lemma** for `recvMessage`. -/
theorem Intact.receive {w w' : Net} (h : Intact w) (hinv : Inv w.io) {t : Sys} {content : Str}
    (ht : step w.io (.receive content) = some t)
    (hk : kernel w (.loop (.receive content)) = some w') : Intact { w' with io := t } := by
  obtain ⟨event, rest, hp, hserver, rfl⟩ := of_receive ht
  obtain ⟨hrecv, i, sock, st, hi, hsock, -, hst, hfd⟩ := h.receiving hinv hp hserver
  have honce : event.fd ∉ rest.map Event.fd := by
    have hnodup := hinv.once
    rw [hp] at hnodup
    exact (List.nodup_cons.mp hnodup).1
  simp only [kernel, hrecv, h.recv_eq hst hfd] at hk
  rw [receive_eq hi hsock]
  split_ifs at hk with hgives hcontent
  · obtain rfl := Option.some.inj hk
    subst hcontent
    exact h.disconnect hp honce hst hfd (hgives.2.2 rfl) hgives.1
  · obtain rfl := Option.some.inj hk
    rw [if_pos hcontent]
    exact h.message hp honce hst hfd hgives.1

/-- **Step lemma** for a new connection. -/
theorem Intact.accept {w : Net} (h : Intact w) (hinv : Inv w.io) {event : Event}
    {rest : List Event} {fd : ℤ} {addr : Addr} {added : Bool}
    (hp : w.io.point = .handling event rest) (hnew : fd ∉ w.io.openFds) :
    Intact ⟨Epoll.accepted w.io rest fd addr added, w.streams ++ [⟨some fd, .new⟩],
      w.printed⟩ := by
  refine ⟨?_, ?_, ?_, fun j e he hnone => ?_, fun e he hin hne => ?_⟩
  · show (w.streams ++ [_]).length = (w.io.sockets ++ [_]).length
    rw [List.length_append, List.length_append, h.length]
    rfl
  · show Entered (w.io.fd2Socket.insert fd w.io.sockets.length) _
    rw [← h.length]
    exact h.entry.snoc (hinv.find?_eq_none hnew) rfl
  · rw [List.map_append]
    exact h.logged.snoc
  · rcases getElem?_concat_iff.mp he with he | ⟨rfl, rfl⟩
    · exact h.closed j e he hnone
    · simp at hnone
  · change e ∈ eventsAt (Epoll.resume rest) at he
    rw [eventsAt_resume] at he
    obtain ⟨j, st, hst, hk, hread⟩ := h.ready_rest hp he hin hne
    exact ⟨j, st, getElem?_concat_iff.mpr (Or.inl hst), hk, hread⟩

/-- **Step lemma** for a batch: a client that is reported with `EPOLLIN` alone is readable. -/
theorem Intact.wait {w : Net} (h : Intact w) {eventList : List Event}
    (hreported : ∀ event ∈ eventList, Reported w event) :
    Intact { w with io := { w.io with point := Epoll.resume eventList } } := by
  refine { h with ready := fun event hmem hin hne => ?_ }
  change event ∈ eventsAt (Epoll.resume eventList) at hmem
  rw [eventsAt_resume] at hmem
  obtain ⟨st, hst, hfd, hshows⟩ := (hreported event hmem).resolve_left hne
  obtain ⟨i, hi⟩ := List.mem_iff_getElem?.mp hst
  refine ⟨i, st, hi, hfd, ?_⟩
  unfold Stream.Shows at hshows
  split_ifs at hshows
  -- a client that was reset is never reported with `EPOLLIN` alone
  · exact absurd hin hshows
  · exact hshows.2

/-- **Step lemma** for the io thread. -/
theorem Intact.loop {w w' : Net} (h : Intact w) (hinv : Inv w.io) {a : Label} {t : Sys}
    (ht : step w.io a = some t) (hk : kernel w (.loop a) = some w') :
    Intact { w' with io := t } := by
  have hm := move_of_step ht
  cases hm with
  | test running hp =>
      obtain rfl := Option.some.inj hk
      cases running with
      | true => exact h.goto rfl
      | false => exact h.goto rfl
  | waitFails interrupted hp =>
      obtain rfl := Option.some.inj hk
      cases interrupted with
      | true => exact h.goto rfl
      | false => exact h.goto rfl
  | wait eventList hp hready =>
      obtain ⟨hreported, hk⟩ := Option.ite_none_right_eq_some.mp hk
      obtain rfl := Option.some.inj hk
      exact h.wait hreported
  | skip event rest hp | acceptNone event rest hp | acceptLeaks event rest fd hp hfd =>
      obtain rfl := Option.some.inj hk
      exact h.resume hp rfl rfl rfl rfl
  | accept event rest fd addr added hp hserver hfd hnew =>
      obtain rfl := Option.some.inj hk
      exact h.accept hinv hp hnew
  | nullptr | message | disconnect => exact h.receive hinv ht hk

/-- **Step lemma** for another call of `run`. -/
theorem Intact.enter {w : Net} (h : Intact w) {created : Created} {t : Sys}
    (ht : enter w.io created = some t) : Intact { w with io := t } := by
  cases created with
  | fails =>
      obtain rfl := Option.some.inj ht
      exact h.frame rfl rfl rfl fun _ hmem => hmem
  | unwatched fd =>
      obtain ⟨-, ht⟩ := Option.ite_none_right_eq_some.mp ht
      obtain rfl := Option.some.inj ht
      exact h.frame rfl rfl rfl fun _ hmem => hmem
  | watches fd =>
      obtain ⟨-, ht⟩ := Option.ite_none_right_eq_some.mp ht
      obtain rfl := Option.some.inj ht
      exact h.frame rfl rfl rfl fun _ hmem => absurd hmem List.not_mem_nil

/-- **Step lemma.** -/
theorem Intact.act {w w' : Net} (h : Intact w) (hinv : Inv w.io) {a : Act}
    (hstep : Epoll.act w a = some w') : Intact w' := by
  cases a with
  | io a =>
      simp only [Epoll.act] at hstep
      cases ht : sessions.step w.io a with
      | none => simp [ht] at hstep
      | some t =>
          rw [ht] at hstep
          obtain ⟨v, hk, rfl⟩ := Option.map_eq_some_iff.mp hstep
          cases a with
          | run created =>
              obtain ⟨-, ht⟩ := Option.ite_none_right_eq_some.mp ht
              obtain rfl := Option.some.inj hk
              exact h.enter ht
          | loop a => exact h.loop hinv ht hk
  | client i d =>
      simp only [Epoll.act] at hstep
      cases hst : w.streams[i]? with
      | none => simp [hst] at hstep
      | some st =>
          rw [hst] at hstep
          obtain ⟨line, hafter, rfl⟩ := Option.map_eq_some_iff.mp hstep
          exact h.client hst (Inbound.grows_of_after hafter)

/-- What is known of the io thread alone holds here as well. -/
theorem refines_sessions : LTS.Refines served (fun _ _ => True) sessions Net.io where
  init w h := h.1
  step w a w' _ _ hstep := by
    cases a with
    | io a =>
        simp only [served, act] at hstep
        cases ht : sessions.step w.io a with
        | none => simp [ht] at hstep
        | some t =>
            rw [ht] at hstep
            obtain ⟨v, -, rfl⟩ := Option.map_eq_some_iff.mp hstep
            exact ⟨[a], LTS.Path.single trivial ht⟩
    | client i d =>
        simp only [served, act] at hstep
        cases hst : w.streams[i]? with
        | none => simp [hst] at hstep
        | some st =>
            rw [hst] at hstep
            obtain ⟨line, -, rfl⟩ := Option.map_eq_some_iff.mp hstep
            exact ⟨[], LTS.Path.nil _⟩

theorem intact_of_reachable {w : Net} (h : served.Reachable (fun _ _ => True) w) :
    Inv w.io ∧ Intact w := by
  refine ⟨inv_of_sessions (refines_sessions.reachable h), ?_⟩
  refine LTS.Reachable.induction (I := Intact) (fun w hw => intact_of_init hw) ?_ h
  intro w a w' hreach hw _ hstep
  exact hw.act (inv_of_sessions (refines_sessions.reachable hreach)) hstep

/-! ## Main result -/

/-- `epoll_wait` has no client to report. -/
def Idle (w : Net) : Prop :=
  ∀ event : Event, event.fd ∈ w.io.watched → event.fd ≠ w.io.serverFd → ¬Reported w event

/-- A client with something to receive would be reported. -/
theorem Intact.waiting_of_idle {w : Net} (h : Intact w) (hinv : Inv w.io) (hidle : Idle w) {i : ℕ}
    {st : Stream} {fd : ℤ} (hst : w.streams[i]? = some st) (hfd : fd ∈ w.io.watched)
    (hk : st.fd = some fd) (hpeer : st.line.peer ≠ .reset) : st.line.waiting = [] := by
  by_contra hwaiting
  have hserver : fd ≠ w.io.serverFd :=
    (hinv.entry fd i ((h.entry fd i).mpr ⟨st, hst, hk⟩)).2.2.2.1
  apply hidle ⟨epollIn, fd⟩ hfd hserver
  refine Or.inr ⟨st, List.mem_of_getElem? hst, hk, ?_⟩
  rw [Stream.Shows, if_neg hpeer]
  exact ⟨rfl, Or.inl hwaiting⟩

/-- The way from the client to the output. -/
structure Carried (w : Net) (i : ℕ) (st : Stream) : Prop where
  /-- What was printed and what waits is what was sent. -/
  whole : printedOf w i ++ st.line.waiting = st.line.sent
  /-- The connection is closed behind its last byte. -/
  closed : st.fd = none →
    st.line.peer = .reset ∨ st.line.peer = .finished ∧ printedOf w i = st.line.sent
  /-- When there is nothing to report everything was printed. -/
  idle : Idle w → ∀ fd ∈ w.io.watched, st.fd = some fd → st.line.peer ≠ .reset →
    printedOf w i = st.line.sent

/-- **What the clients send is printed**, connection by connection, in order and without a
gap, and the io thread never blocks in `recv`: for every batch, every piece that `recv`
gives, and every time at which clients connect, send, finish and are reset. -/
theorem streams_carried {w : Net} (h : served.Reachable (fun _ _ => True) w) :
    (∀ (i : ℕ) st, w.streams[i]? = some st → Carried w i st) ∧
      ∀ event rest, w.io.point = .handling event rest → event.events = epollIn →
        event.fd ≠ w.io.serverFd →
          ∃ content w', act w (.io (.loop (.receive content))) = some w' := by
  obtain ⟨hinv, hw⟩ := intact_of_reachable h
  refine ⟨fun i st hst => ?_, fun event rest hp hin hserver => ?_⟩
  · have hall : st.line.waiting = [] → printedOf w i = st.line.sent :=
      hw.logged.eq_sent (getElem?_lines hst)
    refine ⟨?_, fun hnone => ?_, fun hidle fd hfd hk hpeer => hall ?_⟩
    · exact hw.logged.whole (getElem?_lines hst)
    · exact (hw.closed i st hst hnone).imp_right fun hend => ⟨hend.1, hall hend.2⟩
    · exact hw.waiting_of_idle hinv hidle hst hfd hk hpeer
  · obtain ⟨hrecv, i, sock, st, -, -, -, hst, hfd⟩ := hw.receiving hinv hp hserver
    have hmem : event ∈ eventsAt w.io.point := by
      rw [hp]
      exact List.mem_cons_self
    obtain ⟨j, st', hst', hfd', hread⟩ := hw.ready event hmem hin hserver
    obtain rfl := hw.unique hst hfd hst' hfd'
    obtain rfl := Option.some.inj (hst.symm.trans hst')
    obtain ⟨content, hgives⟩ := hread.exists_gives (n := SendString.maxBufferLen) (by decide)
    have hstep : sessions.step w.io (.loop (.receive content)) =
        some (receive w.io rest event.fd content) := by
      have hhandle : step w.io (.receive content) =
          handle w.io event rest (.receive content) := by
        unfold step
        simp only [hp]
      exact hhandle.trans (if_pos ⟨hin, hserver⟩)
    have hkernel : ∃ v, kernel w (.loop (.receive content)) = some v := by
      rw [kernel, hrecv]
      dsimp only
      rw [hw.recv_eq hst hfd, dif_pos hgives]
      exact ⟨_, rfl⟩
    obtain ⟨v, hv⟩ := hkernel
    refine ⟨content, { v with io := receive w.io rest event.fd content }, ?_⟩
    rw [act, hstep]
    dsimp only
    rw [hv, Option.map_some]

/-- A client sends a word and leaves; another one gets its descriptor in the same batch, and is
reset when a part of its word was received. -/
def twoStreamsRun : List Act :=
  [.io (.loop (.test true)), .io (.loop (.wait [⟨1, 3⟩])),
    .io (.loop (.accept 5 ⟨127, 0, 0, 1, 4000⟩ true)), .client 0 (.send (str "hello")),
    .io (.loop (.test true)), .io (.loop (.wait [⟨1, 5⟩])), .io (.loop (.receive (str "he"))),
    .client 0 .finish, .io (.loop (.test true)), .io (.loop (.wait [⟨1, 5⟩])),
    .io (.loop (.receive (str "llo"))), .io (.loop (.test true)),
    .io (.loop (.wait [⟨1, 5⟩, ⟨1, 3⟩])), .io (.loop (.receive [])),
    .io (.loop (.accept 5 ⟨127, 0, 0, 1, 4001⟩ true)), .client 1 (.send (str "bye")),
    .io (.loop (.test true)), .io (.loop (.wait [⟨1, 5⟩])), .io (.loop (.receive (str "b"))),
    .client 1 .reset, .io (.loop (.test true)), .io (.loop (.wait [⟨25, 5⟩])), .io (.loop .skip)]

theorem twoStreamsRun_end :
    (LTS.exec served (fun _ _ => True) ⟨fresh, [], []⟩ twoStreamsRun).map
        (fun w => (w.printed, w.streams)) =
      some ([(0, str "he"), (0, str "llo"), (1, str "b")],
        [⟨none, str "hello", str "hello", [], .finished, rfl⟩,
          ⟨some 5, str "bye", str "b", str "ye", .reset, rfl⟩]) := by
  decide +kernel

/-- `streams_carried` at that run. -/
theorem streams_carried_twoStreams : ∃ w st, w.streams[0]? = some st ∧ st.fd = none ∧
    st.line.sent = str "hello" ∧ printedOf w 0 = st.line.sent := by
  obtain ⟨w, hexec, hend⟩ := Option.map_eq_some_iff.mp twoStreamsRun_end
  have hreach : served.Reachable (fun _ _ => True) w :=
    LTS.reachable_of_exec ⟨started_fresh, rfl, rfl⟩ hexec
  have hstreams := (Prod.mk.inj hend).2
  have hst : w.streams[0]? = some ⟨none, str "hello", str "hello", [], .finished, rfl⟩ := by
    rw [hstreams]
    rfl
  have hcarried := (streams_carried hreach).1 0 _ hst
  exact ⟨w, _, hst, rfl, rfl, ((hcarried.closed rfl).resolve_left (by simp)).2⟩

end Epoll
