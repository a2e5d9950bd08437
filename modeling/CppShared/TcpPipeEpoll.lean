/-
# The loop of the io thread (`Epoll::run` in `tcppipe.hpp`)

`Epoll` enters every accepted client in two tables, `socketMap` by address and
`fd2Socket` by descriptor; `receive` takes a client whose connection has ended out of
`fd2Socket` alone.  The system calls are the environment: a label says what the call
returns, and the kernel gives a new connection a descriptor that is not open and reports
a batch of distinct descriptors that `epfd` watches.

`fd2Socket` is right in every run: it holds the clients whose connections have not
ended (`inv_of_reachable`).  The two tables agree at every head of the loop exactly in
the runs in which no connection ends and no address comes back (`tables_agree_iff`).
-/
import CppShared.OrderedMap
import CppShared.Socket
import CppShared.Table
import CppShared.Transition
import Mathlib.Data.Finset.Insert
import Mathlib.Data.List.Nodup

namespace Epoll

/-! ## The sockets of the pipe -/

/-- `iSocket::getAddress`. -/
def getAddress (sock : Socket) : Str := sock.host ++ str ":" ++ decimal sock.port

/-- `Socket::destroy` of `tcppipe.hpp`. -/
def destroy (sock : Socket) : Socket := { sock with fd := -1 }

/-! ## The loop -/

/-- `EPOLLIN`. -/
def epollIn : UInt32 := 1

/-- `MAX_EVENT_NUM`. -/
def maxEventNum : ℕ := 2048

/-- An entry of `eventList`. -/
structure Event where
  events : UInt32
  fd : ℤ
  deriving DecidableEq, Repr

/-- The statement that `run` executes next. -/
inductive Point
  /-- The test of `isRunning` at the head of the loop. -/
  | head
  | epollWait
  /-- The `for` loop, with the event at hand and those behind it. -/
  | handling (event : Event) (rest : List Event)
  /-- `fd2Socket[fd]` gave a null pointer. -/
  | crashed
  | left
  deriving DecidableEq, Repr

/-- The end of the body of the `for` loop. -/
def resume : List Event → Point
  | [] => .head
  | event :: rest => .handling event rest

/-- The server.  The tables hold positions in `sockets`. -/
structure Sys where
  /-- `Server::socket.fd`. -/
  serverFd : ℤ
  epfd : ℤ
  /-- The sockets that `accepting` made, in their order. -/
  sockets : List Socket
  socketMap : OrderedMap Str ℕ
  fd2Socket : OrderedMap ℤ ℕ
  openFds : Finset ℤ
  /-- The descriptors that `epfd` watches. -/
  watched : Finset ℤ
  /-- The sockets on which `recvMessage` gave nothing. -/
  ended : List ℕ
  point : Point

/-- `epoll_wait` can report a batch. -/
def Ready (s : Sys) (eventList : List Event) : Prop :=
  s.epfd ∈ s.openFds ∧ eventList.length ≤ maxEventNum ∧ (eventList.map Event.fd).Nodup ∧
    ∀ event ∈ eventList, event.fd ∈ s.watched

instance (s : Sys) (eventList : List Event) : Decidable (Ready s eventList) :=
  inferInstanceAs (Decidable (_ ∧ _ ∧ _ ∧ _))

/-- What happens next. -/
inductive Label
  /-- The test of `isRunning`. -/
  | test (running : Bool)
  /-- `epoll_wait` returns. -/
  | wait (eventList : List Event)
  /-- `epoll_wait` fails; `interrupted` says that `errno` is `EINTR`. -/
  | waitFails (interrupted : Bool)
  /-- An event that is more than `EPOLLIN`. -/
  | skip
  /-- `accepting` returns `nullptr`; when `getnameinfo` fails the new descriptor stays. -/
  | acceptFails (leaked : Option ℤ)
  /-- A new connection; `added` says that `epoll_ctl` succeeds. -/
  | accept (fd : ℤ) (addr : Addr) (added : Bool)
  /-- What `recvMessage` returns. -/
  | receive (content : Str)
  deriving DecidableEq

/-- The branch of a new connection. -/
def accepted (s : Sys) (rest : List Event) (fd : ℤ) (addr : Addr) (added : Bool) : Sys :=
  let newSocket := Socket.accepting fd addr
  { s with
    sockets := s.sockets ++ [newSocket]
    socketMap := s.socketMap.insert (getAddress newSocket) s.sockets.length
    fd2Socket := s.fd2Socket.insert newSocket.fd s.sockets.length
    -- without the watch on the client the loop closes `epfd`, and goes on
    openFds := if added then insert fd s.openFds else (insert fd s.openFds).erase s.epfd
    watched := if added then insert fd s.watched else s.watched
    point := resume rest }

/-- The end of a connection in `Epoll::receive`. -/
def closed (s : Sys) (rest : List Event) (fd : ℤ) (i : ℕ) (sock : Socket) : Sys :=
  { s with
    sockets := s.sockets.set i (destroy sock)
    openFds := s.openFds.erase sock.fd
    watched := (s.watched.erase fd).erase sock.fd
    fd2Socket := s.fd2Socket.eraseFound fd
    ended := s.ended ++ [i]
    point := resume rest }

/-- `Epoll::receive`. -/
def receive (s : Sys) (rest : List Event) (fd : ℤ) (content : Str) : Sys :=
  match s.fd2Socket.find? fd with
  | none => { s with point := .crashed }
  | some i =>
      match s.sockets[i]? with
      | none => { s with point := .crashed }
      | some sock =>
          if content ≠ [] then { s with point := resume rest } else closed s rest fd i sock

/-- The body of the `for` loop. -/
def handle (s : Sys) (event : Event) (rest : List Event) : Label → Option Sys
  | .skip => if event.events ≠ epollIn then some { s with point := resume rest } else none
  | .acceptFails none =>
      if event.events = epollIn ∧ event.fd = s.serverFd then some { s with point := resume rest }
      else none
  | .acceptFails (some fd) =>
      if event.events = epollIn ∧ event.fd = s.serverFd ∧ 0 ≤ fd ∧ fd ∉ s.openFds then
        some { s with openFds := insert fd s.openFds, point := resume rest }
      else none
  | .accept fd addr added =>
      if event.events = epollIn ∧ event.fd = s.serverFd ∧ 0 ≤ fd ∧ fd ∉ s.openFds then
        some (accepted s rest fd addr added)
      else none
  | .receive content =>
      if event.events = epollIn ∧ event.fd ≠ s.serverFd then
        some (receive s rest event.fd content)
      else none
  | _ => none

/-- The step function. -/
def step (s : Sys) (a : Label) : Option Sys :=
  match s.point with
  | .head =>
      match a with
      | .test running => some { s with point := if running then .epollWait else .left }
      | _ => none
  | .epollWait =>
      match a with
      | .wait eventList =>
          if Ready s eventList then some { s with point := resume eventList } else none
      | .waitFails interrupted => some { s with point := if interrupted then .head else .left }
      | _ => none
  | .handling event rest => handle s event rest a
  | .crashed | .left => none

/-- At the first test: `epoll_ctl` has added the server. -/
structure Started (s : Sys) : Prop where
  sockets : s.sockets = []
  socketMap : s.socketMap = OrderedMap.empty
  fd2Socket : s.fd2Socket = OrderedMap.empty
  ended : s.ended = []
  openFds : s.serverFd ∈ s.openFds ∧ s.epfd ≠ s.serverFd ∧ ∀ fd ∈ s.openFds, 0 ≤ fd
  watched : s.watched = {s.serverFd}
  point : s.point = .head

/-- `Epoll::run` and the kernel. -/
def system : LTS Sys Label where
  init := Started
  step := step

/-! ## The property and the condition -/

/-- The two tables hold the same sockets, each open: the clients whose connections have
not ended, and no others. -/
structure Agree (s : Sys) : Prop where
  same : ∀ i, i ∈ s.socketMap.values ↔ i ∈ s.fd2Socket.values
  isOpen : ∀ i ∈ s.socketMap.values, ∃ sock, s.sockets[i]? = some sock ∧ sock.fd ∈ s.openFds
  ended : ∀ i ∈ s.ended, i ∉ s.socketMap.values ∧ i ∉ s.fd2Socket.values
  entered : ∀ i < s.sockets.length, i ∉ s.ended →
    i ∈ s.socketMap.values ∧ i ∈ s.fd2Socket.values

/-- No connection ends, and no address comes back. -/
def lasting (s : Sys) : Label → Prop
  | .receive content => content ≠ []
  | .accept fd addr _ => getAddress (Socket.accepting fd addr) ∉ s.socketMap.keys
  | _ => True

instance (s : Sys) (a : Label) : Decidable (lasting s a) :=
  match a with
  | .receive content => inferInstanceAs (Decidable (content ≠ []))
  | .accept fd addr _ =>
      inferInstanceAs (Decidable (getAddress (Socket.accepting fd addr) ∉ s.socketMap.keys))
  | .test _ | .wait _ | .waitFails _ | .skip | .acceptFails _ => inferInstanceAs (Decidable True)

/-! ## What a step does -/

/-- The effect of a step, case by case. -/
inductive Move (s : Sys) : Label → Sys → Prop
  | test (running) (hp : s.point = .head) :
      Move s (.test running) { s with point := if running then .epollWait else .left }
  | wait (eventList) (hp : s.point = .epollWait) (hready : Ready s eventList) :
      Move s (.wait eventList) { s with point := resume eventList }
  | waitFails (interrupted) (hp : s.point = .epollWait) :
      Move s (.waitFails interrupted) { s with point := if interrupted then .head else .left }
  | skip (event rest) (hp : s.point = .handling event rest) :
      Move s .skip { s with point := resume rest }
  | acceptNone (event rest) (hp : s.point = .handling event rest) :
      Move s (.acceptFails none) { s with point := resume rest }
  | acceptLeaks (event rest fd) (hp : s.point = .handling event rest) (hfd : 0 ≤ fd) :
      Move s (.acceptFails (some fd))
        { s with openFds := insert fd s.openFds, point := resume rest }
  | accept (event rest fd addr added) (hp : s.point = .handling event rest)
      (hserver : event.fd = s.serverFd) (hfd : 0 ≤ fd) (hnew : fd ∉ s.openFds) :
      Move s (.accept fd addr added) (accepted s rest fd addr added)
  | nullptr (event rest content) (hp : s.point = .handling event rest)
      (hserver : event.fd ≠ s.serverFd)
      (hnone : ∀ i sock, s.fd2Socket.find? event.fd = some i → s.sockets[i]? ≠ some sock) :
      Move s (.receive content) { s with point := .crashed }
  | message (event rest content) (hp : s.point = .handling event rest)
      (hcontent : content ≠ []) : Move s (.receive content) { s with point := resume rest }
  | disconnect (event rest i sock) (hp : s.point = .handling event rest)
      (hi : s.fd2Socket.find? event.fd = some i) (hsock : s.sockets[i]? = some sock) :
      Move s (.receive []) (closed s rest event.fd i sock)

theorem move_of_receive {s : Sys} {event : Event} {rest : List Event} {content : Str}
    (hp : s.point = .handling event rest) (hserver : event.fd ≠ s.serverFd) :
    Move s (.receive content) (receive s rest event.fd content) := by
  unfold receive
  cases hi : s.fd2Socket.find? event.fd with
  | none =>
      refine Move.nullptr event rest content hp hserver fun i sock h => ?_
      rw [hi] at h
      simp at h
  | some i =>
      dsimp only
      cases hsock : s.sockets[i]? with
      | none =>
          refine Move.nullptr event rest content hp hserver fun j sock h => ?_
          rw [hi, Option.some.injEq] at h
          subst h
          simp [hsock]
      | some sock =>
          dsimp only
          split_ifs with hcontent
          · exact Move.message event rest content hp hcontent
          · obtain rfl := not_not.mp hcontent
            exact Move.disconnect event rest i sock hp hi hsock

theorem move_of_handle {s t : Sys} {a : Label} {event : Event} {rest : List Event}
    (hp : s.point = .handling event rest) (h : handle s event rest a = some t) : Move s a t := by
  cases a with
  | test running => simp [handle] at h
  | wait eventList => simp [handle] at h
  | waitFails interrupted => simp [handle] at h
  | skip =>
      simp only [handle] at h
      split_ifs at h
      obtain rfl := Option.some.inj h
      exact Move.skip event rest hp
  | acceptFails leaked =>
      cases leaked with
      | none =>
          simp only [handle] at h
          split_ifs at h
          obtain rfl := Option.some.inj h
          exact Move.acceptNone event rest hp
      | some fd =>
          simp only [handle] at h
          split_ifs at h with hcond
          obtain rfl := Option.some.inj h
          exact Move.acceptLeaks event rest fd hp hcond.2.2.1
  | accept fd addr added =>
      simp only [handle] at h
      split_ifs at h with hcond
      obtain rfl := Option.some.inj h
      exact Move.accept event rest fd addr added hp hcond.2.1 hcond.2.2.1 hcond.2.2.2
  | receive content =>
      simp only [handle] at h
      split_ifs at h with hcond
      obtain rfl := Option.some.inj h
      exact move_of_receive hp hcond.2

/-- **Step inversion.** -/
theorem move_of_step {s t : Sys} {a : Label} (h : step s a = some t) : Move s a t := by
  unfold step at h
  cases hp : s.point with
  | head =>
      rw [hp] at h
      cases a with
      | test running =>
          obtain rfl := Option.some.inj h
          exact Move.test running hp
      | _ => simp at h
  | epollWait =>
      rw [hp] at h
      cases a with
      | wait eventList =>
          simp only at h
          split_ifs at h with hready
          obtain rfl := Option.some.inj h
          exact Move.wait eventList hp hready
      | waitFails interrupted =>
          obtain rfl := Option.some.inj h
          exact Move.waitFails interrupted hp
      | _ => simp at h
  | handling event rest =>
      rw [hp] at h
      exact move_of_handle hp h
  | crashed => simp [hp] at h
  | left => simp [hp] at h

/-! ## Every run -/

/-- The descriptors that the `for` loop still comes to. -/
def pending : Point → List ℤ
  | .handling event rest => (event :: rest).map Event.fd
  | _ => []

theorem pending_resume (rest : List Event) : pending (resume rest) = rest.map Event.fd := by
  cases rest with
  | nil => rfl
  | cons event rest => rfl

/-- `fd2Socket` holds the clients whose connections have not ended, each under its
descriptor, and every event is about the server or one of them. -/
structure Inv (s : Sys) : Prop where
  nonneg : ∀ fd ∈ s.openFds, 0 ≤ fd
  server : s.serverFd ∈ s.openFds ∧ s.epfd ≠ s.serverFd
  entry : ∀ k i, s.fd2Socket.find? k = some i → (∃ sock, s.sockets[i]? = some sock ∧ sock.fd = k) ∧
    k ∈ s.openFds ∧ k ≠ s.epfd ∧ k ≠ s.serverFd ∧ i ∉ s.ended
  listed : ∀ i ∈ s.socketMap.values, i < s.sockets.length
  ended : ∀ i ∈ s.ended, i < s.sockets.length
  live : ∀ i < s.sockets.length, i ∉ s.ended → i ∈ s.fd2Socket.values
  watched : ∀ fd ∈ s.watched, fd = s.serverFd ∨ fd ∈ s.fd2Socket.keys
  pending : ∀ fd ∈ pending s.point, fd = s.serverFd ∨ fd ∈ s.fd2Socket.keys
  once : (Epoll.pending s.point).Nodup
  /-- Only an `accept` closes `epfd`. -/
  epfd : s.serverFd ∈ Epoll.pending s.point → s.epfd ∈ s.openFds
  alive : s.point ≠ .crashed

theorem inv_of_started {s : Sys} (h : Started s) : Inv s where
  nonneg := h.openFds.2.2
  server := ⟨h.openFds.1, h.openFds.2.1⟩
  entry := by simp [h.fd2Socket, OrderedMap.find?, OrderedMap.empty]
  listed := by simp [h.socketMap, OrderedMap.values, OrderedMap.empty]
  ended := by simp [h.ended]
  live := by simp [h.sockets]
  watched := by simp [h.watched]
  pending := by simp [h.point, pending]
  once := by simp [h.point, pending]
  epfd := by simp [h.point, pending]
  alive := by simp [h.point]

/-- A step that only moves on. -/
theorem Inv.goto {s : Sys} (h : Inv s) {p : Point} (halive : p ≠ .crashed)
    (hpending : ∀ fd ∈ Epoll.pending p, fd = s.serverFd ∨ fd ∈ s.fd2Socket.keys)
    (honce : (Epoll.pending p).Nodup) (hepfd : s.serverFd ∈ Epoll.pending p → s.epfd ∈ s.openFds) :
    Inv { s with point := p } :=
  { h with pending := hpending, once := honce, epfd := hepfd, alive := halive }

theorem resume_ne_crashed (rest : List Event) : resume rest ≠ .crashed := by
  cases rest <;> simp [resume]

/-- The end of the body of the `for` loop. -/
theorem Inv.resume {s : Sys} (h : Inv s) {event : Event} {rest : List Event}
    (hp : s.point = .handling event rest) : Inv { s with point := resume rest } := by
  have hsub : ∀ fd ∈ rest.map Event.fd, fd ∈ Epoll.pending s.point := by
    intro fd hfd
    rw [hp]
    exact List.mem_cons_of_mem _ hfd
  apply h.goto (resume_ne_crashed rest)
  · intro fd hfd
    rw [pending_resume] at hfd
    exact h.pending fd (hsub fd hfd)
  · have honce := h.once
    rw [hp] at honce
    rw [pending_resume]
    exact (List.nodup_cons.mp honce).2
  · intro hserver
    rw [pending_resume] at hserver
    exact h.epfd (hsub _ hserver)

/-- The event at hand is none of the others. -/
theorem Inv.ne_of_pending {s : Sys} (h : Inv s) {event : Event} {rest : List Event}
    (hp : s.point = .handling event rest) {fd : ℤ} (hfd : fd ∈ Epoll.pending (Epoll.resume rest)) :
    fd ≠ event.fd := by
  have honce := h.once
  rw [hp] at honce
  rw [pending_resume] at hfd
  rintro rfl
  exact (List.nodup_cons.mp honce).1 hfd

/-- A new descriptor is not in the table. -/
theorem Inv.find?_eq_none {s : Sys} (h : Inv s) {fd : ℤ} (hnew : fd ∉ s.openFds) :
    s.fd2Socket.find? fd = none := by
  rw [Option.eq_none_iff_forall_ne_some]
  exact fun i hi => hnew (h.entry fd i hi).2.1

/-- The table after an `insert` under a new descriptor. -/
theorem Inv.find?_insert {s : Sys} (h : Inv s) {fd : ℤ} (hnew : fd ∉ s.openFds) (n : ℕ) (k : ℤ) :
    (s.fd2Socket.insert fd n).find? k = if k = fd then some n else s.fd2Socket.find? k := by
  rw [OrderedMap.find?_insert, h.find?_eq_none hnew]
  rfl

/-- No descriptor but the new one is opened. -/
theorem of_mem_openFds_accepted {s : Sys} {rest : List Event} {fd k : ℤ} {addr : Addr}
    {added : Bool} (hk : k ∈ (accepted s rest fd addr added).openFds) :
    k = fd ∨ k ∈ s.openFds := by
  unfold accepted at hk
  dsimp only at hk
  split_ifs at hk
  · exact Finset.mem_insert.mp hk
  · exact Finset.mem_insert.mp (Finset.mem_of_mem_erase hk)

/-- No descriptor but the new one is added to `epfd`. -/
theorem of_mem_watched_accepted {s : Sys} {rest : List Event} {fd k : ℤ} {addr : Addr}
    {added : Bool} (hk : k ∈ (accepted s rest fd addr added).watched) :
    k = fd ∨ k ∈ s.watched := by
  unfold accepted at hk
  dsimp only at hk
  split_ifs at hk
  · exact Finset.mem_insert.mp hk
  · exact Or.inr hk

/-- The open descriptors after an `accept`, which may close `epfd`. -/
theorem mem_openFds_accepted {s : Sys} {rest : List Event} {fd k : ℤ} {addr : Addr} {added : Bool}
    (hk : k ≠ s.epfd) :
    k ∈ (accepted s rest fd addr added).openFds ↔ k = fd ∨ k ∈ s.openFds := by
  unfold accepted
  dsimp only
  split_ifs
  · exact Finset.mem_insert
  · rw [Finset.mem_erase, Finset.mem_insert]
    exact and_iff_right hk

/-- The entries of the table after an `accept`. -/
theorem Inv.entry_accepted {s : Sys} (h : Inv s) {rest : List Event} {fd : ℤ} {addr : Addr}
    {added : Bool} (hnew : fd ∉ s.openFds) (hepfd : s.epfd ∈ s.openFds) {k : ℤ} {i : ℕ}
    (hi : (s.fd2Socket.insert fd s.sockets.length).find? k = some i) :
    (∃ sock, (s.sockets ++ [Socket.accepting fd addr])[i]? = some sock ∧ sock.fd = k) ∧
      k ∈ (Epoll.accepted s rest fd addr added).openFds ∧ k ≠ s.epfd ∧ k ≠ s.serverFd ∧
      i ∉ s.ended := by
  rw [h.find?_insert hnew] at hi
  split_ifs at hi with hk
  · obtain rfl := Option.some.inj hi
    subst hk
    have hne : k ≠ s.epfd := fun heq => hnew (heq ▸ hepfd)
    refine ⟨⟨Socket.accepting k addr, getElem?_concat_iff.mpr (Or.inr ⟨rfl, rfl⟩), rfl⟩,
      (mem_openFds_accepted hne).mpr (Or.inl rfl), hne,
      fun heq => hnew (heq ▸ h.server.1), fun hmem => ?_⟩
    exact absurd (h.ended _ hmem) (Nat.lt_irrefl _)
  · obtain ⟨⟨sock, hsock, hfdk⟩, hkopen, hkepfd, hrest⟩ := h.entry k i hi
    exact ⟨⟨sock, getElem?_concat_iff.mpr (Or.inl hsock), hfdk⟩,
      (mem_openFds_accepted hkepfd).mpr (Or.inr hkopen), hkepfd, hrest⟩

/-- **Step lemma** for a new connection. -/
theorem Inv.accepted {s : Sys} (h : Inv s) {event : Event} {rest : List Event} {fd : ℤ}
    {addr : Addr} {added : Bool} (hp : s.point = .handling event rest)
    (hserver : event.fd = s.serverFd) (hfd : 0 ≤ fd) (hnew : fd ∉ s.openFds) :
    Inv (accepted s rest fd addr added) := by
  have hnext := h.resume hp
  have hepfd : s.epfd ∈ s.openFds := by
    apply h.epfd
    rw [hp, ← hserver]
    exact List.mem_cons_self
  have hlate : s.serverFd ∉ Epoll.pending (Epoll.resume rest) := fun hmem =>
    h.ne_of_pending hp hmem hserver.symm
  have hkeys : ∀ {k}, k ∈ s.fd2Socket.keys → k ∈ (s.fd2Socket.insert fd s.sockets.length).keys :=
    fun hk => OrderedMap.mem_keys_insert.mpr (Or.inr hk)
  refine {
    nonneg := fun k hk => ?_, server := ⟨?_, h.server.2⟩,
    entry := fun k i hi => h.entry_accepted hnew hepfd hi, listed := fun i hi => ?_,
    ended := fun i hi => ?_, live := fun i hi hlive => ?_,
    watched := fun k hk => ?_, pending := fun k hk => ?_, once := hnext.once,
    epfd := fun hmem => absurd hmem hlate, alive := hnext.alive }
  · rcases of_mem_openFds_accepted hk with rfl | hk
    · exact hfd
    · exact h.nonneg k hk
  · exact (mem_openFds_accepted h.server.2.symm).mpr (Or.inr h.server.1)
  · show i < (s.sockets ++ [_]).length
    rw [List.length_append, List.length_singleton]
    rcases OrderedMap.mem_values_insert.mp hi with hold | ⟨-, rfl⟩
    · exact Nat.lt_succ_of_lt (h.listed i hold)
    · exact Nat.lt_succ_self _
  · show i < (s.sockets ++ [_]).length
    rw [List.length_append]
    exact Nat.lt_of_lt_of_le (h.ended i hi) (Nat.le_add_right _ _)
  · apply OrderedMap.mem_values_insert.mpr
    change i < (s.sockets ++ [_]).length at hi
    rw [List.length_append, List.length_singleton] at hi
    rcases Nat.lt_succ_iff_lt_or_eq.mp hi with hlt | rfl
    · exact Or.inl (h.live i hlt hlive)
    · refine Or.inr ⟨fun hmem => ?_, rfl⟩
      obtain ⟨j, hj⟩ := OrderedMap.mem_keys_iff.mp hmem
      exact hnew (h.entry fd j hj).2.1
  · rcases of_mem_watched_accepted hk with rfl | hk
    · exact Or.inr (OrderedMap.mem_keys_insert.mpr (Or.inl rfl))
    · exact (h.watched k hk).imp_right hkeys
  · exact (hnext.pending k hk).imp_right hkeys

/-- The entries of the table after the end of a connection. -/
theorem Inv.entry_closed {s : Sys} (h : Inv s) {fd : ℤ} {i : ℕ} {sock : Socket}
    (hsock : s.sockets[i]? = some sock) (hfd : sock.fd = fd) {k : ℤ} {j : ℕ}
    (hj : (s.fd2Socket.eraseFound fd).find? k = some j) :
    (∃ other, (s.sockets.set i (destroy sock))[j]? = some other ∧ other.fd = k) ∧
      k ∈ s.openFds.erase sock.fd ∧ k ≠ s.epfd ∧ k ≠ s.serverFd ∧ j ∉ s.ended ++ [i] := by
  rw [OrderedMap.find?_eraseFound] at hj
  split_ifs at hj with hk
  obtain ⟨⟨other, hother, hfdk⟩, hkopen, hkepfd, hkserver, hended⟩ := h.entry k j hj
  -- one socket is under one descriptor
  have hij : i ≠ j := by
    rintro rfl
    rw [hsock, Option.some.injEq] at hother
    subst hother
    exact hk (hfdk.symm.trans hfd)
  refine ⟨⟨other, ?_, hfdk⟩, ?_, hkepfd, hkserver, ?_⟩
  · rw [List.getElem?_set_ne hij]
    exact hother
  · rw [hfd]
    exact Finset.mem_erase.mpr ⟨hk, hkopen⟩
  · intro hmem
    rcases List.mem_append.mp hmem with hmem | hmem
    · exact hended hmem
    · exact hij (List.mem_singleton.mp hmem).symm

/-- **Step lemma** for the end of a connection. -/
theorem Inv.closed {s : Sys} (h : Inv s) {event : Event} {rest : List Event} {i : ℕ}
    {sock : Socket} (hp : s.point = .handling event rest)
    (hi : s.fd2Socket.find? event.fd = some i) (hsock : s.sockets[i]? = some sock) :
    Inv (closed s rest event.fd i sock) := by
  have hnext := h.resume hp
  obtain ⟨⟨sock', hsock', hfd⟩, hopen, hepfd, hserver, -⟩ := h.entry event.fd i hi
  obtain rfl : sock = sock' := Option.some.inj (hsock.symm.trans hsock')
  have hlt : i < s.sockets.length := (List.getElem?_eq_some_iff.mp hsock).1
  refine {
    nonneg := fun k hk => h.nonneg k (Finset.mem_of_mem_erase hk)
    server := ⟨?_, h.server.2⟩
    entry := fun k j hj => h.entry_closed hsock hfd hj
    listed := fun j hj => ?_
    ended := fun j hj => ?_
    live := fun j hj hlive => ?_
    watched := fun k hk => ?_
    pending := fun k hk => ?_
    once := hnext.once
    epfd := fun hmem => ?_
    alive := hnext.alive }
  · show s.serverFd ∈ s.openFds.erase sock.fd
    rw [hfd]
    exact Finset.mem_erase.mpr ⟨hserver.symm, h.server.1⟩
  · show j < (s.sockets.set i (destroy sock)).length
    rw [List.length_set]
    exact h.listed j hj
  · show j < (s.sockets.set i (destroy sock)).length
    rw [List.length_set]
    rcases List.mem_append.mp hj with hj | hj
    · exact h.ended j hj
    · rw [List.mem_singleton.mp hj]
      exact hlt
  · change j < (s.sockets.set i (destroy sock)).length at hj
    rw [List.length_set] at hj
    obtain ⟨k, hk⟩ := OrderedMap.mem_values_iff.mp
      (h.live j hj fun hmem => hlive (List.mem_append_left [i] hmem))
    refine OrderedMap.mem_values_iff.mpr ⟨k, ?_⟩
    show (s.fd2Socket.eraseFound event.fd).find? k = some j
    rw [OrderedMap.find?_eraseFound, if_neg, hk]
    rintro rfl
    rw [hi, Option.some.injEq] at hk
    exact hlive (List.mem_append_right s.ended (List.mem_singleton.mpr hk.symm))
  · change k ∈ (s.watched.erase event.fd).erase sock.fd at hk
    obtain ⟨hne, hmem⟩ := Finset.mem_erase.mp (Finset.mem_of_mem_erase hk)
    exact (h.watched k hmem).imp_right fun hkey =>
      OrderedMap.mem_keys_eraseFound.mpr ⟨hne, hkey⟩
  · exact (hnext.pending k hk).imp_right fun hkey =>
      OrderedMap.mem_keys_eraseFound.mpr ⟨h.ne_of_pending hp hk, hkey⟩
  · show s.epfd ∈ s.openFds.erase sock.fd
    rw [hfd]
    exact Finset.mem_erase.mpr ⟨hepfd.symm, hnext.epfd hmem⟩

/-- **Step lemma.** -/
theorem Inv.move {s t : Sys} {a : Label} (h : Inv s) (hm : Move s a t) : Inv t := by
  have hquiet : ∀ p, p ≠ .crashed → Epoll.pending p = [] → Inv { s with point := p } := by
    intro p hp hnone
    exact h.goto hp (by simp [hnone]) (by simp [hnone]) (by simp [hnone])
  cases hm with
  | test running hp =>
      cases running with
      | false => exact hquiet .left (by simp) rfl
      | true => exact hquiet .epollWait (by simp) rfl
  | wait eventList hp hready =>
      obtain ⟨hepfd, -, honce, hwatched⟩ := hready
      apply h.goto (resume_ne_crashed eventList)
      · intro fd hfd
        rw [pending_resume] at hfd
        obtain ⟨event, hevent, rfl⟩ := List.mem_map.mp hfd
        exact h.watched event.fd (hwatched event hevent)
      · rwa [pending_resume]
      · exact fun _ => hepfd
  | waitFails interrupted hp =>
      cases interrupted with
      | false => exact hquiet .left (by simp) rfl
      | true => exact hquiet .head (by simp) rfl
  | skip event rest hp => exact h.resume hp
  | acceptNone event rest hp => exact h.resume hp
  | acceptLeaks event rest fd hp hfd =>
      have hnext := h.resume hp
      refine { hnext with
        nonneg := fun k hk => ?_, server := ⟨?_, h.server.2⟩, entry := fun k i hi => ?_,
        epfd := fun hmem => ?_ }
      · rcases Finset.mem_insert.mp hk with rfl | hk
        · exact hfd
        · exact h.nonneg k hk
      · exact Finset.mem_insert_of_mem h.server.1
      · obtain ⟨hsock, hopen, hrest⟩ := h.entry k i hi
        exact ⟨hsock, Finset.mem_insert_of_mem hopen, hrest⟩
      · exact Finset.mem_insert_of_mem (hnext.epfd hmem)
  | accept event rest fd addr added hp hserver hfd hnew => exact h.accepted hp hserver hfd hnew
  | nullptr event rest content hp hserver hnone =>
      -- the event is about a client that the table holds
      have hpending : event.fd ∈ Epoll.pending s.point := by
        rw [hp]
        exact List.mem_cons_self
      rcases h.pending event.fd hpending with heq | hkey
      · exact absurd heq hserver
      · obtain ⟨i, hi⟩ := OrderedMap.mem_keys_iff.mp hkey
        obtain ⟨⟨sock, hsock, -⟩, -⟩ := h.entry event.fd i hi
        exact absurd hsock (hnone i sock hi)
  | message event rest content hp hcontent => exact h.resume hp
  | disconnect event rest i sock hp hi hsock => exact h.closed hp hi hsock

/-- `fd2Socket` is right in every run. -/
theorem inv_of_reachable {ok : Sys → Label → Prop} {s : Sys} (h : system.Reachable ok s) :
    Inv s := by
  refine LTS.Reachable.induction (I := Inv) (fun s hs => inv_of_started hs) ?_ h
  intro s a t _ hs _ hstep
  exact hs.move (move_of_step hstep)

/-! ## The runs in which connections last -/

/-- Every client is in `socketMap`. -/
structure Lasting (s : Sys) : Prop where
  ended : s.ended = []
  entered : ∀ i < s.sockets.length, i ∈ s.socketMap.values

/-- **Step lemma.** -/
theorem Lasting.move {s t : Sys} {a : Label} (h : Lasting s) (hok : lasting s a)
    (hm : Move s a t) : Lasting t := by
  cases hm with
  | accept event rest fd addr added hp hserver hfd hnew =>
      refine ⟨h.ended, fun i hi => OrderedMap.mem_values_insert.mpr ?_⟩
      change i < (s.sockets ++ [_]).length at hi
      rw [List.length_append, List.length_singleton] at hi
      rcases Nat.lt_succ_iff_lt_or_eq.mp hi with hlt | rfl
      · exact Or.inl (h.entered i hlt)
      · exact Or.inr ⟨hok, rfl⟩
  | disconnect event rest i sock hp hi hsock => exact absurd rfl hok
  | _ => exact ⟨h.ended, h.entered⟩

theorem lasting_of_reachable {s : Sys} (h : system.Reachable lasting s) : Lasting s := by
  refine LTS.Reachable.induction (I := Lasting) (fun s hs => ?_) ?_ h
  · exact ⟨hs.ended, by simp [hs.sockets]⟩
  · intro s a t _ hs hok hstep
    exact hs.move hok (move_of_step hstep)

/-- What is in `fd2Socket` was accepted and has not ended. -/
theorem Inv.of_mem_values {s : Sys} (h : Inv s) {i : ℕ} (hi : i ∈ s.fd2Socket.values) :
    i < s.sockets.length ∧ i ∉ s.ended ∧
      ∃ sock, s.sockets[i]? = some sock ∧ sock.fd ∈ s.openFds := by
  obtain ⟨k, hk⟩ := OrderedMap.mem_values_iff.mp hi
  obtain ⟨⟨sock, hsock, hfd⟩, hopen, -, -, hlive⟩ := h.entry k i hk
  exact ⟨(List.getElem?_eq_some_iff.mp hsock).1, hlive, sock, hsock, hfd.symm ▸ hopen⟩

/-- As long as connections last the tables agree. -/
theorem agree_of_lasting {s : Sys} (h : system.Reachable lasting s) : Agree s := by
  have hinv := inv_of_reachable h
  have hlasting := lasting_of_reachable h
  have hlive : ∀ i < s.sockets.length, i ∈ s.fd2Socket.values := by
    intro i hi
    apply hinv.live i hi
    rw [hlasting.ended]
    exact List.not_mem_nil
  refine ⟨fun i => ⟨fun hi => ?_, fun hi => ?_⟩, fun i hi => ?_, fun i hi => ?_, fun i hi _ => ?_⟩
  · exact hlive i (hinv.listed i hi)
  · exact hlasting.entered i (hinv.of_mem_values hi).1
  · exact (hinv.of_mem_values (hlive i (hinv.listed i hi))).2.2
  · rw [hlasting.ended] at hi
    exact absurd hi List.not_mem_nil
  · exact ⟨hlasting.entered i hi, hlive i hi⟩

/-! ## The runs in which they do not -/

/-- `socketMap` has a client that is gone, or lacks one that is there, and no event at
hand can change that. -/
def Torn (s : Sys) : Prop :=
  (∃ i ∈ s.ended, i ∈ s.socketMap.values) ∨
    ∃ k i, s.fd2Socket.find? k = some i ∧ i ∉ s.socketMap.values ∧
      k ∉ pending s.point ∧ s.point ≠ .epollWait

theorem Torn.not_agree {s : Sys} (h : Torn s) : ¬Agree s := by
  intro hagree
  rcases h with ⟨i, hended, hi⟩ | ⟨k, i, hk, hi, -⟩
  · exact (hagree.ended i hended).1 hi
  · exact hi ((hagree.same i).mpr (OrderedMap.mem_values_iff.mpr ⟨k, hk⟩))

theorem resume_ne_epollWait (rest : List Event) : resume rest ≠ .epollWait := by
  cases rest <;> simp [resume]

/-- A client that is not in `socketMap` stays like that up to the end of the batch. -/
theorem Torn.resume {s : Sys} (h : Torn s) {event : Event} {rest : List Event}
    (hp : s.point = .handling event rest) : Torn { s with point := Epoll.resume rest } := by
  refine h.imp id ?_
  rintro ⟨k, i, hk, hi, hpending, -⟩
  refine ⟨k, i, hk, hi, fun hmem => hpending ?_, resume_ne_epollWait rest⟩
  rw [pending_resume] at hmem
  rw [hp]
  exact List.mem_cons_of_mem _ hmem

/-- **Step lemma.**  The damage lasts up to the head of the loop. -/
theorem Torn.move {s t : Sys} {a : Label} (h : Torn s) (hinv : Inv s) (hhead : s.point ≠ .head)
    (hm : Move s a t) : Torn t := by
  cases hm with
  | test running hp => exact absurd hp hhead
  | wait eventList hp | waitFails interrupted hp =>
      rcases h with hended | ⟨k, i, -, -, -, hwait⟩
      · exact Or.inl hended
      · exact absurd hp hwait
  | skip event rest hp | acceptNone event rest hp | message event rest content hp =>
      exact h.resume hp
  | acceptLeaks event rest fd hp =>
      rcases h.resume hp with hended | htable
      · exact Or.inl hended
      · exact Or.inr htable
  | accept event rest fd addr added hp hserver hfd hnew =>
      rcases h.resume hp with ⟨i, hended, hi⟩ | ⟨k, i, hk, hi, hpending⟩
      · exact Or.inl ⟨i, hended, OrderedMap.mem_values_insert.mpr (Or.inl hi)⟩
      · refine Or.inr ⟨k, i, ?_, fun hmem => ?_, hpending⟩
        · show (s.fd2Socket.insert fd s.sockets.length).find? k = some i
          rw [hinv.find?_insert hnew, if_neg, hk]
          rintro rfl
          exact hnew (hinv.entry k i hk).2.1
        · have hlt := (hinv.of_mem_values (OrderedMap.mem_values_iff.mpr ⟨k, hk⟩)).1
          rcases OrderedMap.mem_values_insert.mp hmem with hold | ⟨-, rfl⟩
          · exact hi hold
          · exact Nat.lt_irrefl _ hlt
  | nullptr event rest content hp hserver hnone =>
      exact absurd rfl (hinv.move (Move.nullptr event rest content hp hserver hnone)).alive
  | disconnect event rest j sock hp hj hsock =>
      rcases h with ⟨i, hended, hi⟩ | ⟨k, i, hk, hi, hpending, -⟩
      · exact Or.inl ⟨i, List.mem_append_left [j] hended, hi⟩
      · rw [hp] at hpending
        refine Or.inr ⟨k, i, ?_, hi, fun hmem => hpending ?_, resume_ne_epollWait rest⟩
        · show (s.fd2Socket.eraseFound event.fd).find? k = some i
          rw [OrderedMap.find?_eraseFound, if_neg, hk]
          rintro rfl
          exact hpending List.mem_cons_self
        · change k ∈ pending (Epoll.resume rest) at hmem
          rw [pending_resume] at hmem
          exact List.mem_cons_of_mem _ hmem

/-- The first connection that ends, or address that comes back, tears the tables. -/
theorem torn_of_not_lasting {s t : Sys} {a : Label} (hinv : Inv s) (hlasting : Lasting s)
    (hnot : ¬lasting s a) (hm : Move s a t) : Torn t := by
  cases hm with
  | accept event rest fd addr added hp hserver hfd hnew =>
      have hkey := not_not.mp hnot
      have hmap : (accepted s rest fd addr added).socketMap = s.socketMap :=
        OrderedMap.insert_of_mem hkey
      refine Or.inr ⟨fd, s.sockets.length, ?_, fun hmem => ?_, fun hmem => ?_, ?_⟩
      · show (s.fd2Socket.insert fd s.sockets.length).find? fd = _
        rw [hinv.find?_insert hnew, if_pos rfl]
      · rw [hmap] at hmem
        exact Nat.lt_irrefl _ (hinv.listed _ hmem)
      · rcases (hinv.resume hp).pending fd hmem with rfl | hfd'
        · exact hnew hinv.server.1
        · obtain ⟨i, hi⟩ := OrderedMap.mem_keys_iff.mp hfd'
          exact hnew (hinv.entry fd i hi).2.1
      · exact resume_ne_epollWait rest
  | message event rest content hp hcontent => exact absurd hcontent hnot
  | nullptr event rest content hp hserver hnone =>
      exact absurd rfl (hinv.move (Move.nullptr event rest content hp hserver hnone)).alive
  | disconnect event rest i sock hp hi hsock =>
      refine Or.inl ⟨i, List.mem_append_right s.ended (List.mem_singleton.mpr rfl), ?_⟩
      exact hlasting.entered i (List.getElem?_eq_some_iff.mp hsock).1
  | _ => exact absurd trivial hnot

/-! ## The exact condition -/

/-- **The two tables agree** at every head of the loop exactly in the runs in which no
connection ends and no address comes back. -/
theorem tables_agree_iff {r s : Sys} {as : List Label} (hr : Started r)
    (h : system.Path (fun _ _ => True) r as s) (hs : s.point = .head) :
    (∀ bs t, bs <+: as → system.Path (fun _ _ => True) r bs t → t.point = .head → Agree t) ↔
      system.Path lasting r as s := by
  refine LTS.Path.checkpoints_iff (B := Torn) hr h hs ?_ ?_ ?_ ?_
  · exact fun t ht _ => agree_of_lasting ht
  · intro s a t hreach _ hnot hstep
    exact torn_of_not_lasting (inv_of_reachable hreach) (lasting_of_reachable hreach) hnot
      (move_of_step hstep)
  · intro s a t hreach htorn hhead _ hstep
    exact htorn.move (inv_of_reachable hreach) hhead (move_of_step hstep)
  · exact fun t ht _ => ht.not_agree

/-- A server that listens on `3`, with `4` for `epfd`. -/
def fresh : Sys := ⟨3, 4, [], OrderedMap.empty, OrderedMap.empty, {3, 4}, {3}, [], .head⟩

theorem started_fresh : Started fresh :=
  ⟨rfl, rfl, rfl, rfl, ⟨by decide, by decide, by decide⟩, rfl, rfl⟩

/-- A client connects and sends a byte. -/
def messageRun : List Label :=
  [.test true, .wait [⟨1, 3⟩], .accept 5 ⟨127, 0, 0, 1, 4000⟩ true, .test true, .wait [⟨1, 5⟩],
    .receive [104]]

/-- `tables_agree_iff` at the run of one message. -/
theorem tables_agree_message : ∃ s,
    (∀ bs t, bs <+: messageRun → system.Path (fun _ _ => True) fresh bs t → t.point = .head →
      Agree t) ↔ system.Path lasting fresh messageRun s :=
  ⟨_, tables_agree_iff started_fresh
    (LTS.path_of_exec (show LTS.exec _ _ _ messageRun = some _ from rfl)) rfl⟩

/-- A client connects and disconnects. -/
def disconnectRun : List Label :=
  [.test true, .wait [⟨1, 3⟩], .accept 5 ⟨127, 0, 0, 1, 4000⟩ true, .test true, .wait [⟨1, 5⟩],
    .receive []]

/-- The client stays in `socketMap`. -/
theorem client_stays :
    ¬∀ s, system.Reachable (fun _ _ => True) s → s.point = .head → Agree s := by
  intro hall
  have hreach : system.Reachable (fun _ _ => True) _ := LTS.reachable_of_exec started_fresh
    (show LTS.exec _ _ _ disconnectRun = some _ from rfl)
  have hagree := hall _ hreach rfl
  exact absurd (hagree.ended 0 (by decide)).1 (by decide)

end Epoll
