/-
# The events of the io thread (`Epoll::receive` in `tcppipe.hpp`)

`Epoll::receive` looks an event's descriptor up with `fd2Socket[fd]` and goes through the
pointer without a test.  `socket_of_event` says that the pointer is never null and that it
is the socket of that very descriptor: at every position of a batch, whatever the events
before it have accepted or closed.

`run` can be called again after it has returned.  It makes another `epfd`, which watches
the listening socket only; `fd2Socket` is still there from before.
-/
import CppShared.TcpPipeEpoll

namespace Epoll

/-! ## Calling `run` again -/

/-- How the lines of `run` in front of the loop end. -/
inductive Created
  /-- `epoll_create1` fails. -/
  | fails
  /-- `epoll_ctl` fails for the listening socket, and the new descriptor is closed. -/
  | unwatched (fd : ℤ)
  | watches (fd : ℤ)
  deriving DecidableEq, Repr

/-- The lines of `run` in front of the loop. -/
def enter (s : Sys) : Created → Option Sys
  | .fails => some { s with epfd := -1 }
  | .unwatched fd => if 0 ≤ fd ∧ fd ∉ s.openFds then some { s with epfd := fd } else none
  | .watches fd =>
      if 0 ≤ fd ∧ fd ∉ s.openFds then
        some { s with
          epfd := fd
          openFds := insert fd s.openFds
          watched := {s.serverFd}
          point := .head }
      else none

/-- What the io thread does next. -/
inductive Action
  /-- `run` is called again. -/
  | run (created : Created)
  /-- The loop goes on. -/
  | loop (a : Label)
  deriving DecidableEq

/-- The io thread from the first time it enters the loop on. -/
def sessions : LTS Sys Action where
  init := Started
  step s
    | .run created => if s.point = .left then enter s created else none
    | .loop a => step s a

/-! ## The tables from run to run -/

/-- Outside of the loop `epfd` may be any descriptor that is not open. -/
theorem Inv.setEpfd {s : Sys} (h : Inv s) (hp : s.point = .left) {fd : ℤ}
    (hfd : fd ∉ s.openFds) : Inv { s with epfd := fd } := by
  have hne : ∀ k ∈ s.openFds, k ≠ fd := fun k hk heq => hfd (heq ▸ hk)
  refine { h with server := ⟨h.server.1, (hne _ h.server.1).symm⟩, entry := ?_, epfd := ?_ }
  · intro k i hi
    obtain ⟨hsock, hopen, -, hserver, hended⟩ := h.entry k i hi
    exact ⟨hsock, hopen, hne k hopen, hserver, hended⟩
  · show s.serverFd ∈ Epoll.pending s.point → _
    rw [hp]
    exact fun hmem => absurd hmem List.not_mem_nil

/-- **Step lemma** for another call of `run`. -/
theorem Inv.enter {s t : Sys} (h : Inv s) (hp : s.point = .left) {created : Created}
    (hstep : enter s created = some t) : Inv t := by
  cases created with
  | fails =>
      obtain rfl := Option.some.inj hstep
      exact h.setEpfd hp fun hmem => absurd (h.nonneg _ hmem) (by decide)
  | unwatched fd =>
      obtain ⟨⟨-, hnew⟩, hstep⟩ := Option.ite_none_right_eq_some.mp hstep
      obtain rfl := Option.some.inj hstep
      exact h.setEpfd hp hnew
  | watches fd =>
      obtain ⟨⟨hpos, hnew⟩, hstep⟩ := Option.ite_none_right_eq_some.mp hstep
      obtain rfl := Option.some.inj hstep
      have hnext := h.setEpfd hp hnew
      refine { hnext with
        nonneg := fun k hk => ?_
        server := ⟨Finset.mem_insert_of_mem hnext.server.1, hnext.server.2⟩
        entry := fun k i hi => ?_
        watched := fun k hk => Or.inl (Finset.mem_singleton.mp hk)
        pending := fun k hk => absurd hk List.not_mem_nil
        once := List.nodup_nil
        epfd := fun hmem => absurd hmem List.not_mem_nil
        alive := by simp }
      · rcases Finset.mem_insert.mp hk with rfl | hk
        · exact hpos
        · exact h.nonneg k hk
      · obtain ⟨hsock, hopen, hrest⟩ := hnext.entry k i hi
        exact ⟨hsock, Finset.mem_insert_of_mem hopen, hrest⟩

theorem inv_of_sessions {ok : Sys → Action → Prop} {s : Sys} (h : sessions.Reachable ok s) :
    Inv s := by
  refine LTS.Reachable.induction (I := Inv) (fun s hs => inv_of_started hs) ?_ h
  intro s a t _ hs _ hstep
  cases a with
  | run created =>
      obtain ⟨hp, hstep⟩ := Option.ite_none_right_eq_some.mp hstep
      exact hs.enter hp hstep
  | loop a => exact hs.move (move_of_step hstep)

/-! ## Main result -/

/-- The socket that `fd2Socket[fd]` gives. -/
def socketOf (s : Sys) (fd : ℤ) : Option Socket :=
  (s.fd2Socket.find? fd).bind fun i => s.sockets[i]?

theorem Inv.socketOf_of_mem {s : Sys} (h : Inv s) {fd : ℤ} (hfd : fd ∈ s.fd2Socket.keys) :
    ∃ sock, socketOf s fd = some sock ∧ sock.fd = fd := by
  obtain ⟨i, hi⟩ := OrderedMap.mem_keys_iff.mp hfd
  obtain ⟨⟨sock, hsock, heq⟩, -⟩ := h.entry fd i hi
  exact ⟨sock, by rw [socketOf, hi, Option.bind_some, hsock], heq⟩

/-- **`receive` always finds its socket.**  In every run of the loop, the event at hand,
unless it is about the listening socket, has a descriptor that is a key of `fd2Socket`, and
under every key of `fd2Socket` there is a socket with that descriptor; no null pointer was
ever taken out of the table or left in it. -/
theorem socket_of_event {s : Sys} (h : sessions.Reachable (fun _ _ => True) s) :
    (∀ event rest, s.point = .handling event rest → event.events = epollIn →
      event.fd ≠ s.serverFd →
        event.fd ∈ s.fd2Socket.keys ∧
          ∃ sock, socketOf s event.fd = some sock ∧ sock.fd = event.fd) ∧
      (∀ fd ∈ s.fd2Socket.keys, ∃ sock, socketOf s fd = some sock ∧ sock.fd = fd) ∧
      s.point ≠ .crashed := by
  have hs := inv_of_sessions h
  refine ⟨fun event rest hp _ hserver => ?_, fun fd => hs.socketOf_of_mem, hs.alive⟩
  have hpending : event.fd ∈ pending s.point := by
    rw [hp]
    exact List.mem_cons_self
  rcases hs.pending event.fd hpending with heq | hkey
  · exact absurd heq hserver
  · exact ⟨hkey, hs.socketOf_of_mem hkey⟩

/-- A client leaves and a new one gets its descriptor in one batch; then `run` is called
again, and another client has sent something. -/
def reuseRun : List Action :=
  [.loop (.test true), .loop (.wait [⟨1, 3⟩]), .loop (.accept 5 ⟨127, 0, 0, 1, 4000⟩ true),
    .loop (.test true), .loop (.wait [⟨1, 5⟩, ⟨1, 3⟩]), .loop (.receive []),
    .loop (.accept 5 ⟨127, 0, 0, 1, 4001⟩ true), .loop (.test false), .run (.watches 6),
    .loop (.test true), .loop (.wait [⟨1, 3⟩]), .loop (.accept 7 ⟨127, 0, 0, 1, 4002⟩ true),
    .loop (.test true), .loop (.wait [⟨1, 7⟩])]

/-- `socket_of_event` at that run. -/
theorem socket_of_event_reuse : ∃ s : Sys,
    s.fd2Socket.keys = [5, 7] ∧ ∃ sock, socketOf s 7 = some sock ∧ sock.fd = 7 := by
  have hreach : sessions.Reachable (fun _ _ => True) _ :=
    LTS.reachable_of_exec started_fresh
      (show LTS.exec _ _ fresh reuseRun = some _ from rfl)
  exact ⟨_, rfl, ((socket_of_event hreach).1 ⟨1, 7⟩ [] rfl rfl (by decide)).2⟩

end Epoll
