/-
# The receive loop of the select server (`class Select` in `tcppipe.hpp`)

`Select::run` accepts clients and enters them into `socketMap` by their address;
`Select::receive`, in a thread of its own, walks over the table again and again and polls
each client with `select`.  When a client has disconnected (`recvMessage` gives nothing) it
destroys the socket and leaves the entry: the next pass polls the descriptor `-1`, `select`
fails and the thread returns for good.  `Epoll::receive` takes such a client out of its
table.

The steps of the two threads are interleaved.  They share `socketMap` without a lock: an
insertion, and a step of the iterator, are taken to be one step each.  The descriptor of a
socket is open until the socket is destroyed, and `select` fails on a closed descriptor only.  A
client is known by its position in the list of the accepted sockets.

`polls_iff` says that the server keeps polling exactly as long as, whenever a pass begins,
the table holds the clients that are connected and no others.  So it does in particular if no
pass begins behind a disconnect and no two clients have one address (`current_of_inputs`).
-/
import CppShared.TcpPipeEpoll

open Epoll (getAddress destroy)

namespace Select

/-! ## The two threads -/

/-- Where the receive thread is; an iterator is the entry it designates. -/
inductive Point
  /-- At `while (isRunning.load())`. -/
  | head
  /-- At the test `it != socketMap.end()`. -/
  | walking (it : Option (Str × ℕ))
  | selecting (it : Str × ℕ)
  /-- In `recvMessage`. -/
  | receiving (it : Str × ℕ)
  /-- At `it++`. -/
  | advancing (it : Str × ℕ)
  /-- `select` has failed. -/
  | returned
  | left
  deriving DecidableEq, Repr

/-- The server.  `socketMap` holds positions in `sockets`. -/
structure Sys where
  isRunning : Bool
  /-- `run` is in its loop. -/
  serving : Bool
  /-- The sockets that `accepting` made, in their order. -/
  sockets : List Socket
  socketMap : OrderedMap Str ℕ
  point : Point
  /-- The clients that were connected when the pass began. -/
  due : List ℕ
  /-- The clients that `select` was called for in the pass. -/
  polled : List ℕ
  /-- A destroyed socket was passed to `select`. -/
  misused : Bool

/-- A step of one of the threads. -/
inductive Label
  /-- The test at the head of the outer loop. -/
  | test
  /-- The test or the increment of the inner loop. -/
  | next
  /-- `select` on an open descriptor has something to read, or times out. -/
  | select (ready : Bool)
  /-- What `recvMessage` returns. -/
  | recv (content : Str)
  /-- `accepting` gives a socket to `run`. -/
  | accept (fd : ℤ) (addr : Addr)
  /-- `run` leaves its loop. -/
  | runEnds
  /-- The destructor clears `isRunning`. -/
  | stop
  deriving DecidableEq

/-- The client has been accepted and its socket has not been destroyed. -/
def Sys.connected (s : Sys) (i : ℕ) : Bool := (s.sockets[i]?).any fun sock => sock.fd ≠ -1

/-- `run` enters a new client, or has no room for it and returns. -/
def accept (fdSetSize : ℕ) (s : Sys) (fd : ℤ) (addr : Addr) : Sys :=
  let newSocket := Socket.accepting fd addr
  if s.socketMap.entries.length > fdSetSize then
    { s with sockets := s.sockets ++ [destroy newSocket], serving := false }
  else
    { s with
      sockets := s.sockets ++ [newSocket]
      socketMap := s.socketMap.insert (getAddress newSocket) s.sockets.length }

/-- A step of `receive`. -/
def receive (s : Sys) : Point → Label → Option Sys
  | .head, .test =>
      if s.isRunning then
        some { s with
          point := .walking s.socketMap.first?
          due := (List.range s.sockets.length).filter s.connected
          polled := [] }
      else some { s with point := .left }
  | .walking none, .next => some { s with point := .head }
  | .walking (some it), .next =>
      some { s with point := .selecting it, misused := s.misused || !s.connected it.2 }
  | .selecting it, .select ready =>
      if s.connected it.2 then
        some { s with
          polled := s.polled ++ [it.2]
          point := if ready then .receiving it else .advancing it }
      else some { s with point := .returned }
  | .receiving it, .recv content =>
      if content = [] then
        some { s with
          sockets := s.sockets.modify it.2 destroy
          point := .advancing it }
      else some { s with point := .advancing it }
  | .advancing it, .next => some { s with point := .walking (s.socketMap.next? it.1) }
  | _, _ => none

/-- One step. -/
def step (fdSetSize : ℕ) (s : Sys) : Label → Option Sys
  | .accept fd addr => if s.serving ∧ fd ≠ -1 then some (accept fdSetSize s fd addr) else none
  | .runEnds => if s.serving then some { s with serving := false } else none
  | .stop => some { s with isRunning := false }
  | .test => receive s s.point .test
  | .next => receive s s.point .next
  | .select ready => receive s s.point (.select ready)
  | .recv content => receive s s.point (.recv content)

/-- `run` has just created the receive thread. -/
def fresh : Sys where
  isRunning := true
  serving := true
  sockets := []
  socketMap := OrderedMap.empty
  point := .head
  due := []
  polled := []
  misused := false

/-- The server, its clients and the kernel. -/
def system (fdSetSize : ℕ) : LTS Sys Label where
  init s := s = fresh
  step := step fdSetSize

/-- The effect of a step, case by case. -/
inductive Move (fdSetSize : ℕ) (s : Sys) : Label → Sys → Prop
  | begun (hp : s.point = .head) (hrun : s.isRunning = true) :
      Move fdSetSize s .test
        { s with
          point := .walking s.socketMap.first?
          due := (List.range s.sockets.length).filter s.connected
          polled := [] }
  | finished (hp : s.point = .head) (hrun : s.isRunning = false) :
      Move fdSetSize s .test { s with point := .left }
  | passEnd (hp : s.point = .walking none) : Move fdSetSize s .next { s with point := .head }
  | entered (it : Str × ℕ) (hp : s.point = .walking (some it)) :
      Move fdSetSize s .next
        { s with point := .selecting it, misused := s.misused || !s.connected it.2 }
  | polled (it : Str × ℕ) (ready : Bool) (hp : s.point = .selecting it)
      (hconnected : s.connected it.2 = true) :
      Move fdSetSize s (.select ready)
        { s with
          polled := s.polled ++ [it.2]
          point := if ready then .receiving it else .advancing it }
  | failed (it : Str × ℕ) (ready : Bool) (hp : s.point = .selecting it)
      (hconnected : s.connected it.2 = false) :
      Move fdSetSize s (.select ready) { s with point := .returned }
  | message (it : Str × ℕ) (content : Str) (hp : s.point = .receiving it) :
      Move fdSetSize s (.recv content) { s with point := .advancing it }
  | disconnected (it : Str × ℕ) (hp : s.point = .receiving it) :
      Move fdSetSize s (.recv [])
        { s with sockets := s.sockets.modify it.2 destroy, point := .advancing it }
  | advanced (it : Str × ℕ) (hp : s.point = .advancing it) :
      Move fdSetSize s .next { s with point := .walking (s.socketMap.next? it.1) }
  | refused (fd : ℤ) (addr : Addr) :
      Move fdSetSize s (.accept fd addr)
        { s with sockets := s.sockets ++ [destroy (.accepting fd addr)], serving := false }
  | accepted (fd : ℤ) (addr : Addr) (hfd : fd ≠ -1) :
      Move fdSetSize s (.accept fd addr)
        { s with
          sockets := s.sockets ++ [.accepting fd addr]
          socketMap := s.socketMap.insert (getAddress (.accepting fd addr)) s.sockets.length }
  | runEnds : Move fdSetSize s .runEnds { s with serving := false }
  | stopped : Move fdSetSize s .stop { s with isRunning := false }

theorem move_of_receive {fdSetSize : ℕ} {s t : Sys} {a : Label}
    (h : receive s s.point a = some t) : Move fdSetSize s a t := by
  generalize hp : s.point = p at h
  unfold receive at h
  split at h
  · by_cases hrun : s.isRunning = true
    · rw [if_pos hrun] at h
      obtain rfl := Option.some.inj h
      exact .begun hp hrun
    · rw [if_neg hrun] at h
      obtain rfl := Option.some.inj h
      exact .finished hp (Bool.eq_false_iff.mpr hrun)
  · obtain rfl := Option.some.inj h
    exact .passEnd hp
  · next it =>
      obtain rfl := Option.some.inj h
      exact .entered it hp
  · next it ready =>
      by_cases hconnected : s.connected it.2 = true
      · rw [if_pos hconnected] at h
        obtain rfl := Option.some.inj h
        exact .polled it ready hp hconnected
      · rw [if_neg hconnected] at h
        obtain rfl := Option.some.inj h
        exact .failed it ready hp (Bool.eq_false_iff.mpr hconnected)
  · next it content =>
      split_ifs at h with hcontent
      · obtain rfl := Option.some.inj h
        subst hcontent
        exact .disconnected it hp
      · obtain rfl := Option.some.inj h
        exact .message it content hp
  · next it =>
      obtain rfl := Option.some.inj h
      exact .advanced it hp
  · exact absurd h (by simp)

/-- **Step inversion.** -/
theorem move_of_step {fdSetSize : ℕ} {s t : Sys} {a : Label} (h : step fdSetSize s a = some t) :
    Move fdSetSize s a t := by
  cases a with
  | accept fd addr =>
      obtain ⟨⟨-, hfd⟩, h⟩ := Option.ite_none_right_eq_some.mp h
      obtain rfl := Option.some.inj h
      unfold accept
      dsimp only
      split_ifs
      · exact .refused fd addr
      · exact .accepted fd addr hfd
  | runEnds =>
      obtain ⟨-, h⟩ := Option.ite_none_right_eq_some.mp h
      obtain rfl := Option.some.inj h
      exact .runEnds
  | stop =>
      obtain rfl := Option.some.inj h
      exact .stopped
  | test | next | select | recv => exact move_of_receive h

/-! ## Every run -/

/-- The entry that the thread is at. -/
def Point.entry : Point → Option (Str × ℕ)
  | .walking it => it
  | .selecting it | .receiving it | .advancing it => some it
  | .head | .returned | .left => none

/-- The thread still comes to `select` for an entry with this key. -/
def Point.ahead : Point → Str → Prop
  | .walking (some it), k => it.1 ≤ k
  | .selecting it, k | .receiving it, k | .advancing it, k => it.1 < k
  | _, _ => False

/-- No pass is going on. -/
def Point.outside : Point → Bool
  | .head | .returned | .left => true
  | _ => false

theorem not_ahead_of_outside {p : Point} (hout : p.outside = true) (k : Str) : ¬p.ahead k := by
  cases p with
  | head | returned | left => exact id
  | walking | selecting | receiving | advancing => exact absurd hout Bool.noConfusion

/-- The table gives each client under its address, and the iterator is valid. -/
structure Inv (s : Sys) : Prop where
  key : ∀ k i, s.socketMap.find? k = some i →
    ∃ sock, s.sockets[i]? = some sock ∧ getAddress sock = k
  entry : ∀ it, s.point.entry = some it → s.socketMap.find? it.1 = some it.2
  flag : ∀ it, s.point = .selecting it → s.connected it.2 = false → s.misused = true

/-- One client has one entry. -/
theorem Inv.unique {s : Sys} (h : Inv s) {j k : Str} {i : ℕ} (hj : s.socketMap.find? j = some i)
    (hk : s.socketMap.find? k = some i) : j = k := by
  obtain ⟨sock, hsock, rfl⟩ := h.key j i hj
  obtain ⟨other, hother, rfl⟩ := h.key k i hk
  obtain rfl := Option.some.inj (hsock.symm.trans hother)
  rfl

theorem Inv.lt_length {s : Sys} (h : Inv s) {k : Str} {i : ℕ} (hk : s.socketMap.find? k = some i) :
    i < s.sockets.length := by
  obtain ⟨sock, hsock, -⟩ := h.key k i hk
  exact (List.getElem?_eq_some_iff.mp hsock).1

/-- Whether an old client is connected does not depend on a new one. -/
theorem connected_concat {s : Sys} {i : ℕ} (hi : i < s.sockets.length) (sock : Socket) (t : Sys)
    (ht : t.sockets = s.sockets ++ [sock]) : t.connected i = s.connected i := by
  rw [Sys.connected, Sys.connected, ht, List.getElem?_append_left hi]

/-- Who is connected after a socket is destroyed. -/
theorem connected_modify {s : Sys} {i j : ℕ} (t : Sys)
    (ht : t.sockets = s.sockets.modify j destroy) :
    t.connected i = (if j = i then false else s.connected i) := by
  rw [Sys.connected, Sys.connected, ht, List.getElem?_modify]
  split_ifs with hij
  · cases s.sockets[i]? with
    | none => rfl
    | some sock => rfl
  · simp

/-- **Step lemma.** -/
theorem Inv.move {fdSetSize : ℕ} {s t : Sys} {a : Label} (h : Inv s) (hm : Move fdSetSize s a t) :
    Inv t := by
  have hold : ∀ {k i sock}, s.socketMap.find? k = some i →
      ∃ c, (s.sockets ++ [sock])[i]? = some c ∧ getAddress c = k := by
    intro k i sock hk
    obtain ⟨c, hc, hkey⟩ := h.key k i hk
    exact ⟨c, getElem?_concat_iff.mpr (Or.inl hc), hkey⟩
  -- a new socket changes nothing for the one that is polled
  have hflag : ∀ {u : Sys} {sock : Socket}, u.sockets = s.sockets ++ [sock] →
      ∀ it, s.point = .selecting it → u.connected it.2 = false → s.misused = true := by
    intro u sock hu it hp hdead
    have hlt := h.lt_length (h.entry it (by rw [hp]; rfl))
    rw [connected_concat hlt sock u hu] at hdead
    exact h.flag it hp hdead
  cases hm with
  | begun hp hrun =>
      exact ⟨h.key, fun it hit => OrderedMap.find?_of_first? hit, by simp⟩
  | finished hp hrun | passEnd hp | failed it ready hp hconnected =>
      exact ⟨h.key, by simp [Point.entry], by simp⟩
  | entered it hp =>
      have hentry := h.entry it (by rw [hp]; rfl)
      refine ⟨h.key, fun it' hit => ?_, fun it' hit hdead => ?_⟩
      · obtain rfl := Option.some.inj hit
        exact hentry
      · obtain rfl := Point.selecting.inj hit
        replace hdead : s.connected it.2 = false := hdead
        simp [hdead]
  | message it content hp =>
      have hentry := h.entry it (by rw [hp]; rfl)
      refine ⟨h.key, fun it' hit => ?_, by simp⟩
      obtain rfl := Option.some.inj hit
      exact hentry
  | polled it ready hp hconnected =>
      have hentry := h.entry it (by rw [hp]; rfl)
      cases ready with
      | true | false =>
          refine ⟨h.key, fun it' hit => ?_, by simp⟩
          obtain rfl := Option.some.inj hit
          exact hentry
  | disconnected it hp =>
      have hentry := h.entry it (by rw [hp]; rfl)
      refine ⟨fun k i hk => ?_, fun it' hit => ?_, by simp⟩
      · obtain ⟨sock, hsock, hkey⟩ := h.key k i hk
        refine ⟨if it.2 = i then destroy sock else sock, ?_, ?_⟩
        · rw [List.getElem?_modify, hsock]
          split_ifs <;> rfl
        · rw [← hkey]
          split_ifs <;> rfl
      · obtain rfl := Option.some.inj hit
        exact hentry
  | advanced it hp =>
      exact ⟨h.key, fun it' hit => (OrderedMap.find?_of_next? hit).1, by simp⟩
  | refused fd addr => exact ⟨fun k i hk => hold hk, h.entry, hflag rfl⟩
  | accepted fd addr hfd =>
      refine ⟨fun k i hk => ?_, fun it hit => OrderedMap.find?_insert_of_find? (h.entry it hit),
        hflag rfl⟩
      rcases OrderedMap.of_find?_insert hk with hk | ⟨rfl, rfl⟩
      · exact hold hk
      · exact ⟨_, getElem?_concat_iff.mpr (Or.inr ⟨rfl, rfl⟩), rfl⟩
  | runEnds | stopped => exact ⟨h.key, h.entry, h.flag⟩

theorem inv_of_reachable {fdSetSize : ℕ} {ok : Sys → Label → Prop} {s : Sys}
    (h : (system fdSetSize).Reachable ok s) : Inv s := by
  refine LTS.Reachable.induction (I := Inv) ?_ ?_ h
  · rintro _ rfl
    exact ⟨by simp [fresh, OrderedMap.find?, OrderedMap.empty], by simp [fresh, Point.entry],
      by simp [fresh]⟩
  · intro s a t _ hs _ hstep
    exact hs.move (move_of_step hstep)

/-! ## The way of the iterator -/

/-- At the beginning the whole table is ahead. -/
theorem ahead_first? {m : OrderedMap Str ℕ} {k : Str} {i : ℕ} (hk : m.find? k = some i) :
    (Point.walking m.first?).ahead k := by
  have hmem := OrderedMap.mem_of_find? hk
  cases hfirst : m.first? with
  | none =>
      rw [OrderedMap.first?, List.head?_eq_none_iff] at hfirst
      rw [hfirst] at hmem
      exact absurd hmem List.not_mem_nil
  | some it => exact OrderedMap.le_of_first? hfirst hmem

/-- The increment leaves what is ahead. -/
theorem ahead_next? {m : OrderedMap Str ℕ} {it : Str × ℕ} {k : Str} {i : ℕ}
    (hk : m.find? k = some i) :
    (Point.walking (m.next? it.1)).ahead k ↔ (Point.advancing it).ahead k := by
  have hmem := OrderedMap.mem_of_find? hk
  cases hnext : m.next? it.1 with
  | none =>
      have hle := OrderedMap.le_of_next?_eq_none hnext hmem
      exact iff_of_false id (not_lt.mpr hle)
  | some it' =>
      have hlt := (OrderedMap.find?_of_next? hnext).2
      constructor
      · exact fun hle => lt_of_lt_of_le hlt hle
      · intro hgt
        by_contra hle
        exact absurd (OrderedMap.le_of_next? hnext hmem (not_le.mp hle)) (not_le.mpr hgt)

/-! ## The property and the condition -/

/-- No destroyed socket was passed to `select`, the thread has not returned from a `select`
that failed, and the last pass has polled every client that was connected when it began. -/
structure Polling (s : Sys) : Prop where
  clean : s.misused = false
  running : s.point ≠ .returned
  polled : ∀ i ∈ s.due, i ∈ s.polled

/-- When a pass begins, the table holds the clients that are connected and no others. -/
def tableCurrent (s : Sys) : Label → Prop
  | .test => s.isRunning = true →
      ∀ i < s.sockets.length, (s.connected i = true ↔ i ∈ s.socketMap.values)
  | _ => True

instance (s : Sys) (a : Label) : Decidable (tableCurrent s a) :=
  match a with
  | .test =>
      inferInstanceAs (Decidable (s.isRunning = true →
        ∀ i < s.sockets.length, (s.connected i = true ↔ i ∈ s.socketMap.values)))
  | .next | .select _ | .recv _ | .accept _ _ | .runEnds | .stop =>
      inferInstanceAs (Decidable True)

/-! ## The runs in which the table is current -/

/-- What is ahead is connected, and what was connected is polled or ahead. -/
structure Current (s : Sys) : Prop where
  clean : s.misused = false
  running : s.point ≠ .returned
  ahead : ∀ k i, s.point.ahead k → s.socketMap.find? k = some i → s.connected i = true
  selecting : ∀ it, s.point = .selecting it → s.connected it.2 = true
  due : ∀ i ∈ s.due, i ∈ s.polled ∨ (∃ k, s.socketMap.find? k = some i ∧ s.point.ahead k) ∨
    ∃ it, s.point = .selecting it ∧ it.2 = i

/-- Where nothing is ahead everything was polled. -/
theorem Current.polled {s : Sys} (h : Current s) (hahead : ∀ k, ¬s.point.ahead k)
    (hp : ∀ it, s.point ≠ .selecting it) : ∀ i ∈ s.due, i ∈ s.polled := by
  intro i hi
  rcases h.due i hi with hpolled | ⟨k, -, hk⟩ | ⟨it, hit, -⟩
  · exact hpolled
  · exact absurd hk (hahead k)
  · exact absurd hit (hp it)

/-- The thread moves on inside of a pass, with the same ahead. -/
theorem Current.goto {s : Sys} (h : Current s) {p : Point} (hp : ∀ it, s.point ≠ .selecting it)
    (hreturned : p ≠ .returned) (hselecting : ∀ it, p ≠ .selecting it)
    (hahead : ∀ k i, s.socketMap.find? k = some i → (p.ahead k ↔ s.point.ahead k)) :
    Current { s with point := p } := by
  refine ⟨h.clean, hreturned, fun k i hk hfind => ?_, fun it hit => absurd hit (hselecting it),
    fun i hi => ?_⟩
  · exact h.ahead k i ((hahead k i hfind).mp hk) hfind
  · rcases h.due i hi with hpolled | ⟨k, hfind, hk⟩ | ⟨it, hit, -⟩
    · exact Or.inl hpolled
    · exact Or.inr (Or.inl ⟨k, hfind, (hahead k i hfind).mpr hk⟩)
    · exact absurd hit (hp it)

/-- **Step lemma** for the beginning of a pass. -/
theorem Current.begin {s : Sys} (h : Current s) (hi : Inv s)
    (htable : ∀ i < s.sockets.length, (s.connected i = true ↔ i ∈ s.socketMap.values)) :
    Current { s with
      point := .walking s.socketMap.first?
      due := (List.range s.sockets.length).filter s.connected
      polled := [] } := by
  refine ⟨h.clean, by simp, fun k i _ hfind => ?_, by simp, fun i hdue => ?_⟩
  · exact (htable i (hi.lt_length hfind)).mpr (OrderedMap.mem_values_iff.mpr ⟨k, hfind⟩)
  · obtain ⟨hlt, hconnected⟩ := List.mem_filter.mp hdue
    obtain ⟨k, hfind⟩ := OrderedMap.mem_values_iff.mp
      ((htable i (List.mem_range.mp hlt)).mp hconnected)
    exact Or.inr (Or.inl ⟨k, hfind, ahead_first? hfind⟩)

/-- **Step lemma** for a new socket, which may get a place in the table. -/
theorem Current.accept {s t : Sys} (h : Current s) (hi : Inv s) {sock : Socket}
    (hsockets : t.sockets = s.sockets ++ [sock]) (hpoint : t.point = s.point)
    (hdue : t.due = s.due) (hpolled : t.polled = s.polled) (hmisused : t.misused = s.misused)
    (hkept : ∀ k i, s.socketMap.find? k = some i → t.socketMap.find? k = some i)
    (hnew : ∀ k i, t.socketMap.find? k = some i →
      s.socketMap.find? k = some i ∨ t.connected i = true) : Current t := by
  have hconnected : ∀ {k i}, s.socketMap.find? k = some i → t.connected i = s.connected i :=
    fun hfind => connected_concat (hi.lt_length hfind) sock t hsockets
  refine ⟨by rw [hmisused]; exact h.clean, by rw [hpoint]; exact h.running, ?_, ?_, ?_⟩
  · intro k i hk hfind
    rw [hpoint] at hk
    rcases hnew k i hfind with hold | hconnected'
    · rw [hconnected hold]
      exact h.ahead k i hk hold
    · exact hconnected'
  · intro it hit
    rw [hpoint] at hit
    rw [hconnected (hi.entry it (by rw [hit]; rfl))]
    exact h.selecting it hit
  · intro i hmem
    rw [hdue] at hmem
    rw [hpolled, hpoint]
    rcases h.due i hmem with hin | ⟨k, hfind, hk⟩ | hselecting
    · exact Or.inl hin
    · exact Or.inr (Or.inl ⟨k, hkept k i hfind, hk⟩)
    · exact Or.inr (Or.inr hselecting)

/-- **Step lemma** for the beginning of the inner loop's body. -/
theorem Current.entered {s : Sys} (h : Current s) (hi : Inv s) {it : Str × ℕ}
    (hp : s.point = .walking (some it)) :
    Current { s with point := .selecting it, misused := s.misused || !s.connected it.2 } := by
  have hentry := hi.entry it (by rw [hp]; rfl)
  have hahead : ∀ k, s.point.ahead k ↔ it.1 ≤ k := by
    intro k
    rw [hp]
    rfl
  have hconnected := h.ahead it.1 it.2 ((hahead it.1).mpr (le_refl _)) hentry
  refine ⟨?_, by simp, fun k i hk hfind => ?_, fun it' hit => ?_, fun i hdue => ?_⟩
  · show (s.misused || !s.connected it.2) = false
    rw [h.clean, hconnected]
    rfl
  · exact h.ahead k i ((hahead k).mpr (le_of_lt hk)) hfind
  · obtain rfl := Point.selecting.inj hit
    exact hconnected
  · rcases h.due i hdue with hpolled | ⟨k, hfind, hk⟩ | ⟨it', hit, -⟩
    · exact Or.inl hpolled
    · rcases eq_or_lt_of_le ((hahead k).mp hk) with heq | hlt
      · rw [← heq, hentry] at hfind
        exact Or.inr (Or.inr ⟨it, rfl, Option.some.inj hfind⟩)
      · exact Or.inr (Or.inl ⟨k, hfind, hlt⟩)
    · exact absurd (hp.symm.trans hit) (by simp)

/-- **Step lemma.** -/
theorem Current.move {fdSetSize : ℕ} {s t : Sys} {a : Label} (h : Current s) (hi : Inv s)
    (hok : tableCurrent s a) (hm : Move fdSetSize s a t) : Current t := by
  cases hm with
  | begun hp hrun => exact h.begin hi (hok hrun)
  | finished hp hrun | passEnd hp =>
      exact h.goto (by simp [hp]) (by simp) (by simp) (by simp [hp, Point.ahead])
  | entered it hp => exact h.entered hi hp
  | polled it ready hp hconnected =>
      have hahead : ∀ k, (if ready then Point.receiving it else .advancing it).ahead k ↔
          s.point.ahead k := by
        intro k
        rw [hp]
        cases ready <;> rfl
      refine ⟨h.clean, by cases ready <;> simp, fun k i hk hfind => ?_,
        by cases ready <;> simp, fun i hdue => ?_⟩
      · exact h.ahead k i ((hahead k).mp hk) hfind
      · rcases h.due i hdue with hpolled | ⟨k, hfind, hk⟩ | ⟨it', hit, rfl⟩
        · exact Or.inl (List.mem_append_left _ hpolled)
        · exact Or.inr (Or.inl ⟨k, hfind, (hahead k).mpr hk⟩)
        · obtain rfl := Point.selecting.inj (hp.symm.trans hit)
          exact Or.inl (List.mem_append_right _ (List.mem_singleton_self _))
  | failed it ready hp hconnected =>
      exact absurd ((h.selecting it hp).symm.trans hconnected) Bool.noConfusion
  | message it content hp =>
      exact h.goto (by simp [hp]) (by simp) (by simp) (by simp [hp, Point.ahead])
  | disconnected it hp =>
      have hentry := hi.entry it (by rw [hp]; rfl)
      have hnext : Current { s with point := .advancing it } :=
        h.goto (by simp [hp]) (by simp) (by simp) (by simp [hp, Point.ahead])
      refine ⟨h.clean, by simp, fun k i hk hfind => ?_, by simp, hnext.due⟩
      -- the destroyed socket is behind
      have hne : it.2 ≠ i := by
        rintro rfl
        exact absurd (hi.unique hentry hfind) (ne_of_lt hk)
      rw [connected_modify _ rfl, if_neg hne]
      exact hnext.ahead k i hk hfind
  | advanced it hp =>
      refine h.goto (by simp [hp]) (by simp) (by simp) fun k i hfind => ?_
      rw [hp]
      exact ahead_next? hfind
  | refused fd addr =>
      exact h.accept hi rfl rfl rfl rfl rfl (fun _ _ => id) fun _ _ => Or.inl
  | accepted fd addr hfd =>
      refine h.accept hi rfl rfl rfl rfl rfl (fun _ _ => OrderedMap.find?_insert_of_find?)
        fun k i hfind => ?_
      rcases OrderedMap.of_find?_insert hfind with hold | ⟨-, rfl⟩
      · exact Or.inl hold
      · refine Or.inr ?_
        rw [Sys.connected, List.getElem?_concat_length]
        simpa [Socket.accepting] using hfd
  | runEnds | stopped => exact ⟨h.clean, h.running, h.ahead, h.selecting, h.due⟩

theorem current_of_reachable {fdSetSize : ℕ} {s : Sys}
    (h : (system fdSetSize).Reachable tableCurrent s) : Current s := by
  refine LTS.Reachable.induction (I := Current) ?_ ?_ h
  · rintro _ rfl
    exact ⟨rfl, by simp [fresh], by simp [fresh, Point.ahead], by simp [fresh], by simp [fresh]⟩
  · intro s a t hreach hs hok hstep
    exact hs.move (inv_of_reachable hreach) hok (move_of_step hstep)

/-! ## The runs in which it is not -/

/-- A destroyed socket was polled or is ahead, or a connected client is not in the table. -/
def Spoilt (s : Sys) : Prop :=
  s.misused = true ∨
    (∃ k i, s.point.ahead k ∧ s.socketMap.find? k = some i ∧ s.connected i = false) ∨
    ∃ i ∈ s.due, i < s.sockets.length ∧ i ∉ s.socketMap.values ∧ i ∉ s.polled

/-- A pass that begins with another table is spoilt. -/
theorem spoilt_of_not_current {fdSetSize : ℕ} {s t : Sys} {a : Label} (hnot : ¬tableCurrent s a)
    (hm : Move fdSetSize s a t) : Spoilt t := by
  cases hm with
  | begun hp hrun =>
      have hsome : ∃ i < s.sockets.length, ¬(s.connected i = true ↔ i ∈ s.socketMap.values) := by
        by_contra hnone
        push Not at hnone
        exact hnot fun _ i hlt => hnone i hlt
      obtain ⟨i, hlt, hdiff⟩ := hsome
      cases hconnected : s.connected i with
      | true =>
          have hout : i ∉ s.socketMap.values := fun hin => hdiff (iff_of_true hconnected hin)
          have hdue : i ∈ (List.range s.sockets.length).filter s.connected :=
            List.mem_filter.mpr ⟨List.mem_range.mpr hlt, hconnected⟩
          exact Or.inr (Or.inr ⟨i, hdue, hlt, hout, List.not_mem_nil⟩)
      | false =>
          have hin : i ∈ s.socketMap.values := by
            by_contra hout
            exact hdiff (iff_of_false (by simp [hconnected]) hout)
          obtain ⟨k, hfind⟩ := OrderedMap.mem_values_iff.mp hin
          exact Or.inr (Or.inl ⟨k, i, ahead_first? hfind, hfind, hconnected⟩)
  | finished hp hrun => exact absurd (fun hrun' => by simp [hrun] at hrun') hnot
  | _ => exact absurd trivial hnot

/-- A destroyed socket that is ahead stays ahead until it is polled. -/
theorem spoilt_of_ahead {fdSetSize : ℕ} {s t : Sys} {a : Label} (hi : Inv s)
    (hm : Move fdSetSize s a t) {k : Str} {i : ℕ} (hk : s.point.ahead k)
    (hfind : s.socketMap.find? k = some i) (hdead : s.connected i = false) : Spoilt t := by
  have hlt := hi.lt_length hfind
  cases hm with
  | begun hp | finished hp | passEnd hp =>
      rw [hp] at hk
      exact absurd hk id
  | entered it hp =>
      have hentry := hi.entry it (by rw [hp]; rfl)
      rw [hp] at hk
      rcases eq_or_lt_of_le (show it.1 ≤ k from hk) with heq | hgt
      · rw [← heq, hentry] at hfind
        obtain rfl := Option.some.inj hfind
        exact Or.inl (show (s.misused || !s.connected it.2) = true by simp [hdead])
      · exact Or.inr (Or.inl ⟨k, i, hgt, hfind, hdead⟩)
  | polled it ready hp hconnected =>
      rw [hp] at hk
      refine Or.inr (Or.inl ⟨k, i, ?_, hfind, hdead⟩)
      cases ready with
      | true => exact hk
      | false => exact hk
  | failed it ready hp hconnected => exact Or.inl (hi.flag it hp hconnected)
  | message it content hp =>
      rw [hp] at hk
      exact Or.inr (Or.inl ⟨k, i, hk, hfind, hdead⟩)
  | disconnected it hp =>
      rw [hp] at hk
      refine Or.inr (Or.inl ⟨k, i, hk, hfind, ?_⟩)
      rw [connected_modify _ rfl, hdead]
      exact ite_self false
  | advanced it hp =>
      rw [hp] at hk
      exact Or.inr (Or.inl ⟨k, i, (ahead_next? hfind).mpr hk, hfind, hdead⟩)
  | refused fd addr =>
      refine Or.inr (Or.inl ⟨k, i, hk, hfind, ?_⟩)
      rw [connected_concat hlt _ _ rfl]
      exact hdead
  | accepted fd addr hfd =>
      refine Or.inr (Or.inl ⟨k, i, hk, OrderedMap.find?_insert_of_find? hfind, ?_⟩)
      rw [connected_concat hlt _ _ rfl]
      exact hdead
  | runEnds | stopped => exact Or.inr (Or.inl ⟨k, i, hk, hfind, hdead⟩)

/-- A client that is not in the table is not polled in the pass. -/
theorem spoilt_of_left_out {fdSetSize : ℕ} {s t : Sys} {a : Label} (hi : Inv s)
    (hin : s.point ≠ .head) (hm : Move fdSetSize s a t) {i : ℕ} (hdue : i ∈ s.due)
    (hlt : i < s.sockets.length) (hout : i ∉ s.socketMap.values) (hpolled : i ∉ s.polled) :
    Spoilt t := by
  cases hm with
  | begun hp | finished hp => exact absurd hp hin
  | polled it ready hp hconnected =>
      have hentry := hi.entry it (by rw [hp]; rfl)
      refine Or.inr (Or.inr ⟨i, hdue, hlt, hout, fun hmem => ?_⟩)
      rcases List.mem_append.mp hmem with hold | hlast
      · exact hpolled hold
      · obtain rfl := List.mem_singleton.mp hlast
        exact hout (OrderedMap.mem_values_iff.mpr ⟨it.1, hentry⟩)
  | disconnected it hp =>
      exact Or.inr (Or.inr ⟨i, hdue, by simpa using hlt, hout, hpolled⟩)
  | refused fd addr =>
      have hlt' : i < (s.sockets ++ [destroy (.accepting fd addr)]).length := by
        rw [List.length_append]
        omega
      exact Or.inr (Or.inr ⟨i, hdue, hlt', hout, hpolled⟩)
  | accepted fd addr hfd =>
      have hlt' : i < (s.sockets ++ [Socket.accepting fd addr]).length := by
        rw [List.length_append]
        omega
      refine Or.inr (Or.inr ⟨i, hdue, hlt', fun hmem => ?_, hpolled⟩)
      rcases OrderedMap.mem_values_insert.mp hmem with hold | ⟨-, rfl⟩
      · exact hout hold
      · exact absurd hlt (Nat.lt_irrefl _)
  | passEnd | entered | failed | message | advanced | runEnds | stopped =>
      exact Or.inr (Or.inr ⟨i, hdue, hlt, hout, hpolled⟩)

/-- **Step lemma.**  Nothing repairs a spoilt pass before its end. -/
theorem Spoilt.move {fdSetSize : ℕ} {s t : Sys} {a : Label} (h : Spoilt s) (hi : Inv s)
    (hin : s.point ≠ .head) (hm : Move fdSetSize s a t) : Spoilt t := by
  rcases h with hmisused | ⟨k, i, hk, hfind, hdead⟩ | ⟨i, hdue, hlt, hout, hpolled⟩
  · refine Or.inl ?_
    cases hm with
    | entered it hp =>
        show (s.misused || !s.connected it.2) = true
        rw [hmisused]
        rfl
    | _ => exact hmisused
  · exact spoilt_of_ahead hi hm hk hfind hdead
  · exact spoilt_of_left_out hi hin hm hdue hlt hout hpolled

/-- At the end of a pass the damage shows. -/
theorem Spoilt.not_polling {s : Sys} (h : Spoilt s) (hout : s.point.outside = true) :
    ¬Polling s := by
  intro hpolling
  rcases h with hmisused | ⟨k, i, hk, -, -⟩ | ⟨i, hdue, -, -, hpolled⟩
  · exact absurd (hmisused.symm.trans hpolling.clean) Bool.noConfusion
  · exact not_ahead_of_outside hout k hk
  · exact hpolled (hpolling.polled i hdue)

/-! ## The exact condition -/

/-- **The select server keeps polling**: in a run up to the end of a pass, no pass has
polled a destroyed socket, ended the thread or left a connected client out, exactly if each
pass began with a table of the connected clients. -/
theorem polls_iff {fdSetSize : ℕ} {s : Sys} {as : List Label}
    (h : (system fdSetSize).Path (fun _ _ => True) fresh as s) (hs : s.point.outside = true) :
    (∀ bs t, bs <+: as → (system fdSetSize).Path (fun _ _ => True) fresh bs t →
      t.point.outside = true → Polling t) ↔ (system fdSetSize).Path tableCurrent fresh as s := by
  have h₀ : (system fdSetSize).init fresh := rfl
  refine LTS.Path.checkpoints_iff (C := fun u => u.point.outside = true) (B := Spoilt)
    h₀ h hs ?_ ?_ ?_ ?_
  · intro s hreach hout
    have hcurrent := current_of_reachable hreach
    refine ⟨hcurrent.clean, hcurrent.running,
      hcurrent.polled (not_ahead_of_outside hout) fun it hit => ?_⟩
    rw [hit] at hout
    exact absurd hout Bool.noConfusion
  · intro s a t _ _ hnot hstep
    exact spoilt_of_not_current hnot (move_of_step hstep)
  · intro s a t hreach hspoilt hin _ hstep
    refine hspoilt.move (inv_of_reachable hreach) (fun hp => hin ?_) (move_of_step hstep)
    rw [hp]
    rfl
  · exact fun s hspoilt hout => hspoilt.not_polling hout

/-- A client connects, is silent in one pass and sends a byte in the next. -/
def messageRun : List Label :=
  [.accept 5 ⟨127, 0, 0, 1, 4000⟩, .test, .next, .select false, .next, .next, .test, .next,
    .select true, .recv [104], .next, .next]

/-- `polls_iff` at that run. -/
theorem polls_iff_message : ∃ s,
    (∀ bs t, bs <+: messageRun → (system 1024).Path (fun _ _ => True) fresh bs t →
      t.point.outside = true → Polling t) ↔
      (system 1024).Path tableCurrent fresh messageRun s :=
  ⟨_, polls_iff (LTS.path_of_exec (show LTS.exec _ _ _ messageRun = some _ from rfl)) rfl⟩

/-! ## What the clients have to do -/

/-- The address under which a client is accepted. -/
def Label.address? : Label → Option Str
  | .accept fd addr => some (getAddress (.accepting fd addr))
  | _ => none

/-- The table behind these labels: as long as no address comes twice everybody who is connected
is in it, and before the first disconnect nobody else. -/
structure Tabled (as : List Label) (s : Sys) : Prop where
  keys : ∀ k ∈ s.socketMap.keys, k ∈ as.filterMap Label.address?
  entered : (as.filterMap Label.address?).Nodup →
    ∀ i, s.connected i = true → i ∈ s.socketMap.values
  opened : .recv [] ∉ as → ∀ i ∈ s.socketMap.values, s.connected i = true
  stopped : .stop ∈ as → s.isRunning = false

theorem connected_iff {s : Sys} {i : ℕ} :
    s.connected i = true ↔ ∃ sock, s.sockets[i]? = some sock ∧ sock.fd ≠ -1 := by
  rw [Sys.connected, Option.any_eq_true]
  simp only [decide_eq_true_eq]

/-- A step that touches neither the sockets nor the table. -/
theorem Tabled.goto {as : List Label} {s t : Sys} (h : Tabled as s) (a : Label)
    (hsockets : t.sockets = s.sockets) (hmap : t.socketMap = s.socketMap)
    (haddress : a.address? = none) (hstop : .stop ∈ as ++ [a] → t.isRunning = false) :
    Tabled (as ++ [a]) t := by
  have hsame : (as ++ [a]).filterMap Label.address? = as.filterMap Label.address? := by
    rw [List.filterMap_append, List.filterMap_cons_none haddress]
    exact List.append_nil _
  have hconnected : ∀ i, t.connected i = s.connected i := by
    intro i
    rw [Sys.connected, Sys.connected, hsockets]
  refine ⟨?_, ?_, fun hrecv => ?_, hstop⟩
  · rw [hmap, hsame]
    exact h.keys
  · rw [hmap, hsame]
    exact fun hnodup i hi => h.entered hnodup i ((hconnected i).symm.trans hi)
  · rw [hmap]
    intro i hi
    rw [hconnected]
    exact h.opened (fun hmem => hrecv (List.mem_append_left _ hmem)) i hi

/-- The labels with one more accepted client. -/
theorem address?_concat (as : List Label) (fd : ℤ) (addr : Addr) :
    (as ++ [Label.accept fd addr]).filterMap Label.address? =
      as.filterMap Label.address? ++ [getAddress (.accepting fd addr)] := by
  rw [List.filterMap_append]
  rfl

/-- A client is accepted and entered. -/
theorem Tabled.accepted {as : List Label} {s : Sys} (h : Tabled as s) (hi : Inv s) {fd : ℤ}
    (hfd : fd ≠ -1) (addr : Addr) :
    Tabled (as ++ [.accept fd addr]) { s with
      sockets := s.sockets ++ [.accepting fd addr]
      socketMap := s.socketMap.insert (getAddress (.accepting fd addr)) s.sockets.length } := by
  refine ⟨fun k hk => ?_, fun hnodup i hconnected => ?_, fun hrecv i hmem => ?_, fun hstop => ?_⟩
  · rw [address?_concat]
    rcases OrderedMap.mem_keys_insert.mp hk with rfl | hk
    · exact List.mem_append_right _ (List.mem_singleton_self _)
    · exact List.mem_append_left _ (h.keys k hk)
  · rw [address?_concat, List.nodup_append] at hnodup
    have hnew : getAddress (.accepting fd addr) ∉ s.socketMap.keys := fun hk =>
      hnodup.2.2 _ (h.keys _ hk) _ (List.mem_singleton_self _) rfl
    rw [OrderedMap.mem_values_insert]
    obtain ⟨sock, hsock, hopen⟩ := connected_iff.mp hconnected
    rcases getElem?_concat_iff.mp hsock with hold | ⟨rfl, -⟩
    · exact Or.inl (h.entered hnodup.1 i (connected_iff.mpr ⟨sock, hold, hopen⟩))
    · exact Or.inr ⟨hnew, rfl⟩
  · rcases OrderedMap.mem_values_insert.mp hmem with hold | ⟨-, rfl⟩
    · obtain ⟨k, hk⟩ := OrderedMap.mem_values_iff.mp hold
      rw [connected_concat (hi.lt_length hk) _ _ rfl]
      exact h.opened (fun hrecv' => hrecv (List.mem_append_left _ hrecv')) i hold
    · exact connected_iff.mpr ⟨_, getElem?_concat_iff.mpr (Or.inr ⟨rfl, rfl⟩), hfd⟩
  · exact h.stopped (by simpa using hstop)

/-- **Step lemma.** -/
theorem Tabled.move {fdSetSize : ℕ} {as : List Label} {s t : Sys} {a : Label} (h : Tabled as s)
    (hi : Inv s) (hm : Move fdSetSize s a t) : Tabled (as ++ [a]) t := by
  cases hm with
  | accepted fd addr hfd => exact h.accepted hi hfd addr
  | refused fd addr =>
      -- the socket is destroyed at once, and the table stays as it is
      refine ⟨fun k hk => ?_, fun hnodup i hconnected => ?_, fun hrecv i hmem => ?_, ?_⟩
      · rw [address?_concat]
        exact List.mem_append_left _ (h.keys k hk)
      · rw [address?_concat, List.nodup_append] at hnodup
        obtain ⟨sock, hsock, hopen⟩ := connected_iff.mp hconnected
        rcases getElem?_concat_iff.mp hsock with hold | ⟨-, rfl⟩
        · exact h.entered hnodup.1 i (connected_iff.mpr ⟨sock, hold, hopen⟩)
        · exact absurd rfl hopen
      · obtain ⟨k, hk⟩ := OrderedMap.mem_values_iff.mp hmem
        rw [connected_concat (hi.lt_length hk) _ _ rfl]
        exact h.opened (fun hrecv' => hrecv (List.mem_append_left _ hrecv')) i hmem
      · exact fun hstop => h.stopped (by simpa using hstop)
  | disconnected it hp =>
      have hsame : (as ++ [Label.recv []]).filterMap Label.address? =
          as.filterMap Label.address? := by
        rw [List.filterMap_append]
        exact List.append_nil _
      refine ⟨?_, fun hnodup i hconnected => ?_, fun hrecv => ?_, ?_⟩
      · rw [hsame]
        exact h.keys
      · rw [hsame] at hnodup
        rw [connected_modify _ rfl] at hconnected
        split_ifs at hconnected
        exact h.entered hnodup i hconnected
      · exact absurd (List.mem_append_right as (List.mem_singleton_self _)) hrecv
      · exact fun hstop => h.stopped (by simpa using hstop)
  | stopped => exact h.goto _ rfl rfl rfl fun _ => rfl
  | begun hp hrun | finished hp hrun | passEnd hp | entered it hp | runEnds | advanced it hp =>
      exact h.goto _ rfl rfl rfl fun hstop => h.stopped (by simpa using hstop)
  | polled it ready hp hconnected | failed it ready hp hconnected | message it content hp =>
      exact h.goto _ rfl rfl rfl fun hstop => h.stopped (by simpa using hstop)

theorem tabled_of_run {fdSetSize : ℕ} {ok : Sys → Label → Prop} {as : List Label} {s : Sys}
    (h : (system fdSetSize).Run ok as s) : Tabled as s := by
  refine LTS.Run.induction (I := Tabled) ?_ ?_ h
  · rintro _ rfl
    exact ⟨by simp [fresh, OrderedMap.keys, OrderedMap.empty], by simp [fresh, Sys.connected],
      by simp [fresh, OrderedMap.values, OrderedMap.empty], by simp⟩
  · intro as s a t hrun hs _ hstep
    exact hs.move (inv_of_reachable hrun.reachable) (move_of_step hstep)

/-- **When the table is current**: in every run in which no address is accepted twice, and no
pass begins behind a disconnect unless the server was stopped in between. -/
theorem current_of_inputs {fdSetSize : ℕ} {s : Sys} {as : List Label}
    (h : (system fdSetSize).Path (fun _ _ => True) fresh as s)
    (haddress : (as.filterMap Label.address?).Nodup)
    (hrecv : ∀ bs, bs ++ [.test] <+: as → .recv [] ∈ bs → .stop ∈ bs) :
    (system fdSetSize).Path tableCurrent fresh as s := by
  induction h with
  | nil => exact LTS.Path.nil fresh
  | @snoc t u as a hpath _ hstep ih =>
      rw [List.filterMap_append, List.nodup_append] at haddress
      refine LTS.Path.snoc (ih haddress.1 fun bs hbs =>
        hrecv bs (hbs.trans (List.prefix_append _ _))) ?_ hstep
      cases a with
      | test =>
          have htabled := tabled_of_run ⟨fresh, rfl, hpath⟩
          intro hrun i _
          refine ⟨htabled.entered haddress.1 i, htabled.opened (fun hmem => ?_) i⟩
          have hstopped := htabled.stopped (hrecv as (List.prefix_refl _) hmem)
          exact absurd (hrun.symm.trans hstopped) (by decide)
      | _ => trivial

/-- Two clients connect and the first one disconnects. -/
def disconnectRun : List Label :=
  [.accept 5 ⟨127, 0, 0, 1, 4000⟩, .accept 6 ⟨127, 0, 0, 1, 4001⟩, .test, .next, .select true,
    .recv [], .next, .next, .select false, .next, .next, .test, .next, .select false]

/-- The second one is not polled any more. -/
theorem server_stops : ¬∀ s, (system 1024).Reachable (fun _ _ => True) s →
    s.point.outside = true → Polling s := by
  intro hall
  have hreach : (system 1024).Reachable (fun _ _ => True) _ :=
    LTS.reachable_of_exec rfl (show LTS.exec _ _ fresh disconnectRun = some _ from rfl)
  exact (hall _ hreach rfl).running rfl

end Select
