/-
# A client and its thread (`start`, `run` and `stop` in `tcpserver/src/tcpclient.cpp`)

`start` connects and starts the thread of `run`; `stop` clears `isRunning`, joins the thread
and destroys the socket.  The thread tests `isRunning` between two calls of `recv` only.  The
connection is a stream that the server writes, finishes and resets at any time, and a signal
can end a `recv`, as the handlers of `clientd.cpp` are installed without `SA_RESTART`.
`sendMessage` changes nothing of all that, and is left out.

* `session_orderly`: no `recv` comes to a socket that was destroyed, what was received is
  handled once and in order, and at most one result of it behind the store of `isRunning`;
* `stop_returns_iff`: `stop` comes back by itself exactly if the thread is not in a `recv` with
  nothing to receive; otherwise it waits for the server, or for a signal.
-/
import CppShared.Inbound
import CppShared.TcpClient
import CppShared.Transition

namespace ClientSession

/-! ## The client -/

/-- Where the owner of the client is. -/
inductive Owner
  | constructed
  /-- `start` has failed. -/
  | failed
  | active
  /-- In `stop`, in front of the store. -/
  | storing
  | joining
  | destroying
  | stopped
  deriving DecidableEq, Repr

/-- Where the thread is. -/
inductive Thread
  | absent
  | testing
  | receiving
  | handling (result : Received)
  | left
  deriving DecidableEq, Repr

/-- The client and its connection. -/
structure Sys where
  isRunning : Bool
  /-- The socket has a descriptor. -/
  connected : Bool
  owner : Owner
  thread : Thread
  line : Inbound UInt8
  client : TcpClient.Sys
  /-- The results of `recv` that were handled, and how many there were at the store. -/
  results : List Received
  atStore : Option ℕ

/-- What happens next. -/
inductive Label
  | start (success : Bool)
  | stop
  | store
  | join
  | destroy
  | test
  | recv (content : Str)
  | handle
  /-- The server does something. -/
  | server (d : Deed UInt8)
  /-- A signal ends a `recv`. -/
  | signal
  deriving DecidableEq

/-- The result of a `recv` that has given `content`. -/
def resultOf (content : Str) : Received := if content = [] then .fails else .data content

/-- One step. -/
def step (s : Sys) : Label → Option Sys
  | .start success =>
      if s.owner = .constructed then
        some <|
          if success then { s with owner := .active, thread := .testing, connected := true }
          else { s with owner := .failed }
      else none
  | .stop =>
      if s.owner = .active ∨ s.owner = .stopped then
        some { s with owner := if s.isRunning then .storing else .destroying }
      else none
  | .store =>
      if s.owner = .storing then
        some { s with owner := .joining, isRunning := false, atStore := some s.results.length }
      else none
  | .join =>
      if s.owner = .joining ∧ s.thread = .left then some { s with owner := .destroying } else none
  | .destroy =>
      if s.owner = .destroying then some { s with owner := .stopped, connected := false } else none
  | .test =>
      if s.thread = .testing then
        some { s with thread := if s.isRunning then .receiving else .left }
      else none
  | .recv content =>
      if s.thread = .receiving then
        -- without a descriptor `recv` fails at once
        if s.connected = false then
          if content = [] then some { s with thread := .handling .fails } else none
        else if h : s.line.Gives maxBufferLen content then
          some { s with
            thread := .handling (resultOf content)
            line := s.line.take content h.1 }
        else none
      else none
  | .handle =>
      match s.thread with
      | .handling result =>
          some { s with
            thread := .testing
            client := TcpClient.receive s.client result
            results := s.results ++ [result] }
      | _ => none
  | .server d => (s.line.after d).map fun line => { s with line := line }
  | .signal =>
      if s.thread = .receiving then some { s with thread := .handling .fails } else none

/-- A client that was constructed, with what `buf` holds at first. -/
def fresh (buf : Packet) : Sys :=
  ⟨true, false, .constructed, .absent, .new, ⟨buf, [], []⟩, [], none⟩

/-- The client and its server. -/
def system (buf : Packet) : LTS Sys Label where
  init s := s = fresh buf
  step := step

/-! ## What a step does -/

/-- The effect of a step, case by case. -/
inductive Move (s : Sys) : Label → Sys → Prop
  | started (hp : s.owner = .constructed) :
      Move s (.start true) { s with owner := .active, thread := .testing, connected := true }
  | failed (hp : s.owner = .constructed) : Move s (.start false) { s with owner := .failed }
  | stop (hp : s.owner = .active ∨ s.owner = .stopped) :
      Move s .stop { s with owner := if s.isRunning then .storing else .destroying }
  | store (hp : s.owner = .storing) :
      Move s .store
        { s with owner := .joining, isRunning := false, atStore := some s.results.length }
  | join (hp : s.owner = .joining) (hleft : s.thread = .left) :
      Move s .join { s with owner := .destroying }
  | destroy (hp : s.owner = .destroying) :
      Move s .destroy { s with owner := .stopped, connected := false }
  | test (hthread : s.thread = .testing) :
      Move s .test { s with thread := if s.isRunning then .receiving else .left }
  | refused (hthread : s.thread = .receiving) (hfd : s.connected = false) :
      Move s (.recv []) { s with thread := .handling .fails }
  | recv (content) (hthread : s.thread = .receiving)
      (hgives : s.line.Gives maxBufferLen content) :
      Move s (.recv content)
        { s with thread := .handling (resultOf content), line := s.line.take content hgives.1 }
  | handle (result) (hthread : s.thread = .handling result) :
      Move s .handle
        { s with
          thread := .testing
          client := TcpClient.receive s.client result
          results := s.results ++ [result] }
  | server (d line) (hgrows : s.line.Grows line) : Move s (.server d) { s with line := line }
  | signal (hthread : s.thread = .receiving) :
      Move s .signal { s with thread := .handling .fails }

/-- **Step inversion.** -/
theorem move_of_step {s t : Sys} {l : Label} (h : step s l = some t) : Move s l t := by
  cases l with
  | start success =>
      obtain ⟨hp, h⟩ := Option.ite_none_right_eq_some.mp h
      obtain rfl := Option.some.inj h
      cases success with
      | true => exact Move.started hp
      | false => exact Move.failed hp
  | stop =>
      obtain ⟨hp, h⟩ := Option.ite_none_right_eq_some.mp h
      obtain rfl := Option.some.inj h
      exact Move.stop hp
  | store =>
      obtain ⟨hp, h⟩ := Option.ite_none_right_eq_some.mp h
      obtain rfl := Option.some.inj h
      exact Move.store hp
  | join =>
      obtain ⟨hp, h⟩ := Option.ite_none_right_eq_some.mp h
      obtain rfl := Option.some.inj h
      exact Move.join hp.1 hp.2
  | destroy =>
      obtain ⟨hp, h⟩ := Option.ite_none_right_eq_some.mp h
      obtain rfl := Option.some.inj h
      exact Move.destroy hp
  | test =>
      obtain ⟨hthread, h⟩ := Option.ite_none_right_eq_some.mp h
      obtain rfl := Option.some.inj h
      exact Move.test hthread
  | recv content =>
      obtain ⟨hthread, h⟩ := Option.ite_none_right_eq_some.mp h
      split_ifs at h with hfd hnil hgives
      · obtain rfl := Option.some.inj h
        subst hnil
        exact Move.refused hthread hfd
      · obtain rfl := Option.some.inj h
        exact Move.recv content hthread hgives
  | handle =>
      simp only [step] at h
      cases hthread : s.thread with
      | handling result =>
          rw [hthread] at h
          obtain rfl := Option.some.inj h
          exact Move.handle result hthread
      | absent | testing => simp [hthread] at h
      | receiving | left => simp [hthread] at h
  | server d =>
      obtain ⟨line, hafter, rfl⟩ := Option.map_eq_some_iff.mp h
      exact Move.server d line (Inbound.grows_of_after hafter)
  | signal =>
      obtain ⟨hthread, h⟩ := Option.ite_none_right_eq_some.mp h
      obtain rfl := Option.some.inj h
      exact Move.signal hthread

/-! ## What holds in every run -/

/-- The bytes of a result that is not handled yet. -/
def Thread.bytes : Thread → Str
  | .handling (.data bytes) => bytes
  | _ => []

/-- The results that the thread still handles once `isRunning` is cleared. -/
def Thread.ahead : Thread → ℕ
  | .receiving | .handling _ => 1
  | _ => 0

/-- What the owner knows of the thread and of the socket. -/
def Phase (s : Sys) : Prop :=
  match s.owner with
  | .constructed | .failed => s.thread = .absent ∧ s.atStore = none
  | .active | .storing => s.connected = true ∧ s.thread ≠ .absent ∧ s.atStore = none
  | .joining => s.connected = true ∧ s.thread ≠ .absent ∧ s.atStore ≠ none
  | .destroying | .stopped => s.thread = .left ∧ s.atStore ≠ none

/-- The thread has handled what it has received, and comes to its end behind the store. -/
structure Inv (buf : Packet) (s : Sys) : Prop where
  phase : Phase s
  running : s.isRunning = true ↔ s.atStore = none
  client : s.client = TcpClient.run buf s.results
  bytes : (s.results.filterMap TcpClient.chunk?).flatten ++ s.thread.bytes = s.line.taken
  late : ∀ n, s.atStore = some n → s.results.length + s.thread.ahead ≤ n + 1

theorem inv_fresh (buf : Packet) : Inv buf (fresh buf) where
  phase := ⟨rfl, rfl⟩
  running := by simp [fresh]
  client := rfl
  bytes := rfl
  late n h := by simp [fresh] at h

/-- A thread that is in a `recv` has its socket. -/
theorem Inv.connected {buf : Packet} {s : Sys} (h : Inv buf s) (hthread : s.thread = .receiving) :
    s.connected = true := by
  have hphase := h.phase
  unfold Phase at hphase
  cases hp : s.owner with
  | constructed | failed =>
      rw [hp, hthread] at hphase
      exact absurd hphase.1 (by simp)
  | active | storing =>
      rw [hp] at hphase
      exact hphase.1
  | joining =>
      rw [hp] at hphase
      exact hphase.1
  | destroying | stopped =>
      rw [hp, hthread] at hphase
      exact absurd hphase.1 (by simp)

/-- The thread goes on, and the owner stays where it is. -/
theorem Phase.thread {s t : Sys} (h : Phase s) (howner : t.owner = s.owner)
    (hconnected : t.connected = s.connected) (hstore : t.atStore = s.atStore)
    (habsent : s.thread ≠ .absent) (habsent' : t.thread ≠ .absent) (hleft : s.thread ≠ .left) :
    Phase t := by
  unfold Phase at h ⊢
  rw [howner, hconnected, hstore]
  cases hp : s.owner with
  | constructed | failed =>
      rw [hp] at h
      exact absurd h.1 habsent
  | active | storing =>
      rw [hp] at h
      exact ⟨h.1, habsent', h.2.2⟩
  | joining =>
      rw [hp] at h
      exact ⟨h.1, habsent', h.2.2⟩
  | destroying | stopped =>
      rw [hp] at h
      exact absurd h.1 hleft

/-- The thread goes on without a result. -/
theorem Inv.goto {buf : Packet} {s : Sys} (h : Inv buf s) {th : Thread}
    (habsent : s.thread ≠ .absent) (hleft : s.thread ≠ .left) (habsent' : th ≠ .absent)
    (hbytes : th.bytes = s.thread.bytes) (hahead : th.ahead ≤ s.thread.ahead ∨ s.atStore = none) :
    Inv buf { s with thread := th } := by
  refine ⟨h.phase.thread rfl rfl rfl habsent habsent' hleft, h.running, h.client, ?_,
    fun n hn => ?_⟩
  · show _ ++ th.bytes = _
    rw [hbytes]
    exact h.bytes
  · rcases hahead with hle | hnone
    · exact (Nat.add_le_add_left hle _).trans (h.late n hn)
    · exact absurd (hnone.symm.trans hn) (by simp)

theorem flatten_concat (results : List Received) (r : Received) :
    ((results ++ [r]).filterMap TcpClient.chunk?).flatten =
      (results.filterMap TcpClient.chunk?).flatten ++ (Thread.handling r).bytes := by
  rw [List.filterMap_append, List.flatten_append]
  cases r with
  | fails => rfl
  | data bytes => simp [TcpClient.chunk?, Thread.bytes]

theorem bytes_resultOf (content : Str) : (Thread.handling (resultOf content)).bytes = content := by
  unfold resultOf
  split_ifs with hnil
  · exact hnil.symm
  · rfl

theorem run_concat (buf : Packet) (results : List Received) (r : Received) :
    TcpClient.run buf (results ++ [r]) = TcpClient.receive (TcpClient.run buf results) r := by
  rw [TcpClient.run, TcpClient.run, List.foldl_append]
  rfl

/-- **Step lemma.** -/
theorem Inv.move {buf : Packet} {s t : Sys} {l : Label} (h : Inv buf s) (hm : Move s l t) :
    Inv buf t := by
  have hphase := h.phase
  cases hm with
  | started hp =>
      rw [Phase, hp] at hphase
      have hbytes := h.bytes
      rw [hphase.1] at hbytes
      refine ⟨⟨rfl, by simp, hphase.2⟩, h.running, h.client, hbytes, fun n hn => ?_⟩
      exact absurd (hphase.2.symm.trans hn) (by simp)
  | failed hp =>
      rw [Phase, hp] at hphase
      exact ⟨hphase, h.running, h.client, h.bytes, h.late⟩
  | stop hp =>
      refine ⟨?_, h.running, h.client, h.bytes, h.late⟩
      -- `stop` may be called again: behind a store it finds `isRunning` cleared
      rcases hp with hp | hp
      · rw [Phase, hp] at hphase
        rw [h.running.mpr hphase.2.2]
        exact hphase
      · rw [Phase, hp] at hphase
        have hclear : s.isRunning = false := by
          rw [← Bool.not_eq_true, h.running]
          exact hphase.2
        rw [hclear]
        exact hphase
  | store hp =>
      rw [Phase, hp] at hphase
      refine ⟨⟨hphase.1, hphase.2.1, by simp⟩, by simp, h.client, h.bytes, fun n hn => ?_⟩
      obtain rfl := Option.some.inj hn
      -- the result that the thread has in hand, or waits for, is the last one
      have hahead : s.thread.ahead ≤ 1 := by
        cases s.thread <;> simp [Thread.ahead]
      exact Nat.add_le_add_left hahead _
  | join hp hleft =>
      rw [Phase, hp] at hphase
      exact ⟨⟨hleft, hphase.2.2⟩, h.running, h.client, h.bytes, h.late⟩
  | destroy hp =>
      rw [Phase, hp] at hphase
      exact ⟨hphase, h.running, h.client, h.bytes, h.late⟩
  | test hthread =>
      by_cases hrunning : s.isRunning = true
      · rw [if_pos hrunning]
        apply h.goto
        · simp [hthread]
        · simp [hthread]
        · simp
        · rw [hthread]
          rfl
        · exact Or.inr (h.running.mp hrunning)
      · rw [if_neg hrunning]
        apply h.goto
        · simp [hthread]
        · simp [hthread]
        · simp
        · rw [hthread]
          rfl
        · exact Or.inl (Nat.zero_le _)
  | refused hthread hfd => simp [h.connected hthread] at hfd
  | recv content hthread hgives =>
      have hbytes := h.bytes
      rw [hthread] at hbytes
      refine ⟨hphase.thread rfl rfl rfl ?_ ?_ ?_, h.running, h.client, ?_, fun n hn => ?_⟩
      · simp [hthread]
      · simp
      · simp [hthread]
      · rw [bytes_resultOf]
        exact congrArg (· ++ content) ((List.append_nil _).symm.trans hbytes)
      · have hlate := h.late n hn
        rw [hthread] at hlate
        exact hlate
  | handle result hthread =>
      have hbytes := h.bytes
      rw [hthread] at hbytes
      refine ⟨hphase.thread rfl rfl rfl ?_ ?_ ?_, h.running, ?_, ?_, fun n hn => ?_⟩
      · simp [hthread]
      · simp
      · simp [hthread]
      · rw [run_concat, ← h.client]
      · rw [flatten_concat]
        exact (List.append_nil _).trans hbytes
      · have hlate := h.late n hn
        rw [hthread] at hlate
        rw [List.length_append]
        exact hlate
  | server d line hgrows =>
      refine ⟨hphase, h.running, h.client, ?_, h.late⟩
      rw [hgrows.taken]
      exact h.bytes
  | signal hthread =>
      apply h.goto
      · simp [hthread]
      · simp [hthread]
      · simp
      · rw [hthread]
        rfl
      · rw [hthread]
        exact Or.inl le_rfl

theorem inv_of_reachable {buf : Packet} {s : Sys}
    (h : (system buf).Reachable (fun _ _ => True) s) : Inv buf s := by
  refine LTS.Reachable.induction (I := Inv buf) ?_ ?_ h
  · rintro _ rfl
    exact inv_fresh buf
  · intro s l t _ hs _ hstep
    exact hs.move (move_of_step hstep)

/-! ## Main results -/

/-- The order of a session. -/
structure Orderly (buf : Packet) (s : Sys) : Prop where
  /-- A `recv` has its socket. -/
  receiving : s.thread = .receiving → s.connected = true
  /-- Each result is handled in one turn of `run`, -/
  client : s.client = TcpClient.run buf s.results
  /-- and they are the stream of the server. -/
  inOrder : (s.results.filterMap TcpClient.chunk?).flatten <+: s.line.sent
  /-- At most one comes behind the store. -/
  late : ∀ n, s.atStore = some n → s.results.length ≤ n + 1
  /-- When `stop` is over the thread is, and it has handled all that it has received. -/
  stopped : s.owner = .stopped →
    s.thread = .left ∧ (s.results.filterMap TcpClient.chunk?).flatten = s.line.taken

/-- **Every session is orderly**, whenever the server sends, finishes and resets the
connection, and the owner stops the client. -/
theorem session_orderly {buf : Packet} {s : Sys}
    (h : (system buf).Reachable (fun _ _ => True) s) : Orderly buf s := by
  have hs := inv_of_reachable h
  refine ⟨hs.connected, hs.client, ?_, fun n hn => ?_, fun hp => ?_⟩
  · refine ⟨s.thread.bytes ++ s.line.waiting, ?_⟩
    rw [← List.append_assoc, hs.bytes]
    exact s.line.whole
  · exact (Nat.le_add_right _ _).trans (hs.late n hn)
  · have hphase := hs.phase
    rw [Phase, hp] at hphase
    have hbytes := hs.bytes
    rw [hphase.1] at hbytes
    exact ⟨hphase.1, (List.append_nil _).symm.trans hbytes⟩

/-- The server sends two packets and the client is stopped between them: the thread handles the
second one as well. -/
def lateRun : List Label :=
  [.start true, .test, .server (.send [1]), .recv [1], .stop, .handle, .test, .store,
    .server (.send [2]), .recv [2], .handle, .test, .join, .destroy]

/-- `session_orderly` at that run. -/
theorem session_orderly_late : ∃ s, s.atStore = some 1 ∧ s.results = [.data [1], .data [2]] ∧
    s.owner = .stopped ∧ Orderly Packet.zero s := by
  have hreach : (system Packet.zero).Reachable (fun _ _ => True) _ :=
    LTS.reachable_of_exec rfl
      (show LTS.exec _ _ (fresh Packet.zero) lateRun = some _ from rfl)
  exact ⟨_, rfl, rfl, rfl, session_orderly hreach⟩

/-- A step of the client itself. -/
def Label.own : Label → Bool
  | .server _ | .signal => false
  | _ => true

/-- The thread is in a `recv` with nothing to receive. -/
def Blocked (s : Sys) : Prop := s.thread = .receiving ∧ ¬s.line.Readable

/-- `stop` comes back without the server and without a signal. -/
def Returns (buf : Packet) (s : Sys) : Prop :=
  ∃ ls t, (system buf).Path (fun _ l => l.own = true) s ls t ∧ t.owner = .stopped

theorem Returns.step {buf : Packet} {s u : Sys} {l : Label} (hown : l.own = true)
    (hstep : step s l = some u) (h : Returns buf u) : Returns buf s := by
  obtain ⟨ls, t, hpath, ht⟩ := h
  have hone : (system buf).Path (fun _ l => l.own = true) s [l] u := LTS.Path.single hown hstep
  exact ⟨_, t, hone.append hpath, ht⟩

theorem returns_of_left (buf : Packet) {s : Sys} (howner : s.owner = .joining)
    (hleft : s.thread = .left) : Returns buf s := by
  obtain ⟨u, hjoin, hu⟩ : ∃ u, ClientSession.step s .join = some u ∧ u.owner = .destroying :=
    ⟨_, if_pos ⟨howner, hleft⟩, rfl⟩
  have hdestroy : (system buf).step u .destroy =
      some { u with owner := .stopped, connected := false } := if_pos hu
  exact Returns.step rfl hjoin ⟨_, _, LTS.Path.single rfl hdestroy, rfl⟩

theorem returns_of_testing (buf : Packet) {s : Sys} (howner : s.owner = .joining)
    (hclear : s.isRunning = false) (hthread : s.thread = .testing) : Returns buf s := by
  have htest : ClientSession.step s .test =
      some { s with thread := if s.isRunning then .receiving else .left } := if_pos hthread
  rw [hclear] at htest
  exact Returns.step rfl htest (returns_of_left buf howner rfl)

theorem returns_of_handling (buf : Packet) {s : Sys} (howner : s.owner = .joining)
    (hclear : s.isRunning = false) {result : Received} (hthread : s.thread = .handling result) :
    Returns buf s := by
  have hhandle : ∃ u, ClientSession.step s .handle = some u ∧ u.owner = .joining ∧
      u.isRunning = false ∧ u.thread = .testing := by
    simp only [ClientSession.step, hthread]
    exact ⟨_, rfl, howner, hclear, rfl⟩
  obtain ⟨u, hstep, howner', hclear', hthread'⟩ := hhandle
  exact Returns.step rfl hstep (returns_of_testing buf howner' hclear' hthread')

/-- In a `recv` with nothing to receive no step of the client is left. -/
theorem Blocked.stuck {s : Sys} (h : Blocked s) (hconnected : s.connected = true)
    (howner : s.owner = .joining) {l : Label} (hown : l.own = true) :
    ClientSession.step s l = none := by
  obtain ⟨hthread, hread⟩ := h
  cases l with
  | start success => simp [ClientSession.step, howner]
  | stop | store | destroy => simp [ClientSession.step, howner]
  | join | test | handle => simp [ClientSession.step, hthread]
  | recv content =>
      have hnot : ¬s.line.Gives maxBufferLen content := fun hgives => hread hgives.readable
      simp [ClientSession.step, hthread, hconnected, hnot]
  | server d | signal => exact absurd hown Bool.false_ne_true

/-- **When `stop` comes back**: by itself, exactly if the thread that it joins is not in a
`recv` with nothing to receive. -/
theorem stop_returns_iff {buf : Packet} {s : Sys}
    (h : (system buf).Reachable (fun _ _ => True) s) (howner : s.owner = .joining) :
    Returns buf s ↔ ¬Blocked s := by
  have hs := inv_of_reachable h
  have hphase := hs.phase
  rw [Phase, howner] at hphase
  obtain ⟨hconnected, habsent, hstore⟩ := hphase
  have hclear : s.isRunning = false := by
    rw [← Bool.not_eq_true, hs.running]
    exact hstore
  constructor
  · rintro ⟨ls, t, hpath, ht⟩ hblocked
    -- the owner waits for the thread, and the thread for the server
    have hsame : t = s := by
      refine LTS.Path.preserves (I := fun u => u = s) hpath rfl ?_
      rintro u l v rfl hown hstep
      change ClientSession.step u l = some v at hstep
      rw [hblocked.stuck hconnected howner hown] at hstep
      cases hstep
    rw [hsame, howner] at ht
    cases ht
  · intro hfree
    cases hthread : s.thread with
    | absent => exact absurd hthread habsent
    | testing => exact returns_of_testing buf howner hclear hthread
    | handling result => exact returns_of_handling buf howner hclear hthread
    | left => exact returns_of_left buf howner hthread
    | receiving =>
        have hread : s.line.Readable := by
          by_contra hnot
          exact hfree ⟨hthread, hnot⟩
        obtain ⟨content, hgives⟩ := hread.exists_gives (n := maxBufferLen) (by decide)
        have hstep : ClientSession.step s (.recv content) =
            some { s with
              thread := .handling (resultOf content)
              line := s.line.take content hgives.1 } := by
          have hno : ¬s.connected = false := by simp [hconnected]
          rw [ClientSession.step, if_pos hthread, if_neg hno, dif_pos hgives]
        exact Returns.step rfl hstep (returns_of_handling buf howner hclear rfl)

/-- The owner stops a client that waits for its server. -/
def silentRun : List Label := [.start true, .test, .stop, .store]

/-- `stop_returns_iff` at that run. -/
theorem stop_returns_iff_silent : ∃ s, s.owner = .joining ∧ Blocked s ∧
    ¬Returns Packet.zero s := by
  have hreach : (system Packet.zero).Reachable (fun _ _ => True) _ :=
    LTS.reachable_of_exec rfl
      (show LTS.exec _ _ (fresh Packet.zero) silentRun = some _ from rfl)
  have hread : ¬(Inbound.new : Inbound UInt8).Readable := by decide
  exact ⟨_, rfl, ⟨rfl, hread⟩, fun hreturns =>
    (stop_returns_iff hreach rfl).mp hreturns ⟨rfl, hread⟩⟩

end ClientSession
