/-
# The shared server of the pipes (`tcppipe.hpp`)

Every `TcpPipe` starts the one static `TcpServer<Epoll>` in its constructor:
`server.start(host, port).run()`.  Both `start` and `run` test `isRunning` so as to do
their work once, but the flag is set by the thread that `run` makes, whenever that thread
gets there.

The constructors run one after another, interleaved with the io thread.  A label says
which of the two executes its next statement and what the system call in it returns.
Connections play no part: neither the loop of the io thread nor `connectHost` touches
the flag, the socket or the thread object of the server.

The server is started once exactly in the runs in which no constructor calls `socket`
too late (`startedOnce_iff`), and a test in `start` that waits for the store of the flag
is enough for that (`threadless_of_timely`).
-/
import CppShared.Transition
import Mathlib.Data.Int.Notation
import Mathlib.Tactic.SplitIfs

namespace TcpPipe

/-! ## The constructors and the io thread -/

/-- The statement that the constructor executes next. -/
inductive Constructor
  /-- No constructor runs. -/
  | outside
  /-- The test of `isRunning` in `start`. -/
  | startTest
  | tcp
  | setIOReused
  | bindTo
  | listening
  /-- The test of `isRunning` in `run`. -/
  | runTest
  /-- `ioThread = std::thread(&IO::run, this)`. -/
  | assign
  | connectHost
  deriving DecidableEq, Repr

/-- The statement that the io thread executes next. -/
inductive IoThread
  /-- There is no io thread. -/
  | absent
  /-- The test of `isRunning` in `Epoll::run`. -/
  | test
  | store
  | epollCreate
  | epollCtl
  | loopTest
  | epollWait
  | left
  deriving DecidableEq, Repr

/-- The static server with the two threads of control, and what was done to its socket. -/
structure Sys where
  isRunning : Bool
  fd : ℤ
  /-- `ioThread` holds a thread. -/
  joinable : Bool
  constructor : Constructor
  io : IoThread
  /-- An assignment over a thread that was not joined has ended the program. -/
  terminated : Bool
  /-- The descriptors that `socket` made for the server. -/
  created : List ℤ
  /-- The descriptors that were bound. -/
  bound : List ℤ
  /-- The descriptors that were listened on. -/
  listened : List ℤ
  /-- The descriptors that were closed. -/
  destroyed : List ℤ
  deriving DecidableEq

/-- Before the first constructor. -/
def fresh : Sys := ⟨false, -1, false, .outside, .absent, false, [], [], [], []⟩

/-- `Socket::destroy`. -/
def Sys.destroy (s : Sys) : Sys := { s with fd := -1, destroyed := s.destroyed ++ [s.fd] }

/-- What happens next. -/
inductive Label
  /-- The constructor executes a statement; `result` is what its system call returns. -/
  | construct (result : ℤ)
  /-- The io thread executes a statement; `interrupted` says that `errno` is `EINTR`. -/
  | io (result : ℤ) (interrupted : Bool)
  deriving DecidableEq, Repr

/-- A statement of the constructor. -/
def constructStep (s : Sys) (result : ℤ) : Sys :=
  match s.constructor with
  | .outside => { s with constructor := .startTest }
  | .startTest => { s with constructor := if s.isRunning then .runTest else .tcp }
  | .tcp =>
      -- Without a descriptor `tcp` throws, and nobody catches inside the constructor.  In the
      -- code the destructor of the `TcpClient` then joins a thread that was never made, which is
      -- `std::terminate`; here the next constructor may follow, so there are more runs than the
      -- code has.
      if result < 0 then { s with fd := result, constructor := .outside }
      else { s with fd := result, constructor := .setIOReused, created := s.created ++ [result] }
  | .setIOReused => { s with constructor := .bindTo }
  | .bindTo =>
      if result ≠ 0 then { s.destroy with constructor := .runTest }
      else { s with constructor := .listening, bound := s.bound ++ [s.fd] }
  | .listening =>
      if result ≠ 0 then { s.destroy with constructor := .runTest }
      else { s with constructor := .runTest, listened := s.listened ++ [s.fd] }
  | .runTest => { s with constructor := if s.isRunning then .connectHost else .assign }
  | .assign =>
      if s.joinable then { s with terminated := true }
      else { s with joinable := true, io := .test, constructor := .connectHost }
  | .connectHost => { s with constructor := .outside }

/-- A statement of `Epoll::run`. -/
def ioStep (s : Sys) (result : ℤ) (interrupted : Bool) : Option Sys :=
  match s.io with
  | .absent | .left => none
  | .test => some { s with io := if s.isRunning then .left else .store }
  | .store => some { s with isRunning := true, io := .epollCreate }
  | .epollCreate => some { s with io := if result < 0 then .left else .epollCtl }
  | .epollCtl => some { s with io := if result < 0 then .left else .loopTest }
  | .loopTest => some { s with io := if s.isRunning then .epollWait else .left }
  | .epollWait =>
      some { s with io := if result < 0 ∧ interrupted = false then .left else .loopTest }

/-- The step function. -/
def step (s : Sys) (a : Label) : Option Sys :=
  if s.terminated then none
  else match a with
    | .construct result => some (constructStep s result)
    | .io result interrupted => ioStep s result interrupted

/-- Constructors one after another, interleaved with the io thread. -/
def system : LTS Sys Label where
  init s := s = fresh
  step := step

/-! ## The property and the condition -/

/-- The server was started at most once. -/
structure StartedOnce (s : Sys) : Prop where
  created : s.created.length ≤ 1
  bound : s.bound.length ≤ 1
  listened : s.listened.length ≤ 1
  /-- The listening descriptor is neither replaced nor destroyed. -/
  kept : ∀ d ∈ s.listened, s.fd = d ∧ d ∉ s.destroyed
  /-- `ioThread` was not assigned while it held a thread. -/
  thread : s.terminated = false

/-- When a constructor calls `socket`, `ioThread` holds no thread, or the server has no
descriptor to lose and the call fails. -/
def threadless (s : Sys) : Label → Prop
  | .construct result =>
      s.constructor = .tcp → s.joinable = false ∨ result < 0 ∧ s.fd < 0
  | .io _ _ => True

instance (s : Sys) (a : Label) : Decidable (threadless s a) :=
  match a with
  | .construct result => inferInstanceAs (Decidable
      (s.constructor = .tcp → s.joinable = false ∨ result < 0 ∧ s.fd < 0))
  | .io _ _ => inferInstanceAs (Decidable True)

/-! ## What a step does -/

/-- The effect of a step, case by case. -/
inductive Move (s : Sys) : Label → Sys → Prop
  | enter (result) (hc : s.constructor = .outside) :
      Move s (.construct result) { s with constructor := .startTest }
  | startRunning (result) (hc : s.constructor = .startTest) (hrun : s.isRunning = true) :
      Move s (.construct result) { s with constructor := .runTest }
  | startIdle (result) (hc : s.constructor = .startTest) (hrun : s.isRunning = false) :
      Move s (.construct result) { s with constructor := .tcp }
  | tcpThrows (result) (hc : s.constructor = .tcp) (hfd : result < 0) :
      Move s (.construct result) { s with fd := result, constructor := .outside }
  | tcpDone (result) (hc : s.constructor = .tcp) (hfd : 0 ≤ result) :
      Move s (.construct result)
        { s with fd := result, constructor := .setIOReused, created := s.created ++ [result] }
  | reused (result) (hc : s.constructor = .setIOReused) :
      Move s (.construct result) { s with constructor := .bindTo }
  | bindFails (result) (hc : s.constructor = .bindTo) :
      Move s (.construct result) { s.destroy with constructor := .runTest }
  | bindDone (result) (hc : s.constructor = .bindTo) :
      Move s (.construct result) { s with constructor := .listening, bound := s.bound ++ [s.fd] }
  | listenFails (result) (hc : s.constructor = .listening) :
      Move s (.construct result) { s.destroy with constructor := .runTest }
  | listenDone (result) (hc : s.constructor = .listening) :
      Move s (.construct result)
        { s with constructor := .runTest, listened := s.listened ++ [s.fd] }
  | runRunning (result) (hc : s.constructor = .runTest) (hrun : s.isRunning = true) :
      Move s (.construct result) { s with constructor := .connectHost }
  | runIdle (result) (hc : s.constructor = .runTest) (hrun : s.isRunning = false) :
      Move s (.construct result) { s with constructor := .assign }
  | overwritten (result) (hc : s.constructor = .assign) (hjoin : s.joinable = true) :
      Move s (.construct result) { s with terminated := true }
  | assigned (result) (hc : s.constructor = .assign) (hjoin : s.joinable = false) :
      Move s (.construct result)
        { s with joinable := true, io := .test, constructor := .connectHost }
  | connected (result) (hc : s.constructor = .connectHost) :
      Move s (.construct result) { s with constructor := .outside }
  | ioStored (result interrupted) (hio : s.io = .store) :
      Move s (.io result interrupted) { s with isRunning := true, io := .epollCreate }
  | ioMoved (result interrupted) (io : IoThread) (hio : s.io ≠ .absent) (hnext : io ≠ .absent) :
      Move s (.io result interrupted) { s with io := io }

theorem constructMove (s : Sys) (result : ℤ) :
    Move s (.construct result) (constructStep s result) := by
  cases hc : s.constructor with
  | outside =>
      simp only [constructStep, hc]
      exact Move.enter result hc
  | startTest =>
      simp only [constructStep, hc]
      split_ifs with hrun
      · exact Move.startRunning result hc hrun
      · exact Move.startIdle result hc ((Bool.not_eq_true _).mp hrun)
  | tcp =>
      simp only [constructStep, hc]
      split_ifs with hfd
      · exact Move.tcpThrows result hc hfd
      · exact Move.tcpDone result hc (Int.not_lt.mp hfd)
  | setIOReused =>
      simp only [constructStep, hc]
      exact Move.reused result hc
  | bindTo =>
      simp only [constructStep, hc]
      split_ifs with hret
      · exact Move.bindFails result hc
      · exact Move.bindDone result hc
  | listening =>
      simp only [constructStep, hc]
      split_ifs with hret
      · exact Move.listenFails result hc
      · exact Move.listenDone result hc
  | runTest =>
      simp only [constructStep, hc]
      split_ifs with hrun
      · exact Move.runRunning result hc hrun
      · exact Move.runIdle result hc ((Bool.not_eq_true _).mp hrun)
  | assign =>
      simp only [constructStep, hc]
      split_ifs with hjoin
      · rw [← hc]
        exact Move.overwritten result hc hjoin
      · exact Move.assigned result hc ((Bool.not_eq_true _).mp hjoin)
  | connectHost =>
      simp only [constructStep, hc]
      exact Move.connected result hc

theorem ioMove {s t : Sys} {result : ℤ} {interrupted : Bool}
    (h : ioStep s result interrupted = some t) : Move s (.io result interrupted) t := by
  have hmoved : ∀ io, s.io ≠ .absent → io ≠ .absent → some { s with io := io } = some t →
      Move s (.io result interrupted) t := by
    rintro io hio hnext heq
    obtain rfl := Option.some.inj heq
    exact Move.ioMoved result interrupted io hio hnext
  cases hio : s.io with
  | absent => simp [ioStep, hio] at h
  | left => simp [ioStep, hio] at h
  | store =>
      simp only [ioStep, hio, Option.some.injEq] at h
      subst h
      exact Move.ioStored result interrupted hio
  | test =>
      simp only [ioStep, hio] at h
      exact hmoved _ (by simp [hio]) (by split_ifs <;> simp) h
  | epollCreate =>
      simp only [ioStep, hio] at h
      exact hmoved _ (by simp [hio]) (by split_ifs <;> simp) h
  | epollCtl =>
      simp only [ioStep, hio] at h
      exact hmoved _ (by simp [hio]) (by split_ifs <;> simp) h
  | loopTest =>
      simp only [ioStep, hio] at h
      exact hmoved _ (by simp [hio]) (by split_ifs <;> simp) h
  | epollWait =>
      simp only [ioStep, hio] at h
      exact hmoved _ (by simp [hio]) (by split_ifs <;> simp) h

/-- **Step inversion.** -/
theorem move_of_step {s t : Sys} {a : Label} (h : step s a = some t) :
    s.terminated = false ∧ Move s a t := by
  unfold step at h
  split_ifs at h with hend
  refine ⟨(Bool.not_eq_true _).mp hend, ?_⟩
  cases a with
  | construct result =>
      obtain rfl := Option.some.inj h
      exact constructMove s result
  | io result interrupted => exact ioMove h

/-! ## Every run -/

/-- What the calls so far say about the descriptor, by the statement that is next. -/
def Holds (s : Sys) : Constructor → Prop
  | .setIOReused | .bindTo | .listening => s.fd ∈ s.created ∧ 0 ≤ s.fd
  | .runTest | .assign => s.created ≠ [] ∧ (0 ≤ s.fd → s.fd ∈ s.listened)
  | _ => 0 ≤ s.fd → s.fd ∈ s.listened

/-- Whatever was bound, listened on or closed was created, and only a server with a
socket made the io thread, which alone sets the flag. -/
structure Wrote (s : Sys) : Prop where
  bound : ∀ d ∈ s.bound, d ∈ s.created
  listened : ∀ d ∈ s.listened, d ∈ s.created ∧ 0 ≤ d
  destroyed : ∀ d ∈ s.destroyed, d ∈ s.created
  thread : s.joinable = true → s.created ≠ []
  flag : s.isRunning = true → s.joinable = true
  io : s.io ≠ .absent → s.joinable = true
  holds : Holds s s.constructor

theorem wrote_fresh : Wrote fresh where
  bound := by simp [fresh]
  listened := by simp [fresh]
  destroyed := by simp [fresh]
  thread := by simp [fresh]
  flag := by simp [fresh]
  io := by simp [fresh]
  holds := by simp [fresh, Holds]

/-- A statement that touches nothing. -/
theorem Wrote.goto {s : Sys} (h : Wrote s) {c : Constructor} (hc : Holds s c) :
    Wrote { s with constructor := c } :=
  { h with holds := hc }

/-- A new element of a list. -/
theorem forall_mem_concat {p : ℤ → Prop} {l : List ℤ} {d : ℤ} (h : ∀ e ∈ l, p e) (hd : p d) :
    ∀ e ∈ l ++ [d], p e := by
  intro e he
  rcases List.mem_append.mp he with he | he
  · exact h e he
  · rwa [List.mem_singleton.mp he]

/-- A socket that cannot be used is closed. -/
theorem Wrote.destroy {s : Sys} (h : Wrote s) (hfd : s.fd ∈ s.created) :
    Wrote { s.destroy with constructor := .runTest } where
  bound := h.bound
  listened := h.listened
  destroyed := forall_mem_concat h.destroyed hfd
  thread := h.thread
  flag := h.flag
  io := h.io
  holds := ⟨List.ne_nil_of_mem hfd, fun hneg => absurd hneg (show ¬(0 : ℤ) ≤ -1 by decide)⟩

/-- **Step lemma.** -/
theorem Wrote.move {s t : Sys} {a : Label} (h : Wrote s) (hm : Move s a t) : Wrote t := by
  have hholds := h.holds
  cases hm with
  | enter result hc =>
      rw [hc] at hholds
      exact h.goto hholds
  | startRunning result hc hrun =>
      rw [hc] at hholds
      exact h.goto ⟨h.thread (h.flag hrun), hholds⟩
  | startIdle result hc hrun =>
      rw [hc] at hholds
      exact h.goto hholds
  | tcpThrows result hc hfd =>
      refine { h with holds := fun hneg => ?_ }
      exact absurd hneg (Int.not_le.mpr hfd)
  | tcpDone result hc hfd =>
      have hold : ∀ d ∈ s.created, d ∈ s.created ++ [result] := fun d hd =>
        List.mem_append_left [result] hd
      exact {
        bound := fun d hd => hold d (h.bound d hd)
        listened := fun d hd => ⟨hold d (h.listened d hd).1, (h.listened d hd).2⟩
        destroyed := fun d hd => hold d (h.destroyed d hd)
        thread := fun _ => List.concat_ne_nil result s.created
        flag := h.flag
        io := h.io
        holds := ⟨List.mem_append_right s.created (List.mem_singleton.mpr rfl), hfd⟩ }
  | reused result hc =>
      rw [hc] at hholds
      exact h.goto hholds
  | bindFails result hc =>
      rw [hc] at hholds
      exact h.destroy hholds.1
  | bindDone result hc =>
      rw [hc] at hholds
      exact { h with bound := forall_mem_concat h.bound hholds.1, holds := hholds }
  | listenFails result hc =>
      rw [hc] at hholds
      exact h.destroy hholds.1
  | listenDone result hc =>
      rw [hc] at hholds
      have hmem : s.fd ∈ s.listened ++ [s.fd] :=
        List.mem_append_right s.listened (List.mem_singleton.mpr rfl)
      exact { h with
        listened := forall_mem_concat h.listened hholds
        holds := ⟨List.ne_nil_of_mem hholds.1, fun _ => hmem⟩ }
  | runRunning result hc hrun =>
      rw [hc] at hholds
      exact h.goto hholds.2
  | runIdle result hc hrun =>
      rw [hc] at hholds
      exact h.goto hholds
  | overwritten result hc hjoin => exact { h with }
  | assigned result hc hjoin =>
      rw [hc] at hholds
      exact { h with
        thread := fun _ => hholds.1
        flag := fun _ => rfl
        io := fun _ => rfl
        holds := hholds.2 }
  | connected result hc =>
      rw [hc] at hholds
      exact h.goto hholds
  | ioStored result interrupted hio =>
      have hjoin := h.io (by simp [hio])
      exact { h with flag := fun _ => hjoin, io := fun _ => hjoin }
  | ioMoved result interrupted io hio hnext => exact { h with io := fun _ => h.io hio }

/-- The bookkeeping is right in every reachable state. -/
theorem wrote_of_reachable {ok : Sys → Label → Prop} {s : Sys} (h : system.Reachable ok s) :
    Wrote s := by
  refine LTS.Reachable.induction (I := Wrote) ?_ ?_ h
  · rintro _ rfl
    exact wrote_fresh
  · intro s a t _ hs _ hstep
    exact hs.move (move_of_step hstep).2

/-! ## The runs in which `socket` is called in time -/

/-- What is still ahead when a statement is next. -/
def Ahead (s : Sys) : Constructor → Prop
  | .outside | .startTest | .tcp => s.joinable = false → s.created = []
  | .setIOReused | .bindTo =>
      s.joinable = false ∧ s.bound = [] ∧ s.listened = [] ∧ s.destroyed = []
  | .listening => s.joinable = false ∧ s.listened = [] ∧ s.destroyed = []
  | .runTest => s.joinable = true → s.isRunning = true
  | .assign => s.joinable = false
  | .connectHost => s.joinable = true

/-- The server was started at most once, and what is ahead is the rest of that start. -/
structure Orderly (s : Sys) : Prop where
  once : StartedOnce s
  ahead : Ahead s s.constructor

/-- A server whose socket was not created is untouched. -/
theorem Wrote.untouched {s : Sys} (h : Wrote s) (hnone : s.created = []) :
    s.bound = [] ∧ s.listened = [] ∧ s.destroyed = [] := by
  have hnot : ∀ d, d ∉ s.created := by
    rw [hnone]
    exact fun d => List.not_mem_nil
  refine ⟨?_, ?_, ?_⟩
  · exact List.eq_nil_iff_forall_not_mem.mpr fun d hd => hnot d (h.bound d hd)
  · exact List.eq_nil_iff_forall_not_mem.mpr fun d hd => hnot d (h.listened d hd).1
  · exact List.eq_nil_iff_forall_not_mem.mpr fun d hd => hnot d (h.destroyed d hd)

/-- A server without a descriptor listens on none. -/
theorem StartedOnce.not_mem_of_neg {s : Sys} (h : StartedOnce s) (hw : Wrote s)
    (hfd : s.fd < 0) (d : ℤ) : d ∉ s.listened := by
  intro hd
  have hkept := (h.kept d hd).1
  have hnonneg := (hw.listened d hd).2
  omega

/-- A statement that touches nothing. -/
theorem Orderly.goto {s : Sys} (h : Orderly s) {c : Constructor} (hc : Ahead s c) :
    Orderly { s with constructor := c } :=
  ⟨{ h.once with }, hc⟩

/-- A socket that cannot be used is closed, and was not listened on. -/
theorem Orderly.destroy {s : Sys} (h : Orderly s) (hjoin : s.joinable = false)
    (hnone : s.listened = []) : Orderly { s.destroy with constructor := .runTest } := by
  constructor
  · refine { h.once with kept := ?_ }
    intro d hd
    have hnot : d ∉ s.listened := by
      rw [hnone]
      exact List.not_mem_nil
    exact absurd hd hnot
  · intro hset
    exact absurd (hjoin.symm.trans hset) Bool.false_ne_true

/-- **Step lemma** for a call of `socket` that gives the first descriptor. -/
theorem Orderly.created {s : Sys} (h : Orderly s) (hw : Wrote s) (hjoin : s.joinable = false)
    (hnone : s.created = []) (fd : ℤ) :
    Orderly { s with fd := fd, constructor := .setIOReused, created := s.created ++ [fd] } := by
  obtain ⟨hbound, hlistened, hdestroyed⟩ := hw.untouched hnone
  refine ⟨{ h.once with created := ?_, kept := ?_ }, hjoin, hbound, hlistened, hdestroyed⟩
  · show (s.created ++ [fd]).length ≤ 1
    rw [hnone]
    exact Nat.le_refl 1
  · intro d hd
    rw [hlistened] at hd
    exact absurd hd List.not_mem_nil

/-- **Step lemma** for the first `listen`. -/
theorem Orderly.listens {s : Sys} (h : Orderly s) (hjoin : s.joinable = false)
    (hlistened : s.listened = []) (hdestroyed : s.destroyed = []) :
    Orderly { s with constructor := .runTest, listened := s.listened ++ [s.fd] } := by
  refine ⟨{ h.once with listened := ?_, kept := ?_ }, ?_⟩
  · show (s.listened ++ [s.fd]).length ≤ 1
    rw [hlistened]
    exact Nat.le_refl 1
  · show ∀ d ∈ s.listened ++ [s.fd], s.fd = d ∧ d ∉ s.destroyed
    rw [hlistened, hdestroyed]
    intro d hd
    exact ⟨(List.mem_singleton.mp hd).symm, List.not_mem_nil⟩
  · intro hset
    exact absurd (hjoin.symm.trans hset) Bool.false_ne_true

/-- **Step lemma.** -/
theorem Orderly.move {s t : Sys} {a : Label} (h : Orderly s) (hw : Wrote s)
    (hok : threadless s a) (hm : Move s a t) : Orderly t := by
  have hahead := h.ahead
  cases hm with
  | enter result hc =>
      rw [hc] at hahead
      exact h.goto hahead
  | startRunning result hc hrun => exact h.goto fun _ => hrun
  | startIdle result hc hrun =>
      rw [hc] at hahead
      exact h.goto hahead
  | tcpThrows result hc hfd =>
      rw [hc] at hahead
      refine ⟨{ h.once with kept := ?_ }, hahead⟩
      intro d hd
      -- there is nothing that the call could replace
      rcases hok hc with hjoin | ⟨-, hneg⟩
      · rw [(hw.untouched (hahead hjoin)).2.1] at hd
        exact absurd hd List.not_mem_nil
      · exact absurd hd (h.once.not_mem_of_neg hw hneg d)
  | tcpDone result hc hfd =>
      rw [hc] at hahead
      have hjoin : s.joinable = false := by
        rcases hok hc with hjoin | ⟨hneg, -⟩
        · exact hjoin
        · exact absurd hfd (Int.not_le.mpr hneg)
      exact h.created hw hjoin (hahead hjoin) result
  | reused result hc =>
      rw [hc] at hahead
      exact h.goto hahead
  | bindFails result hc =>
      rw [hc] at hahead
      exact h.destroy hahead.1 hahead.2.2.1
  | bindDone result hc =>
      rw [hc] at hahead
      obtain ⟨hjoin, hbound, hlistened, hdestroyed⟩ := hahead
      refine ⟨{ h.once with bound := ?_ }, hjoin, hlistened, hdestroyed⟩
      show (s.bound ++ [s.fd]).length ≤ 1
      rw [hbound]
      exact Nat.le_refl 1
  | listenFails result hc =>
      rw [hc] at hahead
      exact h.destroy hahead.1 hahead.2.1
  | listenDone result hc =>
      rw [hc] at hahead
      exact h.listens hahead.1 hahead.2.1 hahead.2.2
  | runRunning result hc hrun => exact h.goto (hw.flag hrun)
  | runIdle result hc hrun =>
      rw [hc] at hahead
      refine h.goto ?_
      by_contra hset
      have hrunning := hahead ((Bool.not_eq_false _).mp hset)
      exact absurd (hrun.symm.trans hrunning) Bool.false_ne_true
  | overwritten result hc hjoin =>
      rw [hc] at hahead
      exact absurd (hahead.symm.trans hjoin) Bool.false_ne_true
  | assigned result hc hjoin => exact ⟨{ h.once with }, rfl⟩
  | connected result hc =>
      rw [hc] at hahead
      refine h.goto fun hunset => ?_
      exact absurd (hunset.symm.trans hahead) Bool.false_ne_true
  | ioStored result interrupted hio =>
      refine ⟨{ h.once with }, ?_⟩
      show Ahead { s with isRunning := true, io := .epollCreate } s.constructor
      cases hc : s.constructor with
      | runTest => exact fun _ => rfl
      | _ =>
          rw [hc] at hahead
          exact hahead
  | ioMoved result interrupted io hio hnext =>
      refine ⟨{ h.once with }, ?_⟩
      show Ahead { s with io := io } s.constructor
      cases hc : s.constructor with
      | _ =>
          rw [hc] at hahead
          exact hahead

theorem orderly_of_reachable {s : Sys} (h : system.Reachable threadless s) : Orderly s := by
  refine LTS.Reachable.induction (I := Orderly) ?_ ?_ h
  · rintro _ rfl
    exact ⟨⟨by simp [fresh], by simp [fresh], by simp [fresh], by simp [fresh], rfl⟩, fun _ => rfl⟩
  · intro s a t hreach hs hok hstep
    exact hs.move (wrote_of_reachable hreach) hok (move_of_step hstep).2

/-! ## The runs in which it is not -/

/-- A second socket was created, or the server has lost the descriptor it listened on. -/
def Spoilt (s : Sys) : Prop :=
  2 ≤ s.created.length ∨ s.fd < 0 ∧ ∃ d ∈ s.listened, 0 ≤ d

theorem StartedOnce.not_spoilt {s : Sys} (h : StartedOnce s) : ¬Spoilt s := by
  rintro (htwo | ⟨hneg, d, hd, hnonneg⟩)
  · have hone := h.created
    omega
  · have hkept := (h.kept d hd).1
    omega

/-- A socket is created while there is one. -/
theorem two_le_length_concat {l : List ℤ} (h : l ≠ []) (d : ℤ) : 2 ≤ (l ++ [d]).length := by
  have hpos := List.length_pos_of_ne_nil h
  rw [List.length_append, List.length_singleton]
  omega

/-- A call of `socket` while `ioThread` holds a thread. -/
theorem spoilt_of_late {s t : Sys} {a : Label} (hw : Wrote s) (hlate : ¬threadless s a)
    (hm : Move s a t) : Spoilt t := by
  cases a with
  | io result interrupted => exact absurd trivial hlate
  | construct result =>
      rw [threadless, Classical.not_imp, not_or, Bool.not_eq_false] at hlate
      obtain ⟨htcp, hjoin, hkeeps⟩ := hlate
      cases hm with
      | tcpThrows _ hc hfd =>
          have hheld : 0 ≤ s.fd := by
            by_contra hneg
            exact hkeeps ⟨hfd, Int.not_le.mp hneg⟩
          have hholds := hw.holds
          rw [htcp] at hholds
          exact Or.inr ⟨hfd, s.fd, hholds hheld, hheld⟩
      | tcpDone _ hc hfd => exact Or.inl (two_le_length_concat (hw.thread hjoin) result)
      | _ => exact absurd ‹s.constructor = _› (by rw [htcp]; decide)

/-- No step repairs a spoilt server. -/
theorem Spoilt.move {s t : Sys} {a : Label} (h : Spoilt s) (hw : Wrote s) (hm : Move s a t) :
    Spoilt t := by
  cases hm with
  | tcpThrows result hc hfd =>
      rcases h with htwo | ⟨-, hlistened⟩
      · exact Or.inl htwo
      · exact Or.inr ⟨hfd, hlistened⟩
  | tcpDone result hc hfd =>
      left
      apply two_le_length_concat
      rcases h with htwo | ⟨-, d, hd, -⟩
      · exact List.ne_nil_of_length_pos (Nat.lt_of_lt_of_le Nat.zero_lt_two htwo)
      · exact List.ne_nil_of_mem (hw.listened d hd).1
  | bindFails result hc | listenFails result hc =>
      rcases h with htwo | ⟨-, hlistened⟩
      · exact Or.inl htwo
      · exact Or.inr ⟨show (-1 : ℤ) < 0 by decide, hlistened⟩
  | listenDone result hc =>
      rcases h with htwo | ⟨hneg, d, hd, hnonneg⟩
      · exact Or.inl htwo
      · exact Or.inr ⟨hneg, d, List.mem_append_left [s.fd] hd, hnonneg⟩
  | _ => exact h

/-! ## The exact condition -/

/-- **The shared server is started once** exactly in the runs in which every call of
`socket` for it comes while `ioThread` holds no thread, or finds no descriptor and gets
none. -/
theorem startedOnce_iff {s : Sys} {as : List Label}
    (h : system.Path (fun _ _ => True) fresh as s) :
    StartedOnce s ↔ system.Path threadless fresh as s := by
  refine LTS.Path.exact (B := Spoilt) rfl h ?_ ?_ ?_ ?_ fun _ hs => hs.not_spoilt
  · rintro _ rfl
    exact (orderly_of_reachable (LTS.Reachable.init rfl)).once
  · intro s a t hreach _ hok hstep
    exact (orderly_of_reachable (hreach.step hok hstep)).once
  · intro s a t hreach _ hlate hstep
    exact spoilt_of_late (wrote_of_reachable hreach) hlate (move_of_step hstep).2
  · intro s a t hreach hbad _ hstep
    exact hbad.move (wrote_of_reachable hreach) (move_of_step hstep).2

/-- A constructor that runs alone. -/
def firstPipe : List Label :=
  [.construct 0, .construct 0, .construct 3, .construct 0, .construct 0, .construct 0,
    .construct 0, .construct 0, .construct 0]

/-- The io thread sets the flag before the second constructor tests it. -/
def timelyRun : List Label :=
  firstPipe ++ [.io 0 false, .io 0 false] ++
    [.construct 0, .construct 0, .construct 0, .construct 0]

/-- `startedOnce_iff` at a run of two constructors. -/
theorem startedOnce_timely : ∃ s, StartedOnce s ↔ system.Path threadless fresh timelyRun s :=
  ⟨_, startedOnce_iff (LTS.path_of_exec (show LTS.exec _ _ _ timelyRun = some _ from rfl))⟩

/-- The second constructor comes before the io thread has made a step, and its `bind`
fails. -/
def hastyRun : List Label :=
  firstPipe ++
    [.construct 0, .construct 0, .construct 5, .construct 0, .construct (-1), .construct 0,
      .construct 0]

/-- Two sockets are created and the thread is overwritten. -/
theorem started_twice :
    ¬∀ as s, system.Path (fun _ _ => True) fresh as s → StartedOnce s := by
  intro hall
  have hpath := LTS.path_of_exec
    (show LTS.exec system (fun _ _ => True) fresh hastyRun = some _ from rfl)
  exact absurd (hall hastyRun _ hpath).thread (by decide)

/-! ## When the condition holds -/

/-- The test in `start` does not come between the making of the io thread and the
store of that thread. -/
def timely (s : Sys) : Label → Prop
  | .construct _ => s.constructor = .startTest → s.isRunning = true ∨ s.joinable = false
  | .io _ _ => True

/-- After a timely test there is no thread when `socket` is called. -/
theorem Move.joinable_of_tcp {s t : Sys} {a : Label} (hm : Move s a t) (hok : timely s a)
    (hs : s.constructor = .tcp → s.joinable = false) :
    t.constructor = .tcp → t.joinable = false := by
  cases hm with
  | startIdle result hc hrun =>
      intro _
      rcases hok hc with hset | hjoin
      · exact absurd (hrun.symm.trans hset) Bool.false_ne_true
      · exact hjoin
  | ioStored => exact hs
  | ioMoved => exact hs
  | overwritten => exact hs
  | _ =>
      intro htcp
      cases htcp

/-- Timely tests are enough. -/
theorem threadless_of_timely {s : Sys} {as : List Label} (h : system.Path timely fresh as s) :
    system.Path threadless fresh as s ∧ (s.constructor = .tcp → s.joinable = false) := by
  induction h with
  | nil => exact ⟨LTS.Path.nil fresh, fun _ => rfl⟩
  | @snoc t _ as a _ hok hstep ih =>
      obtain ⟨hpath, hjoin⟩ := ih
      refine ⟨LTS.Path.snoc hpath ?_ hstep, (move_of_step hstep).2.joinable_of_tcp hok hjoin⟩
      cases a with
      | io result interrupted => trivial
      | construct result => exact fun htcp => Or.inl (hjoin htcp)

end TcpPipe
