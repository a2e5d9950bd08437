/-
# The select server (`class TcpServer` in `tcpserver/src/tcpserver.cpp`)

One object and three threads of control: the thread that calls `start` and stays
in `run`, the process thread, and a thread that calls `stop`.  The model is a
transition system over the whole object, with these atomic steps:

* every critical section of `mutex` and of the pool's own mutex;
* every system call of `run` (`select`, `accept`, `recv`), whose outcome the label
  carries;
* between them, each test of `isRunning` and each stretch of `run`, `process` or
  `stop` that touches at most one thing the other threads use.

Nothing locks the map `clients`; its operations are steps here all the same, and so is
the handler's search in it with the test and the copy of what was found (`route`).

`FD_SET` and its kin are defined for descriptors in `[0, FD_SETSIZE)` only, and
advancing `end()` is undefined: such a step leads to `undefined`, where the thread
has no further step.  The `memset` of the Show handler is longer than the field, and
its last 70 bytes lie behind the packet: the label of the step says which packet
begins there, if one does, and that packet is hit (`rewritePacket`).  What else can lie
behind a packet is outside the modelled memory.

The lists `received`, `enqueued`, `dequeued`, `handled`, `replies` and `dropped`
and the map `origin` record the history of the run; no step depends on them.
-/
import CppShared.ObjectPool
import CppShared.ServerHandler
import CppShared.Socket
import CppShared.Transition
import Mathlib.Data.Finset.Basic
import Mathlib.Data.Finset.Filter

namespace TcpServer

/-! ## The state -/

/-- `enum State`. -/
inductive State
  | none
  | idel
  | dataReady
  | handling
  | terminate
  deriving DecidableEq, Repr

/-- Where the starting thread is in `start` and `run`.  `ready` is `fdset_`, `it` a
position in `clients`, `sock` and `packet` what the pointers of these names hold. -/
inductive Run
  | idle
  /-- `init` succeeded, `state` is about to be assigned. -/
  | listening
  /-- About to create the process thread. -/
  | launching
  /-- At the first line of `run`. -/
  | entering
  /-- At `while (isRunning.load())`. -/
  | head
  /-- In `select`. -/
  | selecting
  /-- At the test for a new connection. -/
  | testing (ready : Finset ℤ)
  /-- In `accept`. -/
  | accepting (ready : Finset ℤ)
  /-- With a new socket, about to enter it into `fdset` and `clients`. -/
  | accepted (ready : Finset ℤ) (sock : ℕ)
  /-- At the test `it != clients.end()`. -/
  | walking (ready : Finset ℤ) (it : ℕ)
  /-- About to call `objectPool.get()`. -/
  | getting (ready : Finset ℤ) (it sock : ℕ)
  /-- In `recv`. -/
  | receiving (ready : Finset ℤ) (it sock packet : ℕ)
  /-- In the branch `if (len <= 0)`. -/
  | dropping (ready : Finset ℤ) (it sock packet : ℕ)
  /-- About to write `packet->src`. -/
  | stamping (ready : Finset ℤ) (it sock packet : ℕ)
  /-- About to lock `mutex` and queue the packet. -/
  | queueing (ready : Finset ℤ) (it packet : ℕ)
  /-- `start` has returned. -/
  | returned (code : ℤ)
  /-- `start` has thrown. -/
  | threw
  | undefined
  deriving DecidableEq

/-- Where the process thread is in `process`. -/
inductive Process
  /-- There is no thread yet. -/
  | absent
  /-- At `while (isRunning.load())`. -/
  | checking
  /-- In the critical section, at `condit.wait_for`. -/
  | waiting
  /-- With a packet, at `router.find`. -/
  | handling (packet : ℕ)
  /-- In `TcpServer_Show`, with the client found. -/
  | replying (packet sock : ℕ)
  /-- In `client->sendMessage`. -/
  | sending (packet sock : ℕ)
  /-- About to give the packet back to the pool. -/
  | returning (packet : ℕ)
  /-- Returned from `process`. -/
  | exited
  | undefined
  deriving DecidableEq

/-- Where the stopping thread is in `stop`. -/
inductive Stop
  | outside
  /-- `isRunning` was set, it is about to be cleared. -/
  | storing
  /-- At `processThread.join()`. -/
  | joining
  /-- About to destroy the listening socket. -/
  | closing
  /-- At `clients.begin()`. -/
  | beginning
  /-- At the test `it != clients.end()`; `it` is the entry it designates. -/
  | closingClients (it : Option (Str × ℕ))
  /-- The socket of this entry is destroyed, `it` is about to be advanced. -/
  | advancing (it : Str × ℕ)
  /-- At `while (!dataQueue.empty())`. -/
  | draining
  /-- About to take the front packet. -/
  | popping
  /-- About to give the packet back to the pool. -/
  | pushing (packet : ℕ)
  /-- `join` on a thread object without a thread threw. -/
  | threw
  | undefined
  deriving DecidableEq

/-- A packet on its way: the connection it came from, the object and its content. -/
structure Delivery where
  conn : ℕ
  obj : ℕ
  packet : Packet
  deriving DecidableEq

/-- The handlers of `router`. -/
inductive Handler
  | show
  deriving DecidableEq, Repr

/-- The server object, its threads, the descriptors and the history of the run. -/
structure Sys where
  socket : Socket
  isRunning : Bool
  clients : OrderedMap Str ℕ
  state : State
  dataQueue : List ℕ
  objectPool : ObjectPool
  memory : Memory
  /-- Every `Socket` object that `accepting` made. -/
  sockets : List Socket
  /-- The descriptors opened for this server and not closed. -/
  openFds : Finset ℤ
  /-- `processThread` holds a thread. -/
  joinable : Bool
  /-- The locals of `run`; `tv` in microseconds. -/
  fdset : Finset ℤ
  maxFD : ℤ
  tv : ℕ
  runner : Run
  processor : Process
  stopper : Stop
  /-- The connection whose bytes an object holds. -/
  origin : ℕ → ℕ
  received : List (ℕ × Str)
  enqueued : List Delivery
  dequeued : List Delivery
  handled : List Delivery
  replies : List (ℕ × Packet)
  dropped : List ℕ

/-! ## Labels -/

/-- How `init` ends. -/
inductive Init
  | tcpFails
  /-- `bind` or `listen` fails on the new socket. -/
  | bindOrListenFails (fd : ℤ)
  | listens (fd : ℤ)
  deriving DecidableEq, Repr

/-- What `select` returns, with `fdset_` when a descriptor is ready. -/
inductive Selected
  | error
  | timeout
  | ready (fds : Finset ℤ)
  deriving DecidableEq

/-- What `accept` and `getnameinfo` return. -/
inductive Accepted
  | fails
  /-- `accept` succeeds and `getnameinfo` does not. -/
  | unnamed (fd : ℤ)
  | connection (fd : ℤ) (addr : Addr)
  deriving DecidableEq, Repr

/-- A step: which thread moves, and what the system calls return. -/
inductive Label
  /-- `start` is called and its `init` ends like this. -/
  | start (result : Init)
  /-- The next local step of `start` or `run`. -/
  | run
  /-- `select` returns and leaves `left` microseconds in `tv`. -/
  | select (result : Selected) (left : ℕ)
  | accept (result : Accepted)
  | recv (result : Received)
  /-- The branch `if (len <= 0)` of `run`. -/
  | disconnect
  /-- The next step of the process thread. -/
  | process
  /-- The process thread rewrites the packet in `TcpServer_Show`.  `stack` is what its
  `%s` reads behind the local array; with `behind = some (obj, gap)` the packet `obj`
  begins `gap` bytes behind the one it rewrites. -/
  | answer (stack : Str) (behind : Option (ℕ × ℕ))
  /-- The next step of `stop`; from outside it is a call. -/
  | stop
  deriving DecidableEq

/-- The labels of the process thread. -/
def Label.isProcess : Label → Bool
  | .process => true
  | .answer _ _ => true
  | _ => false

/-! ## Helpers -/

/-- The socket object behind a pointer. -/
def Sys.socketAt (s : Sys) (sock : ℕ) : Socket := s.sockets[sock]?.getD Socket.new

/-- `FD_SET`, `FD_CLR` and `FD_ISSET` are defined for this descriptor. -/
def inFdSet (fd : ℤ) : Prop := 0 ≤ fd ∧ fd < 1024

instance (fd : ℤ) : Decidable (inFdSet fd) := inferInstanceAs (Decidable (0 ≤ fd ∧ fd < 1024))

/-- `accept` and `socket` return a descriptor that is not in use. -/
def freshFd (s : Sys) (fd : ℤ) : Prop := 0 ≤ fd ∧ fd ∉ s.openFds

instance (s : Sys) (fd : ℤ) : Decidable (freshFd s fd) :=
  inferInstanceAs (Decidable (0 ≤ fd ∧ fd ∉ s.openFds))

/-- The history entry of an object. -/
def Sys.delivery (s : Sys) (obj : ℕ) : Delivery := ⟨s.origin obj, obj, s.memory.packet obj⟩

/-- `Socket::destroy` on a client socket. -/
def destroyClient (s : Sys) (sock : ℕ) : Sys :=
  { s with
    sockets := s.sockets.set sock (s.socketAt sock).destroy
    openFds := (s.socketAt sock).closes s.openFds }

/-- `objectPool.push`, without the effect on the caller's pointer. -/
def giveBack (s : Sys) (packet : ℕ) : Sys :=
  { s with
    objectPool := (s.objectPool.push s.memory (some packet)).1
    memory := (s.objectPool.push s.memory (some packet)).2.1 }

/-! ## `start` -/

/-- `init`, and what `start` does when it fails. -/
def start (s : Sys) (result : Init) : Option Sys :=
  if s.runner = .idle then
    match result with
    | .tcpFails => some { s with socket := { s.socket with fd := -1 }, runner := .threw }
    | .bindOrListenFails fd =>
        if freshFd s fd then
          some { s with
            socket := { s.socket with fd := fd }.destroy
            openFds := { s.socket with fd := fd }.closes (insert fd s.openFds)
            runner := .returned (-1) }
        else none
    | .listens fd =>
        if freshFd s fd then
          some { s with
            socket := { s.socket with fd := fd }
            openFds := insert fd s.openFds
            runner := .listening }
        else none
  else none

/-- The first lines of `run`. -/
def enter (s : Sys) : Sys :=
  if inFdSet s.socket.fd then
    { s with fdset := {s.socket.fd}, maxFD := s.socket.fd, tv := 3000000, runner := .head }
  else { s with runner := .undefined }

/-! ## The loop of `run` -/

/-- `select`; it looks at the members of `fdset` up to `maxFD`. -/
def select (s : Sys) (result : Selected) (left : ℕ) : Option Sys :=
  if s.runner = .selecting ∧ left ≤ s.tv then
    match result with
    | .error => some { s with tv := left, runner := .head }
    | .timeout => if left = 0 then some { s with tv := left, runner := .head } else none
    | .ready fds =>
        if fds.Nonempty ∧ fds ⊆ s.fdset.filter (fun fd => fd ≤ s.maxFD) then
          some { s with tv := left, runner := .testing fds }
        else none
  else none

/-- `FD_ISSET(socket.fd, &fdset_)`. -/
def testListen (s : Sys) (ready : Finset ℤ) : Sys :=
  if inFdSet s.socket.fd then
    if s.socket.fd ∈ ready then { s with runner := .accepting ready }
    else { s with runner := .walking ready 0 }
  else { s with runner := .undefined }

/-- `socket.accepting()`; without a socket `run` returns. -/
def accept (s : Sys) (result : Accepted) : Option Sys :=
  match s.runner with
  | .accepting ready =>
      match result with
      | .fails => some { s with runner := .returned (-1) }
      | .unnamed fd =>
          if freshFd s fd ∧ s.socket.fd ∈ s.openFds then
            some { s with openFds := insert fd s.openFds, runner := .returned (-1) }
          else none
      | .connection fd addr =>
          if freshFd s fd ∧ s.socket.fd ∈ s.openFds then
            some { s with
              sockets := s.sockets ++ [Socket.accepting fd addr]
              openFds := insert fd s.openFds
              runner := .accepted ready s.sockets.length }
          else none
  | _ => none

/-- The new socket goes into `fdset` and `clients`. -/
def register (s : Sys) (ready : Finset ℤ) (sock : ℕ) : Sys :=
  if inFdSet (s.socketAt sock).fd then
    { s with
      fdset := insert (s.socketAt sock).fd s.fdset
      maxFD := max s.maxFD (s.socketAt sock).fd
      clients := s.clients.insert (s.socketAt sock).getName sock
      runner := .walking ready 0 }
  else { s with runner := .undefined }

/-- One turn of the receive loop up to `objectPool.get()`: after an erasure the
loop still advances the iterator that `erase` returned. -/
def walk (s : Sys) (ready : Finset ℤ) (it : ℕ) : Sys :=
  match s.clients.entries[it]? with
  | none => { s with runner := .head }
  | some (_, sock) =>
      if (s.socketAt sock).fd < 0 then
        { s with
          clients := s.clients.eraseAt it
          runner :=
            if it < (s.clients.eraseAt it).entries.length then .walking ready (it + 1)
            else .undefined }
      else if (s.socketAt sock).fd ∉ ready then { s with runner := .walking ready (it + 1) }
      else { s with runner := .getting ready it sock }

/-- `objectPool.get()`. -/
def getPacket (s : Sys) (ready : Finset ℤ) (it sock : ℕ) : Sys :=
  { s with
    objectPool := (s.objectPool.get s.memory).2.1
    memory := (s.objectPool.get s.memory).2.2
    runner := .receiving ready it sock (s.objectPool.get s.memory).1 }

/-- `clientSocket->recvMessage((unsigned char*)packet, MAX_BUFFER_LEN)`. -/
def recv (s : Sys) (result : Received) : Option Sys :=
  match s.runner with
  | .receiving ready it sock packet =>
      match result with
      | .fails => some { s with runner := .dropping ready it sock packet }
      | .data bytes =>
          if 0 < bytes.length ∧ bytes.length ≤ maxBufferLen ∧ (s.socketAt sock).fd ∈ s.openFds then
            some { s with
              memory := s.memory.write packet ((s.memory.packet packet).write 0 bytes)
              origin := Function.update s.origin packet sock
              received := s.received ++ [(sock, bytes)]
              runner := .stamping ready it sock packet }
          else none
  | _ => none

/-- The branch `if (len <= 0)`: the descriptor leaves `fdset`, the socket is
destroyed, and the loop continues without the packet. -/
def disconnect (s : Sys) : Option Sys :=
  match s.runner with
  | .dropping ready it sock packet =>
      if inFdSet (s.socketAt sock).fd then
        some { destroyClient s sock with
          fdset := s.fdset.erase (s.socketAt sock).fd
          dropped := s.dropped ++ [packet]
          runner := .walking ready (it + 1) }
      else some { s with dropped := s.dropped ++ [packet], runner := .undefined }
  | _ => none

/-- `packet->src` gets the name of the client. -/
def stamp (s : Sys) (ready : Finset ℤ) (it sock packet : ℕ) : Sys :=
  { s with
    memory := s.memory.write packet
      (((s.memory.packet packet).write 6 (List.replicate 32 0)).write 6 (s.socketAt sock).getName)
    runner := .queueing ready it packet }

/-- The critical section at the end of the loop body. -/
def enqueue (s : Sys) (ready : Finset ℤ) (it packet : ℕ) : Sys :=
  if s.state ≠ .terminate then
    { s with
      dataQueue := s.dataQueue ++ [packet]
      state := .dataReady
      enqueued := s.enqueued ++ [s.delivery packet]
      runner := .walking ready (it + 1) }
  else { s with dropped := s.dropped ++ [packet], runner := .walking ready (it + 1) }

/-- The next local step of `start` or `run`. -/
def runStep (s : Sys) : Option Sys :=
  match s.runner with
  | .listening => some { s with state := .idel, runner := .launching }
  | .launching => some { s with processor := .checking, joinable := true, runner := .entering }
  | .entering => some (enter s)
  | .head => some { s with runner := if s.isRunning then .selecting else .returned 0 }
  | .testing ready => some (testListen s ready)
  | .accepted ready sock => some (register s ready sock)
  | .walking ready it => some (walk s ready it)
  | .getting ready it sock => some (getPacket s ready it sock)
  | .stamping ready it sock packet => some (stamp s ready it sock packet)
  | .queueing ready it packet => some (enqueue s ready it packet)
  | _ => none

/-! ## `process` -/

/-- `router`, filled by the constructor. -/
def router : OrderedMap ℕ Handler := OrderedMap.empty.insert tcpMessageShow .show

/-- `getClient`. -/
def getClient (s : Sys) (name : Str) : Option ℕ := s.clients.find? name

/-- `condit.wait_for` and what follows in the critical section.  The wait ends by a
notification with the predicate true, or by its timeout. -/
def waitAndTake (s : Sys) : Sys :=
  if s.state = .dataReady ∨ s.state = .terminate then
    match s.dataQueue with
    | [] => { s with processor := .undefined }
    | packet :: rest =>
        let taken := { s with
          dataQueue := rest
          state := if rest.isEmpty then .idel else s.state
          dequeued := s.dequeued ++ [s.delivery packet] }
        if taken.state = .terminate then
          { giveBack taken packet with state := .none, processor := .exited }
        else { taken with processor := .handling packet }
  else { s with processor := .checking }

/-- `router.find(type)`, and `getClient` in `TcpServer_Show`. -/
def route (s : Sys) (packet : ℕ) : Sys :=
  let handled := s.handled ++ [s.delivery packet]
  match router.find? (s.memory.packet packet).type with
  | none => { s with handled := handled, processor := .returning packet }
  | some .show =>
      match getClient s ((s.memory.packet packet).cstr 6) with
      | none => { s with handled := handled, processor := .returning packet }
      | some sock => { s with handled := handled, processor := .replying packet sock }

/-- A packet begins `gap` bytes behind `packet`, and within the reach of its `memset`. -/
def inReach (s : Sys) (packet : ℕ) (behind : Option (ℕ × ℕ)) : Prop :=
  ∀ b ∈ behind, b.1 ≠ packet ∧ b.1 < s.memory.next ∧ b.2 < 70

instance (s : Sys) (packet : ℕ) (behind : Option (ℕ × ℕ)) :
    Decidable (inReach s packet behind) :=
  inferInstanceAs (Decidable (∀ b ∈ behind, _))

/-- The end of the `memset`, in the packet that lies there. -/
def overrun (m : Memory) : Option (ℕ × ℕ) → Memory
  | none => m
  | some (obj, gap) => m.write obj ((m.packet obj).wiped (70 - gap))

/-- `TcpServer_Show` from `memcpy` to `printf`. -/
def rewritePacket (s : Sys) (stack : Str) (behind : Option (ℕ × ℕ)) : Option Sys :=
  match s.processor with
  | .replying packet sock =>
      if inReach s packet behind then
        some { s with
          memory := (overrun s.memory behind).write packet
            (ServerHandler.answer (s.memory.packet packet) stack).reply
          processor := .sending packet sock }
      else none
  | _ => none

/-- `client->sendMessage`: without a descriptor no `send` succeeds and the loop does not
end.  A `send` that fails on an open connection leaves the thread in the loop, too: it
takes no step. -/
def sendReply (s : Sys) (packet sock : ℕ) : Sys :=
  if (s.socketAt sock).fd < 0 then s
  else { s with
    replies := s.replies ++ [(sock, s.memory.packet packet)]
    processor := .returning packet }

/-- The next step of the process thread. -/
def processStep (s : Sys) : Option Sys :=
  match s.processor with
  | .checking => some { s with processor := if s.isRunning then .waiting else .exited }
  | .waiting => some (waitAndTake s)
  | .handling packet => some (route s packet)
  | .sending packet sock => some (sendReply s packet sock)
  | .returning packet => some { giveBack s packet with processor := .checking }
  | _ => none

/-! ## `stop` -/

/-- `processThread.join()`. -/
def join (s : Sys) : Option Sys :=
  if s.joinable then
    if s.processor = .exited then some { s with joinable := false, stopper := .closing } else none
  else some { s with stopper := .threw }

/-- The next step of `stop`. -/
def stopStep (s : Sys) : Option Sys :=
  match s.stopper with
  | .outside => some { s with stopper := if s.isRunning then .storing else .closing }
  | .storing => some { s with isRunning := false, stopper := .joining }
  | .joining => join s
  | .closing =>
      some { s with
        socket := s.socket.destroy
        openFds := s.socket.closes s.openFds
        stopper := .beginning }
  | .beginning => some { s with stopper := .closingClients s.clients.first? }
  | .closingClients none => some { s with stopper := .draining }
  | .closingClients (some it) =>
      if it ∈ s.clients.entries then
        some { destroyClient s it.2 with stopper := .advancing it }
      else some { s with stopper := .undefined }
  | .advancing it =>
      if it ∈ s.clients.entries then
        some { s with stopper := .closingClients (s.clients.next? it.1) }
      else some { s with stopper := .undefined }
  | .draining => some { s with stopper := if s.dataQueue.isEmpty then .outside else .popping }
  | .popping =>
      match s.dataQueue with
      | [] => some { s with stopper := .undefined }
      | packet :: rest => some { s with dataQueue := rest, stopper := .pushing packet }
  | .pushing packet => some { giveBack s packet with stopper := .draining }
  | _ => none

/-! ## The system -/

/-- One step of the server and everything around it. -/
def step (s : Sys) : Label → Option Sys
  | .start result => start s result
  | .run => runStep s
  | .select result left => select s result left
  | .accept result => accept s result
  | .recv result => recv s result
  | .disconnect => disconnect s
  | .process => processStep s
  | .answer stack behind => rewritePacket s stack behind
  | .stop => stopStep s

/-- A constructed server. -/
def fresh : Sys where
  socket := Socket.new
  isRunning := true
  clients := OrderedMap.empty
  state := .none
  dataQueue := []
  objectPool := ⟨1024, []⟩
  memory := ⟨0, [], fun _ => Packet.zero⟩
  sockets := []
  openFds := ∅
  joinable := false
  fdset := ∅
  maxFD := 0
  tv := 0
  runner := .idle
  processor := .absent
  stopper := .outside
  origin := fun _ => 0
  received := []
  enqueued := []
  dequeued := []
  handled := []
  replies := []
  dropped := []

/-- The server with one call of `start` and any number of calls of `stop`, one
after another. -/
def system : LTS Sys Label where
  init s := s = fresh
  step := step

/-! ## What a step can do

`Move s a t` lists the outcomes of every label once; the invariants are proved by
cases on it and never unfold the step function. -/

/-- The outcomes of a step, one constructor for each path through the code. -/
inductive Move (s : Sys) : Label → Sys → Prop
  | tcpFails (hr : s.runner = .idle) :
      Move s (.start .tcpFails) { s with socket := { s.socket with fd := -1 }, runner := .threw }
  | initFails (fd : ℤ) (hr : s.runner = .idle) (hfd : freshFd s fd) :
      Move s (.start (.bindOrListenFails fd))
        { s with
          socket := { s.socket with fd := fd }.destroy
          openFds := { s.socket with fd := fd }.closes (insert fd s.openFds)
          runner := .returned (-1) }
  | listens (fd : ℤ) (hr : s.runner = .idle) (hfd : freshFd s fd) :
      Move s (.start (.listens fd))
        { s with
          socket := { s.socket with fd := fd }
          openFds := insert fd s.openFds
          runner := .listening }
  | idel (hr : s.runner = .listening) :
      Move s .run { s with state := .idel, runner := .launching }
  | launched (hr : s.runner = .launching) :
      Move s .run { s with processor := .checking, joinable := true, runner := .entering }
  | entered (hr : s.runner = .entering) (hfd : inFdSet s.socket.fd) :
      Move s .run
        { s with fdset := {s.socket.fd}, maxFD := s.socket.fd, tv := 3000000, runner := .head }
  | enterUndefined (hr : s.runner = .entering) (hfd : ¬inFdSet s.socket.fd) :
      Move s .run { s with runner := .undefined }
  | looped (hr : s.runner = .head) :
      Move s .run { s with runner := if s.isRunning then .selecting else .returned 0 }
  | selectedNone (result : Selected) (left : ℕ) (hr : s.runner = .selecting) (hleft : left ≤ s.tv) :
      Move s (.select result left) { s with tv := left, runner := .head }
  | selected (fds : Finset ℤ) (left : ℕ) (hr : s.runner = .selecting) (hleft : left ≤ s.tv)
      (hfds : fds ⊆ s.fdset) :
      Move s (.select (.ready fds) left) { s with tv := left, runner := .testing fds }
  | newConnection (ready : Finset ℤ) (hr : s.runner = .testing ready) (hfd : s.socket.fd ∈ ready) :
      Move s .run { s with runner := .accepting ready }
  | noConnection (ready : Finset ℤ) (hr : s.runner = .testing ready) (hfd : s.socket.fd ∉ ready) :
      Move s .run { s with runner := .walking ready 0 }
  | testUndefined (ready : Finset ℤ) (hr : s.runner = .testing ready)
      (hfd : ¬inFdSet s.socket.fd) :
      Move s .run { s with runner := .undefined }
  | acceptFails (ready : Finset ℤ) (hr : s.runner = .accepting ready) :
      Move s (.accept .fails) { s with runner := .returned (-1) }
  | unnamed (ready : Finset ℤ) (fd : ℤ) (hr : s.runner = .accepting ready) (hfd : freshFd s fd) :
      Move s (.accept (.unnamed fd))
        { s with openFds := insert fd s.openFds, runner := .returned (-1) }
  | connection (ready : Finset ℤ) (fd : ℤ) (addr : Addr) (hr : s.runner = .accepting ready)
      (hfd : freshFd s fd) :
      Move s (.accept (.connection fd addr))
        { s with
          sockets := s.sockets ++ [Socket.accepting fd addr]
          openFds := insert fd s.openFds
          runner := .accepted ready s.sockets.length }
  | registered (ready : Finset ℤ) (sock : ℕ) (hr : s.runner = .accepted ready sock)
      (hfd : inFdSet (s.socketAt sock).fd) :
      Move s .run
        { s with
          fdset := insert (s.socketAt sock).fd s.fdset
          maxFD := max s.maxFD (s.socketAt sock).fd
          clients := s.clients.insert (s.socketAt sock).getName sock
          runner := .walking ready 0 }
  | registerUndefined (ready : Finset ℤ) (sock : ℕ) (hr : s.runner = .accepted ready sock)
      (hfd : ¬inFdSet (s.socketAt sock).fd) :
      Move s .run { s with runner := .undefined }
  | passEnd (ready : Finset ℤ) (it : ℕ) (hr : s.runner = .walking ready it)
      (hit : s.clients.entries[it]? = none) :
      Move s .run { s with runner := .head }
  | erased (ready : Finset ℤ) (it : ℕ) (name : Str) (sock : ℕ) (hr : s.runner = .walking ready it)
      (hit : s.clients.entries[it]? = some (name, sock)) (hfd : (s.socketAt sock).fd < 0) :
      Move s .run
        { s with
          clients := s.clients.eraseAt it
          runner :=
            if it < (s.clients.eraseAt it).entries.length then .walking ready (it + 1)
            else .undefined }
  | notReady (ready : Finset ℤ) (it : ℕ) (name : Str) (sock : ℕ)
      (hr : s.runner = .walking ready it) (hit : s.clients.entries[it]? = some (name, sock))
      (hfd : ¬(s.socketAt sock).fd < 0) (hready : (s.socketAt sock).fd ∉ ready) :
      Move s .run { s with runner := .walking ready (it + 1) }
  | isReady (ready : Finset ℤ) (it : ℕ) (name : Str) (sock : ℕ)
      (hr : s.runner = .walking ready it) (hit : s.clients.entries[it]? = some (name, sock))
      (hfd : ¬(s.socketAt sock).fd < 0) (hready : (s.socketAt sock).fd ∈ ready) :
      Move s .run { s with runner := .getting ready it sock }
  | got (ready : Finset ℤ) (it sock : ℕ) (hr : s.runner = .getting ready it sock) :
      Move s .run (getPacket s ready it sock)
  | recvFails (ready : Finset ℤ) (it sock packet : ℕ)
      (hr : s.runner = .receiving ready it sock packet) :
      Move s (.recv .fails) { s with runner := .dropping ready it sock packet }
  | recvData (ready : Finset ℤ) (it sock packet : ℕ) (bytes : Str)
      (hr : s.runner = .receiving ready it sock packet) (hpos : 0 < bytes.length)
      (hlen : bytes.length ≤ maxBufferLen) :
      Move s (.recv (.data bytes))
        { s with
          memory := s.memory.write packet ((s.memory.packet packet).write 0 bytes)
          origin := Function.update s.origin packet sock
          received := s.received ++ [(sock, bytes)]
          runner := .stamping ready it sock packet }
  | disconnected (ready : Finset ℤ) (it sock packet : ℕ)
      (hr : s.runner = .dropping ready it sock packet) (hfd : inFdSet (s.socketAt sock).fd) :
      Move s .disconnect
        { destroyClient s sock with
          fdset := s.fdset.erase (s.socketAt sock).fd
          dropped := s.dropped ++ [packet]
          runner := .walking ready (it + 1) }
  | disconnectUndefined (ready : Finset ℤ) (it sock packet : ℕ)
      (hr : s.runner = .dropping ready it sock packet) (hfd : ¬inFdSet (s.socketAt sock).fd) :
      Move s .disconnect { s with dropped := s.dropped ++ [packet], runner := .undefined }
  | stamped (ready : Finset ℤ) (it sock packet : ℕ)
      (hr : s.runner = .stamping ready it sock packet) :
      Move s .run (stamp s ready it sock packet)
  | queued (ready : Finset ℤ) (it packet : ℕ) (hr : s.runner = .queueing ready it packet)
      (hs : s.state ≠ .terminate) :
      Move s .run
        { s with
          dataQueue := s.dataQueue ++ [packet]
          state := .dataReady
          enqueued := s.enqueued ++ [s.delivery packet]
          runner := .walking ready (it + 1) }
  | notQueued (ready : Finset ℤ) (it packet : ℕ) (hr : s.runner = .queueing ready it packet)
      (hs : s.state = .terminate) :
      Move s .run
        { s with dropped := s.dropped ++ [packet], runner := .walking ready (it + 1) }
  | checked (hp : s.processor = .checking) :
      Move s .process { s with processor := if s.isRunning then .waiting else .exited }
  | timedOut (hp : s.processor = .waiting) (hs : ¬(s.state = .dataReady ∨ s.state = .terminate)) :
      Move s .process { s with processor := .checking }
  | underflow (hp : s.processor = .waiting) (hs : s.state = .dataReady ∨ s.state = .terminate)
      (hq : s.dataQueue = []) :
      Move s .process { s with processor := .undefined }
  | took (packet : ℕ) (rest : List ℕ) (hp : s.processor = .waiting)
      (hs : s.state = .dataReady ∨ s.state = .terminate) (hq : s.dataQueue = packet :: rest) :
      Move s .process
        { s with
          dataQueue := rest
          state := if rest.isEmpty then .idel else s.state
          dequeued := s.dequeued ++ [s.delivery packet]
          processor := .handling packet }
  | terminated (packet : ℕ) (rest : List ℕ) (hp : s.processor = .waiting)
      (hs : s.state = .terminate) (hq : s.dataQueue = packet :: rest) :
      Move s .process
        { giveBack { s with
            dataQueue := rest
            dequeued := s.dequeued ++ [s.delivery packet] } packet with
          state := .none
          processor := .exited }
  | unanswered (packet : ℕ) (hp : s.processor = .handling packet) :
      Move s .process
        { s with handled := s.handled ++ [s.delivery packet], processor := .returning packet }
  | found (packet sock : ℕ) (hp : s.processor = .handling packet)
      (hshow : router.find? (s.memory.packet packet).type = some .show)
      (hc : getClient s ((s.memory.packet packet).cstr 6) = some sock) :
      Move s .process
        { s with handled := s.handled ++ [s.delivery packet], processor := .replying packet sock }
  | rewritten (packet sock : ℕ) (stack : Str) (behind : Option (ℕ × ℕ))
      (hp : s.processor = .replying packet sock) (hbehind : inReach s packet behind) :
      Move s (.answer stack behind)
        { s with
          memory := (overrun s.memory behind).write packet
            (ServerHandler.answer (s.memory.packet packet) stack).reply
          processor := .sending packet sock }
  | sent (packet sock : ℕ) (hp : s.processor = .sending packet sock)
      (hfd : ¬(s.socketAt sock).fd < 0) :
      Move s .process
        { s with
          replies := s.replies ++ [(sock, s.memory.packet packet)]
          processor := .returning packet }
  | unsent (packet sock : ℕ) (hp : s.processor = .sending packet sock)
      (hfd : (s.socketAt sock).fd < 0) : Move s .process s
  | gaveBack (packet : ℕ) (hp : s.processor = .returning packet) :
      Move s .process { giveBack s packet with processor := .checking }
  | stopCalled (hs : s.stopper = .outside) :
      Move s .stop { s with stopper := if s.isRunning then .storing else .closing }
  | stored (hs : s.stopper = .storing) :
      Move s .stop { s with isRunning := false, stopper := .joining }
  | joined (hs : s.stopper = .joining) (hj : s.joinable = true) (hp : s.processor = .exited) :
      Move s .stop { s with joinable := false, stopper := .closing }
  | joinThrew (hs : s.stopper = .joining) (hj : s.joinable = false) :
      Move s .stop { s with stopper := .threw }
  | closed (hs : s.stopper = .closing) :
      Move s .stop
        { s with
          socket := s.socket.destroy
          openFds := s.socket.closes s.openFds
          stopper := .beginning }
  | began (hs : s.stopper = .beginning) :
      Move s .stop { s with stopper := .closingClients s.clients.first? }
  | clientClosed (it : Str × ℕ) (hs : s.stopper = .closingClients (some it))
      (hit : it ∈ s.clients.entries) :
      Move s .stop { destroyClient s it.2 with stopper := .advancing it }
  | clientGone (it : Str × ℕ) (hs : s.stopper = .closingClients (some it))
      (hit : it ∉ s.clients.entries) :
      Move s .stop { s with stopper := .undefined }
  | advanced (it : Str × ℕ) (hs : s.stopper = .advancing it) (hit : it ∈ s.clients.entries) :
      Move s .stop { s with stopper := .closingClients (s.clients.next? it.1) }
  | advanceUndefined (it : Str × ℕ) (hs : s.stopper = .advancing it)
      (hit : it ∉ s.clients.entries) :
      Move s .stop { s with stopper := .undefined }
  | clientsClosed (hs : s.stopper = .closingClients none) :
      Move s .stop { s with stopper := .draining }
  | drainTested (hs : s.stopper = .draining) :
      Move s .stop { s with stopper := if s.dataQueue.isEmpty then .outside else .popping }
  | popped (packet : ℕ) (rest : List ℕ) (hs : s.stopper = .popping)
      (hq : s.dataQueue = packet :: rest) :
      Move s .stop { s with dataQueue := rest, stopper := .pushing packet }
  | popUndefined (hs : s.stopper = .popping) (hq : s.dataQueue = []) :
      Move s .stop { s with stopper := .undefined }
  | pushed (packet : ℕ) (hs : s.stopper = .pushing packet) :
      Move s .stop { giveBack s packet with stopper := .draining }

/-- A call of `start` has the outcomes of `Move`. -/
theorem move_start {s t : Sys} {result : Init} (h : start s result = some t) :
    Move s (.start result) t := by
  obtain ⟨hr, h⟩ := Option.ite_none_right_eq_some.mp h
  cases result with
  | tcpFails =>
      obtain rfl := Option.some.inj h
      exact .tcpFails hr
  | bindOrListenFails fd =>
      obtain ⟨hfd, h⟩ := Option.ite_none_right_eq_some.mp h
      obtain rfl := Option.some.inj h
      exact .initFails fd hr hfd
  | listens fd =>
      obtain ⟨hfd, h⟩ := Option.ite_none_right_eq_some.mp h
      obtain rfl := Option.some.inj h
      exact .listens fd hr hfd

/-- A return of `select` has the outcomes of `Move`. -/
theorem move_select {s t : Sys} {result : Selected} {left : ℕ}
    (h : select s result left = some t) : Move s (.select result left) t := by
  obtain ⟨⟨hr, hleft⟩, h⟩ := Option.ite_none_right_eq_some.mp h
  cases result with
  | error =>
      obtain rfl := Option.some.inj h
      exact .selectedNone _ left hr hleft
  | timeout =>
      obtain ⟨-, h⟩ := Option.ite_none_right_eq_some.mp h
      obtain rfl := Option.some.inj h
      exact .selectedNone _ left hr hleft
  | ready fds =>
      obtain ⟨⟨-, hfds⟩, h⟩ := Option.ite_none_right_eq_some.mp h
      obtain rfl := Option.some.inj h
      exact .selected fds left hr hleft (hfds.trans (Finset.filter_subset _ _))

/-- A return of `accept` has the outcomes of `Move`. -/
theorem move_accept {s t : Sys} {result : Accepted} (h : accept s result = some t) :
    Move s (.accept result) t := by
  unfold accept at h
  split at h
  · next ready hr =>
      cases result with
      | fails =>
          obtain rfl := Option.some.inj h
          exact .acceptFails ready hr
      | unnamed fd =>
          obtain ⟨⟨hfd, -⟩, h⟩ := Option.ite_none_right_eq_some.mp h
          obtain rfl := Option.some.inj h
          exact .unnamed ready fd hr hfd
      | connection fd addr =>
          obtain ⟨⟨hfd, -⟩, h⟩ := Option.ite_none_right_eq_some.mp h
          obtain rfl := Option.some.inj h
          exact .connection ready fd addr hr hfd
  · exact absurd h (by simp)

/-- A return of `recv` has the outcomes of `Move`. -/
theorem move_recv {s t : Sys} {result : Received} (h : recv s result = some t) :
    Move s (.recv result) t := by
  unfold recv at h
  split at h
  · next ready it sock packet hr =>
      cases result with
      | fails =>
          obtain rfl := Option.some.inj h
          exact .recvFails ready it sock packet hr
      | data bytes =>
          obtain ⟨⟨hpos, hlen, -⟩, h⟩ := Option.ite_none_right_eq_some.mp h
          obtain rfl := Option.some.inj h
          exact .recvData ready it sock packet bytes hr hpos hlen
  · exact absurd h (by simp)

/-- The branch `if (len <= 0)` has the outcomes of `Move`. -/
theorem move_disconnect {s t : Sys} (h : disconnect s = some t) : Move s .disconnect t := by
  unfold disconnect at h
  split at h
  · next ready it sock packet hr =>
      split_ifs at h with hfd
      · obtain rfl := Option.some.inj h
        exact .disconnected ready it sock packet hr hfd
      · obtain rfl := Option.some.inj h
        exact .disconnectUndefined ready it sock packet hr hfd
  · exact absurd h (by simp)

/-- The receive loop at its end. -/
theorem walk_end {s : Sys} {ready : Finset ℤ} {it : ℕ} (hit : s.clients.entries[it]? = none) :
    walk s ready it = { s with runner := .head } := by
  unfold walk
  rw [hit]

/-- The receive loop at a client without a descriptor. -/
theorem walk_stale {s : Sys} {ready : Finset ℤ} {it sock : ℕ} {name : Str}
    (hit : s.clients.entries[it]? = some (name, sock)) (hfd : (s.socketAt sock).fd < 0) :
    walk s ready it = { s with
      clients := s.clients.eraseAt it
      runner :=
        if it < (s.clients.eraseAt it).entries.length then .walking ready (it + 1)
        else .undefined } := by
  unfold walk
  rw [hit]
  exact if_pos hfd

/-- The receive loop at a client that is not ready. -/
theorem walk_pass {s : Sys} {ready : Finset ℤ} {it sock : ℕ} {name : Str}
    (hit : s.clients.entries[it]? = some (name, sock)) (hfd : ¬(s.socketAt sock).fd < 0)
    (hready : (s.socketAt sock).fd ∉ ready) :
    walk s ready it = { s with runner := .walking ready (it + 1) } := by
  unfold walk
  rw [hit]
  exact (if_neg hfd).trans (if_pos hready)

/-- The receive loop at a client that is ready. -/
theorem walk_ready {s : Sys} {ready : Finset ℤ} {it sock : ℕ} {name : Str}
    (hit : s.clients.entries[it]? = some (name, sock)) (hfd : ¬(s.socketAt sock).fd < 0)
    (hready : (s.socketAt sock).fd ∈ ready) :
    walk s ready it = { s with runner := .getting ready it sock } := by
  unfold walk
  rw [hit]
  exact (if_neg hfd).trans (if_neg (not_not.mpr hready))

/-- A turn of the receive loop has the outcomes of `Move`. -/
theorem move_walk {s : Sys} {ready : Finset ℤ} {it : ℕ} (hr : s.runner = .walking ready it) :
    Move s .run (walk s ready it) := by
  cases hit : s.clients.entries[it]? with
  | none =>
      rw [walk_end hit]
      exact .passEnd ready it hr hit
  | some entry =>
      obtain ⟨name, sock⟩ := entry
      by_cases hfd : (s.socketAt sock).fd < 0
      · rw [walk_stale hit hfd]
        exact .erased ready it name sock hr hit hfd
      · by_cases hready : (s.socketAt sock).fd ∈ ready
        · rw [walk_ready hit hfd hready]
          exact .isReady ready it name sock hr hit hfd hready
        · rw [walk_pass hit hfd hready]
          exact .notReady ready it name sock hr hit hfd hready

/-- A local step of `start` or `run` has the outcomes of `Move`. -/
theorem move_runStep {s t : Sys} (h : runStep s = some t) : Move s .run t := by
  unfold runStep at h
  cases hr : s.runner with
  | listening =>
      obtain rfl := Option.some.inj (by simpa [hr] using h)
      exact .idel hr
  | launching =>
      obtain rfl := Option.some.inj (by simpa [hr] using h)
      exact .launched hr
  | entering =>
      obtain rfl : enter s = t := by simpa [hr] using h
      unfold enter
      split_ifs with hfd
      · exact .entered hr hfd
      · exact .enterUndefined hr hfd
  | head =>
      simp only [hr, Option.some.injEq] at h
      exact h ▸ .looped hr
  | testing ready =>
      obtain rfl : testListen s ready = t := by simpa [hr] using h
      unfold testListen
      split_ifs with hfd hnew
      · exact .newConnection ready hr hnew
      · exact .noConnection ready hr hnew
      · exact .testUndefined ready hr hfd
  | accepted ready sock =>
      obtain rfl : register s ready sock = t := by simpa [hr] using h
      unfold register
      split_ifs with hfd
      · exact .registered ready sock hr hfd
      · exact .registerUndefined ready sock hr hfd
  | walking ready it =>
      obtain rfl : walk s ready it = t := by simpa [hr] using h
      exact move_walk hr
  | getting ready it sock =>
      obtain rfl : getPacket s ready it sock = t := by simpa [hr] using h
      exact .got ready it sock hr
  | stamping ready it sock packet =>
      obtain rfl : stamp s ready it sock packet = t := by simpa [hr] using h
      exact .stamped ready it sock packet hr
  | queueing ready it packet =>
      obtain rfl : enqueue s ready it packet = t := by simpa [hr] using h
      unfold enqueue
      split_ifs with hs
      · exact .queued ready it packet hr hs
      · exact .notQueued ready it packet hr (not_not.mp hs)
  | _ => simp [hr] at h

/-- The section of `process` has the outcomes of `Move`. -/
theorem move_waitAndTake {s : Sys} (hp : s.processor = .waiting) :
    Move s .process (waitAndTake s) := by
  unfold waitAndTake
  split_ifs with hs
  · split
    · next hq => exact .underflow hp hs hq
    · next packet rest hq =>
        dsimp only
        by_cases hterm : (if rest.isEmpty = true then State.idel else s.state) = .terminate
        · have hstate : s.state = .terminate := by
            split_ifs at hterm
            exact hterm
          rw [if_pos hterm]
          exact .terminated packet rest hp hstate hq
        · rw [if_neg hterm]
          exact .took packet rest hp hs hq
  · exact .timedOut hp hs

/-- A step of the process thread has the outcomes of `Move`. -/
theorem move_processStep {s t : Sys} (h : processStep s = some t) : Move s .process t := by
  unfold processStep at h
  cases hp : s.processor with
  | checking =>
      simp only [hp, Option.some.injEq] at h
      exact h ▸ .checked hp
  | waiting =>
      obtain rfl : waitAndTake s = t := by simpa [hp] using h
      exact move_waitAndTake hp
  | handling packet =>
      obtain rfl : route s packet = t := by simpa [hp] using h
      unfold route
      split
      · exact .unanswered packet hp
      · next hshow =>
          split
          · exact .unanswered packet hp
          · next sock hc => exact .found packet sock hp hshow hc
  | sending packet sock =>
      obtain rfl : sendReply s packet sock = t := by simpa [hp] using h
      unfold sendReply
      split_ifs with hfd
      · exact .unsent packet sock hp hfd
      · exact .sent packet sock hp hfd
  | returning packet =>
      obtain rfl := Option.some.inj (by simpa [hp] using h)
      exact .gaveBack packet hp
  | _ => simp [hp] at h

/-- The rewriting of a packet has the outcomes of `Move`. -/
theorem move_rewritePacket {s t : Sys} {stack : Str} {behind : Option (ℕ × ℕ)}
    (h : rewritePacket s stack behind = some t) : Move s (.answer stack behind) t := by
  unfold rewritePacket at h
  split at h
  · next packet sock hp =>
      obtain ⟨hbehind, h⟩ := Option.ite_none_right_eq_some.mp h
      obtain rfl := Option.some.inj h
      exact .rewritten packet sock stack behind hp hbehind
  · exact absurd h (by simp)

/-- A step of `stop` has the outcomes of `Move`. -/
theorem move_stopStep {s t : Sys} (h : stopStep s = some t) : Move s .stop t := by
  unfold stopStep at h
  cases hs : s.stopper with
  | outside =>
      simp only [hs, Option.some.injEq] at h
      exact h ▸ .stopCalled hs
  | storing =>
      obtain rfl := Option.some.inj (by simpa [hs] using h)
      exact .stored hs
  | joining =>
      replace h : join s = some t := by simpa [hs] using h
      unfold join at h
      split_ifs at h with hj hp
      · obtain rfl := Option.some.inj h
        exact .joined hs hj hp
      · obtain rfl := Option.some.inj h
        exact .joinThrew hs (by simpa using hj)
  | closing =>
      obtain rfl := Option.some.inj (by simpa [hs] using h)
      exact .closed hs
  | beginning =>
      obtain rfl := Option.some.inj (by simpa [hs] using h)
      exact .began hs
  | closingClients it =>
      cases it with
      | none =>
          obtain rfl := Option.some.inj (by simpa [hs] using h)
          exact .clientsClosed hs
      | some it =>
          simp only [hs] at h
          split_ifs at h with hit
          · obtain rfl := Option.some.inj h
            exact .clientClosed it hs hit
          · obtain rfl := Option.some.inj h
            exact .clientGone it hs hit
  | advancing it =>
      simp only [hs] at h
      split_ifs at h with hit
      · obtain rfl := Option.some.inj h
        exact .advanced it hs hit
      · obtain rfl := Option.some.inj h
        exact .advanceUndefined it hs hit
  | draining =>
      simp only [hs, Option.some.injEq] at h
      exact h ▸ .drainTested hs
  | popping =>
      simp only [hs] at h
      split at h
      · next hq =>
          obtain rfl := Option.some.inj h
          exact .popUndefined hs hq
      · next packet rest hq =>
          obtain rfl := Option.some.inj h
          exact .popped packet rest hs hq
  | pushing packet =>
      obtain rfl := Option.some.inj (by simpa [hs] using h)
      exact .pushed packet hs
  | _ => simp [hs] at h

/-- **Step inversion**: a step of the system is one of the moves. -/
theorem move_of_step {s t : Sys} {a : Label} (h : system.step s a = some t) : Move s a t := by
  cases a with
  | start result => exact move_start h
  | run => exact move_runStep h
  | select result left => exact move_select h
  | accept result => exact move_accept h
  | recv result => exact move_recv h
  | disconnect => exact move_disconnect h
  | process => exact move_processStep h
  | answer stack behind => exact move_rewritePacket h
  | stop => exact move_stopStep h

/-- No statement assigns `STATE_TERMINATE`. -/
theorem state_ne_terminate {ok : Sys → Label → Prop} {s : Sys} (h : system.Reachable ok s) :
    s.state ≠ .terminate := by
  refine LTS.Reachable.induction (I := fun s => s.state ≠ .terminate) ?_ ?_ h
  · rintro _ rfl
    decide
  · intro s a t _ hs _ hstep
    cases move_of_step hstep with
    | took packet rest hp hready hq =>
        show (if rest.isEmpty then State.idel else s.state) ≠ .terminate
        split_ifs
        · decide
        · exact hs
    | idel => exact State.noConfusion
    | queued => exact State.noConfusion
    | terminated => exact State.noConfusion
    | _ => exact hs

/-- Before the process thread is created. -/
def Run.early : Run → Bool
  | .idle => true
  | .listening => true
  | .launching => true
  | _ => false

/-- There is no process thread before `start` creates it. -/
theorem absent_of_early {ok : Sys → Label → Prop} {s : Sys} (h : system.Reachable ok s) :
    s.runner.early = true → s.processor = .absent := by
  refine LTS.Reachable.induction (I := fun s => s.runner.early = true → s.processor = .absent)
    ?_ ?_ h
  · rintro _ rfl _
    rfl
  · intro s a t _ hs _ hstep hearly
    -- a step of the process thread needs the thread
    have hprocess : ∀ p : Process, s.processor = p → p ≠ .absent → s.runner.early = true → False :=
      fun p hp hne he => hne (hp.symm.trans (hs he))
    cases move_of_step hstep with
    | listens fd hr => exact hs (by rw [hr]; rfl)
    | idel hr => exact hs (by rw [hr]; rfl)
    | looped hr =>
        have hnot : (if s.isRunning then Run.selecting else .returned 0).early = false := by
          split <;> rfl
        exact absurd (hnot.symm.trans hearly) (by simp)
    | erased ready it name sock hr =>
        have hnot : (if it < (s.clients.eraseAt it).entries.length then Run.walking ready (it + 1)
            else .undefined).early = false := by
          split <;> rfl
        exact absurd (hnot.symm.trans hearly) (by simp)
    | checked hp | timedOut hp | underflow hp | took _ _ hp | terminated _ _ hp
    | unanswered _ hp | found _ _ hp | rewritten _ _ _ _ hp | sent _ _ hp | unsent _ _ hp
    | gaveBack _ hp =>
        exact (hprocess _ hp (by simp) hearly).elim
    | stopCalled | stored | joined | joinThrew | closed | began | clientClosed | clientGone
    | advanced | advanceUndefined | clientsClosed | drainTested | popped | popUndefined | pushed =>
        exact hs hearly
    | _ => exact absurd hearly Bool.false_ne_true

/-! ## The write behind a packet -/

@[simp] theorem overrun_next (m : Memory) (behind : Option (ℕ × ℕ)) :
    (overrun m behind).next = m.next := by
  cases behind <;> rfl

@[simp] theorem overrun_deleted (m : Memory) (behind : Option (ℕ × ℕ)) :
    (overrun m behind).deleted = m.deleted := by
  cases behind <;> rfl

/-- How many bytes of the packet `obj` a step of the Show handler zeroes from behind
another one. -/
def Label.reach (obj : ℕ) : Label → ℕ
  | .answer _ (some (other, gap)) => if other = obj then 70 - gap else 0
  | _ => 0

theorem overrun_packet (m : Memory) (stack : Str) (behind : Option (ℕ × ℕ)) (obj : ℕ) :
    (overrun m behind).packet obj =
      (m.packet obj).wiped ((Label.answer stack behind).reach obj) := by
  cases behind with
  | none => exact (Packet.wiped_zero _).symm
  | some b =>
      obtain ⟨other, gap⟩ := b
      show (m.write other ((m.packet other).wiped (70 - gap))).packet obj =
        (m.packet obj).wiped (if other = obj then 70 - gap else 0)
      split_ifs with h
      · subst h
        exact Memory.packet_write_self _ _ _
      · rw [Memory.packet_write_of_ne _ _ (Ne.symm h), Packet.wiped_zero]

/-- The name of a socket fits into `src`. -/
theorem length_getName_le {ok : Sys → Label → Prop} {s : Sys} (h : system.Reachable ok s)
    (sock : ℕ) : (s.socketAt sock).getName.length ≤ 32 := by
  have hall : ∀ c ∈ s.sockets, c.getName.length ≤ 32 := by
    refine LTS.Reachable.induction (I := fun s => ∀ c ∈ s.sockets, c.getName.length ≤ 32) ?_ ?_ h
    · rintro _ rfl c hc
      exact absurd hc List.not_mem_nil
    · intro s a t _ hs _ hstep
      have hdestroy : ∀ sock, ∀ c ∈ (destroyClient s sock).sockets, c.getName.length ≤ 32 := by
        intro sock c hc
        rcases List.mem_or_eq_of_mem_set hc with hold | rfl
        · exact hs c hold
        · rw [Socket.getName_destroy]
          decide
      cases move_of_step hstep with
      | connection ready fd addr hr =>
          intro c hc
          rcases List.mem_append.mp hc with hold | hnew
          · exact hs c hold
          · obtain rfl := List.mem_singleton.mp hnew
            exact (Socket.length_getName_accepting fd addr).trans (by decide)
      | disconnected ready it sock => exact hdestroy sock
      | clientClosed it => exact hdestroy it.2
      | _ => exact hs
  cases hsock : s.sockets[sock]? with
  | none =>
      rw [Sys.socketAt, hsock]
      decide
  | some c =>
      rw [Sys.socketAt, hsock]
      exact hall c (List.mem_of_getElem? hsock)

end TcpServer
