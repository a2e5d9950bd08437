/-
# What `stop` leaves behind

`stop` joins the process thread, closes the listening socket and the sockets in
`clients`, and empties the queue, while `run` may stand anywhere in its loop and goes
on afterwards.  After both have returned nothing is left, as long as `run`

* enters no connection that the loop of `stop` over `clients` has passed, and none
  whose name is taken;
* queues no packet after `stop` has emptied the queue;
* drops no packet in the branch `if (len <= 0)`, and no connection whose name it
  cannot get;

and no socket has descriptor `0`, which `destroy` does not close.  These conditions
are `tidy`.  The descriptors are followed in `FdInv`, the progress of `stop` in
`StopInv`.
-/
import CppShared.TcpServerReply

namespace TcpServer

/-! ## The condition on the steps -/

/-- A call of `stop` has returned, and none is under way. -/
def Sys.stopped (s : Sys) : Prop := s.isRunning = false ∧ s.stopper = .outside

instance (s : Sys) : Decidable s.stopped :=
  inferInstanceAs (Decidable (s.isRunning = false ∧ s.stopper = .outside))

/-- The loop of `stop` over `clients` will not come to this name any more. -/
def Stop.passed (isRunning : Bool) : Stop → Str → Prop
  | .outside, _ => isRunning = false
  | .closingClients (some it), name => name < it.1
  | .closingClients none, _ => True
  | .advancing it, name => name ≤ it.1
  | .draining, _ => True
  | .popping, _ => True
  | .pushing _, _ => True
  | _, _ => False

instance (isRunning : Bool) (stopper : Stop) (name : Str) :
    Decidable (stopper.passed isRunning name) := by
  unfold Stop.passed
  split <;> infer_instance

/-- The steps after which `stop` can still clean up. -/
def tidy (s : Sys) : Label → Prop
  | .start (.bindOrListenFails fd) => fd ≠ 0
  | .start (.listens fd) => fd ≠ 0
  | .accept (.unnamed _) => False
  | .accept (.connection fd _) => fd ≠ 0
  | .disconnect => False
  | .run => (∀ sock ∈ s.runner.news, (s.socketAt sock).getName ∉ s.clients.keys ∧
      ¬s.stopper.passed s.isRunning (s.socketAt sock).getName) ∧
      (s.stopped → s.runner.stamped = [])
  | _ => True

instance decidableTidy (s : Sys) (a : Label) : Decidable (tidy s a) :=
  match a with
  | .start (.bindOrListenFails fd) => inferInstanceAs (Decidable (fd ≠ 0))
  | .start (.listens fd) => inferInstanceAs (Decidable (fd ≠ 0))
  | .accept (.unnamed _) => inferInstanceAs (Decidable False)
  | .accept (.connection fd _) => inferInstanceAs (Decidable (fd ≠ 0))
  | .disconnect => inferInstanceAs (Decidable False)
  | .run => inferInstanceAs (Decidable
      ((∀ sock ∈ s.runner.news, (s.socketAt sock).getName ∉ s.clients.keys ∧
        ¬s.stopper.passed s.isRunning (s.socketAt sock).getName) ∧
        (s.stopped → s.runner.stamped = [])))
  | .start .tcpFails | .select _ _ | .accept .fails | .recv _ | .process | .answer _ _ | .stop =>
      inferInstanceAs (Decidable True)

/-! ## Open descriptors -/

/-- Every open descriptor belongs to the listening socket, to a client or to the
connection that `run` is about to enter. -/
structure FdInv (s : Sys) : Prop where
  positive : ∀ fd ∈ s.openFds, 0 < fd
  nonzero : s.socket.fd ≠ 0 ∧ ∀ c ∈ s.sockets, c.fd ≠ 0
  early : s.runner = .idle → s.openFds = ∅
  owned : s.runner ≠ .undefined → ∀ fd ∈ s.openFds, fd = s.socket.fd ∨
    ∃ sock, (sock ∈ s.clients.values ∨ sock ∈ s.runner.news) ∧ fd = (s.socketAt sock).fd

/-- A step that opens and closes nothing. -/
theorem FdInv.frame {s t : Sys} (h : FdInv s) (hsocket : t.socket = s.socket)
    (hclients : t.clients = s.clients) (hsockets : t.sockets = s.sockets)
    (hopen : t.openFds = s.openFds) (hearly : t.runner = .idle → s.runner = .idle)
    (hrunner : t.runner ≠ .undefined → s.runner ≠ .undefined ∧ s.runner.news ⊆ t.runner.news) :
    FdInv t := by
  refine ⟨?_, ?_, ?_, ?_⟩
  · rw [hopen]
    exact h.positive
  · rw [hsocket, hsockets]
    exact h.nonzero
  · rw [hopen]
    exact fun hr => h.early (hearly hr)
  · intro hdefined fd hfd
    obtain ⟨hbefore, hnews⟩ := hrunner hdefined
    rw [hopen] at hfd
    rw [hsocket, hclients, socketAt_congr hsockets]
    rcases h.owned hbefore fd hfd with hlisten | ⟨sock, hsock, heq⟩
    · exact Or.inl hlisten
    · exact Or.inr ⟨sock, hsock.imp_right fun hold => hnews hold, heq⟩

/-- The descriptor of a socket is not `0`, whether the object exists or not. -/
theorem FdInv.socketAt_ne {s : Sys} (h : FdInv s) (sock : ℕ) : (s.socketAt sock).fd ≠ 0 := by
  rw [Sys.socketAt]
  cases hsock : s.sockets[sock]? with
  | none => exact (by decide : (-1 : ℤ) ≠ 0)
  | some c => exact h.nonzero.2 c (List.mem_of_getElem? hsock)

/-- `destroy` gives the error descriptor to a socket whose descriptor is not `0`. -/
theorem destroy_fd_neg {c : Socket} (h : c.fd ≠ 0) : c.destroy.fd < 0 := by
  simp only [Socket.destroy]
  split_ifs <;> omega

/-- What is open after a `destroy` was open before and is another descriptor. -/
theorem mem_closes {c : Socket} {openFds : Finset ℤ} {fd : ℤ} (hpos : ∀ fd ∈ openFds, 0 < fd)
    (hfd : fd ∈ c.closes openFds) : fd ∈ openFds ∧ fd ≠ c.fd := by
  rw [Socket.closes] at hfd
  split_ifs at hfd with hopen
  · exact ⟨Finset.mem_of_mem_erase hfd, Finset.ne_of_mem_erase hfd⟩
  · refine ⟨hfd, ?_⟩
    rintro rfl
    exact hopen (hpos _ hfd)

/-- The listening socket is destroyed. -/
theorem FdInv.closed {s t : Sys} (h : FdInv s) (hsocket : t.socket = s.socket.destroy)
    (hclients : t.clients = s.clients) (hsockets : t.sockets = s.sockets)
    (hopen : t.openFds = s.socket.closes s.openFds) (hrunner : t.runner = s.runner) : FdInv t := by
  refine ⟨?_, ?_, ?_, ?_⟩
  · rw [hopen]
    exact fun fd hfd => h.positive fd (mem_closes h.positive hfd).1
  · rw [hsocket, hsockets]
    exact ⟨(destroy_fd_neg h.nonzero.1).ne, h.nonzero.2⟩
  · rw [hrunner, hopen]
    intro hr
    rw [h.early hr, Socket.closes_empty]
  · rw [hrunner, hopen, hclients, socketAt_congr hsockets]
    intro hdefined fd hfd
    obtain ⟨hold, hne⟩ := mem_closes h.positive hfd
    rcases h.owned hdefined fd hold with hlisten | hclient
    · exact absurd hlisten hne
    · exact Or.inr hclient

/-- The socket of a client is destroyed. -/
theorem FdInv.destroyed {s : Sys} (h : FdInv s) (sock : ℕ) (stopper : Stop) :
    FdInv { destroyClient s sock with stopper := stopper } := by
  have hat : ∀ k, k ≠ sock →
      (({ destroyClient s sock with stopper := stopper } : Sys).socketAt k) = s.socketAt k := by
    intro k hk
    show (s.sockets.set sock _)[k]?.getD Socket.new = _
    rw [List.getElem?_set_ne (Ne.symm hk)]
    rfl
  refine ⟨?_, ?_, ?_, ?_⟩
  · exact fun fd hfd => h.positive fd (mem_closes h.positive hfd).1
  · refine ⟨h.nonzero.1, fun c hc => ?_⟩
    rcases List.mem_or_eq_of_mem_set hc with hold | rfl
    · exact h.nonzero.2 c hold
    · exact (destroy_fd_neg (h.socketAt_ne sock)).ne
  · intro hr
    show (s.socketAt sock).closes s.openFds = ∅
    rw [h.early hr, Socket.closes_empty]
  · intro hdefined fd hfd
    obtain ⟨hold, hne⟩ := mem_closes h.positive hfd
    rcases h.owned hdefined fd hold with hlisten | ⟨k, hk, heq⟩
    · exact Or.inl hlisten
    · have hother : k ≠ sock := by
        rintro rfl
        exact hne heq
      refine Or.inr ⟨k, hk, ?_⟩
      rw [hat k hother]
      exact heq

/-- The server listens. -/
theorem FdInv.listens {s : Sys} (h : FdInv s) {fd : ℤ} (hr : s.runner = .idle)
    (hfd : freshFd s fd) (hpos : fd ≠ 0) :
    FdInv { s with
      socket := { s.socket with fd := fd }
      openFds := insert fd s.openFds
      runner := .listening } := by
  have hnone := h.early hr
  refine ⟨?_, ⟨hpos, h.nonzero.2⟩, fun he => absurd he (by simp), ?_⟩
  · intro f hf
    rcases Finset.mem_insert.mp hf with rfl | hold
    · exact lt_of_le_of_ne hfd.1 (Ne.symm hpos)
    · exact h.positive f hold
  · intro _ f hf
    rcases Finset.mem_insert.mp hf with rfl | hold
    · exact Or.inl rfl
    · rw [hnone] at hold
      exact absurd hold (Finset.notMem_empty f)

/-- `bind` or `listen` fails, and the new socket is destroyed. -/
theorem FdInv.initFails {s : Sys} (h : FdInv s) {fd : ℤ} (hr : s.runner = .idle)
    (hfd : freshFd s fd) (hpos : fd ≠ 0) :
    FdInv { s with
      socket := { s.socket with fd := fd }.destroy
      openFds := { s.socket with fd := fd }.closes (insert fd s.openFds)
      runner := .returned (-1) } := by
  have hclosed : ({ s.socket with fd := fd } : Socket).closes (insert fd s.openFds) = ∅ := by
    have hlt : 0 < fd := lt_of_le_of_ne hfd.1 (Ne.symm hpos)
    rw [h.early hr, Socket.closes, if_pos hlt]
    exact Finset.erase_insert (Finset.notMem_empty fd)
  have hnone : ∀ f, f ∉ ({ s.socket with fd := fd } : Socket).closes (insert fd s.openFds) := by
    rw [hclosed]
    exact Finset.notMem_empty
  exact ⟨fun f hf => absurd hf (hnone f), ⟨(destroy_fd_neg hpos).ne, h.nonzero.2⟩,
    fun he => absurd he (by simp), fun _ f hf => absurd hf (hnone f)⟩

/-- A connection is accepted. -/
theorem FdInv.connection {as : List Label} {s : Sys} (h : FdInv s) (hpeer : PeerInv as s)
    {ready : Finset ℤ} {fd : ℤ} (addr : Addr) (hr : s.runner = .accepting ready)
    (hfd : freshFd s fd) (hpos : fd ≠ 0) :
    FdInv { s with
      sockets := s.sockets ++ [Socket.accepting fd addr]
      openFds := insert fd s.openFds
      runner := .accepted ready s.sockets.length } := by
  refine ⟨?_, ⟨h.nonzero.1, ?_⟩, fun he => absurd he (by simp), ?_⟩
  · intro f hf
    rcases Finset.mem_insert.mp hf with rfl | hold
    · exact lt_of_le_of_ne hfd.1 (Ne.symm hpos)
    · exact h.positive f hold
  · intro c hc
    rcases List.mem_append.mp hc with hold | hnew
    · exact h.nonzero.2 c hold
    · obtain rfl := List.mem_singleton.mp hnew
      exact hpos
  · intro _ f hf
    rcases Finset.mem_insert.mp hf with rfl | hold
    · refine Or.inr ⟨s.sockets.length, Or.inr (List.mem_singleton_self _), ?_⟩
      show f = ((s.sockets ++ [Socket.accepting f addr])[s.sockets.length]?.getD Socket.new).fd
      rw [List.getElem?_concat_length]
      rfl
    · have hdefined : s.runner ≠ .undefined := by simp [hr]
      rcases h.owned hdefined f hold with hlisten | ⟨sock, hsock, heq⟩
      · exact Or.inl hlisten
      · have hmem : sock ∈ s.clients.values := by
          rcases hsock with hmem | hnews
          · exact hmem
          · rw [hr] at hnews
            exact absurd hnews List.not_mem_nil
        obtain ⟨c, hc, -⟩ := hpeer.valid hmem
        have hlt := hpeer.lt_of_peer hc
        refine Or.inr ⟨sock, Or.inl hmem, ?_⟩
        show f = ((s.sockets ++ [_])[sock]?.getD Socket.new).fd
        rw [socketAt_concat hlt]
        exact heq

/-- The new connection is entered under a free name. -/
theorem FdInv.registered {s : Sys} (h : FdInv s) {ready : Finset ℤ} {sock : ℕ}
    (hr : s.runner = .accepted ready sock) (hname : (s.socketAt sock).getName ∉ s.clients.keys) :
    FdInv { s with
      fdset := insert (s.socketAt sock).fd s.fdset
      maxFD := max s.maxFD (s.socketAt sock).fd
      clients := s.clients.insert (s.socketAt sock).getName sock
      runner := .walking ready 0 } := by
  have hperm : (s.clients.insert (s.socketAt sock).getName sock).values.Perm
      (sock :: s.clients.values) := OrderedMap.perm_values_insert hname
  refine ⟨h.positive, h.nonzero, fun he => absurd he (by simp), fun _ fd hfd => ?_⟩
  have hdefined : s.runner ≠ .undefined := by simp [hr]
  rcases h.owned hdefined fd hfd with hlisten | ⟨k, hk, heq⟩
  · exact Or.inl hlisten
  · refine Or.inr ⟨k, Or.inl (hperm.mem_iff.mpr ?_), heq⟩
    rcases hk with hold | hnew
    · exact List.mem_cons_of_mem sock hold
    · rw [hr] at hnew
      obtain rfl := List.mem_singleton.mp hnew
      exact List.mem_cons_self

/-- A stale entry holds no open descriptor. -/
theorem FdInv.erased {s : Sys} (h : FdInv s) {ready : Finset ℤ} {it : ℕ} {name : Str} {sock : ℕ}
    {r : Run} (hr : s.runner = .walking ready it)
    (hit : s.clients.entries[it]? = some (name, sock)) (hfd : (s.socketAt sock).fd < 0)
    (hidle : r ≠ .idle) : FdInv { s with clients := s.clients.eraseAt it, runner := r } := by
  have hperm : s.clients.values.Perm (sock :: (s.clients.eraseAt it).values) :=
    OrderedMap.perm_values_eraseAt hit
  refine ⟨h.positive, h.nonzero, fun he => absurd he hidle, fun _ fd hopen => ?_⟩
  have hdefined : s.runner ≠ .undefined := by simp [hr]
  rcases h.owned hdefined fd hopen with hlisten | ⟨k, hk, heq⟩
  · exact Or.inl hlisten
  · have hmem : k ∈ s.clients.values := by
      rcases hk with hold | hnew
      · exact hold
      · rw [hr] at hnew
        exact absurd hnew List.not_mem_nil
    refine Or.inr ⟨k, Or.inl ?_, heq⟩
    rcases List.mem_cons.mp (hperm.mem_iff.mp hmem) with rfl | hkept
    · have hpos := h.positive fd hopen
      omega
    · exact hkept

/-- **Step lemma.**  Every move under the condition keeps track of the descriptors. -/
theorem FdInv.step {as : List Label} {s t : Sys} {a : Label} (h : FdInv s) (hpeer : PeerInv as s)
    (hok : tidy s a) (hm : Move s a t) : FdInv t := by
  -- `run` moves on from a place without a new socket
  have hpass : ∀ {r : Run}, s.runner = r → t.socket = s.socket → t.clients = s.clients →
      t.sockets = s.sockets → t.openFds = s.openFds → t.runner ≠ .idle → r ≠ .undefined →
      r.news = [] → FdInv t := by
    intro r hr hsocket hclients hsockets hopen hidle hdefined hnews
    refine h.frame hsocket hclients hsockets hopen (fun he => absurd he hidle) fun _ => ?_
    rw [hr, hnews]
    exact ⟨hdefined, List.nil_subset _⟩
  -- another thread moves
  have hother : t.socket = s.socket → t.clients = s.clients → t.sockets = s.sockets →
      t.openFds = s.openFds → t.runner = s.runner → FdInv t := by
    intro hsocket hclients hsockets hopen hrunner
    refine h.frame hsocket hclients hsockets hopen ?_ ?_
    all_goals rw [hrunner]
    · exact id
    · exact fun hdefined => ⟨hdefined, List.Subset.refl _⟩
  cases hm with
  | tcpFails hr =>
      refine ⟨h.positive, ⟨by simp, h.nonzero.2⟩, fun he => absurd he (by simp), fun _ fd hfd => ?_⟩
      have hold : fd ∈ s.openFds := hfd
      rw [h.early hr] at hold
      exact absurd hold (Finset.notMem_empty fd)
  | initFails fd hr hfd => exact h.initFails hr hfd hok
  | listens fd hr hfd => exact h.listens hr hfd hok
  | idel hr | launched hr | entered hr | enterUndefined hr | selectedNone _ _ hr
  | selected _ _ hr | newConnection _ hr | noConnection _ hr | testUndefined _ hr
  | acceptFails _ hr | passEnd _ _ hr | notReady _ _ _ _ hr | isReady _ _ _ _ hr
  | recvFails _ _ _ _ hr | recvData _ _ _ _ _ hr | queued _ _ _ hr | notQueued _ _ _ hr =>
      exact hpass hr rfl rfl rfl rfl (by simp) (by simp) rfl
  | looped hr =>
      refine hpass hr rfl rfl rfl rfl ?_ (by simp) rfl
      show (if s.isRunning then Run.selecting else .returned 0) ≠ .idle
      split <;> simp
  | unnamed | disconnected | disconnectUndefined => exact hok.elim
  | connection ready fd addr hr hfd => exact h.connection hpeer addr hr hfd hok
  | registered ready sock hr =>
      exact h.registered hr (hok.1 sock (by rw [hr]; exact List.mem_singleton_self _)).1
  | registerUndefined ready sock hr =>
      exact h.frame rfl rfl rfl rfl (fun he => absurd he (by simp)) fun hdefined =>
        absurd rfl hdefined
  | erased ready it name sock hr hit hfd =>
      refine h.erased hr hit hfd ?_
      split_ifs <;> simp
  | got ready it sock hr => exact hpass hr rfl rfl rfl rfl (by simp [getPacket]) (by simp) rfl
  | stamped ready it sock packet hr =>
      exact hpass hr rfl rfl rfl rfl (by simp [stamp]) (by simp) rfl
  | closed hs => exact h.closed rfl rfl rfl rfl rfl
  | clientClosed it => exact h.destroyed it.2 _
  | _ => exact hother rfl rfl rfl rfl rfl

/-- Every state reachable under the condition keeps track of the descriptors. -/
theorem fdInv_of_run {as : List Label} {s : Sys} (h : system.Run tidy as s) : FdInv s := by
  refine LTS.Run.induction (I := fun _ => FdInv) ?_ ?_ h
  · rintro _ rfl
    exact ⟨fun fd hfd => absurd hfd (Finset.notMem_empty fd),
      ⟨by decide, fun c hc => absurd hc List.not_mem_nil⟩, fun _ => rfl,
      fun _ fd hfd => absurd hfd (Finset.notMem_empty fd)⟩
  · intro as s a t hrun hs hok hstep
    exact hs.step (peerInv_of_run hrun) hok (move_of_step hstep)

/-! ## The progress of `stop` -/

/-- `stop` has joined the process thread. -/
def Stop.joined (isRunning : Bool) : Stop → Prop
  | .outside => isRunning = false
  | .storing => False
  | .joining => False
  | .threw => False
  | .undefined => False
  | _ => True

/-- `stop` has closed the listening socket. -/
def Stop.shut (isRunning : Bool) : Stop → Prop
  | .closing => False
  | stopper => stopper.joined isRunning

/-- What `stop` has done so far. -/
structure StopInv (s : Sys) : Prop where
  exited : s.stopper.joined s.isRunning → s.processor = .exited
  shut : s.stopper.shut s.isRunning → s.socket.fd < 0
  passed : ∀ e ∈ s.clients.entries, s.stopper.passed s.isRunning e.1 → (s.socketAt e.2).fd < 0
  drained : s.stopped → s.dataQueue = []
  kept : s.dropped = []

/-- A step of `run` that leaves the listening socket, the clients and the queue alone. -/
theorem StopInv.frame {s t : Sys} (h : StopInv s) (hsocket : t.socket = s.socket)
    (hclients : t.clients = s.clients) (hsockets : t.sockets = s.sockets)
    (hrunning : t.isRunning = s.isRunning) (hstopper : t.stopper = s.stopper)
    (hprocessor : s.stopper.joined s.isRunning → t.processor = s.processor)
    (hqueue : s.stopped → t.dataQueue = s.dataQueue) (hdropped : t.dropped = s.dropped) :
    StopInv t := by
  refine ⟨?_, ?_, ?_, ?_, ?_⟩
  · rw [hstopper, hrunning]
    exact fun hjoined => (hprocessor hjoined).trans (h.exited hjoined)
  · rw [hstopper, hrunning, hsocket]
    exact h.shut
  · rw [hstopper, hrunning, hclients, socketAt_congr hsockets]
    exact h.passed
  · rw [Sys.stopped, hstopper, hrunning]
    exact fun hstopped => (hqueue hstopped).trans (h.drained hstopped)
  · rw [hdropped]
    exact h.kept

/-- The listening socket is closed after the process thread has been joined. -/
theorem Stop.joined_of_shut {isRunning : Bool} {stopper : Stop} (h : stopper.shut isRunning) :
    stopper.joined isRunning := by
  cases stopper <;> first | exact h | exact h.elim

/-- The clients are closed after the process thread has been joined. -/
theorem Stop.joined_of_passed {isRunning : Bool} {stopper : Stop} {name : Str}
    (h : stopper.passed isRunning name) : stopper.joined isRunning := by
  cases stopper <;> first | exact h | exact h.elim | trivial

/-- After the return of `stop` the process thread has been joined. -/
theorem Sys.stopped.joined {s : Sys} (h : s.stopped) : s.stopper.joined s.isRunning := by
  rw [h.2]
  exact h.1

/-- Nothing is claimed of a call of `stop` that has not joined the process thread. -/
theorem StopInv.waits {s t : Sys} (h : StopInv s) (ht : ¬t.stopper.joined t.isRunning)
    (hdropped : t.dropped = s.dropped) : StopInv t := by
  refine ⟨fun hjoined => absurd hjoined ht, fun hshut => absurd (Stop.joined_of_shut hshut) ht,
    fun e _ hpassed => absurd (Stop.joined_of_passed hpassed) ht,
    fun hstopped => absurd hstopped.joined ht, ?_⟩
  rw [hdropped]
  exact h.kept

/-- A step of `stop` itself, once the process thread is joined. -/
theorem StopInv.advance {s t : Sys} (h : StopInv s) (hs : s.stopper.joined s.isRunning)
    (hprocessor : t.processor = s.processor) (hshut : t.stopper.shut t.isRunning → t.socket.fd < 0)
    (hpassed : ∀ e ∈ t.clients.entries, t.stopper.passed t.isRunning e.1 →
      (t.socketAt e.2).fd < 0)
    (hdrained : t.stopped → t.dataQueue = []) (hdropped : t.dropped = s.dropped) : StopInv t := by
  refine ⟨fun _ => ?_, hshut, hpassed, hdrained, ?_⟩
  · rw [hprocessor]
    exact h.exited hs
  · rw [hdropped]
    exact h.kept

/-- The new connection is entered where `stop` still comes by. -/
theorem StopInv.registered {s : Sys} (h : StopInv s) {ready : Finset ℤ} {sock : ℕ}
    (hname : ¬s.stopper.passed s.isRunning (s.socketAt sock).getName) :
    StopInv { s with
      fdset := insert (s.socketAt sock).fd s.fdset
      maxFD := max s.maxFD (s.socketAt sock).fd
      clients := s.clients.insert (s.socketAt sock).getName sock
      runner := .walking ready 0 } := by
  refine ⟨h.exited, h.shut, fun e he hpassed => ?_, h.drained, h.kept⟩
  rcases mem_insert_entries he with rfl | hold
  · exact absurd hpassed hname
  · exact h.passed e hold hpassed

/-- The socket at the iterator is destroyed. -/
theorem StopInv.clientClosed {s : Sys} (h : StopInv s) (hfds : FdInv s) {it : Str × ℕ}
    (hs : s.stopper = .closingClients (some it)) (hlt : it.2 < s.sockets.length)
    (hit : it ∈ s.clients.entries) :
    StopInv { destroyClient s it.2 with stopper := .advancing it } := by
  have hdead : (s.socketAt it.2).destroy.fd < 0 := destroy_fd_neg (hfds.socketAt_ne it.2)
  refine h.advance (by rw [hs]; trivial) rfl (fun _ => ?_) (fun e he hpassed => ?_)
    (fun hstopped => absurd hstopped.2 (by simp)) rfl
  · exact h.shut (by rw [hs]; trivial)
  · show ((s.sockets.set it.2 (s.socketAt it.2).destroy)[e.2]?.getD Socket.new).fd < 0
    by_cases hsock : e.2 = it.2
    · rw [hsock, List.getElem?_set_self hlt, Option.getD_some]
      exact hdead
    · rw [List.getElem?_set_ne (Ne.symm hsock)]
      rcases lt_or_eq_of_le (show e.1 ≤ it.1 from hpassed) with hless | hsame
      · exact h.passed e he (by rw [hs]; exact hless)
      · -- two entries with one name are one entry
        have he' : s.clients.find? it.1 = some e.2 := hsame ▸ OrderedMap.find?_of_mem he
        exact absurd (Option.some.inj (he'.symm.trans (OrderedMap.find?_of_mem hit))) hsock

/-- `start` changes the listening socket before `stop` gets past `join`. -/
theorem StopInv.starting {s t : Sys} (h : StopInv s) (hnot : ¬s.stopper.joined s.isRunning)
    (hclients : t.clients = s.clients) (hsockets : t.sockets = s.sockets)
    (hrunning : t.isRunning = s.isRunning) (hstopper : t.stopper = s.stopper)
    (hqueue : t.dataQueue = s.dataQueue) (hdropped : t.dropped = s.dropped) : StopInv t := by
  refine ⟨?_, ?_, ?_, ?_, ?_⟩
  · rw [hstopper, hrunning]
    exact fun hjoined => absurd hjoined hnot
  · rw [hstopper, hrunning]
    exact fun hshut => absurd (Stop.joined_of_shut hshut) hnot
  · rw [hstopper, hrunning, hclients, socketAt_congr hsockets]
    exact h.passed
  · rw [Sys.stopped, hstopper, hrunning, hqueue]
    exact h.drained
  · rw [hdropped]
    exact h.kept

/-- Nothing stands in front of the first entry. -/
theorem not_passed_first {clients : OrderedMap Str ℕ} {isRunning : Bool} {e : Str × ℕ}
    (he : e ∈ clients.entries) : ¬(Stop.closingClients clients.first?).passed isRunning e.1 := by
  intro hpassed
  cases hfirst : clients.first? with
  | none =>
      have hnil : clients.entries = [] := List.head?_eq_none_iff.mp hfirst
      rw [hnil] at he
      exact absurd he List.not_mem_nil
  | some it =>
      rw [hfirst] at hpassed
      exact absurd hpassed (not_lt.mpr (OrderedMap.le_of_first? hfirst he))

/-- What the iterator has passed after its increment it had passed before, or it stood
there. -/
theorem passed_advancing {clients : OrderedMap Str ℕ} {isRunning : Bool} {e it : Str × ℕ}
    (he : e ∈ clients.entries)
    (hpassed : (Stop.closingClients (clients.next? it.1)).passed isRunning e.1) :
    (Stop.advancing it).passed isRunning e.1 := by
  cases hnext : clients.next? it.1 with
  | none => exact OrderedMap.le_of_next?_eq_none hnext he
  | some it' =>
      rw [hnext] at hpassed
      exact OrderedMap.le_of_next? hnext he hpassed

/-- **Step lemma.**  Every move under the condition keeps what `stop` has done. -/
theorem StopInv.step {as : List Label} {s t : Sys} {a : Label} (h : StopInv s)
    (hrun : system.Run tidy as s) (hok : tidy s a) (hm : Move s a t) : StopInv t := by
  have hpeer := peerInv_of_run hrun
  have hfds := fdInv_of_run hrun
  have hreach := hrun.reachable
  -- `stop` does not get past `join` before the process thread is created
  have hearly : s.runner.early = true → ¬s.stopper.joined s.isRunning := by
    intro he hjoined
    exact absurd ((absent_of_early hreach he).symm.trans (h.exited hjoined)) (by simp)
  -- nor before it has left its loop
  have hbusy : ∀ {p : Process}, s.processor = p → p ≠ .exited →
      ¬s.stopper.joined s.isRunning := by
    intro p hp hne hjoined
    exact hne (hp.symm.trans (h.exited hjoined))
  -- a step of the process thread
  have hprocess : ∀ {p : Process}, s.processor = p → p ≠ .exited → t.socket = s.socket →
      t.clients = s.clients → t.sockets = s.sockets → t.isRunning = s.isRunning →
      t.stopper = s.stopper → t.dropped = s.dropped → StopInv t := by
    intro p hp hne hsocket hclients hsockets hrunning hstopper hdropped
    refine h.frame hsocket hclients hsockets hrunning hstopper ?_ ?_ hdropped
    · exact fun hjoined => absurd hjoined (hbusy hp hne)
    · exact fun hstopped => absurd hstopped.joined (hbusy hp hne)
  cases hm with
  | tcpFails hr | initFails _ hr | listens _ hr | launched hr =>
      exact h.starting (hearly (by rw [hr]; rfl)) rfl rfl rfl rfl rfl rfl
  | unnamed | disconnected | disconnectUndefined => exact hok.elim
  | connection ready fd addr hr hfd =>
      refine ⟨h.exited, h.shut, fun e he hpassed => ?_, h.drained, h.kept⟩
      show ((s.sockets ++ [_])[e.2]?.getD Socket.new).fd < 0
      rw [socketAt_concat (hpeer.lt_of_mem he)]
      exact h.passed e he hpassed
  | registered ready sock hr =>
      exact h.registered (hok.1 sock (by rw [hr]; exact List.mem_singleton_self _)).2
  | erased ready it name sock hr hit hfd =>
      refine ⟨h.exited, h.shut, fun e he hpassed => ?_, h.drained, h.kept⟩
      exact h.passed e ((List.eraseIdx_sublist _ _).subset he) hpassed
  | queued ready it packet hr hs =>
      refine h.frame rfl rfl rfl rfl rfl (fun _ => rfl) (fun hstopped => ?_) rfl
      -- `stop` has not emptied the queue yet
      have hnone := hok.2 hstopped
      rw [hr] at hnone
      exact absurd hnone (by simp [Run.stamped])
  | notQueued ready it packet hr hs => exact absurd hs (state_ne_terminate hreach)
  | checked hp | timedOut hp | underflow hp | took _ _ hp | terminated _ _ hp | unanswered _ hp
  | found _ _ hp | rewritten _ _ _ _ hp | sent _ _ hp | unsent _ _ hp | gaveBack _ hp =>
      exact hprocess hp (by simp) rfl rfl rfl rfl rfl rfl
  | stopCalled hs =>
      cases hrunning : s.isRunning with
      | true => exact h.waits not_false rfl
      | false =>
          exact h.advance (by rw [hs]; exact hrunning) rfl False.elim (fun e _ => False.elim)
            (fun hstopped => absurd hstopped.2 (by simp)) rfl
  | stored | joinThrew | clientGone | advanceUndefined | popUndefined =>
      exact h.waits not_false rfl
  | joined hs hj hp =>
      exact ⟨fun _ => hp, False.elim, fun e _ => False.elim,
        fun hstopped => absurd hstopped.2 (by simp), h.kept⟩
  | closed hs =>
      refine h.advance (by rw [hs]; trivial) rfl (fun _ => destroy_fd_neg hfds.nonzero.1)
        (fun e _ => False.elim) (fun hstopped => absurd hstopped.2 (by simp)) rfl
  | began hs =>
      refine h.advance (by rw [hs]; trivial) rfl (fun _ => h.shut (by rw [hs]; trivial))
        (fun e he hpassed => absurd hpassed (not_passed_first he))
        (fun hstopped => absurd hstopped.2 (by simp)) rfl
  | clientClosed it hs hit => exact h.clientClosed hfds hs (hpeer.lt_of_mem hit) hit
  | advanced it hs hit =>
      refine h.advance (by rw [hs]; trivial) rfl (fun _ => h.shut (by rw [hs]; trivial))
        (fun e he hpassed => ?_) (fun hstopped => absurd hstopped.2 (by simp)) rfl
      apply h.passed e he
      rw [hs]
      exact passed_advancing he hpassed
  | clientsClosed hs =>
      refine h.advance (by rw [hs]; trivial) rfl (fun _ => h.shut (by rw [hs]; trivial))
        (fun e he _ => h.passed e he (by rw [hs]; trivial))
        (fun hstopped => absurd hstopped.2 (by simp)) rfl
  | drainTested hs =>
      refine h.advance (by rw [hs]; trivial) rfl (fun _ => h.shut (by rw [hs]; trivial))
        (fun e he _ => h.passed e he (by rw [hs]; trivial)) (fun hstopped => ?_) rfl
      by_contra hqueue
      have hnot : s.dataQueue.isEmpty = false := by simpa using hqueue
      have hstay : (if s.dataQueue.isEmpty then Stop.outside else .popping) = .outside :=
        hstopped.2
      rw [hnot] at hstay
      exact absurd hstay (by simp)
  | popped _ _ hs | pushed _ hs =>
      exact h.advance (by rw [hs]; trivial) rfl (fun _ => h.shut (by rw [hs]; trivial))
        (fun e he _ => h.passed e he (by rw [hs]; trivial))
        (fun hstopped => absurd hstopped.2 (by simp)) rfl
  | _ => exact h.frame rfl rfl rfl rfl rfl (fun _ => rfl) (fun _ => rfl) rfl

/-- Every run under the condition keeps what `stop` has done. -/
theorem stopInv_of_run {as : List Label} {s : Sys} (h : system.Run tidy as s) : StopInv s := by
  refine LTS.Run.induction (I := fun _ => StopInv) ?_ ?_ h
  · rintro _ rfl
    exact ⟨fun hjoined => absurd hjoined (by simp [fresh, Stop.joined]),
      fun hshut => absurd hshut (by simp [fresh, Stop.shut, Stop.joined]),
      fun e he => absurd he List.not_mem_nil, fun _ => rfl, rfl⟩
  · intro as s a t hrun hs hok hstep
    exact hs.step hrun hok (move_of_step hstep)

/-! ## Main result -/

/-- No packet is queued, no descriptor is open, and every packet is in the pool or
deleted. -/
structure NothingLeft (s : Sys) : Prop where
  queue : s.dataQueue = []
  sockets : s.openFds = ∅
  packets : ∀ packet < s.memory.next, packet ∈ s.objectPool.pool ∨ packet ∈ s.memory.deleted

/-- **`stop` leaves nothing behind**, in every run whose steps meet the condition,
wherever `run` was when it was called. -/
theorem stop_leaves_nothing {s : Sys} {code : ℤ} (h : system.Reachable tidy s)
    (hreturned : s.runner = .returned code) (hstopped : s.stopped) : NothingLeft s := by
  obtain ⟨as, hrun⟩ := h
  have hpeer := peerInv_of_run hrun
  have hfds := fdInv_of_run hrun
  have hinv := stopInv_of_run hrun
  have hqueue := hinv.drained hstopped
  refine ⟨hqueue, ?_, ?_⟩
  · apply Finset.eq_empty_of_forall_notMem
    intro fd hfd
    have hpos := hfds.positive fd hfd
    rcases hfds.owned (by simp [hreturned]) fd hfd with hlisten | ⟨sock, hsock, heq⟩
    · have hshut := hinv.shut (by rw [hstopped.2]; exact hstopped.1)
      omega
    · rw [hreturned] at hsock
      have hmem : sock ∈ s.clients.values := hsock.resolve_right List.not_mem_nil
      obtain ⟨e, he, rfl⟩ := List.mem_map.mp hmem
      have hdead := hinv.passed e he (by rw [hstopped.2]; exact hstopped.1)
      omega
  · intro packet hpacket
    have hlaw := law_of_reachable hrun.reachable
    have hexited := hinv.exited hstopped.joined
    by_cases hdeleted : packet ∈ s.memory.deleted
    · exact Or.inr hdeleted
    · left
      have hconserved := (conserved_iff_dropped hlaw).mpr hinv.kept packet hpacket hdeleted
      rw [hqueue, hreturned, hexited, hstopped.2] at hconserved
      simpa [Run.hand, Process.hand, Stop.hand] using hconserved

/-- `stop` is called while a packet is in the queue, and closes one client. -/
def stopRun : List Label :=
  [.stop, .stop, .process, .stop, .stop, .stop, .stop, .stop, .stop, .stop]

/-- One packet is queued, then the server is stopped. -/
theorem stop_leaves_nothing_oneChunk :
    ∃ s : Sys, s.memory.next = 1 ∧ s.sockets.length = 1 ∧ NothingLeft s := by
  have hreach : system.Reachable tidy _ :=
    LTS.reachable_of_exec rfl
      (show LTS.exec _ _ _ (oneChunkRun [1] ++ stopRun ++ [.stop, .stop, .stop, .run, .run]) = _
        from rfl)
  exact ⟨_, rfl, rfl, stop_leaves_nothing hreach rfl (by decide)⟩

/-- The signal arrives when `run` is about to queue a packet: `stop` runs through, and
then the packet is queued. -/
def lateQueueRun : List Label :=
  (oneChunkRun [1]).dropLast ++ stopRun ++ [.run, .run, .run]

/-- The packet of `lateQueueRun` stays in the queue. -/
theorem stop_leaves_packet :
    ¬∀ (s : Sys) (code : ℤ), system.Reachable (fun _ _ => True) s → s.runner = .returned code →
      s.stopped → NothingLeft s := by
  intro h
  have hreach : system.Reachable (fun _ _ => True) _ :=
    LTS.reachable_of_exec rfl (show LTS.exec _ _ _ lateQueueRun = _ from rfl)
  have hqueue := (h _ 0 hreach rfl (by decide)).queue
  exact absurd hqueue (by decide)

end TcpServer
