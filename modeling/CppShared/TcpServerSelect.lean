/-
# The select set and the client table

Before `stop`, at the head of the loop of `run`, the descriptors in `fdset` besides
the listening one should be the open descriptors of the sockets in `clients`, each
owned by one entry.  `registered` and `disconnected` are the only moves that change
the two tables, and they change both alike under two conditions (`distinctNames`):

* the name of a new connection is not yet a key of `clients`.  `map::insert` drops
  the new socket otherwise, and its descriptor stays in `fdset` without an entry;
  a key stays in the map until the pass after the disconnect;
* a connection that is dropped has not descriptor `0`, which `destroy` neither
  closes nor forgets.

`fdset_agrees` is the invariant under these conditions, and `fdset_disagrees` a run
in which a client reconnects from the same address too early.
-/
import CppShared.TcpServerOwnership

namespace TcpServer

/-! ## The condition on the steps -/

/-- The socket that was accepted and is not yet entered into the tables. -/
def Run.news : Run → List ℕ
  | .accepted _ sock => [sock]
  | _ => []

/-- The client whose turn it is, until its bytes are received. -/
def Run.current : Run → List ℕ
  | .getting _ _ sock => [sock]
  | .receiving _ _ sock _ => [sock]
  | .dropping _ _ sock _ => [sock]
  | _ => []

/-- Nobody calls `stop`; a new connection has a new name; descriptor `0` is not
dropped. -/
def distinctNames (s : Sys) : Label → Prop
  | .stop => False
  | .run => ∀ sock ∈ s.runner.news, (s.socketAt sock).getName ∉ s.clients.keys
  | .disconnect => ∀ sock ∈ s.runner.current, (s.socketAt sock).fd ≠ 0
  | _ => True

instance (s : Sys) (a : Label) : Decidable (distinctNames s a) :=
  match a with
  | .stop => inferInstanceAs (Decidable False)
  | .run => inferInstanceAs (Decidable
      (∀ sock ∈ s.runner.news, (s.socketAt sock).getName ∉ s.clients.keys))
  | .disconnect => inferInstanceAs (Decidable
      (∀ sock ∈ s.runner.current, (s.socketAt sock).fd ≠ 0))
  | .start _ | .select _ _ | .accept _ | .recv _ | .process | .answer _ _ =>
      inferInstanceAs (Decidable True)

/-! ## The tables -/

/-- The open descriptors of the sockets in `clients`, one for each entry. -/
def clientFds (s : Sys) : List ℤ :=
  (s.clients.values.map fun sock => (s.socketAt sock).fd).filter fun fd => 0 ≤ fd

/-- What holds of the tables anywhere in the loop. -/
structure Tables (s : Sys) : Prop where
  valid : ∀ sock ∈ s.clients.values, sock < s.sockets.length
  once : s.clients.values.Nodup
  owned : (clientFds s).Nodup
  listening : s.socket.fd ∉ clientFds s
  watched : ∀ fd, fd ∈ s.fdset ↔ fd = s.socket.fd ∨ fd ∈ clientFds s
  bound : ∀ fd ∈ s.fdset, fd ≤ s.maxFD
  opened : ∀ fd, fd ∈ s.openFds ↔ fd = s.socket.fd ∨ fd ∈ clientFds s ∨
    ∃ sock ∈ s.runner.news, fd = (s.socketAt sock).fd
  news : ∀ sock ∈ s.runner.news, sock < s.sockets.length ∧ sock ∉ s.clients.values ∧
    (s.socketAt sock).fd ≠ s.socket.fd ∧ (s.socketAt sock).fd ∉ clientFds s
  current : ∀ sock ∈ s.runner.current, sock ∈ s.clients.values ∧ 0 ≤ (s.socketAt sock).fd

/-- The phases of `start`. -/
inductive Phase
  | before
  | starting
  | looping
  | ended

/-- The phase a place in `start` belongs to. -/
def Run.phase : Run → Phase
  | .idle => .before
  | .listening => .starting
  | .launching => .starting
  | .entering => .starting
  | .returned _ => .ended
  | .threw => .ended
  | .undefined => .ended
  | _ => .looping

/-- The invariant, phase by phase. -/
def SelectInv (s : Sys) : Prop :=
  match s.runner.phase with
  | .before => s.clients.entries = [] ∧ s.openFds = ∅
  | .starting => s.clients.entries = [] ∧ s.openFds = {s.socket.fd} ∧ 0 ≤ s.socket.fd
  | .looping => Tables s
  | .ended => True

/-! ## Steps that leave the tables alone -/

/-- The parts of the state that the tables speak about. -/
structure SameTables (s t : Sys) : Prop where
  socket : t.socket = s.socket := by rfl
  clients : t.clients = s.clients := by rfl
  sockets : t.sockets = s.sockets := by rfl
  openFds : t.openFds = s.openFds := by rfl
  fdset : t.fdset = s.fdset := by rfl
  maxFD : t.maxFD = s.maxFD := by rfl

/-- Sockets are looked up in the list of sockets. -/
theorem socketAt_congr {s t : Sys} (h : t.sockets = s.sockets) : t.socketAt = s.socketAt := by
  funext sock
  rw [Sys.socketAt, Sys.socketAt, h]

theorem clientFds_congr {s t : Sys} (hclients : t.clients = s.clients)
    (hsockets : t.sockets = s.sockets) : clientFds t = clientFds s := by
  rw [clientFds, clientFds, hclients, socketAt_congr hsockets]

/-- A step inside the loop that leaves the tables alone. -/
theorem Tables.congr {s t : Sys} (h : Tables s) (hsame : SameTables s t)
    (hnews : t.runner.news = s.runner.news)
    (hcurrent : ∀ sock ∈ t.runner.current,
      sock ∈ s.clients.values ∧ 0 ≤ (s.socketAt sock).fd) : Tables t := by
  have hfds : clientFds t = clientFds s := clientFds_congr hsame.clients hsame.sockets
  have hat : t.socketAt = s.socketAt := socketAt_congr hsame.sockets
  refine ⟨?_, ?_, ?_, ?_, ?_, ?_, ?_, ?_, ?_⟩
  · rw [hsame.clients, hsame.sockets]
    exact h.valid
  · rw [hsame.clients]
    exact h.once
  · rw [hfds]
    exact h.owned
  · rw [hfds, hsame.socket]
    exact h.listening
  · rw [hfds, hsame.socket, hsame.fdset]
    exact h.watched
  · rw [hsame.fdset, hsame.maxFD]
    exact h.bound
  · rw [hfds, hsame.socket, hsame.openFds, hnews, hat]
    exact h.opened
  · rw [hfds, hsame.socket, hsame.sockets, hsame.clients, hnews, hat]
    exact h.news
  · rw [hsame.clients, hat]
    exact hcurrent

/-- A step of another thread. -/
theorem SelectInv.frame {s t : Sys} (h : SelectInv s) (hsame : SameTables s t)
    (hrunner : t.runner = s.runner) : SelectInv t := by
  unfold SelectInv at h ⊢
  rw [hrunner]
  cases hphase : s.runner.phase with
  | before =>
      rw [hphase] at h
      exact ⟨by rw [hsame.clients, h.1], by rw [hsame.openFds, h.2]⟩
  | starting =>
      rw [hphase] at h
      refine ⟨by rw [hsame.clients, h.1], ?_, ?_⟩
      · rw [hsame.openFds, hsame.socket, h.2.1]
      · rw [hsame.socket]
        exact h.2.2
  | looping =>
      rw [hphase] at h
      have htables : Tables s := h
      refine htables.congr hsame (by rw [hrunner]) ?_
      rw [hrunner]
      exact htables.current
  | ended => trivial

/-! ## The steps that change the tables -/

/-- A socket that exists is found at its place, also after another one is made. -/
theorem socketAt_concat {s : Sys} {sock : ℕ} (h : sock < s.sockets.length) (c : Socket) :
    (s.sockets ++ [c])[sock]?.getD Socket.new = s.socketAt sock := by
  rw [Sys.socketAt, List.getElem?_append_left h]

/-- The values of the map and the client descriptors go together. -/
theorem clientFds_perm {s : Sys} {values : List ℕ} (h : s.clients.values.Perm values) :
    (clientFds s).Perm
      ((values.map fun sock => (s.socketAt sock).fd).filter fun fd => 0 ≤ fd) :=
  (h.map _).filter _

/-- The initial `fdset`. -/
theorem tables_entered {s : Sys} (hclients : s.clients.entries = [])
    (hopen : s.openFds = {s.socket.fd}) :
    Tables { s with
      fdset := {s.socket.fd}, maxFD := s.socket.fd, tv := 3000000, runner := .head } := by
  have hvalues : s.clients.values = [] := by
    rw [OrderedMap.values, hclients]
    rfl
  have hfds : clientFds { s with
      fdset := {s.socket.fd}, maxFD := s.socket.fd, tv := 3000000, runner := .head } = [] := by
    show (s.clients.values.map _).filter _ = []
    rw [hvalues]
    rfl
  refine ⟨?_, ?_, ?_, ?_, ?_, ?_, ?_, ?_, ?_⟩
  · intro sock hsock
    replace hsock : sock ∈ s.clients.values := hsock
    rw [hvalues] at hsock
    exact absurd hsock List.not_mem_nil
  · show s.clients.values.Nodup
    rw [hvalues]
    exact List.nodup_nil
  · rw [hfds]
    exact List.nodup_nil
  · rw [hfds]
    exact List.not_mem_nil
  · intro fd
    rw [hfds]
    show fd ∈ ({s.socket.fd} : Finset ℤ) ↔ fd = s.socket.fd ∨ fd ∈ []
    simp
  · intro fd hfd
    exact le_of_eq (Finset.mem_singleton.mp hfd)
  · intro fd
    rw [hfds]
    show fd ∈ s.openFds ↔ fd = s.socket.fd ∨ fd ∈ [] ∨ ∃ sock ∈ ([] : List ℕ), _
    rw [hopen]
    simp
  · intro sock hsock
    exact absurd hsock List.not_mem_nil
  · intro sock hsock
    exact absurd hsock List.not_mem_nil

/-- A connection is accepted. -/
theorem Tables.connection {s : Sys} (h : Tables s) {ready : Finset ℤ} {fd : ℤ} (addr : Addr)
    (hr : s.runner = .accepting ready) (hfd : freshFd s fd) :
    Tables { s with
      sockets := s.sockets ++ [Socket.accepting fd addr]
      openFds := insert fd s.openFds
      runner := .accepted ready s.sockets.length } := by
  have hold : ∀ sock ∈ s.clients.values,
      (s.sockets ++ [Socket.accepting fd addr])[sock]?.getD Socket.new = s.socketAt sock :=
    fun sock hsock => socketAt_concat (h.valid sock hsock) _
  have hnew : (s.sockets ++ [Socket.accepting fd addr])[s.sockets.length]?.getD Socket.new =
      Socket.accepting fd addr := by
    rw [List.getElem?_concat_length]
    rfl
  have hfds : clientFds { s with
      sockets := s.sockets ++ [Socket.accepting fd addr]
      openFds := insert fd s.openFds
      runner := .accepted ready s.sockets.length } = clientFds s := by
    unfold clientFds
    congr 1
    apply List.map_congr_left
    intro sock hsock
    exact congrArg Socket.fd (hold sock hsock)
  have hopened : ∀ f, f ∈ s.openFds ↔ f = s.socket.fd ∨ f ∈ clientFds s := by
    intro f
    rw [h.opened f, hr]
    simp [Run.news]
  have hnot := hfd.2
  rw [hopened] at hnot
  refine ⟨?_, h.once, ?_, ?_, ?_, h.bound, ?_, ?_, ?_⟩
  · intro sock hsock
    have hlt := h.valid sock hsock
    show sock < (s.sockets ++ [_]).length
    rw [List.length_append]
    omega
  · rw [hfds]
    exact h.owned
  · rw [hfds]
    exact h.listening
  · rw [hfds]
    exact h.watched
  · intro f
    rw [hfds]
    show f ∈ insert fd s.openFds ↔ f = s.socket.fd ∨ f ∈ clientFds s ∨
      ∃ sock ∈ [s.sockets.length],
        f = ((s.sockets ++ [Socket.accepting fd addr])[sock]?.getD Socket.new).fd
    rw [Finset.mem_insert, hopened]
    simp only [List.mem_singleton, exists_eq_left, hnew]
    show f = fd ∨ f = s.socket.fd ∨ f ∈ clientFds s ↔
      f = s.socket.fd ∨ f ∈ clientFds s ∨ f = fd
    tauto
  · intro sock hsock
    obtain rfl := List.mem_singleton.mp hsock
    rw [hfds]
    refine ⟨?_, fun hmem => absurd (h.valid _ hmem) (lt_irrefl _), ?_, ?_⟩
    · show s.sockets.length < (s.sockets ++ [_]).length
      rw [List.length_append]
      exact Nat.lt_succ_self _
    · show ((s.sockets ++ [Socket.accepting fd addr])[s.sockets.length]?.getD Socket.new).fd ≠ _
      rw [hnew]
      exact fun heq => hnot (.inl heq)
    · show ((s.sockets ++ [Socket.accepting fd addr])[s.sockets.length]?.getD Socket.new).fd ∉ _
      rw [hnew]
      exact fun hmem => hnot (.inr hmem)
  · intro sock hsock
    exact absurd hsock List.not_mem_nil

/-- The new socket is entered into both tables under a new name. -/
theorem Tables.registered {s : Sys} (h : Tables s) {ready : Finset ℤ} {sock : ℕ}
    (hr : s.runner = .accepted ready sock) (hfd : inFdSet (s.socketAt sock).fd)
    (hname : (s.socketAt sock).getName ∉ s.clients.keys) :
    Tables { s with
      fdset := insert (s.socketAt sock).fd s.fdset
      maxFD := max s.maxFD (s.socketAt sock).fd
      clients := s.clients.insert (s.socketAt sock).getName sock
      runner := .walking ready 0 } := by
  set t : Sys := { s with
    fdset := insert (s.socketAt sock).fd s.fdset
    maxFD := max s.maxFD (s.socketAt sock).fd
    clients := s.clients.insert (s.socketAt sock).getName sock
    runner := .walking ready 0 } with ht
  obtain ⟨hlt, hout, hlisten, hunowned⟩ := h.news sock (by rw [hr]; exact List.mem_singleton_self _)
  have hvalues : t.clients.values.Perm (sock :: s.clients.values) :=
    OrderedMap.perm_values_insert hname
  have hfds : (clientFds t).Perm ((s.socketAt sock).fd :: clientFds s) := by
    have hperm := clientFds_perm (s := t) hvalues
    have hnonneg : 0 ≤ (t.socketAt sock).fd := hfd.1
    rw [List.map_cons, List.filter_cons_of_pos (by simpa using hnonneg)] at hperm
    exact hperm
  refine ⟨?_, ?_, ?_, ?_, ?_, ?_, ?_, ?_, ?_⟩
  · intro sock' hsock'
    rcases List.mem_cons.mp (hvalues.mem_iff.mp hsock') with rfl | hold
    · exact hlt
    · exact h.valid sock' hold
  · exact hvalues.nodup_iff.mpr (List.nodup_cons.mpr ⟨hout, h.once⟩)
  · exact hfds.nodup_iff.mpr (List.nodup_cons.mpr ⟨hunowned, h.owned⟩)
  · intro hmem
    rcases List.mem_cons.mp (hfds.mem_iff.mp hmem) with heq | hold
    · exact hlisten heq.symm
    · exact h.listening hold
  · intro fd
    rw [hfds.mem_iff, List.mem_cons]
    show fd ∈ insert (s.socketAt sock).fd s.fdset ↔ fd = s.socket.fd ∨ _
    rw [Finset.mem_insert, h.watched fd]
    tauto
  · intro fd hmem
    rcases Finset.mem_insert.mp hmem with rfl | hold
    · exact le_max_right _ _
    · exact (h.bound fd hold).trans (le_max_left _ _)
  · intro fd
    rw [hfds.mem_iff, List.mem_cons]
    show fd ∈ s.openFds ↔ fd = s.socket.fd ∨ _ ∨ ∃ sock' ∈ ([] : List ℕ), _
    rw [h.opened fd, hr]
    simp only [Run.news, List.mem_singleton, exists_eq_left, List.not_mem_nil, false_and,
      exists_false, or_false]
    tauto
  · intro sock' hsock'
    exact absurd hsock' List.not_mem_nil
  · intro sock' hsock'
    exact absurd hsock' List.not_mem_nil

/-- A stale entry leaves the map; its socket has no descriptor. -/
theorem Tables.erased {s : Sys} (h : Tables s) {ready : Finset ℤ} {it sock : ℕ} {name : Str}
    (hr : s.runner = .walking ready it) (hit : s.clients.entries[it]? = some (name, sock))
    (hfd : (s.socketAt sock).fd < 0) :
    Tables { s with clients := s.clients.eraseAt it, runner := .walking ready (it + 1) } := by
  set t : Sys := { s with
    clients := s.clients.eraseAt it, runner := .walking ready (it + 1) } with ht
  have hvalues : s.clients.values.Perm (sock :: t.clients.values) :=
    OrderedMap.perm_values_eraseAt hit
  have hfds : (clientFds s).Perm (clientFds t) := by
    have hperm := clientFds_perm hvalues
    rwa [List.map_cons, List.filter_cons_of_neg (by simpa using hfd)] at hperm
  refine ⟨?_, ?_, ?_, ?_, ?_, h.bound, ?_, ?_, ?_⟩
  · intro sock' hsock'
    exact h.valid sock' (hvalues.mem_iff.mpr (List.mem_cons_of_mem _ hsock'))
  · exact (List.nodup_cons.mp (hvalues.nodup_iff.mp h.once)).2
  · exact hfds.nodup_iff.mp h.owned
  · exact fun hmem => h.listening (hfds.mem_iff.mpr hmem)
  · intro fd
    rw [← hfds.mem_iff]
    exact h.watched fd
  · intro fd
    rw [← hfds.mem_iff]
    have hopened := h.opened fd
    rw [hr] at hopened
    exact hopened
  · intro sock' hsock'
    exact absurd hsock' List.not_mem_nil
  · intro sock' hsock'
    exact absurd hsock' List.not_mem_nil

/-- Closing the socket of one client takes its descriptor out of the list, and no other. -/
theorem Tables.clientFds_destroyed {s t : Sys} (h : Tables s) {sock : ℕ}
    (hmem : sock ∈ s.clients.values) (hpos : 0 < (s.socketAt sock).fd)
    (hclients : t.clients = s.clients)
    (hsockets : t.sockets = s.sockets.set sock (s.socketAt sock).destroy) :
    (clientFds s).Perm ((s.socketAt sock).fd :: clientFds t) := by
  have hsplit : s.clients.values.Perm (sock :: s.clients.values.erase sock) :=
    List.perm_cons_erase hmem
  have hself : (t.socketAt sock).fd = -1 := by
    show (t.sockets[sock]?.getD Socket.new).fd = -1
    rw [hsockets, List.getElem?_set_self (h.valid sock hmem)]
    exact if_pos hpos
  -- the sockets of the other clients are not touched
  have hother : ∀ sock' ∈ s.clients.values.erase sock, t.socketAt sock' = s.socketAt sock' := by
    intro sock' hsock'
    have hne : sock ≠ sock' := by
      rintro rfl
      exact h.once.not_mem_erase hsock'
    show t.sockets[sock']?.getD Socket.new = _
    rw [hsockets, List.getElem?_set_ne hne]
    rfl
  have hsplit' : t.clients.values.Perm (sock :: s.clients.values.erase sock) := by
    rw [hclients]
    exact hsplit
  have hs := clientFds_perm hsplit
  have ht := clientFds_perm hsplit'
  rw [List.map_cons, List.filter_cons_of_pos (by simpa using hpos.le)] at hs
  rw [List.map_cons, hself, List.filter_cons_of_neg (by decide),
    List.map_congr_left fun sock' hsock' => congrArg Socket.fd (hother sock' hsock')] at ht
  exact hs.trans (ht.symm.cons _)

/-- A dropped connection leaves `fdset` and closes its descriptor; its entry stays
in the map. -/
theorem Tables.disconnected {s : Sys} (h : Tables s) {ready : Finset ℤ} {it sock packet : ℕ}
    (hr : s.runner = .dropping ready it sock packet) (hfd : (s.socketAt sock).fd ≠ 0) :
    Tables { destroyClient s sock with
      fdset := s.fdset.erase (s.socketAt sock).fd
      dropped := s.dropped ++ [packet]
      runner := .walking ready (it + 1) } := by
  set t : Sys := { destroyClient s sock with
    fdset := s.fdset.erase (s.socketAt sock).fd
    dropped := s.dropped ++ [packet]
    runner := .walking ready (it + 1) } with ht
  obtain ⟨hmem, hnonneg⟩ := h.current sock (by rw [hr]; exact List.mem_singleton_self _)
  have hpos : 0 < (s.socketAt sock).fd := lt_of_le_of_ne hnonneg (Ne.symm hfd)
  have hfds : (clientFds s).Perm ((s.socketAt sock).fd :: clientFds t) :=
    h.clientFds_destroyed hmem hpos rfl rfl
  obtain ⟨hgone, hnodup⟩ := List.nodup_cons.mp (hfds.nodup_iff.mp h.owned)
  have hlisten : (s.socketAt sock).fd ≠ s.socket.fd := fun heq =>
    h.listening (heq ▸ hfds.mem_iff.mpr List.mem_cons_self)
  have hrest : ∀ fd, fd ≠ (s.socketAt sock).fd ∧ (fd = s.socket.fd ∨ fd ∈ clientFds s) ↔
      fd = s.socket.fd ∨ fd ∈ clientFds t := by
    intro fd
    rw [hfds.mem_iff, List.mem_cons]
    constructor
    · tauto
    · rintro (rfl | hold)
      · exact ⟨Ne.symm hlisten, .inl rfl⟩
      · exact ⟨fun heq => hgone (heq ▸ hold), .inr (.inr hold)⟩
  refine ⟨?_, h.once, hnodup, ?_, ?_, ?_, ?_, ?_, ?_⟩
  · intro sock' hsock'
    show sock' < (s.sockets.set _ _).length
    rw [List.length_set]
    exact h.valid sock' hsock'
  · exact fun hmem => h.listening (hfds.mem_iff.mpr (List.mem_cons_of_mem _ hmem))
  · intro fd
    rw [show t.socket = s.socket from rfl, ← hrest fd, ← h.watched fd]
    exact Finset.mem_erase
  · intro fd hmem
    exact h.bound fd (Finset.mem_of_mem_erase hmem)
  · intro fd
    have hopened := h.opened fd
    rw [hr] at hopened
    have hclosed : t.openFds = s.openFds.erase (s.socketAt sock).fd := if_pos hpos
    rw [hclosed, Finset.mem_erase, hopened, ← or_assoc, ← or_assoc,
      show t.socket = s.socket from rfl, ← hrest fd]
    simp [Run.news, ht]
  · intro sock' hsock'
    exact absurd hsock' List.not_mem_nil
  · intro sock' hsock'
    exact absurd hsock' List.not_mem_nil

/-! ## The invariant -/

/-- In the loop the invariant is about the tables. -/
theorem SelectInv.tables {s : Sys} (h : SelectInv s) (hphase : s.runner.phase = .looping) :
    Tables s := by
  unfold SelectInv at h
  rwa [hphase] at h

theorem Tables.selectInv {s : Sys} (h : Tables s) (hphase : s.runner.phase = .looping) :
    SelectInv s := by
  unfold SelectInv
  rwa [hphase]

/-- After `run` the invariant says nothing. -/
theorem selectInv_of_ended {s : Sys} (hphase : s.runner.phase = .ended) : SelectInv s := by
  unfold SelectInv
  rw [hphase]
  trivial

/-- A step inside the loop that leaves the tables alone and reads no client. -/
theorem SelectInv.pass {s t : Sys} (h : SelectInv s) (hphase : s.runner.phase = .looping)
    (hsame : SameTables s t) (hphase' : t.runner.phase = .looping)
    (hnews : t.runner.news = s.runner.news) (hcurrent : t.runner.current = []) :
    SelectInv t := by
  refine ((h.tables hphase).congr hsame hnews ?_).selectInv hphase'
  intro sock hsock
  rw [hcurrent] at hsock
  exact absurd hsock List.not_mem_nil

/-- A step inside the loop that stays with its client. -/
theorem SelectInv.stay {s t : Sys} (h : SelectInv s) (hphase : s.runner.phase = .looping)
    (hsame : SameTables s t) (hphase' : t.runner.phase = .looping)
    (hnews : t.runner.news = s.runner.news) (hcurrent : t.runner.current = s.runner.current) :
    SelectInv t := by
  refine ((h.tables hphase).congr hsame hnews ?_).selectInv hphase'
  rw [hcurrent]
  exact (h.tables hphase).current

/-- The client at a position of the map is one of its values. -/
theorem mem_values_of_entry {s : Sys} {it sock : ℕ} {name : Str}
    (hit : s.clients.entries[it]? = some (name, sock)) : sock ∈ s.clients.values :=
  List.mem_map.mpr ⟨(name, sock), List.mem_of_getElem? hit, rfl⟩

/-- A permitted step preserves the invariant. -/
theorem SelectInv.move {s t : Sys} {a : Label} (h : SelectInv s) (hok : distinctNames s a)
    (hm : Move s a t) : SelectInv t := by
  cases hm with
  | tcpFails | initFails | enterUndefined | testUndefined | acceptFails | unnamed
  | registerUndefined | disconnectUndefined =>
      exact selectInv_of_ended rfl
  | listens fd hr hfd =>
      unfold SelectInv at h
      rw [hr] at h
      obtain ⟨hclients, hopen⟩ := h
      refine ⟨hclients, ?_, hfd.1⟩
      show insert fd s.openFds = {fd}
      rw [hopen]
      rfl
  | idel hr =>
      unfold SelectInv at h
      rw [hr] at h
      exact h
  | launched hr =>
      unfold SelectInv at h
      rw [hr] at h
      exact h
  | entered hr hfd =>
      unfold SelectInv at h
      rw [hr] at h
      exact (tables_entered h.1 h.2.1).selectInv rfl
  | looped hr =>
      by_cases hrun : s.isRunning = true
      · rw [if_pos hrun]
        exact h.pass (by rw [hr]; rfl) {} rfl (by rw [hr]; rfl) rfl
      · rw [if_neg hrun]
        exact selectInv_of_ended rfl
  | selectedNone _ _ hr | selected _ _ hr | newConnection _ hr | noConnection _ hr
  | passEnd _ _ hr | notReady _ _ _ _ hr | recvData _ _ _ _ _ hr | stamped _ _ _ _ hr
  | queued _ _ _ hr | notQueued _ _ _ hr =>
      exact h.pass (by rw [hr]; rfl) {} rfl (by rw [hr]; rfl) rfl
  | connection ready fd addr hr hfd =>
      exact ((h.tables (by rw [hr]; rfl)).connection addr hr hfd).selectInv rfl
  | registered ready sock hr hfd =>
      have hname : (s.socketAt sock).getName ∉ s.clients.keys :=
        hok sock (by rw [hr]; exact List.mem_singleton_self _)
      exact ((h.tables (by rw [hr]; rfl)).registered hr hfd hname).selectInv rfl
  | erased ready it name sock hr hit hfd =>
      by_cases hlt : it < (s.clients.eraseAt it).entries.length
      · rw [if_pos hlt]
        exact ((h.tables (by rw [hr]; rfl)).erased hr hit hfd).selectInv rfl
      · rw [if_neg hlt]
        exact selectInv_of_ended rfl
  | isReady ready it name sock hr hit hfd hready =>
      have htables : Tables { s with runner := .getting ready it sock } := by
        refine (h.tables (by rw [hr]; rfl)).congr {} (by rw [hr]; rfl) ?_
        intro sock' hsock'
        obtain rfl := List.mem_singleton.mp hsock'
        exact ⟨mem_values_of_entry hit, not_lt.mp hfd⟩
      exact htables.selectInv rfl
  | got ready it sock hr =>
      exact h.stay (by rw [hr]; rfl) {} rfl (by rw [hr]; rfl) (by rw [hr]; rfl)
  | recvFails ready it sock packet hr =>
      exact h.stay (by rw [hr]; rfl) {} rfl (by rw [hr]; rfl) (by rw [hr]; rfl)
  | disconnected ready it sock packet hr =>
      have hne : (s.socketAt sock).fd ≠ 0 := hok sock (by rw [hr]; exact List.mem_singleton_self _)
      exact ((h.tables (by rw [hr]; rfl)).disconnected hr hne).selectInv rfl
  -- the process thread leaves the tables alone
  | checked | timedOut | underflow | took | terminated | unanswered | found | rewritten | sent
  | unsent | gaveBack =>
      exact h.frame {} rfl
  -- and `stop` is not called
  | _ => exact False.elim hok

/-- The invariant holds in every reachable state. -/
theorem selectInv_of_reachable {s : Sys} (h : system.Reachable distinctNames s) :
    SelectInv s := by
  refine LTS.Reachable.induction ?_ ?_ h
  · rintro _ rfl
    exact ⟨rfl, rfl⟩
  · intro s a t _ hs hok hstep
    exact hs.move hok (move_of_step hstep)

/-! ## Agreement at the head of the loop -/

/-- `fdset` and `clients` agree: besides the listening descriptor the select set has
the descriptors of the clients, each from one entry, and no open connection is left
out of what `select` watches and the receive loop visits. -/
structure Agree (s : Sys) : Prop where
  exactly : ∀ fd, (fd ∈ s.fdset ∧ fd ≠ s.socket.fd) ↔ fd ∈ clientFds s
  once : (clientFds s).Nodup
  visited : ∀ fd ∈ s.openFds, fd ≠ s.socket.fd → fd ∈ s.fdset ∧ fd ≤ s.maxFD ∧ fd ∈ clientFds s

/-- The tables agree where no connection is between `accept` and its registration. -/
theorem Tables.agree {s : Sys} (h : Tables s) (hnews : s.runner.news = []) : Agree s := by
  have hexactly : ∀ fd, (fd ∈ s.fdset ∧ fd ≠ s.socket.fd) ↔ fd ∈ clientFds s := by
    intro fd
    rw [h.watched fd]
    constructor
    · rintro ⟨heq | hmem, hne⟩
      · exact absurd heq hne
      · exact hmem
    · intro hmem
      refine ⟨.inr hmem, ?_⟩
      rintro rfl
      exact h.listening hmem
  refine ⟨hexactly, h.owned, ?_⟩
  intro fd hopen hne
  rw [h.opened fd, hnews] at hopen
  have hmem : fd ∈ clientFds s := by
    rcases hopen with heq | hmem | ⟨sock, hsock, -⟩
    · exact absurd heq hne
    · exact hmem
    · exact absurd hsock List.not_mem_nil
  have hwatched : fd ∈ s.fdset := ((hexactly fd).mpr hmem).1
  exact ⟨hwatched, h.bound fd hwatched, hmem⟩

/-- **Select set and client table**: as long as every new connection comes under a
new name and no connection on descriptor `0` is dropped, the tables agree whenever
`run` is at the head of its loop. -/
theorem fdset_agrees {s : Sys} (h : system.Reachable distinctNames s)
    (hr : s.runner = .head) : Agree s := by
  have htables : Tables s := (selectInv_of_reachable h).tables (by rw [hr]; rfl)
  exact htables.agree (by rw [hr]; rfl)

/-- The condition on the names is needed: under a name that is in use the new socket
is lost, and the tables disagree. -/
theorem Tables.register_disagrees {s : Sys} (h : Tables s) {ready : Finset ℤ} {sock : ℕ}
    (hr : s.runner = .accepted ready sock) (hfd : inFdSet (s.socketAt sock).fd)
    (hname : (s.socketAt sock).getName ∈ s.clients.keys) : ¬Agree (register s ready sock) := by
  obtain ⟨-, -, hlisten, hunowned⟩ := h.news sock (by rw [hr]; exact List.mem_singleton_self _)
  have hregister : register s ready sock = { s with
      fdset := insert (s.socketAt sock).fd s.fdset
      maxFD := max s.maxFD (s.socketAt sock).fd
      runner := .walking ready 0 } := by
    unfold register
    rw [if_pos hfd, OrderedMap.insert_of_mem hname]
  rw [hregister]
  intro hagree
  exact hunowned ((hagree.exactly _).mp ⟨Finset.mem_insert_self _ _, hlisten⟩)

/-- Two clients connect, and one of them leaves. -/
def oneLeavesRun : List Label :=
  [.start (.listens 3), .run, .run, .run, .run, .select (.ready {3}) 2000000, .run,
    .accept (.connection 4 ⟨127, 0, 0, 1, 5000⟩), .run, .run, .run, .run,
    .select (.ready {3}) 1000000, .run,
    .accept (.connection 5 ⟨127, 0, 0, 1, 5001⟩), .run, .run, .run, .run, .run,
    .select (.ready {4}) 500000, .run, .run, .run, .recv .fails, .disconnect, .run, .run]

/-- After `oneLeavesRun` the other client is watched and in the table. -/
theorem fdset_agrees_oneLeaves : ∃ s : Sys, s.runner = .head ∧ clientFds s = [5] ∧ Agree s := by
  have hreach : system.Reachable distinctNames _ :=
    LTS.reachable_of_exec rfl (show LTS.exec _ _ _ oneLeavesRun = _ from rfl)
  exact ⟨_, rfl, by decide, fdset_agrees hreach rfl⟩

/-- The client that left returns from the same address before its entry is erased. -/
def reconnectRun : List Label :=
  oneLeavesRun ++ [.run, .select (.ready {3}) 0, .run,
    .accept (.connection 4 ⟨127, 0, 0, 1, 5000⟩), .run, .run, .run]

/-- After `reconnectRun` descriptor `4` is watched and in no entry of `clients`. -/
theorem fdset_disagrees :
    ∃ s : Sys, system.Reachable (fun _ a => a ≠ .stop) s ∧ s.runner = .head ∧ ¬Agree s := by
  have hreach : system.Reachable (fun _ a => a ≠ .stop) _ :=
    LTS.reachable_of_exec rfl (show LTS.exec _ _ _ reconnectRun = _ from rfl)
  refine ⟨_, hreach, rfl, fun hagree => ?_⟩
  have hmem := (hagree.exactly 4).mp (by decide)
  revert hmem
  decide

end TcpServer
