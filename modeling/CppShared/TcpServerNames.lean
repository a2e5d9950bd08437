/-
# Connections and their names

An entry of `clients` is the name of a connection and the socket it was made for, in
every run (`PeerInv`); the socket may have been destroyed meanwhile.

Before `stop`, the socket `run` receives from is alive (`NameInv.alive`).  The case to
think about is descriptor `0`, which `destroy` neither closes nor forgets: a dead
socket that kept it is never looked at again, because its descriptor left `fdset` and
is not given out a second time (`NameInv.gone`).
-/
import CppShared.TcpServerQueue
import CppShared.TcpServerSelect
import CppShared.Table

namespace TcpServer

/-- Nobody calls `stop`. -/
def beforeStop (_ : Sys) : Label → Prop
  | .stop => False
  | _ => True

instance decidableBeforeStop (s : Sys) (a : Label) : Decidable (beforeStop s a) :=
  match a with
  | .stop => inferInstanceAs (Decidable False)
  | .start _ | .run | .select _ _ | .accept _ | .recv _ | .disconnect | .process
  | .answer _ _ => inferInstanceAs (Decidable True)

/-! ## The peers of a run -/

/-- The socket that a step accepts. -/
def peer : Label → Option Socket
  | .accept (.connection fd addr) => some (Socket.accepting fd addr)
  | _ => none

/-- The sockets as `accepting` made them, in the order of the connections. -/
def peers (as : List Label) : List Socket := as.filterMap peer

theorem peers_concat_of_none {as : List Label} {a : Label} (h : peer a = none) :
    peers (as ++ [a]) = peers as := by
  rw [peers, List.filterMap_append, List.filterMap_cons_none h, List.filterMap_nil,
    List.append_nil]
  rfl

theorem peers_concat_of_some {as : List Label} {a : Label} {c : Socket} (h : peer a = some c) :
    peers (as ++ [a]) = peers as ++ [c] := by
  rw [peers, List.filterMap_append, List.filterMap_cons_some h, List.filterMap_nil]
  rfl

/-- A peer was made by `accepting`. -/
theorem exists_accepting_of_peers {as : List Label} {c : Socket} (h : c ∈ peers as) :
    ∃ fd addr, c = Socket.accepting fd addr := by
  obtain ⟨a, -, ha⟩ := List.mem_filterMap.mp h
  unfold peer at ha
  split at ha
  · next fd addr => exact ⟨fd, addr, (Option.some.inj ha).symm⟩
  · simp at ha

/-- A peer has a host. -/
theorem host_of_peers {as : List Label} {c : Socket} (h : c ∈ peers as) : c.host ≠ [] := by
  obtain ⟨fd, addr, rfl⟩ := exists_accepting_of_peers h
  simp [Socket.accepting, Addr.host, str]

/-! ## The places of `run` -/

/-- The position in `clients` and the socket `run` is busy with. -/
def Run.active : Run → List (ℕ × ℕ)
  | .getting _ it sock => [(it, sock)]
  | .receiving _ it sock _ => [(it, sock)]
  | .dropping _ it sock _ => [(it, sock)]
  | .stamping _ it sock _ => [(it, sock)]
  | _ => []

/-! ## Every run -/

/-- What holds of connections and names, after the labels `as`. -/
structure PeerInv (as : List Label) (s : Sys) : Prop where
  known : s.sockets.length = (peers as).length
  socket : ∀ (k : ℕ) (c : Socket), (peers as)[k]? = some c →
    s.sockets[k]? = some c ∨ s.sockets[k]? = some c.destroy
  entry : ∀ e ∈ s.clients.entries, ∃ c, (peers as)[e.2]? = some c ∧ c.getName = e.1
  once : s.clients.values.Nodup
  news : ∀ k ∈ s.runner.news, k ∉ s.clients.values ∧ k < s.sockets.length ∧
    s.sockets[k]? = (peers as)[k]?
  active : ∀ e ∈ s.runner.active, ∃ name, s.clients.entries[e.1]? = some (name, e.2)

/-- A peer has a socket. -/
theorem PeerInv.lt_of_peer {as : List Label} {s : Sys} (h : PeerInv as s) {k : ℕ} {c : Socket}
    (hc : (peers as)[k]? = some c) : k < s.sockets.length := by
  rw [h.known]
  exact (List.getElem?_eq_some_iff.mp hc).1

/-- An entry leads to a socket. -/
theorem PeerInv.lt_of_mem {as : List Label} {s : Sys} (h : PeerInv as s) {e : Str × ℕ}
    (he : e ∈ s.clients.entries) : e.2 < s.sockets.length := by
  obtain ⟨c, hc, -⟩ := h.entry e he
  exact h.lt_of_peer hc

/-- A step that leaves the sockets and the table alone. -/
theorem PeerInv.frame {as bs : List Label} {s t : Sys} (h : PeerInv as s)
    (hpeers : peers bs = peers as) (hsockets : t.sockets = s.sockets)
    (hclients : t.clients = s.clients) (hnews : t.runner.news ⊆ s.runner.news)
    (hactive : t.runner.active ⊆ s.runner.active) : PeerInv bs t := by
  refine ⟨?_, ?_, ?_, ?_, ?_, ?_⟩
  · rw [hpeers, hsockets]
    exact h.known
  · rw [hpeers, hsockets]
    exact h.socket
  · rw [hpeers, hclients]
    exact h.entry
  · rw [hclients]
    exact h.once
  · rw [hpeers, hsockets, hclients]
    exact fun k hk => h.news k (hnews hk)
  · rw [hclients]
    exact fun e he => h.active e (hactive he)

/-- A label that accepts nothing adds no peer. -/
theorem PeerInv.snoc {as : List Label} {s : Sys} {a : Label} (h : PeerInv as s)
    (ha : peer a = none) : PeerInv (as ++ [a]) s :=
  h.frame (peers_concat_of_none ha) rfl rfl (List.Subset.refl _) (List.Subset.refl _)

/-- The socket of an entry exists. -/
theorem PeerInv.valid {as : List Label} {s : Sys} (h : PeerInv as s) {sock : ℕ}
    (hsock : sock ∈ s.clients.values) : ∃ c, (peers as)[sock]? = some c ∧
      (s.socketAt sock = c ∨ s.socketAt sock = c.destroy) := by
  obtain ⟨e, he, rfl⟩ := List.mem_map.mp hsock
  obtain ⟨c, hc, -⟩ := h.entry e he
  refine ⟨c, hc, ?_⟩
  rcases h.socket e.2 c hc with halive | hdead
  · left
    rw [Sys.socketAt, halive, Option.getD_some]
  · right
    rw [Sys.socketAt, hdead, Option.getD_some]

/-- A connection is accepted. -/
theorem PeerInv.connection {as : List Label} {s : Sys} (h : PeerInv as s) (ready : Finset ℤ)
    (fd : ℤ) (addr : Addr) :
    PeerInv (as ++ [.accept (.connection fd addr)]) { s with
      sockets := s.sockets ++ [Socket.accepting fd addr]
      openFds := insert fd s.openFds
      runner := .accepted ready s.sockets.length } := by
  have hpeers : peers (as ++ [.accept (.connection fd addr)]) =
      peers as ++ [Socket.accepting fd addr] := peers_concat_of_some rfl
  refine ⟨?_, ?_, ?_, h.once, ?_, by simp [Run.active]⟩
  · rw [hpeers]
    simp [h.known]
  · intro k c hc
    rw [hpeers] at hc
    rcases getElem?_concat_iff.mp hc with hc | ⟨rfl, rfl⟩
    · rcases h.socket k c hc with hold | hold
      · exact Or.inl (getElem?_concat_iff.mpr (Or.inl hold))
      · exact Or.inr (getElem?_concat_iff.mpr (Or.inl hold))
    · exact Or.inl (getElem?_concat_iff.mpr (Or.inr ⟨h.known.symm, rfl⟩))
  · intro e he
    obtain ⟨c, hc, hname⟩ := h.entry e he
    exact ⟨c, hpeers ▸ getElem?_concat_iff.mpr (Or.inl hc), hname⟩
  · intro k hk
    obtain rfl := List.mem_singleton.mp hk
    refine ⟨fun hmem => ?_, by simp, ?_⟩
    · obtain ⟨e, he, heq⟩ := List.mem_map.mp hmem
      obtain ⟨c, hc, -⟩ := h.entry e he
      have hlt := (List.getElem?_eq_some_iff.mp hc).1
      rw [← h.known, heq] at hlt
      exact absurd hlt (lt_irrefl _)
    · rw [hpeers, h.known]
      simp [h.known]

/-- The socket that was accepted is the peer. -/
theorem PeerInv.accepted {as : List Label} {s : Sys} (h : PeerInv as s) {ready : Finset ℤ}
    {sock : ℕ} (hr : s.runner = .accepted ready sock) :
    s.sockets[sock]? = some (s.socketAt sock) ∧ (peers as)[sock]? = some (s.socketAt sock) := by
  obtain ⟨-, hlt, hsame⟩ := h.news sock (by rw [hr]; exact List.mem_singleton_self _)
  have hsock : s.sockets[sock]? = some (s.socketAt sock) := by
    rw [Sys.socketAt, List.getElem?_eq_getElem hlt, Option.getD_some]
  exact ⟨hsock, hsame.symm.trans hsock⟩

/-- An entry after an insertion. -/
theorem mem_insert_entries {m : OrderedMap Str ℕ} {name : Str} {sock : ℕ} {e : Str × ℕ}
    (he : e ∈ (m.insert name sock).entries) : e = (name, sock) ∨ e ∈ m.entries :=
  OrderedMap.mem_of_mem_insertEntry he

/-- The new socket is entered under its name, unless the name is taken. -/
theorem PeerInv.registered {as : List Label} {s : Sys} (h : PeerInv as s) {ready : Finset ℤ}
    {sock : ℕ} (hr : s.runner = .accepted ready sock) :
    PeerInv as { s with
      fdset := insert (s.socketAt sock).fd s.fdset
      maxFD := max s.maxFD (s.socketAt sock).fd
      clients := s.clients.insert (s.socketAt sock).getName sock
      runner := .walking ready 0 } := by
  obtain ⟨hout, -, -⟩ := h.news sock (by rw [hr]; exact List.mem_singleton_self _)
  obtain ⟨-, hpeer⟩ := h.accepted hr
  refine ⟨h.known, h.socket, ?_, ?_, by simp [Run.news], by simp [Run.active]⟩
  · intro e he
    rcases mem_insert_entries he with rfl | he
    · exact ⟨_, hpeer, rfl⟩
    · exact h.entry e he
  · by_cases hkey : (s.socketAt sock).getName ∈ s.clients.keys
    · show (s.clients.insert _ _).values.Nodup
      rw [OrderedMap.insert_of_mem hkey]
      exact h.once
    · exact (OrderedMap.perm_values_insert hkey).nodup_iff.mpr (List.nodup_cons.mpr ⟨hout, h.once⟩)

/-- A stale entry leaves the map. -/
theorem PeerInv.erased {as : List Label} {s : Sys} (h : PeerInv as s) (it : ℕ) {r : Run}
    (hnews : r.news = []) (hactive : r.active = []) :
    PeerInv as { s with clients := s.clients.eraseAt it, runner := r } := by
  have hsub : (s.clients.eraseAt it).entries.Sublist s.clients.entries :=
    List.eraseIdx_sublist _ _
  exact ⟨h.known, h.socket, fun e he => h.entry e (hsub.subset he),
    h.once.sublist (hsub.map Prod.snd), by simp [hnews], by simp [hactive]⟩

/-- The socket of an entry is destroyed. -/
theorem PeerInv.destroyed {as : List Label} {s t : Sys} (h : PeerInv as s) {sock : ℕ}
    (hsock : sock ∈ s.clients.values)
    (hsockets : t.sockets = s.sockets.set sock (s.socketAt sock).destroy)
    (hclients : t.clients = s.clients) (hnews : t.runner.news ⊆ s.runner.news)
    (hactive : t.runner.active ⊆ s.runner.active) : PeerInv as t := by
  obtain ⟨c, hpeer, hat⟩ := h.valid hsock
  have hlt := h.lt_of_peer hpeer
  have hdestroy : (s.socketAt sock).destroy = c.destroy := by
    rcases hat with hat | hat
    · rw [hat]
    · rw [hat, Socket.destroy_destroy]
  refine ⟨?_, ?_, ?_, ?_, ?_, ?_⟩
  · rw [hsockets, List.length_set, h.known]
  · intro k d hd
    rw [hsockets, List.getElem?_set]
    by_cases hk : sock = k
    · subst hk
      obtain rfl : c = d := Option.some.inj (hpeer.symm.trans hd)
      rw [if_pos rfl, if_pos hlt, hdestroy]
      exact Or.inr rfl
    · rw [if_neg hk]
      exact h.socket k d hd
  · rw [hclients]
    exact h.entry
  · rw [hclients]
    exact h.once
  · intro k hk
    obtain ⟨hout, hk', hsame⟩ := h.news k (hnews hk)
    have hne : sock ≠ k := by
      rintro rfl
      exact hout hsock
    rw [hclients, hsockets, List.length_set, List.getElem?_set, if_neg hne]
    exact ⟨hout, hk', hsame⟩
  · rw [hclients]
    exact fun e he => h.active e (hactive he)

/-- The socket of the client whose turn it is has an entry. -/
theorem PeerInv.mem_values {as : List Label} {s : Sys} (h : PeerInv as s) {it sock : ℕ}
    (hactive : (it, sock) ∈ s.runner.active) : sock ∈ s.clients.values := by
  obtain ⟨name, hit⟩ := h.active _ hactive
  exact List.mem_map.mpr ⟨(name, sock), List.mem_of_getElem? hit, rfl⟩

/-- **Step lemma.**  Every move keeps entries and names together. -/
theorem PeerInv.step {as : List Label} {s t : Sys} {a : Label} (h : PeerInv as s)
    (hm : Move s a t) : PeerInv (as ++ [a]) t := by
  -- `run` moves on
  have hpass : ∀ {u : Sys}, peer a = none → u.sockets = s.sockets → u.clients = s.clients →
      u.runner.news = [] → (u.runner.active = [] ∨ u.runner.active = s.runner.active) →
      PeerInv (as ++ [a]) u := by
    intro u hpeer hsockets hclients hnews hactive
    refine h.frame (peers_concat_of_none hpeer) hsockets hclients ?_ ?_
    · simp [hnews]
    · rcases hactive with hactive | hactive
      · simp [hactive]
      · rw [hactive]
        exact List.Subset.refl _
  -- another thread moves
  have hother : ∀ {u : Sys}, peer a = none → u.sockets = s.sockets → u.clients = s.clients →
      u.runner = s.runner → PeerInv (as ++ [a]) u := by
    intro u hpeer hsockets hclients hrunner
    refine h.frame (peers_concat_of_none hpeer) hsockets hclients ?_ ?_
    all_goals rw [hrunner]
    all_goals exact List.Subset.refl _
  cases hm with
  | looped hr =>
      have hnext : ∀ b : Bool, (if b then Run.selecting else .returned 0).news = [] ∧
          (if b then Run.selecting else .returned 0).active = [] := by
        intro b
        cases b <;> exact ⟨rfl, rfl⟩
      exact hpass rfl rfl rfl (hnext _).1 (Or.inl (hnext _).2)
  | isReady ready it name sock hr hit =>
      have hs := h.snoc (a := .run) rfl
      refine ⟨hs.known, hs.socket, hs.entry, hs.once, by simp [Run.news], fun e he => ?_⟩
      obtain rfl := List.mem_singleton.mp he
      exact ⟨name, hit⟩
  | got ready it sock hr => exact hpass rfl rfl rfl rfl (Or.inr (by rw [hr]; rfl))
  | connection ready fd addr hr hfd => exact h.connection ready fd addr
  | registered ready sock hr => exact (h.registered hr).snoc rfl
  | erased ready it name sock hr =>
      refine (h.erased it ?_ ?_).snoc rfl
      · split_ifs <;> rfl
      · split_ifs <;> rfl
  | disconnected ready it sock packet hr =>
      have hsock : sock ∈ s.clients.values :=
        h.mem_values (by rw [hr]; exact List.mem_singleton_self (it, sock))
      refine PeerInv.snoc ?_ rfl
      exact h.destroyed hsock rfl rfl (List.nil_subset _) (List.nil_subset _)
  | clientClosed it hs hit =>
      have hsock : it.2 ∈ s.clients.values := List.mem_map.mpr ⟨it, hit, rfl⟩
      refine PeerInv.snoc ?_ rfl
      exact h.destroyed hsock rfl rfl (List.Subset.refl _) (List.Subset.refl _)
  | recvFails ready it sock packet hr => exact hpass rfl rfl rfl rfl (Or.inr (by rw [hr]; rfl))
  | recvData ready it sock packet bytes hr =>
      exact hpass rfl rfl rfl rfl (Or.inr (by rw [hr]; rfl))
  | checked | timedOut | underflow | took | terminated | unanswered | found | rewritten | sent
  | unsent | gaveBack | stopCalled | stored | joined | joinThrew | closed | began | clientGone
  | advanced | advanceUndefined | clientsClosed | drainTested | popped
  | popUndefined | pushed =>
      exact hother rfl rfl rfl rfl
  | _ => exact hpass rfl rfl rfl rfl (Or.inl rfl)

/-- Entries and names are together along every run. -/
theorem peerInv_of_run {ok : Sys → Label → Prop} {as : List Label} {s : Sys}
    (h : system.Run ok as s) : PeerInv as s := by
  refine LTS.Run.induction (I := PeerInv) ?_ ?_ h
  · rintro _ rfl
    exact ⟨rfl, by simp [peers], by simp [fresh, OrderedMap.empty], List.nodup_nil,
      by simp [fresh, Run.news], by simp [fresh, Run.active]⟩
  · intro as s a t _ hs _ hstep
    exact hs.step (move_of_step hstep)

/-! ## Before `stop` -/

/-- Descriptor `0` is ready, and position `p` of `clients` is still to be visited in
this pass. -/
def Run.ahead : Run → ℕ → Prop
  | .testing ready, _ => 0 ∈ ready
  | .accepting ready, _ => 0 ∈ ready
  | .accepted ready _, _ => 0 ∈ ready
  | .walking ready it, p => 0 ∈ ready ∧ it ≤ p
  | .getting ready it _, p => 0 ∈ ready ∧ it < p
  | .receiving ready it _ _, p => 0 ∈ ready ∧ it < p
  | .dropping ready it _ _, p => 0 ∈ ready ∧ it < p
  | .stamping ready it _ _, p => 0 ∈ ready ∧ it < p
  | .queueing ready it _, p => 0 ∈ ready ∧ it < p
  | _, _ => False

/-- `run` has not been entered. -/
def Run.outsideLoop (r : Run) : Prop :=
  match r.phase with
  | .before | .starting => True
  | .looping | .ended => False

/-- The socket `run` receives from is alive, and why. -/
structure NameInv (as : List Label) (s : Sys) : Prop where
  early : s.runner.outsideLoop → s.sockets = []
  zero : ∀ (k : ℕ) (c : Socket), s.sockets[k]? = some c → c.fd = 0 → 0 ∈ s.openFds ∧
    ∀ (j : ℕ) (d : Socket), s.sockets[j]? = some d → d.fd = 0 → j = k
  gone : ∀ (k : ℕ) (c : Socket), s.sockets[k]? = some c → c.host = [] → c.fd = 0 → 0 ∉ s.fdset ∧
    ∀ p name, s.clients.entries[p]? = some (name, k) → ¬s.runner.ahead p
  alive : ∀ e ∈ s.runner.active, s.sockets[e.2]? = (peers as)[e.2]?

/-- A step that leaves the sockets and the table alone. -/
theorem NameInv.frame {as bs : List Label} {s t : Sys} (h : NameInv as s)
    (hpeers : peers bs = peers as) (hsockets : t.sockets = s.sockets)
    (hclients : t.clients = s.clients) (hopen : s.openFds ⊆ t.openFds)
    (hfdset : t.fdset ⊆ s.fdset) (hearly : t.runner.outsideLoop → s.runner.outsideLoop)
    (hactive : t.runner.active ⊆ s.runner.active)
    (hahead : ∀ p, t.runner.ahead p → s.runner.ahead p) : NameInv bs t := by
  refine ⟨?_, ?_, ?_, ?_⟩
  · rw [hsockets]
    exact fun he => h.early (hearly he)
  · rw [hsockets]
    intro k c hk hfd
    exact ⟨hopen (h.zero k c hk hfd).1, (h.zero k c hk hfd).2⟩
  · rw [hsockets, hclients]
    intro k c hk hhost hfd
    obtain ⟨hout, hpast⟩ := h.gone k c hk hhost hfd
    exact ⟨fun hmem => hout (hfdset hmem), fun p name hp hp' => hpast p name hp (hahead p hp')⟩
  · rw [hpeers, hsockets]
    exact fun e he => h.alive e (hactive he)

/-- A label that accepts nothing adds no peer. -/
theorem NameInv.snoc {as : List Label} {s : Sys} {a : Label} (h : NameInv as s)
    (ha : peer a = none) : NameInv (as ++ [a]) s :=
  h.frame (peers_concat_of_none ha) rfl rfl (Finset.Subset.refl _) (Finset.Subset.refl _) id
    (List.Subset.refl _) fun _ => id

/-- The client whose turn it is is alive. -/
theorem NameInv.isReady {as : List Label} {s : Sys} (h : NameInv as s) (hpeer : PeerInv as s)
    {ready : Finset ℤ} {it sock : ℕ} {name : Str} (hr : s.runner = .walking ready it)
    (hit : s.clients.entries[it]? = some (name, sock)) (hfd : ¬(s.socketAt sock).fd < 0)
    (hready : (s.socketAt sock).fd ∈ ready) :
    NameInv as { s with runner := .getting ready it sock } := by
  obtain ⟨c, hc, -⟩ := hpeer.entry _ (List.mem_of_getElem? hit)
  have hsame : s.sockets[sock]? = (peers as)[sock]? := by
    rcases hpeer.socket sock c hc with hsock | hsock
    · rw [hsock, hc]
    · -- a dead socket with a descriptor kept `0`, and its position has been passed
      have hat : s.socketAt sock = c.destroy := by rw [Sys.socketAt, hsock, Option.getD_some]
      have hzero : c.destroy.fd = 0 := by
        rw [hat] at hfd
        simp only [Socket.destroy] at hfd ⊢
        split_ifs at hfd ⊢ <;> omega
      have hahead := (h.gone sock _ hsock rfl hzero).2 it name hit
      rw [hr] at hahead
      rw [hat, hzero] at hready
      exact absurd ⟨hready, le_refl it⟩ hahead
  refine ⟨fun he => absurd he (by simp [Run.outsideLoop, Run.phase]), h.zero, ?_, ?_⟩
  · intro k d hk hhost hd
    obtain ⟨hout, hpast⟩ := h.gone k d hk hhost hd
    refine ⟨hout, fun p n hp hahead => hpast p n hp ?_⟩
    rw [hr]
    exact ⟨hahead.1, hahead.2.le⟩
  · intro e he
    obtain rfl := List.mem_singleton.mp he
    exact hsame

/-- A connection is accepted. -/
theorem NameInv.connection {as : List Label} {s : Sys} (h : NameInv as s) {ready : Finset ℤ}
    {fd : ℤ} (addr : Addr) (hr : s.runner = .accepting ready) (hfd : freshFd s fd) :
    NameInv (as ++ [.accept (.connection fd addr)]) { s with
      sockets := s.sockets ++ [Socket.accepting fd addr]
      openFds := insert fd s.openFds
      runner := .accepted ready s.sockets.length } := by
  have hhost : (Socket.accepting fd addr).host ≠ [] := by
    simp [Socket.accepting, Addr.host, str]
  refine ⟨fun he => absurd he (by simp [Run.outsideLoop, Run.phase]), ?_, ?_,
    by simp [Run.active]⟩
  · -- a descriptor that is given out now is not open, so nobody has it
    have hclash : ∀ (j : ℕ) (d : Socket), s.sockets[j]? = some d → d.fd = 0 → fd ≠ 0 := by
      rintro j d hj hd rfl
      exact hfd.2 (h.zero j d hj hd).1
    intro k c hk hzero
    rcases getElem?_concat_iff.mp hk with hk | ⟨rfl, rfl⟩
    · obtain ⟨hopen, honly⟩ := h.zero k c hk hzero
      refine ⟨Finset.mem_insert_of_mem hopen, fun j d hj hd => ?_⟩
      rcases getElem?_concat_iff.mp hj with hj | ⟨-, rfl⟩
      · exact honly j d hj hd
      · exact absurd hd (hclash k c hk hzero)
    · obtain rfl : fd = 0 := hzero
      refine ⟨Finset.mem_insert_self _ _, fun j d hj hd => ?_⟩
      rcases getElem?_concat_iff.mp hj with hj | ⟨rfl, -⟩
      · exact absurd rfl (hclash j d hj hd)
      · rfl
  · intro k c hk hdead hzero
    rcases getElem?_concat_iff.mp hk with hk | ⟨-, rfl⟩
    · obtain ⟨hout, hpast⟩ := h.gone k c hk hdead hzero
      refine ⟨hout, fun p name hp hahead => hpast p name hp ?_⟩
      rw [hr]
      exact hahead
    · exact absurd hdead hhost

/-- The new socket is entered under its name, unless the name is taken. -/
theorem NameInv.registered {as : List Label} {s : Sys} (h : NameInv as s) (hpeer : PeerInv as s)
    {ready : Finset ℤ} {sock : ℕ} (hr : s.runner = .accepted ready sock) :
    NameInv as { s with
      fdset := insert (s.socketAt sock).fd s.fdset
      maxFD := max s.maxFD (s.socketAt sock).fd
      clients := s.clients.insert (s.socketAt sock).getName sock
      runner := .walking ready 0 } := by
  obtain ⟨hsock, hpeers⟩ := hpeer.accepted hr
  have hhost : (s.socketAt sock).host ≠ [] := host_of_peers (List.mem_of_getElem? hpeers)
  refine ⟨fun he => absurd he (by simp [Run.outsideLoop, Run.phase]), h.zero, ?_,
    by simp [Run.active]⟩
  intro k c hk hdead hzero
  obtain ⟨hnot, hpast⟩ := h.gone k c hk hdead hzero
  have hne : k ≠ sock := by
    rintro rfl
    obtain rfl := Option.some.inj (hk.symm.trans hsock)
    exact hhost hdead
  constructor
  · intro hmem
    rcases Finset.mem_insert.mp hmem with heq | hold
    · exact hne ((h.zero k c hk hzero).2 sock _ hsock heq.symm).symm
    · exact hnot hold
  · rintro p name hp ⟨hready, -⟩
    rcases mem_insert_entries (List.mem_of_getElem? hp) with heq | hold
    · exact hne (congrArg Prod.snd heq)
    · obtain ⟨q, hq⟩ := List.getElem?_of_mem hold
      refine hpast q name hq ?_
      rw [hr]
      exact hready

/-- A stale entry leaves the map. -/
theorem NameInv.erased {as : List Label} {s : Sys} (h : NameInv as s) {ready : Finset ℤ}
    {it : ℕ} {r : Run} (hr : s.runner = .walking ready it)
    (hnext : r = .walking ready (it + 1) ∨ r = .undefined) :
    NameInv as { s with clients := s.clients.eraseAt it, runner := r } := by
  refine ⟨fun he => ?_, h.zero, ?_, ?_⟩
  · rcases hnext with rfl | rfl <;> simp [Run.outsideLoop, Run.phase] at he
  · intro k c hk hdead hzero
    obtain ⟨hnot, hpast⟩ := h.gone k c hk hdead hzero
    refine ⟨hnot, fun p name hp hahead => ?_⟩
    rcases hnext with rfl | rfl
    · -- what stands behind the erased entry has moved up by one
      have hp' : s.clients.entries[p + 1]? = some (name, k) := by
        have hlt : ¬p < it := by
          have hle := hahead.2
          omega
        rw [← hp]
        show _ = (s.clients.entries.eraseIdx it)[p]?
        rw [List.getElem?_eraseIdx, if_neg hlt]
      refine hpast (p + 1) name hp' ?_
      rw [hr]
      exact ⟨hahead.1, by have hle := hahead.2; omega⟩
    · exact hahead
  · rcases hnext with rfl | rfl <;> simp [Run.active]

/-- A dropped connection leaves `fdset`, and its socket dies. -/
theorem NameInv.disconnected {as : List Label} {s : Sys} (h : NameInv as s) (hpeer : PeerInv as s)
    {ready : Finset ℤ} {it sock packet : ℕ} (hr : s.runner = .dropping ready it sock packet) :
    NameInv as { destroyClient s sock with
      fdset := s.fdset.erase (s.socketAt sock).fd
      dropped := s.dropped ++ [packet]
      runner := .walking ready (it + 1) } := by
  have hturn : (it, sock) ∈ s.runner.active := by
    rw [hr]
    exact List.mem_singleton_self _
  obtain ⟨name, hit⟩ := hpeer.active _ hturn
  obtain ⟨c, hpeers, -⟩ := hpeer.entry _ (List.mem_of_getElem? hit)
  have hsock : s.sockets[sock]? = some c := (h.alive _ hturn).trans hpeers
  have hat : s.socketAt sock = c := by rw [Sys.socketAt, hsock, Option.getD_some]
  have hset : ∀ {k : ℕ} {d : Socket}, (s.sockets.set sock (s.socketAt sock).destroy)[k]? = some d ↔
      (k = sock ∧ c.destroy = d) ∨ (k ≠ sock ∧ s.sockets[k]? = some d) := by
    intro k d
    rw [hat]
    exact getElem?_set_iff hsock
  have hdestroy : c.destroy.fd = 0 → c.fd = 0 := by
    intro hd
    simp only [Socket.destroy] at hd
    split_ifs at hd
    exact hd
  -- a socket on descriptor `0` was there before
  have hback : ∀ (k : ℕ) (d : Socket), (s.sockets.set sock (s.socketAt sock).destroy)[k]? = some d →
      d.fd = 0 → ∃ d', s.sockets[k]? = some d' ∧ d'.fd = 0 := by
    intro k d hk hd
    rcases hset.mp hk with ⟨rfl, rfl⟩ | ⟨-, hk⟩
    · exact ⟨c, hsock, hdestroy hd⟩
    · exact ⟨d, hk, hd⟩
  refine ⟨fun he => absurd he (by simp [Run.outsideLoop, Run.phase]), ?_, ?_, by simp [Run.active]⟩
  · intro k d hk hd
    obtain ⟨d', hk', hd'⟩ := hback k d hk hd
    obtain ⟨hopen, honly⟩ := h.zero k d' hk' hd'
    constructor
    · show 0 ∈ (s.socketAt sock).closes s.openFds
      exact Socket.mem_closes_of_ne hopen fun hpos => hpos.ne
    · intro j e hj he
      obtain ⟨e', hj', he'⟩ := hback j e hj he
      exact honly j e' hj' he'
  · intro k d hk hdead hzero
    rcases hset.mp hk with ⟨rfl, rfl⟩ | ⟨hne, hk⟩
    · refine ⟨?_, ?_⟩
      · show 0 ∉ s.fdset.erase (s.socketAt k).fd
        rw [hat, hdestroy hzero]
        exact Finset.notMem_erase 0 _
      · -- its position has just been passed
        rintro p n hp ⟨-, hle⟩
        have hpos : p = it := by
          have hp' : s.clients.entries[p]? = some (n, k) := hp
          have hv : s.clients.values[p]? = s.clients.values[it]? := by
            rw [OrderedMap.values, List.getElem?_map, List.getElem?_map, hit, hp']
            rfl
          have hlt : p < s.clients.values.length := by
            rw [OrderedMap.values, List.length_map]
            exact (List.getElem?_eq_some_iff.mp hp').1
          exact (List.getElem?_inj hlt hpeer.once).mp hv
        omega
    · obtain ⟨hnot, hpast⟩ := h.gone k d hk hdead hzero
      refine ⟨fun hmem => hnot (Finset.mem_of_mem_erase hmem), fun p n hp hahead => ?_⟩
      refine hpast p n hp ?_
      rw [hr]
      exact hahead

/-- The other threads do not come near the sockets and the table. -/
theorem NameInv.other {as : List Label} {s u : Sys} {a : Label} (h : NameInv as s)
    (hnone : peer a = none) (hsockets : u.sockets = s.sockets) (hclients : u.clients = s.clients)
    (hopen : u.openFds = s.openFds) (hfdset : u.fdset = s.fdset)
    (hrunner : u.runner = s.runner) : NameInv (as ++ [a]) u := by
  refine h.frame (peers_concat_of_none hnone) hsockets hclients hopen.ge hfdset.le ?_ ?_ ?_
  all_goals rw [hrunner]
  · exact id
  · exact List.Subset.refl _
  · exact fun _ => id

/-- `run` moves on from `r` to `r'` and looks at no further position. -/
theorem NameInv.pass {as : List Label} {s u : Sys} {a : Label} (h : NameInv as s) {r r' : Run}
    (hr : s.runner = r) (hr' : u.runner = r') (hnone : peer a = none)
    (hsockets : u.sockets = s.sockets) (hclients : u.clients = s.clients)
    (hopen : s.openFds ⊆ u.openFds) (hfdset : u.fdset = s.fdset)
    (hphase : r'.phase = .looping ∨ r'.phase = .ended ∨ r.outsideLoop)
    (hactive : r'.active = [] ∨ r'.active = r.active) (hahead : ∀ p, r'.ahead p → r.ahead p) :
    NameInv (as ++ [a]) u := by
  refine h.frame (peers_concat_of_none hnone) hsockets hclients hopen hfdset.le ?_ ?_ ?_
  all_goals rw [hr']
  · unfold Run.outsideLoop at hphase ⊢
    rcases hphase with hphase | hphase | hphase
    · rw [hphase]
      exact False.elim
    · rw [hphase]
      exact False.elim
    · rw [hr]
      exact fun _ => hphase
  · rcases hactive with hactive | hactive
    · simp [hactive]
    · rw [hactive, hr]
      exact List.Subset.refl _
  · rw [hr]
    exact hahead

/-- **Step lemma.**  Every move before `stop` keeps the invariant. -/
theorem NameInv.step {as : List Label} {s t : Sys} {a : Label} (h : NameInv as s)
    (hpeer : PeerInv as s) (hok : beforeStop s a) (hm : Move s a t) : NameInv (as ++ [a]) t := by
  have hopen := Finset.Subset.refl s.openFds
  cases hm with
  | tcpFails hr | enterUndefined hr =>
      exact h.pass hr rfl rfl rfl rfl hopen rfl (Or.inr (Or.inl rfl)) (Or.inl rfl) fun _ => id
  | initFails fd hr hfd =>
      refine h.pass hr rfl rfl rfl rfl ?_ rfl (Or.inr (Or.inl rfl)) (Or.inl rfl) fun _ => id
      intro x hx
      apply Socket.mem_closes_of_ne (Finset.mem_insert_of_mem hx)
      rintro - rfl
      exact hfd.2 hx
  | listens fd hr hfd =>
      exact h.pass hr rfl rfl rfl rfl (Finset.subset_insert _ _) rfl (Or.inr (Or.inr trivial))
        (Or.inl rfl) fun _ => id
  | idel hr | launched hr =>
      exact h.pass hr rfl rfl rfl rfl hopen rfl (Or.inr (Or.inr trivial)) (Or.inl rfl)
        fun _ => id
  | entered hr hfd =>
      have hempty : s.sockets = [] := h.early (by rw [hr]; trivial)
      have hs := h.snoc (a := .run) rfl
      refine ⟨False.elim, hs.zero, ?_, by simp [Run.active]⟩
      intro k c hk
      replace hk : s.sockets[k]? = some c := hk
      rw [hempty] at hk
      simp at hk
  | looped hr =>
      by_cases hrun : s.isRunning = true
      · have hnext : (if s.isRunning then Run.selecting else .returned 0) = .selecting :=
          if_pos hrun
        exact h.pass hr hnext rfl rfl rfl hopen rfl (Or.inl rfl) (Or.inl rfl) fun _ => id
      · have hnext : (if s.isRunning then Run.selecting else .returned 0) = .returned 0 :=
          if_neg hrun
        exact h.pass hr hnext rfl rfl rfl hopen rfl (Or.inr (Or.inl rfl)) (Or.inl rfl) fun _ => id
  | selectedNone _ _ hr | newConnection _ hr | stamped _ _ _ _ hr | queued _ _ _ hr
  | notQueued _ _ _ hr =>
      exact h.pass hr rfl rfl rfl rfl hopen rfl (Or.inl rfl) (Or.inl rfl) fun _ => id
  | selected fds left hr hleft hfds =>
      have hs := h.snoc (a := .select (.ready fds) left) rfl
      refine ⟨False.elim, hs.zero, ?_, by simp [Run.active]⟩
      intro k c hk hdead hzero
      have hout := (h.gone k c hk hdead hzero).1
      exact ⟨hout, fun p name hp hready => hout (hfds hready)⟩
  | noConnection ready hr =>
      exact h.pass hr rfl rfl rfl rfl hopen rfl (Or.inl rfl) (Or.inl rfl)
        fun _ hp => hp.1
  | testUndefined _ hr | acceptFails _ hr | registerUndefined _ _ hr
  | disconnectUndefined _ _ _ _ hr =>
      exact h.pass hr rfl rfl rfl rfl hopen rfl (Or.inr (Or.inl rfl)) (Or.inl rfl)
        fun _ => False.elim
  | unnamed ready fd hr =>
      exact h.pass hr rfl rfl rfl rfl (Finset.subset_insert _ _) rfl (Or.inr (Or.inl rfl))
        (Or.inl rfl) fun _ => False.elim
  | connection ready fd addr hr hfd => exact h.connection addr hr hfd
  | registered ready sock hr => exact (h.registered hpeer hr).snoc rfl
  | passEnd ready it hr =>
      exact h.pass hr rfl rfl rfl rfl hopen rfl (Or.inl rfl) (Or.inl rfl)
        fun _ => False.elim
  | erased ready it name sock hr =>
      refine (h.erased hr ?_).snoc rfl
      split_ifs
      · exact Or.inl rfl
      · exact Or.inr rfl
  | notReady ready it name sock hr =>
      exact h.pass hr rfl rfl rfl rfl hopen rfl (Or.inl rfl) (Or.inl rfl)
        fun _ hp => ⟨hp.1, Nat.le_of_succ_le hp.2⟩
  | isReady ready it name sock hr hit hfd hready =>
      exact (h.isReady hpeer hr hit hfd hready).snoc rfl
  | got _ _ _ hr | recvFails _ _ _ _ hr | recvData _ _ _ _ _ hr =>
      exact h.pass hr rfl rfl rfl rfl hopen rfl (Or.inl rfl) (Or.inr rfl) fun _ => id
  | disconnected ready it sock packet hr => exact (h.disconnected hpeer hr).snoc rfl
  | checked | timedOut | underflow | took | terminated | unanswered | found | rewritten | sent
  | unsent | gaveBack =>
      exact h.other rfl rfl rfl rfl rfl rfl
  | _ => exact hok.elim

/-- The socket `run` receives from is alive along every run before `stop`. -/
theorem nameInv_of_run {as : List Label} {s : Sys} (h : system.Run beforeStop as s) :
    NameInv as s := by
  refine LTS.Run.induction (I := NameInv) ?_ ?_ h
  · rintro _ rfl
    exact ⟨fun _ => rfl, by simp [fresh], by simp [fresh], by simp [fresh, Run.active]⟩
  · intro as s a t hrun hs hok hstep
    exact hs.step (peerInv_of_run hrun) hok (move_of_step hstep)

end TcpServer
