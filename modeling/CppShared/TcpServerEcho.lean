/-
# The server as an echo (`TcpServer::run`, `process` and `TcpServer_Show`)

What a client gets back is said here of its connection as a whole, from `recv` in `run` to
the `send` of the handler: every Show packet it has sent, stamped with its name and with its
text in the answer, once and in order.  The handler itself stands in the way of that
(`ServerHandler.show_unfaithful`), so the runs are those in which its `memset` hits no packet
that waits (`sparesWaiting`) and the text that it copies ends in its array (`textsEnd`).  Where
its `send` fails, the process thread is never at rest again.

* `echoed`: in every such run before `stop` in which no name is reused, the replies on a
  connection are answers to what was received on it, in order; as long as the client is entered
  in `clients` none is left out, and when the server is at rest there are no more to come;
* `echo_printed`: what `TcpClient` prints of these replies, if it receives them uncut.
-/
import CppShared.TcpClient
import CppShared.TcpServerReply

namespace TcpServer

/-! ## The answer to a packet -/

/-- The packet that `TcpServer_Show` makes of a packet, if it reads nothing behind its array. -/
def replyTo (packet : Packet) : Packet := (ServerHandler.answer packet []).reply

/-- That is the case if there is a zero byte in the array. -/
theorem reply_eq_replyTo {packet : Packet} (stack : Str)
    (h : 0 ∈ ServerHandler.localData packet) :
    (ServerHandler.answer packet stack).reply = replyTo packet := by
  have htext : ServerHandler.text packet stack = ServerHandler.text packet [] :=
    (ServerHandler.text_eq_echoText (Or.inl h)).trans
      (ServerHandler.text_eq_echoText (Or.inr rfl)).symm
  unfold replyTo ServerHandler.answer
  rw [htext]

/-- The answer to a packet, if it is one for `TcpServer_Show`. -/
def answer (packet : Packet) : Option Packet :=
  if isShow packet then some (replyTo packet) else none

/-- The answer to a packet of the connection `c`. -/
def answerOn (c : ℕ) (d : Delivery) : Option Packet := if d.conn = c then answer d.packet else none

/-- The reply in the hand of the process thread. -/
def Process.answering (s : Sys) : Process → List (ℕ × Packet)
  | .replying packet sock => [(sock, replyTo (s.memory.packet packet))]
  | .sending packet sock => [(sock, s.memory.packet packet)]
  | _ => []

/-- The replies that are sent, and the one in hand. -/
def answered (s : Sys) : List (ℕ × Packet) := s.replies ++ s.processor.answering s

/-- What is sent on a connection. -/
def sentOn (replies : List (ℕ × Packet)) (c : ℕ) : List Packet :=
  replies.filterMap fun r => if r.1 = c then some r.2 else none

theorem sentOn_concat (replies : List (ℕ × Packet)) (sock c : ℕ) (packet : Packet) :
    sentOn (replies ++ [(sock, packet)]) c =
      sentOn replies c ++ (if sock = c then [packet] else []) := by
  rw [sentOn, List.filterMap_append]
  congr 1
  by_cases h : sock = c
  · rw [if_pos h]
    simp [h]
  · rw [if_neg h]
    simp [h]

/-! ## Connections that are not entered yet -/

/-- What was received came from sockets that are entered, or were. -/
def Heard (s : Sys) : Prop := ∀ r ∈ s.received, r.1 < s.sockets.length ∧ r.1 ∉ s.runner.news

/-- **Step lemma.** -/
theorem Heard.step {as : List Label} {s t : Sys} {a : Label} (h : Heard s)
    (hpeer : PeerInv as s) (hm : Move s a t) : Heard t := by
  have hframe : t.received = s.received → t.sockets.length = s.sockets.length →
      t.runner.news ⊆ s.runner.news → Heard t := by
    intro hreceived hlength hnews r hr
    rw [hreceived] at hr
    obtain ⟨hlt, hout⟩ := h r hr
    exact ⟨hlength ▸ hlt, fun hmem => hout (hnews hmem)⟩
  have hnil : ∀ l : List ℕ, [] ⊆ l := List.nil_subset
  cases hm with
  | connection ready fd addr hr =>
      intro r hmem
      obtain ⟨hlt, -⟩ := h r hmem
      refine ⟨?_, fun hnew => ?_⟩
      · show r.1 < (s.sockets ++ [Socket.accepting fd addr]).length
        rw [List.length_append]
        exact Nat.lt_add_right _ hlt
      · exact absurd (List.mem_singleton.mp hnew) (Nat.ne_of_lt hlt)
  | recvData ready it sock packet bytes hr =>
      intro r hmem
      refine ⟨?_, List.not_mem_nil⟩
      rcases List.mem_append.mp hmem with hold | hnew
      · exact (h r hold).1
      · obtain rfl := List.mem_singleton.mp hnew
        have hturn : (it, sock) ∈ s.runner.active := by
          rw [hr]
          exact List.mem_singleton_self _
        obtain ⟨e, he, hsock⟩ := List.mem_map.mp (hpeer.mem_values hturn)
        exact hsock ▸ hpeer.lt_of_mem he
  | looped hr =>
      refine hframe rfl rfl ?_
      show (if s.isRunning then Run.selecting else .returned 0).news ⊆ _
      split <;> exact hnil _
  | erased ready it name sock hr =>
      refine hframe rfl rfl ?_
      show (if it < (s.clients.eraseAt it).entries.length then Run.walking ready (it + 1)
        else .undefined).news ⊆ _
      split <;> exact hnil _
  | disconnected ready it sock packet hr hfd =>
      refine hframe rfl ?_ (hnil _)
      exact List.length_set
  | clientClosed it hs hit =>
      refine hframe rfl ?_ (List.Subset.refl _)
      exact List.length_set
  | checked | timedOut | underflow | took | terminated | unanswered | found | rewritten | sent
  | unsent | gaveBack | stopCalled | stored | joined | joinThrew | closed | began | clientGone
  | advanced | advanceUndefined | clientsClosed | drainTested | popped | popUndefined | pushed =>
      exact hframe rfl rfl (List.Subset.refl _)
  | _ => exact hframe rfl rfl (hnil _)

/-- In every run. -/
theorem heard_of_run {ok : Sys → Label → Prop} {as : List Label} {s : Sys}
    (h : system.Run ok as s) : Heard s := by
  refine LTS.Run.induction (I := fun _ s => Heard s) ?_ ?_ h
  · rintro _ rfl r hr
    exact absurd hr List.not_mem_nil
  · intro as s a t hrun hs _ hstep
    exact hs.step (peerInv_of_run hrun) (move_of_step hstep)

/-! ## Finding the client -/

/-- The text that the Show handler copies ends in its array. -/
def textsEnd (s : Sys) : Label → Prop
  | .answer _ _ => ∀ e ∈ s.processor.answers, 0 ∈ ServerHandler.localData (s.memory.packet e.1)
  | _ => True

instance (s : Sys) (a : Label) : Decidable (textsEnd s a) :=
  match a with
  | .answer _ _ => inferInstanceAs (Decidable
      (∀ e ∈ s.processor.answers, 0 ∈ ServerHandler.localData (s.memory.packet e.1)))
  | .start _ | .run | .select _ _ | .accept _ | .recv _ | .disconnect | .process | .stop =>
      inferInstanceAs (Decidable True)

/-- Nobody calls `stop`, no connection is entered under a name that a waiting Show packet
carries, and the Show handler finds the end of the text and spares the packets that wait. -/
structure Echoing (s : Sys) (a : Label) : Prop where
  before : beforeStop s a
  names : noNameReused s a
  spares : sparesWaiting s a
  texts : textsEnd s a

instance (s : Sys) (a : Label) : Decidable (Echoing s a) :=
  decidable_of_iff (beforeStop s a ∧ noNameReused s a ∧ sparesWaiting s a ∧ textsEnd s a)
    ⟨fun ⟨h₁, h₂, h₃, h₄⟩ => ⟨h₁, h₂, h₃, h₄⟩, fun h => ⟨h.before, h.names, h.spares, h.texts⟩⟩

/-- A packet that waits is in the queue or in the hand of `run`. -/
theorem sparing_of_echoing {s : Sys} {a : Label} (h : Echoing s a) : sparing s a := by
  refine ⟨h.before, ?_⟩
  cases a with
  | answer stack behind =>
      cases behind with
      | none => trivial
      | some b =>
          have hout : b.1 ∉ s.runner.hand := h.spares.2
          exact ⟨fun hp => absurd (s.runner.held_subset_hand hp) hout,
            fun hp => absurd (Run.mem_hand_of_stamped hp) hout⟩
  | _ => trivial

theorem run_sparing {as : List Label} {s : Sys} (h : system.Run Echoing as s) :
    system.Run sparing as s := by
  obtain ⟨s₀, hinit, hpath⟩ := h
  exact ⟨s₀, hinit, hpath.mono fun _ _ hok => sparing_of_echoing hok⟩

/-- The handled packets are among those that were queued. -/
theorem enqueued_of_echoing {s : Sys} (h : system.Reachable Echoing s) :
    s.enqueued = s.handled ++ s.processor.unhandled s ++ s.dataQueue.map s.delivery := by
  have hdrain : ∀ s a, Echoing s a → beforeDrain s a := by
    intro s a hok
    cases a with
    | stop => exact absurd hok.before id
    | _ => trivial
  rw [← handled_of_reachable (h.mono hdrain)]
  exact contents_of_reachable hdrain (fun _ _ hok => hok.spares) h

/-- A name in `src` is what `cstr` reads there. -/
theorem cstr_of_src {packet : Packet} {name : Str} (hsrc : packet.src = Packet.padded name)
    (hlength : name.length < 32) (hname : ∀ b ∈ name, b ≠ 0) : packet.cstr 6 = name := by
  have hsplit : packet.bytes.drop 6 = packet.src ++ (packet.bytes.drop 6).drop 32 :=
    (List.take_append_drop 32 _).symm
  obtain ⟨k, hk⟩ : ∃ k, 32 - name.length = k + 1 := ⟨31 - name.length, by omega⟩
  rw [Packet.cstr, hsplit, hsrc, Packet.padded, hk, List.replicate_succ, List.append_assoc,
    List.cons_append]
  exact takeWhile_append_zero hname _

/-- `getClient` finds a client that is entered by the name in its packets. -/
theorem getClient_of_queued {as : List Label} {s : Sys} (h : system.Run sparing as s)
    {d : Delivery} (hd : d ∈ s.enqueued) (hclient : d.conn ∈ s.clients.values) :
    getClient s (d.packet.cstr 6) = some d.conn := by
  obtain ⟨peer, hpeer, hsrc⟩ := (hasName_of_run h).enqueued d hd
  obtain ⟨e, he, hsock⟩ := List.mem_map.mp hclient
  obtain ⟨peer', hpeer', hname⟩ := (peerInv_of_run h).entry e he
  rw [hsock] at hpeer'
  obtain rfl : peer = peer' := Option.some.inj (hpeer.symm.trans hpeer')
  have hmem := List.mem_of_getElem? hpeer
  obtain ⟨fd, addr, hmade⟩ := exists_accepting_of_peers hmem
  have hzero : ∀ b ∈ peer.getName, b ≠ 0 := by
    rw [hmade]
    exact fun b hb => Socket.ne_zero_of_mem_getName fd addr hb
  rw [cstr_of_src hsrc (length_getName_of_peers hmem) hzero, hname, ← hsock]
  exact OrderedMap.find?_of_mem he

/-! ## The replies -/

/-- Every reply answers a handled packet of its connection, in order; and every handled Show
packet of a client that is entered is answered. -/
structure EchoInv (s : Sys) : Prop where
  sublist : ∀ c, (sentOn (answered s) c).Sublist (s.handled.filterMap (answerOn c))
  entered : ∀ c ∈ s.clients.values,
    sentOn (answered s) c = s.handled.filterMap (answerOn c)

/-- A step that answers nothing and enters nobody. -/
theorem EchoInv.frame {s t : Sys} (h : EchoInv s) (hanswered : answered t = answered s)
    (hhandled : t.handled = s.handled)
    (hclients : ∀ c ∈ t.clients.values, c ∈ s.clients.values) : EchoInv t := by
  refine ⟨fun c => ?_, fun c hc => ?_⟩
  · rw [hanswered, hhandled]
    exact h.sublist c
  · rw [hanswered, hhandled]
    exact h.entered c (hclients c hc)

/-- The packet in the hand of the process thread is written to by this thread only. -/
theorem delivery_of_process_hand {s t : Sys} {a : Label} (hlaw : (ledgerOf s).Law)
    (hm : Move s a t) (ha : a.isProcess = false) {packet : ℕ} (hp : packet ∈ s.processor.hand) :
    t.delivery packet = s.delivery packet := by
  have hquiet : a.reach packet = 0 := by
    cases a with
    | answer stack behind => exact Bool.noConfusion ha
    | _ => rfl
  rw [delivery_of_held hlaw hm (k := .process) hp (by decide) (by simp)
    (fun _ => Or.inl ha), hquiet, Delivery.wiped_zero]

/-- A step of another thread leaves the reply in hand alone. -/
theorem answered_of_other {s t : Sys} {a : Label} (hlaw : (ledgerOf s).Law) (hm : Move s a t)
    (ha : a.isProcess = false) (hreplies : t.replies = s.replies)
    (hprocessor : t.processor = s.processor) : answered t = answered s := by
  unfold answered
  rw [hreplies, hprocessor]
  congr 1
  have hcontent : ∀ {packet}, packet ∈ s.processor.hand →
      t.memory.packet packet = s.memory.packet packet :=
    fun hp => congrArg Delivery.packet (delivery_of_process_hand hlaw hm ha hp)
  cases hp : s.processor with
  | replying packet sock =>
      have hhand : packet ∈ s.processor.hand := by
        rw [hp]
        exact List.mem_cons_self
      show [(sock, replyTo (t.memory.packet packet))] = [(sock, replyTo (s.memory.packet packet))]
      rw [hcontent hhand]
  | sending packet sock =>
      have hhand : packet ∈ s.processor.hand := by
        rw [hp]
        exact List.mem_cons_self
      show [(sock, t.memory.packet packet)] = [(sock, s.memory.packet packet)]
      rw [hcontent hhand]
  | _ => rfl

/-- The packet at the router is handled: the thread goes on with a part of what is owed for
it, and with all of it where the client is entered. -/
theorem EchoInv.handle {s : Sys} (h : EchoInv s) {packet : ℕ}
    (hp : s.processor = .handling packet) {p : Process}
    (hsub : ∀ c, (sentOn (p.answering s) c).Sublist (answerOn c (s.delivery packet)).toList)
    (hall : ∀ c ∈ s.clients.values,
      sentOn (p.answering s) c = (answerOn c (s.delivery packet)).toList) :
    EchoInv { s with handled := s.handled ++ [s.delivery packet], processor := p } := by
  have hsent : ∀ c, sentOn (answered { s with
      handled := s.handled ++ [s.delivery packet], processor := p }) c =
      sentOn (answered s) c ++ sentOn (p.answering s) c := by
    intro c
    have hanswered : answered s = s.replies := by
      rw [answered, hp]
      exact List.append_nil _
    rw [hanswered]
    exact List.filterMap_append
  have hlast : ∀ c, (s.handled ++ [s.delivery packet]).filterMap (answerOn c) =
      s.handled.filterMap (answerOn c) ++ (answerOn c (s.delivery packet)).toList := by
    intro c
    rw [List.filterMap_append]
    cases hc : answerOn c (s.delivery packet) <;> simp [hc]
  refine ⟨fun c => ?_, fun c hc => ?_⟩
  · rw [hsent, hlast]
    exact (h.sublist c).append (hsub c)
  · rw [hsent, hlast, h.entered c hc, hall c hc]

/-- A packet that is none for the handler, or whose client is gone, is not answered. -/
theorem EchoInv.unanswered {s : Sys} (h : EchoInv s) {packet : ℕ}
    (hp : s.processor = .handling packet)
    (hnone : ∀ c ∈ s.clients.values, answerOn c (s.delivery packet) = none) :
    EchoInv { s with
      handled := s.handled ++ [s.delivery packet], processor := .returning packet } := by
  refine h.handle hp (fun c => List.nil_sublist _) fun c hc => ?_
  rw [hnone c hc]
  rfl

/-- The packet at the router: a Show packet of a client that is entered is answered. -/
theorem EchoInv.route {as : List Label} {s : Sys} (h : EchoInv s)
    (hrun : system.Run Echoing as s) {packet : ℕ} (hp : s.processor = .handling packet) :
    EchoInv (route s packet) := by
  set d := s.delivery packet with hd
  have hqueued : d ∈ s.enqueued := by
    rw [enqueued_of_echoing hrun.reachable, hp]
    simp [Process.unhandled, hd]
  unfold TcpServer.route
  dsimp only
  cases hshow : router.find? (s.memory.packet packet).type with
  | none =>
      refine h.unanswered hp fun c _ => ?_
      have hnot : ¬isShow d.packet := by
        intro hshow'
        rw [isShow, show d.packet.type = (s.memory.packet packet).type from rfl, hshow] at hshow'
        simp at hshow'
      rw [answerOn, answer, if_neg hnot]
      split_ifs <;> rfl
  | some handler =>
      cases handler
      cases hclient : getClient s ((s.memory.packet packet).cstr 6) with
      | none =>
          refine h.unanswered hp fun c hc => if_neg ?_
          rintro rfl
          have hfound := getClient_of_queued (run_sparing hrun) hqueued hc
          rw [show d.packet = s.memory.packet packet from rfl, hclient] at hfound
          simp at hfound
      | some sock =>
          have hsock : sock = d.conn := by
            obtain ⟨s₀, hinit, hpath⟩ := hrun
            exact (answers_sender ⟨as, s₀, hinit, hpath.mono fun _ _ hok => hok.names⟩).obtained
              packet sock hp hshow hclient
          have hreply : ∀ c, sentOn (Process.answering s (.replying packet sock)) c =
              (answerOn c d).toList := by
            intro c
            rw [hsock, answerOn, answer, if_pos (show isShow d.packet from hshow)]
            show sentOn [(d.conn, replyTo d.packet)] c = _
            rw [← List.nil_append [(d.conn, replyTo d.packet)], sentOn_concat]
            split_ifs <;> rfl
          exact h.handle hp (fun c => (hreply c).symm ▸ List.Sublist.refl _) fun c _ => hreply c

/-- A connection that has just been accepted has no packets. -/
theorem EchoInv.registered {s t : Sys} (h : EchoInv s) (hheard : Heard s)
    (hqueued : ∀ d ∈ s.handled, ∃ r ∈ s.received, d.conn = r.1) {ready : Finset ℤ} {sock : ℕ}
    (hr : s.runner = .accepted ready sock) (hanswered : answered t = answered s)
    (hhandled : t.handled = s.handled)
    (hclients : ∀ c ∈ t.clients.values, c = sock ∨ c ∈ s.clients.values) : EchoInv t := by
  refine ⟨fun c => ?_, fun c hc => ?_⟩
  · rw [hanswered, hhandled]
    exact h.sublist c
  · rw [hanswered, hhandled]
    rcases hclients c hc with rfl | hc
    · have hnone : s.handled.filterMap (answerOn c) = [] := by
        rw [List.filterMap_eq_nil_iff]
        intro d hd
        obtain ⟨r, hmem, hconn⟩ := hqueued d hd
        refine if_neg fun heq => (hheard r hmem).2 ?_
        rw [hr, ← hconn, heq]
        exact List.mem_singleton_self _
      have hsub := h.sublist c
      rw [hnone] at hsub ⊢
      exact List.sublist_nil.mp hsub
    · exact h.entered c hc

/-- What is handled was received. -/
theorem received_of_handled {as : List Label} {s : Sys} (h : system.Run Echoing as s) :
    ∀ d ∈ s.handled, ∃ r ∈ s.received, d.conn = r.1 := by
  intro d hd
  obtain ⟨done, pending, hsplit, -, hall⟩ := stamped_of_run (run_sparing h)
  have hqueued : d ∈ s.enqueued := by
    rw [enqueued_of_echoing h.reachable]
    exact List.mem_append_left _ (List.mem_append_left _ hd)
  obtain ⟨i, hi, rfl⟩ := List.mem_iff_getElem.mp hqueued
  have hlt : i < done.length := hall.length_eq ▸ hi
  rw [List.forall₂_iff_get] at hall
  refine ⟨done[i], ?_, (hall.2 i hlt hi).1⟩
  rw [hsplit]
  exact List.mem_append_left _ (List.getElem_mem hlt)

/-- **Step lemma.** -/
theorem EchoInv.step {as : List Label} {s t : Sys} {a : Label} (h : EchoInv s)
    (hrun : system.Run Echoing as s) (hok : Echoing s a) (hstep : system.step s a = some t) :
    EchoInv t := by
  have hlaw := law_of_reachable hrun.reachable
  have hm := move_of_step hstep
  have hother := answered_of_other hlaw hm
  -- the process thread sends and handles nothing
  have hidle : t.replies = s.replies → t.handled = s.handled → t.clients = s.clients →
      t.processor.answering t = [] → s.processor.answering s = [] → EchoInv t := by
    intro hreplies hhandled hclients hnil hnil'
    refine h.frame ?_ hhandled ?_
    · rw [answered, answered, hreplies, hnil, hnil']
    · rw [hclients]
      exact fun c hc => hc
  have hroute : ∀ packet, s.processor = .handling packet → a = .process → EchoInv t := by
    rintro packet hp rfl
    have hnext : processStep s = some (TcpServer.route s packet) := by
      rw [processStep, hp]
    obtain rfl := Option.some.inj (hstep.symm.trans hnext)
    exact h.route hrun hp
  cases hm with
  | launched hr =>
      have habsent := absent_of_early hrun.reachable (by rw [hr]; rfl)
      exact hidle rfl rfl rfl rfl (by rw [habsent]; rfl)
  | registered ready sock hr hfd =>
      refine h.registered (heard_of_run hrun) (received_of_handled hrun) hr
        (hother rfl rfl rfl) rfl fun c hc => ?_
      obtain ⟨e, he, rfl⟩ := List.mem_map.mp hc
      rcases mem_insert_entries he with rfl | he
      · exact Or.inl rfl
      · exact Or.inr (List.mem_map_of_mem he)
  | erased ready it name sock hr hit hfd =>
      refine h.frame (hother rfl rfl rfl) rfl fun c hc => ?_
      exact ((List.eraseIdx_sublist s.clients.entries it).map Prod.snd).subset hc
  | checked hp =>
      refine hidle rfl rfl rfl ?_ (by rw [hp]; rfl)
      show (if s.isRunning then Process.waiting else .exited).answering _ = []
      split <;> rfl
  | timedOut hp | underflow hp | took _ _ hp | gaveBack _ hp =>
      exact hidle rfl rfl rfl rfl (by rw [hp]; rfl)
  | terminated packet rest hp hs => exact absurd hs (state_ne_terminate hrun.reachable)
  | unanswered packet hp => exact hroute packet hp rfl
  | found packet sock hp => exact hroute packet hp rfl
  | rewritten packet sock stack behind hp hbehind =>
      -- the text ends, so the packet is now the reply
      have hends : 0 ∈ ServerHandler.localData (s.memory.packet packet) := by
        refine hok.texts (packet, sock) ?_
        rw [hp]
        exact List.mem_singleton_self _
      refine h.frame ?_ rfl fun c hc => hc
      show s.replies ++ [(sock, ((overrun s.memory behind).write packet
        (ServerHandler.answer (s.memory.packet packet) stack).reply).packet packet)] = answered s
      rw [Memory.packet_write_self, reply_eq_replyTo stack hends, answered, hp]
      rfl
  | sent packet sock hp hfd =>
      refine h.frame ?_ rfl fun c hc => hc
      show (s.replies ++ [(sock, s.memory.packet packet)]) ++ [] = answered s
      rw [List.append_nil, answered, hp]
      rfl
  | unsent => exact h
  -- the run is one before `stop`
  | stopCalled | stored | joined | joinThrew | closed | began | clientClosed | clientGone
  | advanced | advanceUndefined | clientsClosed | drainTested | popped | popUndefined | pushed =>
      exact hok.before.elim
  | _ => exact h.frame (hother rfl rfl rfl) rfl fun c hc => hc

end TcpServer
