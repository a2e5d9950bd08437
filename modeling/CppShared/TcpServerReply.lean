/-
# Where replies go

While a packet waits in `dataQueue`, only the name in `src` ties it to its connection,
and `TcpServer_Show` looks the name up when it handles the packet.  So the reply goes
back to the sender as long as no other connection is entered under the name of a
waiting packet (`noNameReused`), and to a stranger otherwise
(`reply_misdelivered`).

A socket that `stop` destroyed under the hands of `run` stamps its packets with `:0`,
which is nobody's name.  A packet that the `memset` of another handler has reached is none
for the Show handler any more, unless only its `signature` is hit (`Fits.wiped`).
-/
import CppShared.TcpServerSender

namespace TcpServer

/-! ## The condition on the steps -/

/-- The packet at `router.find`. -/
def Process.atRouter : Process → List ℕ
  | .handling packet => [packet]
  | _ => []

/-- The packets that wait for their handler. -/
def waiting (s : Sys) : List ℕ := s.processor.atRouter ++ s.dataQueue

/-- The handler of a packet is `TcpServer_Show`. -/
def isShow (packet : Packet) : Prop := router.find? packet.type = some .show

instance (packet : Packet) : Decidable (isShow packet) :=
  inferInstanceAs (Decidable (router.find? packet.type = some .show))

/-- No connection is entered under a name that a waiting Show packet carries. -/
def noNameReused (s : Sys) : Label → Prop
  | .run => ∀ sock ∈ s.runner.news, (s.socketAt sock).getName ∉ s.clients.keys →
      ∀ packet ∈ waiting s, isShow (s.memory.packet packet) →
        (s.memory.packet packet).cstr 6 ≠ (s.socketAt sock).getName
  | _ => True

instance decidableNoNameReused (s : Sys) (a : Label) : Decidable (noNameReused s a) :=
  match a with
  | .run => inferInstanceAs (Decidable
      (∀ sock ∈ s.runner.news, (s.socketAt sock).getName ∉ s.clients.keys →
        ∀ packet ∈ waiting s, isShow (s.memory.packet packet) →
          (s.memory.packet packet).cstr 6 ≠ (s.socketAt sock).getName))
  | .start _ | .select _ _ | .accept _ | .recv _ | .disconnect | .process | .answer _ _ | .stop =>
      inferInstanceAs (Decidable True)

/-! ## The invariant -/

/-- The handler finds the connection of the packet, or none. -/
def Fits (clients : OrderedMap Str ℕ) (d : Delivery) : Prop :=
  isShow d.packet → ∀ sock, clients.find? (d.packet.cstr 6) = some sock → sock = d.conn

/-- The packet in `TcpServer_Show`, and the client found for it. -/
def Process.answers : Process → List (ℕ × ℕ)
  | .replying packet sock => [(packet, sock)]
  | .sending packet sock => [(packet, sock)]
  | _ => []

/-- It is in the hand of the process thread. -/
theorem Process.mem_hand_of_answers {p : Process} {e : ℕ × ℕ} (h : e ∈ p.answers) :
    e.1 ∈ p.hand := by
  cases p with
  | replying packet sock | sending packet sock =>
      rw [List.mem_singleton.mp h]
      exact List.mem_singleton_self packet
  | _ => exact absurd h List.not_mem_nil

/-- The packets that wait, and the one `run` is about to queue, lead back to their
connections; so does the one that is answered. -/
structure ReplyInv (s : Sys) : Prop where
  lookup : ∀ packet ∈ waiting s, Fits s.clients (s.delivery packet)
  stamped : ∀ packet ∈ s.runner.stamped, Fits s.clients (s.delivery packet)
  answers : ∀ e ∈ s.processor.answers, e.2 = s.origin e.1

theorem isShow_iff {packet : Packet} : isShow packet ↔ packet.type = tcpMessageShow := by
  have hfind : router.find? packet.type =
      if packet.type = tcpMessageShow then some .show else none := by
    rw [router, OrderedMap.find?_insert]
    rfl
  rw [isShow, hfind]
  split_ifs with h <;> simp [h]

/-- A packet that is still one for the handler has its name. -/
theorem Fits.wiped {m : OrderedMap Str ℕ} {d : Delivery} (h : Fits m d) (k : ℕ) :
    Fits m (d.wiped k) := by
  intro hshow sock hfound
  have hk : k ≤ 2 := Packet.le_two_of_type_wiped (isShow_iff.mp hshow)
  have htype : (d.packet.wiped k).type = d.packet.type := Packet.type_wiped _ hk
  have hname : (d.packet.wiped k).cstr 6 = d.packet.cstr 6 := Packet.cstr_wiped _ (by omega)
  refine h ?_ sock ?_
  · rw [isShow, ← htype]
    exact hshow
  · rw [← hname]
    exact hfound

/-- A table with fewer entries finds less. -/
theorem Fits.mono {m m' : OrderedMap Str ℕ} {d : Delivery} (h : Fits m d)
    (hsub : ∀ name sock, m'.find? name = some sock → m.find? name = some sock) : Fits m' d :=
  fun hshow sock hfound => h hshow sock (hsub _ sock hfound)

/-- A waiting packet is not written to, but for zeros in front. -/
theorem delivery_of_waiting {s t : Sys} {a : Label} (hlaw : (ledgerOf s).Law) (hm : Move s a t)
    {packet : ℕ} (hp : packet ∈ waiting s) :
    ∃ k, t.delivery packet = (s.delivery packet).wiped k := by
  rcases List.mem_append.mp hp with hrouter | hqueued
  · cases hs : s.processor with
    | handling obj =>
        rw [hs] at hrouter
        obtain rfl := List.mem_singleton.mp hrouter
        exact ⟨0, (delivery_of_handling hlaw hm hs).trans (Delivery.wiped_zero _).symm⟩
    | _ =>
        rw [hs] at hrouter
        exact absurd hrouter List.not_mem_nil
  · exact ⟨_, delivery_of_queue hlaw hm hqueued⟩

/-- Only `recv` changes the connection of a packet. -/
theorem origin_stable {s t : Sys} {a : Label} (hm : Move s a t) {packet : ℕ}
    (hrun : packet ∉ s.runner.hand) : t.origin packet = s.origin packet := by
  cases hm with
  | recvData ready it sock obj bytes hr =>
      have hne : packet ≠ obj := by
        rintro rfl
        rw [hr] at hrun
        exact hrun List.mem_cons_self
      exact Function.update_of_ne hne _ _
  | _ => rfl

/-- A step that enters no connection and stamps no packet. -/
theorem ReplyInv.frame {s t : Sys} {a : Label} (h : ReplyInv s) (hlaw : (ledgerOf s).Law)
    (hm : Move s a t)
    (hclients : ∀ name sock, t.clients.find? name = some sock → s.clients.find? name = some sock)
    (hwaiting : waiting t ⊆ waiting s)
    (hstamped : t.runner.stamped = [] ∨
      t.runner = s.runner ∧ (a.isProcess = true ∨ a = .stop))
    (hanswers : t.processor.answers ⊆ s.processor.answers) : ReplyInv t := by
  refine ⟨?_, ?_, ?_⟩
  · intro packet hp
    obtain ⟨k, hk⟩ := delivery_of_waiting hlaw hm (hwaiting hp)
    rw [hk]
    exact ((h.lookup packet (hwaiting hp)).wiped k).mono hclients
  · intro packet hp
    rcases hstamped with hnil | ⟨hsame, ha⟩
    · rw [hnil] at hp
      exact absurd hp List.not_mem_nil
    · rw [hsame] at hp
      rw [delivery_of_hand hlaw hm ha (Run.mem_hand_of_stamped hp)]
      exact ((h.stamped packet hp).wiped _).mono hclients
  · intro e he
    have hhand : e.1 ∈ s.processor.hand := Process.mem_hand_of_answers (hanswers he)
    rw [origin_stable hm (hlaw.disjoint (by decide : Place.process ≠ .run) hhand)]
    exact h.answers e (hanswers he)

/-! ## The two steps that matter -/

/-- The name that `run` writes into a packet leads to the connection or to nobody. -/
theorem ReplyInv.stamped_fits {as : List Label} {s : Sys} (hpeer : PeerInv as s)
    {ready : Finset ℤ} {it sock packet : ℕ} (hr : s.runner = .stamping ready it sock packet)
    (horigin : s.origin packet = sock) :
    Fits s.clients ((stamp s ready it sock packet).delivery packet) := by
  have hturn : (it, sock) ∈ s.runner.active := by
    rw [hr]
    exact List.mem_singleton_self _
  obtain ⟨name, hit⟩ := hpeer.active _ hturn
  obtain ⟨c, hc, hname⟩ := hpeer.entry _ (List.mem_of_getElem? hit)
  obtain ⟨c', hc', hat⟩ := hpeer.valid (hpeer.mem_values hturn)
  obtain rfl : c = c' := Option.some.inj (hc.symm.trans hc')
  obtain ⟨fd, addr, hmade⟩ := exists_accepting_of_peers (List.mem_of_getElem? hc)
  have hpacket : ((stamp s ready it sock packet).delivery packet).packet =
      (s.memory.packet packet).stamp (s.socketAt sock).getName := Memory.packet_write_self _ _ _
  intro _ found hfound
  rw [hpacket] at hfound
  show found = s.origin packet
  rw [horigin]
  rcases hat with hat | hat
  · -- the socket is alive: its entry stands under this name
    rw [hat, Packet.cstr_stamp (length_getName_of_peers (List.mem_of_getElem? hc))
      (by rw [hmade]; exact fun b hb => Socket.ne_zero_of_mem_getName fd addr hb), hname] at hfound
    have hentry : s.clients.find? name = some sock :=
      OrderedMap.find?_of_mem (List.mem_of_getElem? hit)
    exact Option.some.inj (hfound.symm.trans hentry)
  · -- the socket was destroyed: nobody is called `:0`
    have hdead : (s.socketAt sock).getName = c.destroy.getName := by rw [hat]
    rw [hdead, Packet.cstr_stamp (by rw [Socket.getName_destroy]; decide)
      fun _ => Socket.ne_zero_of_mem_getName_destroy c] at hfound
    obtain ⟨d, hd, hsame⟩ := hpeer.entry _ (OrderedMap.mem_of_find? hfound)
    obtain ⟨fd', addr', hmade'⟩ := exists_accepting_of_peers (List.mem_of_getElem? hd)
    rw [hmade'] at hsame
    exact absurd hsame (Socket.getName_accepting_ne fd' addr' c)

/-- A connection that is entered under a free name takes no waiting packet over. -/
theorem ReplyInv.registered_fits {s : Sys} {ready : Finset ℤ} {sock : ℕ}
    (hr : s.runner = .accepted ready sock) (hok : noNameReused s .run) {packet : ℕ}
    (hp : packet ∈ waiting s) (h : Fits s.clients (s.delivery packet)) :
    Fits (s.clients.insert (s.socketAt sock).getName sock) (s.delivery packet) := by
  intro hshow found hfound
  rw [OrderedMap.find?_insert] at hfound
  split_ifs at hfound with hname
  · by_cases hkey : (s.socketAt sock).getName ∈ s.clients.keys
    · obtain ⟨old, hold⟩ := OrderedMap.mem_keys_iff.mp hkey
      rw [hold, Option.getD_some] at hfound
      obtain rfl := Option.some.inj hfound
      exact h hshow old (by rw [hname]; exact hold)
    · have hnew : sock ∈ s.runner.news := by
        rw [hr]
        exact List.mem_singleton_self _
      exact absurd hname (hok sock hnew hkey packet hp hshow)
  · exact h hshow found hfound

/-- A step of `run` that leaves the clients alone and stamps nothing. -/
theorem ReplyInv.pass {s t : Sys} {a : Label} (h : ReplyInv s) (hlaw : (ledgerOf s).Law)
    (hm : Move s a t) (hclients : t.clients = s.clients) (hprocessor : t.processor = s.processor)
    (hqueue : t.dataQueue = s.dataQueue) (hstamped : t.runner.stamped = []) : ReplyInv t := by
  refine h.frame hlaw hm ?_ ?_ (Or.inl hstamped) ?_
  · rw [hclients]
    exact fun _ _ => id
  · rw [waiting, waiting, hprocessor, hqueue]
    exact List.Subset.refl _
  · rw [hprocessor]
    exact List.Subset.refl _

/-- A step of another thread. -/
theorem ReplyInv.elsewhere {s t : Sys} {a : Label} (h : ReplyInv s) (hlaw : (ledgerOf s).Law)
    (hm : Move s a t) (hclients : t.clients = s.clients) (hrunner : t.runner = s.runner)
    (ha : a.isProcess = true ∨ a = .stop) (hwaiting : waiting t ⊆ waiting s)
    (hanswers : t.processor.answers ⊆ s.processor.answers) : ReplyInv t := by
  refine h.frame hlaw hm ?_ hwaiting (Or.inr ⟨hrunner, ha⟩) hanswers
  rw [hclients]
  exact fun _ _ => id

/-- A packet that is put into the queue was stamped, or waited already. -/
theorem ReplyInv.queued_fits {s : Sys} (h : ReplyInv s) {packet obj : ℕ}
    (hpacket : packet ∈ s.runner.stamped)
    (hobj : obj ∈ s.processor.atRouter ++ (s.dataQueue ++ [packet])) :
    Fits s.clients (s.delivery obj) := by
  rw [← List.append_assoc] at hobj
  rcases List.mem_append.mp hobj with hold | hnew
  · exact h.lookup obj hold
  · obtain rfl := List.mem_singleton.mp hnew
    exact h.stamped obj hpacket

/-- **Step lemma.**  Every move under the condition keeps the invariant. -/
theorem ReplyInv.step {s t : Sys} {a : Label} (h : ReplyInv s)
    (hreach : system.Reachable noNameReused s) (hok : noNameReused s a) (hm : Move s a t) :
    ReplyInv t := by
  have hlaw := law_of_reachable hreach
  obtain ⟨as, hrun⟩ := hreach
  have hpeer := peerInv_of_run hrun
  have hpass := h.pass hlaw hm
  have hother := h.elsewhere hlaw hm
  have hqueue : s.dataQueue ⊆ waiting s := List.subset_append_right _ _
  have hwaits : ∀ packet ∈ waiting s, ∃ k, t.delivery packet = (s.delivery packet).wiped k :=
    fun _ hp => delivery_of_waiting hlaw hm hp
  cases hm with
  | launched hr =>
      exact h.frame hlaw (.launched hr) (fun _ _ => id) hqueue (Or.inl rfl) (List.nil_subset _)
  | looped hr =>
      refine hpass rfl rfl rfl ?_
      show (if s.isRunning then Run.selecting else .returned 0).stamped = []
      split <;> rfl
  | registered ready sock hr =>
      refine ⟨fun packet hp => ?_, fun packet hp => absurd hp List.not_mem_nil, h.answers⟩
      exact ReplyInv.registered_fits hr hok hp (h.lookup packet hp)
  | erased ready it name sock hr hit hfd =>
      refine h.frame hlaw (.erased ready it name sock hr hit hfd)
        (fun _ _ => OrderedMap.find?_of_find?_eraseAt) (List.Subset.refl _) (Or.inl ?_)
        (List.Subset.refl _)
      show (if it < (s.clients.eraseAt it).entries.length then Run.walking ready (it + 1)
        else .undefined).stamped = []
      split <;> rfl
  | stamped ready it sock packet hr =>
      have horigin := ready_of_reachable hrun.reachable
      rw [hr] at horigin
      refine ⟨fun obj hobj => ?_, fun obj hobj => ?_, h.answers⟩
      · obtain ⟨k, hk⟩ := hwaits obj hobj
        rw [hk]
        exact (h.lookup obj hobj).wiped k
      · obtain rfl := List.mem_singleton.mp hobj
        exact ReplyInv.stamped_fits hpeer hr horigin
  | queued ready it packet hr hs =>
      have hpacket : packet ∈ s.runner.stamped := by
        rw [hr]
        exact List.mem_singleton_self _
      exact ⟨fun obj hobj => h.queued_fits hpacket hobj,
        fun obj hobj => absurd hobj List.not_mem_nil, h.answers⟩
  | checked hp =>
      refine hother rfl rfl (Or.inl rfl) ?_ ?_
      · show (if s.isRunning then Process.waiting else .exited).atRouter ++ s.dataQueue ⊆ _
        split <;> exact hqueue
      · show (if s.isRunning then Process.waiting else .exited).answers ⊆ _
        split <;> exact List.nil_subset _
  | timedOut | underflow | unanswered | sent | gaveBack =>
      exact hother rfl rfl (Or.inl rfl) hqueue (List.nil_subset _)
  | rewritten packet sock stack behind hp =>
      refine hother rfl rfl (Or.inl rfl) hqueue ?_
      rw [hp]
      exact List.Subset.refl _
  | unsent => exact h
  | took packet rest hp hs hq =>
      refine hother rfl rfl (Or.inl rfl) ?_ (List.nil_subset _)
      show [packet] ++ rest ⊆ _
      rw [waiting, hq]
      exact List.subset_append_right _ _
  | terminated packet rest hp hs hq =>
      refine hother rfl rfl (Or.inl rfl) ?_ (List.nil_subset _)
      show rest ⊆ _
      rw [waiting, hq]
      exact fun obj hobj => List.mem_append_right _ (List.mem_cons_of_mem packet hobj)
  | found packet sock hp hshow hc =>
      refine ⟨fun obj hobj => h.lookup obj (hqueue hobj), h.stamped, fun e he => ?_⟩
      -- the packet at the router leads back to its connection
      obtain rfl := List.mem_singleton.mp he
      have hrouter : packet ∈ waiting s := by
        refine List.mem_append_left _ ?_
        rw [hp]
        exact List.mem_singleton_self _
      exact h.lookup packet hrouter hshow sock hc
  | popped packet rest hs hq =>
      refine hother rfl rfl (Or.inr rfl) ?_ (List.Subset.refl _)
      show s.processor.atRouter ++ rest ⊆ s.processor.atRouter ++ s.dataQueue
      rw [hq]
      exact List.append_subset.mpr ⟨List.subset_append_left _ _,
        fun obj hobj => List.mem_append_right _ (List.mem_cons_of_mem packet hobj)⟩
  | stopCalled | stored | joined | joinThrew | closed | began | clientClosed | clientGone
  | advanced | advanceUndefined | clientsClosed | drainTested
  | popUndefined | pushed =>
      exact hother rfl rfl (Or.inr rfl) (List.Subset.refl _) (List.Subset.refl _)
  | _ => exact hpass rfl rfl rfl rfl

/-- Every state reachable under the condition satisfies the invariant. -/
theorem replyInv_of_reachable {s : Sys} (h : system.Reachable noNameReused s) : ReplyInv s := by
  refine LTS.Reachable.induction (I := ReplyInv) ?_ ?_ h
  · rintro _ rfl
    exact ⟨fun packet hp => absurd hp List.not_mem_nil, fun packet hp => absurd hp List.not_mem_nil,
      fun e he => absurd he List.not_mem_nil⟩
  · intro s a t hreach hs hok hstep
    exact hs.step hreach hok (move_of_step hstep)

/-! ## Main result -/

/-- The Show handler answers the sender: what `getClient` gives it is the connection of
the packet, and so is the socket it writes the reply to. -/
structure AnswersSender (s : Sys) : Prop where
  obtained : ∀ packet sock, s.processor = .handling packet → isShow (s.memory.packet packet) →
    getClient s ((s.memory.packet packet).cstr 6) = some sock → sock = s.origin packet
  written : ∀ packet sock, s.processor = .replying packet sock → sock = s.origin packet
  sent : ∀ packet sock, s.processor = .sending packet sock → sock = s.origin packet

/-- **Replies go to the sender**, in every interleaving in which no connection is
entered under a name that a waiting Show packet carries. -/
theorem answers_sender {s : Sys} (h : system.Reachable noNameReused s) : AnswersSender s := by
  have hinv := replyInv_of_reachable h
  have hanswers : ∀ p packet sock, s.processor = p → (packet, sock) ∈ p.answers →
      sock = s.origin packet := by
    rintro _ packet sock rfl he
    exact hinv.answers _ he
  refine ⟨fun packet sock hp hshow hfound => ?_, fun packet sock hp => ?_,
    fun packet sock hp => ?_⟩
  · have hwaits : packet ∈ waiting s := by
      refine List.mem_append_left _ ?_
      rw [hp]
      exact List.mem_singleton_self _
    exact hinv.lookup packet hwaits hshow sock hfound
  · exact hanswers _ packet sock hp (List.mem_singleton_self _)
  · exact hanswers _ packet sock hp (List.mem_singleton_self _)

/-- Two clients connect, on the descriptors `4` and `5`, and the first one sends a Show
packet. -/
def oneShowRun : List Label :=
  [.start (.listens 3), .run, .run, .run,
    .run, .select (.ready {3}) 0, .run, .accept (.connection 4 ⟨127, 0, 0, 1, 5000⟩), .run, .run,
    .run, .run, .select (.ready {3}) 0, .run, .accept (.connection 5 ⟨127, 0, 0, 1, 5001⟩), .run,
    .run, .run, .run, .run, .select (.ready {4}) 0, .run, .run, .run, .recv (.data [0, 0, 1]),
    .run, .run, .run, .run]

/-- The first client gets its answer. -/
theorem answers_sender_oneShow :
    ∃ s : Sys, s.processor = .replying 0 0 ∧ AnswersSender s := by
  have hreach : system.Reachable noNameReused _ :=
    LTS.reachable_of_exec rfl
      (show LTS.exec _ _ _ (oneShowRun ++ [.process, .process, .process]) = _ from rfl)
  exact ⟨_, rfl, answers_sender hreach⟩

/-- Before the packet is handled, the first client leaves, a pass over `clients` drops
its entry, and it connects again from the same address. -/
def sameNameRun : List Label :=
  oneShowRun ++
  [.run, .select (.ready {4}) 0, .run, .run, .run, .recv .fails, .disconnect, .run, .run,
    .run, .select (.ready {5}) 0, .run, .run, .run,
    .run, .select (.ready {3}) 0, .run, .accept (.connection 4 ⟨127, 0, 0, 1, 5000⟩), .run,
    .process, .process, .process]

/-- The new connection gets the answer to a packet it never sent. -/
theorem reply_misdelivered :
    ¬∀ s, system.Reachable (fun _ _ => True) s → AnswersSender s := by
  intro h
  have hreach : system.Reachable (fun _ _ => True) _ :=
    LTS.reachable_of_exec rfl (show LTS.exec _ _ _ sameNameRun = _ from rfl)
  exact absurd ((h _ hreach).written 0 2 rfl) (by decide)

end TcpServer
