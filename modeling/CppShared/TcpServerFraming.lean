/-
# Packet framing

A peer writes packets of `sizeof(Packet)` bytes one after another, and TCP delivers
the bytes in order, but cut into chunks as it likes.  `run` makes one packet of every
chunk that `recv` returns, and the Show handler may write into that packet from behind
another one before it is queued.  So what `run` queues are the packets of the peer exactly
when every chunk is a whole packet and no such write shows in one (`delivered_iff`).  For the
client the first condition is the whole one (`TcpClient.delivers_iff`).

That every cut occurs in some run is `exists_received`: the server takes any chunks
one by one, each in a pass of its loop.
-/
import CppShared.TcpClient
import CppShared.TcpServerQueue

namespace TcpServer

/-! ## What is queued for a connection -/

/-- The results of `recv` on a connection. -/
def chunksOf (s : Sys) (conn : ℕ) : List Str :=
  (s.received.filter fun r => r.1 = conn).map Prod.snd

/-- The packets that `run` has queued for a connection. -/
def packetsOf (s : Sys) (conn : ℕ) : List Packet :=
  (s.enqueued.filter fun d => d.conn = conn).map Delivery.packet

/-- A relation between the elements that a test lets through, in lists that correspond. -/
theorem forall₂_filter_iff {α β : Type*} {R Q : α → β → Prop} {p : α → Bool} {q : β → Bool}
    {l : List α} {l' : List β} (h : l.Forall₂ R l') (hpq : ∀ a b, R a b → p a = q b) :
    (l.filter p).Forall₂ Q (l'.filter q) ↔ l.Forall₂ (fun a b => q b = true → Q a b) l' := by
  induction h with
  | nil => simp
  | @cons a b l l' hab _ ih =>
      have hsame := hpq a b hab
      by_cases hb : q b = true
      · rw [List.filter_cons_of_pos (hsame.trans hb), List.filter_cons_of_pos hb,
          List.forall₂_cons, List.forall₂_cons, ih]
        simp [hb]
      · rw [List.filter_cons_of_neg (by rw [hsame]; exact hb), List.filter_cons_of_neg hb,
          List.forall₂_cons, ih]
        simp [hb]

/-- The queued packets of a connection are made of its chunks, one of each. -/
theorem length_packetsOf {ok : Sys → Label → Prop} {s : Sys} (h : system.Reachable ok s)
    (hpending : s.runner.pending = false) (conn : ℕ) :
    (packetsOf s conn).length = (chunksOf s conn).length := by
  have hworn := worn_of_reachable h
  rw [taken_of_not_pending hpending] at hworn
  have hfilter := (forall₂_filter_iff (Q := fun _ _ => True) (p := fun r => decide (r.1 = conn))
    (q := fun d => decide (d.conn = conn)) hworn fun r d hrd => by rw [hrd.1]).mpr
      (hworn.imp fun _ _ _ => fun _ => trivial)
  rw [packetsOf, chunksOf, List.length_map, List.length_map, hfilter.length_eq]

/-- They carry the chunks in exactly the runs in which every write from behind spares them. -/
theorem read_iff {as : List Label} {s : Sys} (h : system.Run (fun _ _ => True) as s)
    (hpending : s.runner.pending = false) (conn : ℕ) :
    (packetsOf s conn).Forall₂ (fun q chunk => Packet.SameButSrc q (Packet.ofBytes chunk))
      (chunksOf s conn) ↔ system.Run (spares conn) as s := by
  have hworn := worn_of_reachable h.reachable
  have hkept : s.received.Forall₂ (Kept conn) (taken s) ↔ system.Run (spares conn) as s :=
    kept_iff h
  rw [taken_of_not_pending hpending] at hworn hkept
  have hfilter := forall₂_filter_iff
    (Q := fun r d => Packet.SameButSrc d.packet (Packet.ofBytes r.2))
    (p := fun r => decide (r.1 = conn)) (q := fun d => decide (d.conn = conn)) hworn
      fun r d hrd => by rw [hrd.1]
  simp only [decide_eq_true_eq] at hfilter
  rw [← hkept, packetsOf, chunksOf, List.forall₂_map_left_iff, List.forall₂_map_right_iff]
  exact ⟨fun hread => hfilter.mp hread.flip, fun hall => (hfilter.mpr hall).flip⟩

/-! ## Every cut occurs -/

/-- The process thread does not move. -/
def quiet (_ : Sys) (a : Label) : Prop := a.isProcess = false

instance (s : Sys) (a : Label) : Decidable (quiet s a) :=
  inferInstanceAs (Decidable (a.isProcess = false))

/-- One client on descriptor `4`, and `run` is at the head of its loop. -/
structure Serving (s : Sys) : Prop where
  atHead : s.runner = .head
  running : s.isRunning = true
  listening : s.socket.fd = 3
  entries : ∃ name, s.clients.entries = [(name, 0)]
  client : (s.socketAt 0).fd = 4
  watched : 4 ∈ s.fdset
  bound : 4 ≤ s.maxFD
  opened : 4 ∈ s.openFds

/-- `select` reports descriptors that it watches. -/
theorem select_ready {s : Sys} {fds : Finset ℤ} {left : ℕ} (hr : s.runner = .selecting)
    (hleft : left ≤ s.tv) (hfds : fds.Nonempty)
    (hwatched : fds ⊆ s.fdset.filter fun fd => fd ≤ s.maxFD) :
    select s (.ready fds) left = some { s with tv := left, runner := .testing fds } := by
  unfold select
  rw [if_pos ⟨hr, hleft⟩]
  exact if_pos ⟨hfds, hwatched⟩

/-- A successful `recv`. -/
theorem recv_data {s : Sys} {ready : Finset ℤ} {it sock packet : ℕ} {bytes : Str}
    (hr : s.runner = .receiving ready it sock packet) (hpos : 0 < bytes.length)
    (hlen : bytes.length ≤ maxBufferLen) (hopened : (s.socketAt sock).fd ∈ s.openFds) :
    recv s (.data bytes) = some { s with
      memory := s.memory.write packet ((s.memory.packet packet).write 0 bytes)
      origin := Function.update s.origin packet sock
      received := s.received ++ [(sock, bytes)]
      runner := .stamping ready it sock packet } := by
  unfold recv
  rw [hr]
  exact if_pos ⟨hpos, hlen, hopened⟩

/-- Any bytes can arrive at a server with one client, and `run` queues them in one pass. -/
theorem Serving.receive {s : Sys} (hreach : system.Reachable quiet s)
    (h : Serving s) {bytes : Str} (hpos : 0 < bytes.length) (hlen : bytes.length ≤ maxBufferLen) :
    ∃ t, system.Reachable quiet t ∧ Serving t ∧
      t.received = s.received ++ [(0, bytes)] := by
  obtain ⟨name, hentries⟩ := h.entries
  have hfirst : s.clients.entries[0]? = some (name, 0) := by
    rw [hentries]
    rfl
  have hsecond : s.clients.entries[1]? = none := by
    rw [hentries]
    rfl
  have hlisten : inFdSet s.socket.fd ∧ s.socket.fd ∉ ({4} : Finset ℤ) := by
    rw [h.listening]
    decide
  have hclient : ¬(s.socketAt 0).fd < 0 ∧ (s.socketAt 0).fd ∈ ({4} : Finset ℤ) := by
    rw [h.client]
    decide
  have hopened : (s.socketAt 0).fd ∈ s.openFds := by
    rw [h.client]
    exact h.opened
  have hwatched : ({4} : Finset ℤ) ⊆ s.fdset.filter fun fd => fd ≤ s.maxFD := by
    rw [Finset.singleton_subset_iff, Finset.mem_filter]
    exact ⟨h.watched, h.bound⟩
  -- `select` reports the client
  let s₁ : Sys := { s with runner := .selecting }
  have h₁ : system.Reachable quiet s₁ := by
    refine hreach.step (a := .run) rfl ?_
    show runStep s = _
    rw [runStep, h.atHead]
    exact congrArg (fun r => some { s with runner := r }) (if_pos h.running)
  let s₂ : Sys := { s with tv := 0, runner := .testing {4} }
  have h₂ : system.Reachable quiet s₂ :=
    h₁.step (a := .select (.ready {4}) 0) rfl
      (select_ready (s := s₁) rfl (Nat.zero_le _) (Finset.singleton_nonempty 4) hwatched)
  -- `run` finds it
  let s₃ : Sys := { s with tv := 0, runner := .walking {4} 0 }
  have h₃ : system.Reachable quiet s₃ :=
    h₂.step (a := .run) rfl
      (congrArg some ((if_pos hlisten.1).trans (if_neg hlisten.2)))
  let s₄ : Sys := { s with tv := 0, runner := .getting {4} 0 0 }
  have h₄ : system.Reachable quiet s₄ :=
    h₃.step (a := .run) rfl (congrArg some (walk_ready (s := s₃) hfirst hclient.1 hclient.2))
  -- and receives
  let s₅ : Sys := getPacket s₄ {4} 0 0
  have h₅ : system.Reachable quiet s₅ := h₄.step (a := .run) rfl rfl
  have h₆ := h₅.step (a := Label.recv (.data bytes)) rfl
    (recv_data (s := s₅) rfl hpos hlen hopened)
  have h₇ := h₆.step (a := Label.run) rfl rfl
  have h₈ := h₇.step (a := Label.run) rfl (congrArg some (if_pos (state_ne_terminate h₇)))
  have h₉ := h₈.step (a := Label.run) rfl (congrArg some (walk_end hsecond))
  exact ⟨_, h₉, ⟨rfl, h.running, h.listening, h.entries, h.client, h.watched, h.bound, h.opened⟩,
    rfl⟩

/-- A client connects. -/
def servingRun : List Label :=
  [.start (.listens 3), .run, .run, .run, .run, .select (.ready {3}) 2000000, .run,
    .accept (.connection 4 ⟨127, 0, 0, 1, 5000⟩), .run, .run, .run]

/-- Every sequence of chunks is received in some run, with the process thread asleep. -/
theorem exists_received {chunks : List Str}
    (h : ∀ chunk ∈ chunks, 0 < chunk.length ∧ chunk.length ≤ maxBufferLen) :
    ∃ s, system.Reachable quiet s ∧ Serving s ∧
      s.received = chunks.map fun chunk => (0, chunk) := by
  induction chunks using List.reverseRecOn with
  | nil =>
      have hreach : system.Reachable quiet _ :=
        LTS.reachable_of_exec rfl (show LTS.exec _ _ _ servingRun = _ from rfl)
      exact ⟨_, hreach, ⟨rfl, rfl, rfl, ⟨_, rfl⟩, rfl, by decide, by decide, by decide⟩, rfl⟩
  | append_singleton chunks chunk ih =>
      obtain ⟨s, hreach, hserving, hreceived⟩ :=
        ih fun c hc => h c (List.mem_append_left [chunk] hc)
      obtain ⟨hpos, hlen⟩ := h chunk (List.mem_append_right chunks List.mem_cons_self)
      obtain ⟨t, ht, hserving', hreceived'⟩ := hserving.receive hreach hpos hlen
      refine ⟨t, ht, hserving', ?_⟩
      rw [hreceived', hreceived, List.map_append]
      rfl

/-! ## Main result -/

/-- Whenever the bytes of a connection have arrived in these chunks, in a run that meets the
guard, `run` has queued these packets for it, up to the server-written `src`. -/
def Delivers (ok : ℕ → Sys → Label → Prop) (chunks : List Str) (ps : List Packet) : Prop :=
  ∀ s conn, system.Reachable (ok conn) s → s.runner.pending = false →
    chunksOf s conn = chunks → (packetsOf s conn).Forall₂ Packet.SameButSrc ps

section

variable {chunks : List Str} {ps : List Packet}
  (hchunks : ∀ chunk ∈ chunks, 0 < chunk.length ∧ chunk.length ≤ maxBufferLen)
  (hstream : chunks.flatten = Packet.wire ps)

include hchunks hstream

/-- A run gets the packets of a stream exactly when none is cut and none is written into from
behind. -/
theorem delivered_iff {as : List Label} {s : Sys} {conn : ℕ}
    (h : system.Run (fun _ _ => True) as s) (hpending : s.runner.pending = false)
    (hreceived : chunksOf s conn = chunks) :
    (packetsOf s conn).Forall₂ Packet.SameButSrc ps ↔
      (∀ chunk ∈ chunks, chunk.length = maxBufferLen) ∧ system.Run (spares conn) as s := by
  have hlength := length_packetsOf h.reachable hpending conn
  have hread := read_iff h hpending conn
  rw [hreceived] at hlength hread
  rw [← hread]
  exact Packet.forall₂_sameButSrc_iff_kept (fun c hc => (hchunks c hc).2) hstream hlength

/-- The runs in which the packets are spared all get the packets of a stream, exactly when no
packet is cut. -/
theorem delivers_iff :
    Delivers spares chunks ps ↔ ∀ chunk ∈ chunks, chunk.length = maxBufferLen := by
  constructor
  · intro hall
    obtain ⟨s, hquiet, hserving, hreceived⟩ := exists_received hchunks
    have hpending : s.runner.pending = false := by
      rw [hserving.atHead]
      rfl
    have hchunksOf : chunksOf s 0 = chunks := by
      rw [chunksOf, hreceived, List.filter_eq_self.mpr, List.map_map]
      · exact List.map_id chunks
      · intro r hr
        obtain ⟨chunk, -, rfl⟩ := List.mem_map.mp hr
        rfl
    have hspared : system.Reachable (spares 0) s := hquiet.mono fun s a ha => by
      cases a with
      | answer stack behind => exact Bool.noConfusion ha
      | _ => trivial
    obtain ⟨as, s₀, hinit, hpath⟩ := hquiet
    have hrun : system.Run (fun _ _ => True) as s := ⟨s₀, hinit, hpath.mono fun _ _ _ => trivial⟩
    exact ((delivered_iff hchunks hstream hrun hpending hchunksOf).mp
      (hall s 0 hspared hpending hchunksOf)).1
  · rintro hwhole s conn ⟨as, hrun⟩ hpending hreceived
    have hfree : system.Run (fun _ _ => True) as s := by
      obtain ⟨s₀, hinit, hpath⟩ := hrun
      exact ⟨s₀, hinit, hpath.mono fun _ _ _ => trivial⟩
    exact (delivered_iff hchunks hstream hfree hpending hreceived).mpr ⟨hwhole, hrun⟩

/-- **Packet framing.**  For every sequence of packets and every cut of its bytes into
results of `recv`: in any run that has received them the server has queued exactly these
packets if and only if every result is a whole packet and no write behind a packet of the Show
handler shows in the packet that `run` holds; in the runs without such a write, and at the
client, whole results are the exact condition. -/
theorem framing_iff :
    (∀ as s conn, system.Run (fun _ _ => True) as s → s.runner.pending = false →
      chunksOf s conn = chunks →
      ((packetsOf s conn).Forall₂ Packet.SameButSrc ps ↔
        (∀ chunk ∈ chunks, chunk.length = maxBufferLen) ∧ system.Run (spares conn) as s)) ∧
    (Delivers spares chunks ps ↔ ∀ chunk ∈ chunks, chunk.length = maxBufferLen) ∧
    (TcpClient.Delivers chunks ps ↔ ∀ chunk ∈ chunks, chunk.length = maxBufferLen) :=
  ⟨fun _ _ _ hrun hpending hreceived => delivered_iff hchunks hstream hrun hpending hreceived,
    delivers_iff hchunks hstream, TcpClient.delivers_iff (fun c hc => (hchunks c hc).2) hstream⟩

end

/-- One packet in one piece. -/
theorem framing_iff_onePiece :
    Delivers spares [Packet.zero.bytes] [Packet.zero] ∧
    TcpClient.Delivers [Packet.zero.bytes] [Packet.zero] := by
  have hsize : ∀ chunk ∈ [Packet.zero.bytes], chunk.length = maxBufferLen := by
    intro chunk hchunk
    rw [List.mem_singleton.mp hchunk]
    exact Packet.zero.size
  have hchunks : ∀ chunk ∈ [Packet.zero.bytes], 0 < chunk.length ∧ chunk.length ≤ maxBufferLen := by
    intro chunk hchunk
    rw [hsize chunk hchunk]
    decide
  have hstream : [Packet.zero.bytes].flatten = Packet.wire [Packet.zero] := rfl
  have hiff := framing_iff hchunks hstream
  exact ⟨hiff.2.1.mpr hsize, hiff.2.2.mpr hsize⟩

/-- One packet of zeros that arrives in two halves. -/
theorem framing_fails_twoHalves :
    ¬∀ (chunks : List Str) (ps : List Packet),
      (∀ chunk ∈ chunks, 0 < chunk.length ∧ chunk.length ≤ maxBufferLen) →
      chunks.flatten = Packet.wire ps →
      Delivers (fun _ _ _ => True) chunks ps ∧ TcpClient.Delivers chunks ps := by
  intro h
  let half : Str := List.replicate 512 0
  have hhalf : half.length = 512 := List.length_replicate
  have hchunks : ∀ chunk ∈ [half, half], 0 < chunk.length ∧ chunk.length ≤ maxBufferLen := by
    intro chunk hchunk
    have heq : chunk = half := by simpa using hchunk
    rw [heq, hhalf]
    decide
  have hstream : [half, half].flatten = Packet.wire [Packet.zero] := by
    show half ++ (half ++ []) = List.replicate maxBufferLen 0 ++ []
    rw [List.append_nil, List.append_nil, List.replicate_append_replicate]
    rfl
  have hall : Delivers spares [half, half] [Packet.zero] := fun s conn hreach =>
    (h _ _ hchunks hstream).1 s conn (hreach.mono fun _ _ _ => trivial)
  have hwhole := (delivers_iff hchunks hstream).mp hall half List.mem_cons_self
  rw [hhalf] at hwhole
  exact absurd hwhole (by decide)

end TcpServer
