/-
# Who holds the packets of the server

Every `Packet` that `objectPool.get()` made is in the pool's list, in `dataQueue`,
in the hand of one of the three threads, deleted, or dropped by the branch of
`run` that handles a failed receive.  Seen this way the server refines the ledger
of objects and places, in every interleaving of `run`, `process` and `stop`.

The law of the ledger gives the two results: no packet has two owners
(`no_two_owners`), and a packet is out of reach exactly when that branch of `run`
has been executed (`conserved_iff`).
-/
import CppShared.Ledger
import CppShared.TcpServer

namespace TcpServer

/-! ## Places -/

/-- The packet `run` holds: from `objectPool.get()` until it is queued. -/
def Run.hand : Run → List ℕ
  | .receiving _ _ _ packet => [packet]
  | .dropping _ _ _ packet => [packet]
  | .stamping _ _ _ packet => [packet]
  | .queueing _ _ packet => [packet]
  | _ => []

/-- The packet `process` holds, until it is given back. -/
def Process.hand : Process → List ℕ
  | .handling packet => [packet]
  | .replying packet _ => [packet]
  | .sending packet _ => [packet]
  | .returning packet => [packet]
  | _ => []

/-- The packet the drain of `stop` holds. -/
def Stop.hand : Stop → List ℕ
  | .pushing packet => [packet]
  | _ => []

/-- Where a packet can be. -/
inductive Place
  | pool
  | queue
  | run
  | process
  | drain
  | deleted
  | dropped
  deriving DecidableEq

instance : Fintype Place where
  elems := {.pool, .queue, .run, .process, .drain, .deleted, .dropped}
  complete := by
    intro k
    cases k <;> decide

/-- What a place holds. -/
def heldAt (s : Sys) : Place → Multiset ℕ
  | .pool => s.objectPool.pool
  | .queue => s.dataQueue
  | .run => s.runner.hand
  | .process => s.processor.hand
  | .drain => s.stopper.hand
  | .deleted => s.memory.deleted
  | .dropped => s.dropped

/-- The server seen as a ledger. -/
def ledgerOf (s : Sys) : Ledger Place := ⟨s.memory.next, heldAt s⟩

/-! ## Steps of the server as moves of the ledger -/

/-- The state `t` follows `s` on the ledger. -/
def Books (s t : Sys) : Prop :=
  ∃ bs, (ledger Place).Path (fun _ _ => True) (ledgerOf s) bs (ledgerOf t)

/-- A step that moves no packet. -/
theorem books_idle {s t : Sys} (hpool : t.objectPool = s.objectPool)
    (hqueue : t.dataQueue = s.dataQueue) (hnext : t.memory.next = s.memory.next)
    (hdeleted : t.memory.deleted = s.memory.deleted) (hdropped : t.dropped = s.dropped)
    (hrun : t.runner.hand = s.runner.hand) (hprocess : t.processor.hand = s.processor.hand)
    (hstop : t.stopper.hand = s.stopper.hand) : Books s t := by
  refine ledger_idle hnext fun k => ?_
  cases k with
  | pool => exact congrArg (fun o : ObjectPool => (o.pool : Multiset ℕ)) hpool
  | queue => exact congrArg _ hqueue
  | run => exact congrArg _ hrun
  | process => exact congrArg _ hprocess
  | drain => exact congrArg _ hstop
  | deleted => exact congrArg _ hdeleted
  | dropped => exact congrArg _ hdropped

/-- A packet at the back of a list. -/
theorem coe_concat (l : List ℕ) (x : ℕ) :
    ((l ++ [x] : List ℕ) : Multiset ℕ) = x ::ₘ (l : Multiset ℕ) :=
  Multiset.coe_eq_coe.mpr (List.perm_append_singleton x l)

/-- `objectPool.get()` puts a new packet or the front of the pool into the hand of
`run`. -/
theorem books_getPacket {s : Sys} {ready : Finset ℤ} {it sock : ℕ}
    (hr : s.runner = .getting ready it sock) : Books s (getPacket s ready it sock) := by
  have hhand : s.runner.hand = [] := by
    rw [hr]
    rfl
  unfold getPacket
  rcases s.objectPool.get_cases s.memory with hnew | ⟨packet, rest, hpool, hfront⟩
  · rw [hnew]
    refine ledger_issue .run rfl ?_ ?_
    · show _ = s.memory.next ::ₘ (s.runner.hand : Multiset ℕ)
      rw [hhand]
      rfl
    · intro k hk
      cases k <;> first | rfl | exact absurd rfl hk
  · rw [hfront]
    refine ledger_transfer .pool .run packet (by decide) rfl ?_ ?_ ?_
    · show (s.objectPool.pool : Multiset ℕ) = _
      rw [hpool]
      rfl
    · show _ = packet ::ₘ (s.runner.hand : Multiset ℕ)
      rw [hhand]
      rfl
    · intro k hpool' hrun
      cases k <;> first | rfl | exact absurd rfl hpool' | exact absurd rfl hrun

/-- `objectPool.push` takes a packet out of the hand of `process`. -/
theorem books_giveBack_process {s : Sys} {packet : ℕ} (hp : s.processor = .returning packet) :
    Books s { giveBack s packet with processor := .checking } := by
  have hfrom : (s.processor.hand : Multiset ℕ) = packet ::ₘ 0 := by
    rw [hp]
    rfl
  unfold giveBack
  rcases s.objectPool.push_cases s.memory packet with hdeleted | hpushed
  · rw [hdeleted]
    refine ledger_transfer .process .deleted packet (by decide) rfl hfrom (coe_concat _ _) ?_
    intro k hprocess hdel
    cases k <;> first | rfl | exact absurd rfl hprocess | exact absurd rfl hdel
  · rw [hpushed]
    refine ledger_transfer .process .pool packet (by decide) rfl hfrom (coe_concat _ _) ?_
    intro k hprocess hpool
    cases k <;> first | rfl | exact absurd rfl hprocess | exact absurd rfl hpool

/-- `objectPool.push` takes a packet out of the hand of `stop`. -/
theorem books_giveBack_drain {s : Sys} {packet : ℕ} (hs : s.stopper = .pushing packet) :
    Books s { giveBack s packet with stopper := .draining } := by
  have hfrom : (s.stopper.hand : Multiset ℕ) = packet ::ₘ 0 := by
    rw [hs]
    rfl
  unfold giveBack
  rcases s.objectPool.push_cases s.memory packet with hdeleted | hpushed
  · rw [hdeleted]
    refine ledger_transfer .drain .deleted packet (by decide) rfl hfrom (coe_concat _ _) ?_
    intro k hdrain hdel
    cases k <;> first | rfl | exact absurd rfl hdrain | exact absurd rfl hdel
  · rw [hpushed]
    refine ledger_transfer .drain .pool packet (by decide) rfl hfrom (coe_concat _ _) ?_
    intro k hdrain hpool
    cases k <;> first | rfl | exact absurd rfl hdrain | exact absurd rfl hpool

/-- The branch `if (len <= 0)` lets the packet go. -/
theorem books_dropped {s t : Sys} {packet : ℕ} (hhand : s.runner.hand = [packet])
    (hto : t.dropped = s.dropped ++ [packet]) (hrun : t.runner.hand = [])
    (hpool : t.objectPool = s.objectPool) (hqueue : t.dataQueue = s.dataQueue)
    (hmemory : t.memory = s.memory) (hprocess : t.processor = s.processor)
    (hstop : t.stopper = s.stopper) : Books s t := by
  refine ledger_transfer .run .dropped packet (by decide) (congrArg Memory.next hmemory) ?_ ?_ ?_
  · show (s.runner.hand : Multiset ℕ) = packet ::ₘ (t.runner.hand : Multiset ℕ)
    rw [hhand, hrun]
    rfl
  · show (t.dropped : Multiset ℕ) = _
    rw [hto]
    exact coe_concat _ _
  · intro k hk hk'
    cases k with
    | pool => exact congrArg (fun o : ObjectPool => (o.pool : Multiset ℕ)) hpool
    | queue => exact congrArg _ hqueue
    | run => exact absurd rfl hk
    | process => exact congrArg (fun p : Process => (p.hand : Multiset ℕ)) hprocess
    | drain => exact congrArg (fun p : Stop => (p.hand : Multiset ℕ)) hstop
    | deleted => exact congrArg (fun m : Memory => (m.deleted : Multiset ℕ)) hmemory
    | dropped => exact absurd rfl hk'

/-- Every step of the server is a move of the ledger, or none. -/
theorem refines_ledger (ok : Sys → Label → Prop) :
    LTS.Refines system ok (ledger Place) ledgerOf where
  init := by
    rintro _ rfl
    show ledgerOf fresh = _
    unfold ledgerOf
    congr 1
    funext k
    cases k <;> rfl
  step s a t hreach _ hstep := by
    show Books s t
    cases move_of_step hstep with
    | tcpFails hr | initFails _ hr | listens _ hr | idel hr | entered hr | enterUndefined hr
    | selectedNone _ _ hr | selected _ _ hr | newConnection _ hr | noConnection _ hr
    | testUndefined _ hr | acceptFails _ hr | unnamed _ _ hr | connection _ _ _ hr
    | registered _ _ hr | registerUndefined _ _ hr | passEnd _ _ hr | notReady _ _ _ _ hr
    | isReady _ _ _ _ hr | recvFails _ _ _ _ hr | recvData _ _ _ _ _ hr
    | stamped _ _ _ _ hr =>
        exact books_idle rfl rfl rfl rfl rfl (by rw [hr]; rfl) rfl rfl
    | looped hr | erased _ _ _ _ hr =>
        exact books_idle rfl rfl rfl rfl rfl (by rw [hr]; dsimp only; split <;> rfl) rfl rfl
    | launched hr =>
        have habsent := absent_of_early hreach (by rw [hr]; rfl)
        exact books_idle rfl rfl rfl rfl rfl (by rw [hr]; rfl) (by rw [habsent]; rfl) rfl
    | got ready it sock hr => exact books_getPacket hr
    | disconnected _ _ _ _ hr | disconnectUndefined _ _ _ _ hr =>
        exact books_dropped (by rw [hr]; rfl) rfl rfl rfl rfl rfl rfl rfl
    | queued ready it packet hr =>
        refine ledger_transfer .run .queue packet (by decide) rfl ?_ (coe_concat _ _) ?_
        · show (s.runner.hand : Multiset ℕ) = _
          rw [hr]
          rfl
        · intro k hrun hqueue
          cases k <;> first | rfl | exact absurd rfl hrun | exact absurd rfl hqueue
    | notQueued ready it packet hr hs => exact absurd hs (state_ne_terminate hreach)
    | timedOut hp | underflow hp | unanswered _ hp | found _ _ hp | sent _ _ hp =>
        exact books_idle rfl rfl rfl rfl rfl rfl (by rw [hp]; rfl) rfl
    | rewritten packet sock stack behind hp =>
        exact books_idle rfl rfl (overrun_next _ _) (overrun_deleted _ _) rfl rfl
          (by rw [hp]; rfl) rfl
    | unsent => exact books_idle rfl rfl rfl rfl rfl rfl rfl rfl
    | checked hp =>
        exact books_idle rfl rfl rfl rfl rfl rfl (by rw [hp]; dsimp only; split <;> rfl) rfl
    | took packet rest hp hs hq =>
        refine ledger_transfer .queue .process packet (by decide) rfl ?_ ?_ ?_
        · show (s.dataQueue : Multiset ℕ) = _
          rw [hq]
          rfl
        · show _ = packet ::ₘ (s.processor.hand : Multiset ℕ)
          rw [hp]
          rfl
        · intro k hqueue hprocess
          cases k <;> first | rfl | exact absurd rfl hqueue | exact absurd rfl hprocess
    | terminated packet rest hp hs => exact absurd hs (state_ne_terminate hreach)
    | gaveBack packet hp => exact books_giveBack_process hp
    | stored hs | joined hs | joinThrew hs | closed hs | began hs | clientClosed _ hs
    | clientGone _ hs | advanced _ hs | advanceUndefined _ hs | clientsClosed hs
    | popUndefined hs =>
        exact books_idle rfl rfl rfl rfl rfl rfl rfl (by rw [hs]; rfl)
    | stopCalled hs | drainTested hs =>
        exact books_idle rfl rfl rfl rfl rfl rfl rfl (by rw [hs]; dsimp only; split <;> rfl)
    | popped packet rest hs hq =>
        refine ledger_transfer .queue .drain packet (by decide) rfl ?_ ?_ ?_
        · show (s.dataQueue : Multiset ℕ) = _
          rw [hq]
          rfl
        · show _ = packet ::ₘ (s.stopper.hand : Multiset ℕ)
          rw [hs]
          rfl
        · intro k hqueue hdrain
          cases k <;> first | rfl | exact absurd rfl hqueue | exact absurd rfl hdrain
    | pushed packet hs => exact books_giveBack_drain hs

/-- The law of the ledger, for the server. -/
theorem law_of_reachable {ok : Sys → Label → Prop} {s : Sys} (h : system.Reachable ok s) :
    (ledgerOf s).Law :=
  ledger_law_of_refines (refines_ledger ok) h

/-! ## No packet has two owners -/

/-- The sum over the places, written out. -/
theorem sum_heldAt (s : Sys) :
    ∑ k, heldAt s k = (s.objectPool.pool : Multiset ℕ) + (s.dataQueue + (s.runner.hand +
      (s.processor.hand + (s.stopper.hand + (s.memory.deleted + s.dropped))))) := by
  have huniv : (Finset.univ : Finset Place) =
      {.pool, .queue, .run, .process, .drain, .deleted, .dropped} := rfl
  rw [huniv]
  simp [heldAt]

/-- Among the owners, in all of their lists together, no packet occurs twice. -/
theorem nodup_owners {s : Sys} (h : (ledgerOf s).Law) :
    (s.objectPool.pool ++ (s.dataQueue ++ (s.runner.hand ++
      (s.processor.hand ++ s.stopper.hand)))).Nodup := by
  rw [← Multiset.coe_nodup]
  refine Multiset.nodup_of_le ?_ (Multiset.nodup_range s.memory.next)
  have hlaw : ∑ k, heldAt s k = Multiset.range s.memory.next := h
  rw [← hlaw, sum_heldAt]
  simp only [← Multiset.coe_add]
  gcongr
  exact Multiset.le_add_right _ _

/-- `objectPool.get()` hands out a packet that only the pool holds. -/
theorem get_not_held {s : Sys} (h : (ledgerOf s).Law) {k : Place} (hk : k ≠ .pool) :
    (s.objectPool.get s.memory).1 ∉ heldAt s k := by
  rcases s.objectPool.get_cases s.memory with hnew | ⟨packet, rest, hpool, hfront⟩
  · rw [hnew]
    -- a new packet is held nowhere
    intro hmem
    have hlt := (h.mem_iff s.memory.next).mp ⟨k, hmem⟩
    exact absurd hlt (lt_irrefl _)
  · rw [hfront]
    have hmem : packet ∈ heldAt s .pool := by
      show packet ∈ (s.objectPool.pool : Multiset ℕ)
      rw [hpool]
      exact List.mem_cons_self
    exact h.disjoint hk.symm hmem

/-- `objectPool.get()` hands out a packet that is neither queued nor in anybody's
hand. -/
theorem get_not_owned {s : Sys} (h : (ledgerOf s).Law) :
    (s.objectPool.get s.memory).1 ∉ s.dataQueue ∧
    (s.objectPool.get s.memory).1 ∉ s.processor.hand :=
  ⟨get_not_held h (by decide : Place.queue ≠ .pool),
    get_not_held h (by decide : Place.process ≠ .pool)⟩

/-- **One owner.**  In every reachable state, the drain of `stop` included, no packet
occurs twice among the pool, the queue and the hands of the threads; so the packet
that `get` zeroes, and the one that `recv` writes into, is neither queued nor being
handled. -/
theorem no_two_owners {s : Sys} (h : system.Reachable (fun _ _ => True) s) :
    (s.objectPool.pool ++ (s.dataQueue ++ (s.runner.hand ++
      (s.processor.hand ++ s.stopper.hand)))).Nodup ∧
    ((s.objectPool.get s.memory).1 ∉ s.dataQueue ∧
      (s.objectPool.get s.memory).1 ∉ s.processor.hand) ∧
    ∀ packet ∈ s.runner.hand, packet ∉ s.dataQueue ∧ packet ∉ s.processor.hand := by
  have hlaw := law_of_reachable h
  refine ⟨nodup_owners hlaw, get_not_owned hlaw, fun packet hpacket => ?_⟩
  exact ⟨hlaw.disjoint (by decide : Place.run ≠ .queue) hpacket,
    hlaw.disjoint (by decide : Place.run ≠ .process) hpacket⟩

/-- A client connects, sends three bytes, and the packet is queued and taken. -/
def onePacketRun : List Label :=
  [.start (.listens 3), .run, .run, .run, .run, .select (.ready {3}) 0, .run,
    .accept (.connection 4 ⟨127, 0, 0, 1, 5000⟩), .run, .run, .run, .run,
    .select (.ready {4}) 0, .run, .run, .run, .recv (.data [1, 2, 3]), .run, .run,
    .process, .process]

/-- The packet is in the hand of the process thread and nowhere else. -/
theorem no_two_owners_onePacket :
    ∃ s : Sys, s.processor.hand = [0] ∧
      (s.objectPool.pool ++ (s.dataQueue ++ (s.runner.hand ++
        (s.processor.hand ++ s.stopper.hand)))).Nodup := by
  have hreach : system.Reachable (fun _ _ => True) _ :=
    LTS.reachable_of_exec rfl (show LTS.exec _ _ _ onePacketRun = _ from rfl)
  exact ⟨_, rfl, (no_two_owners hreach).1⟩

/-! ## No packet is out of reach, while no receive has failed -/

/-- Every packet that was made and not deleted is in the pool, queued or in the hand
of a thread. -/
def Conserved (s : Sys) : Prop :=
  ∀ packet < s.memory.next, packet ∉ s.memory.deleted →
    packet ∈ s.objectPool.pool ∨ packet ∈ s.dataQueue ∨ packet ∈ s.runner.hand ∨
    packet ∈ s.processor.hand ∨ packet ∈ s.stopper.hand

/-- The dropped packets are the ones out of reach. -/
theorem conserved_iff_dropped {s : Sys} (h : (ledgerOf s).Law) : Conserved s ↔ s.dropped = [] := by
  constructor
  · intro hcons
    by_contra hne
    obtain ⟨packet, hpacket⟩ := List.exists_mem_of_ne_nil _ hne
    have hdropped : packet ∈ heldAt s .dropped := hpacket
    have hlt : packet < s.memory.next := (h.mem_iff packet).mp ⟨.dropped, hdropped⟩
    have hnot : ∀ k, k ≠ .dropped → packet ∉ heldAt s k :=
      fun k hk => h.disjoint hk.symm hdropped
    rcases hcons packet hlt (hnot .deleted (by decide)) with hp | hp | hp | hp | hp
    · exact hnot .pool (by decide) hp
    · exact hnot .queue (by decide) hp
    · exact hnot .run (by decide) hp
    · exact hnot .process (by decide) hp
    · exact hnot .drain (by decide) hp
  · intro hnil packet hlt hdeleted
    obtain ⟨k, hk⟩ := (h.mem_iff packet).mpr hlt
    cases k with
    | pool => exact .inl hk
    | queue => exact .inr (.inl hk)
    | run => exact .inr (.inr (.inl hk))
    | process => exact .inr (.inr (.inr (.inl hk)))
    | drain => exact .inr (.inr (.inr (.inr hk)))
    | deleted => exact absurd hk hdeleted
    | dropped =>
        have hmem : packet ∈ s.dropped := hk
        rw [hnil] at hmem
        exact absurd hmem List.not_mem_nil

/-- One packet is dropped each time the branch `if (len <= 0)` is executed. -/
theorem dropped_length {as : List Label} {s : Sys} (h : system.Run (fun _ _ => True) as s) :
    s.dropped.length = as.count .disconnect := by
  refine LTS.Run.induction (I := fun as s => s.dropped.length = as.count .disconnect) ?_ ?_ h
  · rintro _ rfl
    rfl
  · intro as s a t hrun hs _ hstep
    rw [List.count_append, ← hs]
    cases move_of_step hstep with
    | disconnected =>
        show (s.dropped ++ [_]).length = _
        rw [List.length_append]
        rfl
    | disconnectUndefined =>
        show (s.dropped ++ [_]).length = _
        rw [List.length_append]
        rfl
    | notQueued ready it packet hr hstate => exact absurd hstate (state_ne_terminate hrun.reachable)
    | _ => rfl

/-- **Conservation.**  After any run, every packet is in the pool, queued, in the hand
of a thread or deleted, if and only if no receive of the run has ended in the branch
`if (len <= 0)`. -/
theorem conserved_iff {as : List Label} {s : Sys} (h : system.Run (fun _ _ => True) as s) :
    Conserved s ↔ .disconnect ∉ as := by
  rw [conserved_iff_dropped (law_of_reachable h.reachable), ← List.count_eq_zero,
    ← dropped_length h, List.length_eq_zero_iff]

/-- A client connects and closes its connection. -/
def oneDisconnectRun : List Label :=
  [.start (.listens 3), .run, .run, .run, .run, .select (.ready {3}) 0, .run,
    .accept (.connection 4 ⟨127, 0, 0, 1, 5000⟩), .run, .run, .run, .run,
    .select (.ready {4}) 0, .run, .run, .run, .recv .fails, .disconnect]

/-- Both directions: the packet of `onePacketRun` is at hand, the one of
`oneDisconnectRun` is not. -/
theorem conserved_iff_runs :
    (∃ s : Sys, s.memory.next = 1 ∧ Conserved s) ∧ ∃ s : Sys, s.memory.next = 1 ∧ ¬Conserved s := by
  constructor
  · have hrun : system.Run (fun _ _ => True) onePacketRun _ :=
      ⟨fresh, rfl, LTS.path_of_exec (show LTS.exec _ _ _ onePacketRun = _ from rfl)⟩
    exact ⟨_, rfl, (conserved_iff hrun).mpr (by decide)⟩
  · have hrun : system.Run (fun _ _ => True) oneDisconnectRun _ :=
      ⟨fresh, rfl, LTS.path_of_exec (show LTS.exec _ _ _ oneDisconnectRun = _ from rfl)⟩
    exact ⟨_, rfl, fun hcons => (conserved_iff hrun).mp hcons (by decide)⟩

/-- After `oneDisconnectRun` packet `0` is nowhere. -/
theorem not_conserved_oneDisconnect :
    ∃ s : Sys, system.Reachable (fun _ _ => True) s ∧ ¬Conserved s := by
  have hreach : system.Reachable (fun _ _ => True) _ :=
    LTS.reachable_of_exec rfl (show LTS.exec _ _ _ oneDisconnectRun = _ from rfl)
  refine ⟨_, hreach, fun hcons => ?_⟩
  have hwhere := hcons 0 (show 0 < 1 by decide) (show 0 ∉ ([] : List ℕ) by decide)
  revert hwhere
  show ¬(0 ∈ ([] : List ℕ) ∨ 0 ∈ ([] : List ℕ) ∨ 0 ∈ ([] : List ℕ) ∨ 0 ∈ ([] : List ℕ) ∨
    0 ∈ ([] : List ℕ))
  decide

end TcpServer
