/-
# The packet queue of the server

Up to the drain in `stop`, and for every interleaving of `run`, `process` and the
rest of `stop`:

* the process thread never executes `front()`/`pop()` on an empty queue, and
  `state` is `STATE_DATAREADY` exactly while the queue is not empty (`QueueInv`);
* the server refines the FIFO queue with history (`refines_fifo`), seen through any view
  of the history entries that is stable while a packet is queued.  In every run that is
  the packet and its connection; the content is stable as well where no Show handler
  writes into a waiting packet from behind (`sparesWaiting`);
* what is handled was dequeued (`handled_of_reachable`).
-/
import CppShared.Fifo
import CppShared.TcpServerIntake

namespace TcpServer

/-! ## The runs up to the drain -/

/-- The drain of `stop` takes no packet. -/
def beforeDrain (s : Sys) : Label → Prop
  | .stop => s.stopper ≠ .popping
  | _ => True

instance (s : Sys) (a : Label) : Decidable (beforeDrain s a) :=
  match a with
  | .stop => inferInstanceAs (Decidable (s.stopper ≠ .popping))
  | .start _ | .run | .select _ _ | .accept _ | .recv _ | .disconnect | .process
  | .answer _ _ => inferInstanceAs (Decidable True)

/-- The state word and the queue agree, and the process thread has not run into an
empty queue. -/
structure QueueInv (s : Sys) : Prop where
  ready : s.state = .dataReady ↔ s.dataQueue ≠ []
  defined : s.processor ≠ .undefined
  early : s.runner.early = true → s.dataQueue = []

/-- A step that leaves state and queue alone. -/
theorem QueueInv.congr {s t : Sys} (h : QueueInv s) (hstate : t.state = s.state)
    (hqueue : t.dataQueue = s.dataQueue) (hprocess : t.processor ≠ .undefined)
    (hearly : t.runner.early = true → s.runner.early = true) : QueueInv t := by
  constructor
  · rw [hstate, hqueue]
    exact h.ready
  · exact hprocess
  · intro he
    rw [hqueue]
    exact h.early (hearly he)

/-- **Step lemma.**  Every move before the drain keeps the invariant. -/
theorem QueueInv.move {s t : Sys} {a : Label} (h : QueueInv s) (hok : beforeDrain s a)
    (hterm : s.state ≠ .terminate) (hm : Move s a t) : QueueInv t := by
  have hrunner : ∀ {r : Run}, r.early = false → r.early = true → s.runner.early = true := by
    intro r hnot he
    exact absurd (hnot.symm.trans he) (by simp)
  cases hm with
  | listens fd hr => exact h.congr rfl rfl h.defined (fun _ => by rw [hr]; rfl)
  | idel hr =>
      have hnil := h.early (by rw [hr]; rfl)
      refine ⟨?_, h.defined, fun _ => hnil⟩
      show State.idel = .dataReady ↔ s.dataQueue ≠ []
      rw [hnil]
      decide
  | launched hr => exact h.congr rfl rfl (by simp) (hrunner rfl)
  | looped hr => exact h.congr rfl rfl h.defined (hrunner (by split <;> rfl))
  | erased ready it name sock hr => exact h.congr rfl rfl h.defined (hrunner (by split <;> rfl))
  | queued ready it packet hr hs =>
      refine ⟨?_, h.defined, fun he => absurd he (by simp [Run.early])⟩
      show State.dataReady = .dataReady ↔ s.dataQueue ++ [packet] ≠ []
      simp
  | checked hp =>
      refine h.congr rfl rfl ?_ id
      show (if s.isRunning then Process.waiting else .exited) ≠ .undefined
      split <;> simp
  | timedOut | unanswered | found | rewritten | sent | gaveBack =>
      exact h.congr rfl rfl (by simp) id
  | unsent => exact h
  | underflow hp hs hq =>
      rcases hs with hs | hs
      · exact absurd hq (h.ready.mp hs)
      · exact absurd hs hterm
  | took packet rest hp hs hq =>
      have hready : s.state = .dataReady := hs.resolve_right hterm
      refine ⟨?_, by simp, fun he => ?_⟩
      · show (if rest.isEmpty then State.idel else s.state) = .dataReady ↔ rest ≠ []
        cases rest with
        | nil => simp
        | cons next rest => simp [hready]
      · have hnil := h.early he
        rw [hq] at hnil
        exact absurd hnil (by simp)
  | terminated packet rest hp hs => exact absurd hs hterm
  | stopCalled | stored | joined | joinThrew | closed | began | clientClosed | clientGone
  | advanced | advanceUndefined | clientsClosed | drainTested | pushed =>
      exact h.congr rfl rfl h.defined id
  | popped packet rest hs => exact absurd hs hok
  | popUndefined hs => exact absurd hs hok
  | _ => exact h.congr rfl rfl h.defined (hrunner rfl)

/-- Every state reachable before the drain satisfies the invariant. -/
theorem queueInv_of_reachable {s : Sys} (h : system.Reachable beforeDrain s) : QueueInv s := by
  refine LTS.Reachable.induction (I := QueueInv) ?_ ?_ h
  · rintro _ rfl
    exact ⟨by decide, by decide, fun _ => rfl⟩
  · intro s a t hreach hs hok hstep
    exact hs.move hok (state_ne_terminate hreach) (move_of_step hstep)

/-! ## The server refines the FIFO queue -/

section Refinement

variable {γ : Type*} {ok : Sys → Label → Prop} (view : Delivery → γ)

/-- The queue seen without the threads, as far as `view` shows of the packets. -/
def queueOf (s : Sys) : FifoState γ :=
  ⟨s.enqueued.map view, s.dequeued.map view, s.dataQueue.map fun packet => view (s.delivery packet)⟩

variable {view}

/-- A step that moves nothing through the queue. -/
theorem queueOf_congr {s t : Sys} (henqueued : t.enqueued = s.enqueued)
    (hdequeued : t.dequeued = s.dequeued) (hqueue : t.dataQueue = s.dataQueue)
    (hstable : ∀ packet ∈ s.dataQueue, view (t.delivery packet) = view (s.delivery packet)) :
    ∃ bs, (fifo γ).Path (fun _ _ => True) (queueOf view s) bs (queueOf view t) := by
  have heq : queueOf view t = queueOf view s := by
    unfold queueOf
    rw [henqueued, hdequeued, hqueue, List.map_congr_left hstable]
  rw [heq]
  exact fifo_idle _

/-- Every step before the drain is a push, a pop or nothing on the queue, seen through a
view that is stable on queued packets. -/
theorem refines_fifo (hdrain : ∀ s a, ok s a → beforeDrain s a)
    (hstable : ∀ s a t, system.Reachable ok s → ok s a → Move s a t → ∀ packet ∈ s.dataQueue,
      view (t.delivery packet) = view (s.delivery packet)) :
    LTS.Refines system ok (fifo γ) (queueOf view) where
  init := by
    rintro _ rfl
    rfl
  step s a t hreach hok hstep := by
    have hterm := state_ne_terminate hreach
    have hm := move_of_step hstep
    have hsame := hstable s a t hreach hok hm
    have hbefore := hdrain s a hok
    cases hm with
    | queued ready it packet hr hs =>
        show ∃ bs, (fifo γ).Path _ (queueOf view s) bs
          ⟨(s.enqueued ++ [s.delivery packet]).map view, s.dequeued.map view,
            (s.dataQueue ++ [packet]).map fun obj => view (s.delivery obj)⟩
        rw [List.map_append, List.map_append]
        exact fifo_push (queueOf view s) (view (s.delivery packet))
    | took packet rest hp hs hq =>
        show ∃ bs, (fifo γ).Path _
          ⟨s.enqueued.map view, s.dequeued.map view,
            s.dataQueue.map fun obj => view (s.delivery obj)⟩ bs
          ⟨s.enqueued.map view, (s.dequeued ++ [s.delivery packet]).map view,
            rest.map fun obj => view (s.delivery obj)⟩
        rw [hq, List.map_cons, List.map_append]
        exact fifo_pop _ _ _ (view (s.delivery packet))
    | terminated packet rest hp hs => exact absurd hs hterm
    | popped packet rest hs => exact absurd hs hbefore
    | _ => exact queueOf_congr rfl rfl rfl hsame

end Refinement

/-- A packet and its connection. -/
def ticket (d : Delivery) : ℕ × ℕ := (d.conn, d.obj)

/-- **The order of the packets**, in every run up to the drain. -/
theorem tickets_of_reachable {s : Sys} (h : system.Reachable beforeDrain s) :
    s.enqueued.map ticket =
      s.dequeued.map ticket ++ s.dataQueue.map fun packet => ticket (s.delivery packet) := by
  have hrefines : LTS.Refines system beforeDrain (fifo (ℕ × ℕ)) (queueOf ticket) := by
    refine refines_fifo (fun _ _ => id) fun s a t hreach _ hm packet hp => ?_
    rw [delivery_of_queue (law_of_reachable hreach) hm hp]
    rfl
  exact fifo_law_of_refines hrefines h

/-- The Show handler writes into no packet that is queued or in the hand of `run`. -/
def sparesWaiting (s : Sys) : Label → Prop
  | .answer _ (some (obj, _)) => obj ∉ s.dataQueue ∧ obj ∉ s.runner.hand
  | _ => True

instance (s : Sys) (a : Label) : Decidable (sparesWaiting s a) :=
  match a with
  | .answer _ (some (obj, _)) =>
      inferInstanceAs (Decidable (obj ∉ s.dataQueue ∧ obj ∉ s.runner.hand))
  | .answer _ none | .start _ | .run | .select _ _ | .accept _ | .recv _ | .disconnect | .process
  | .stop => inferInstanceAs (Decidable True)

/-- A packet that is spared keeps its content. -/
theorem reach_of_spared {s : Sys} {a : Label} (h : sparesWaiting s a) {packet : ℕ}
    (hp : packet ∈ s.dataQueue ∨ packet ∈ s.runner.hand) : a.reach packet = 0 := by
  cases a with
  | answer stack behind =>
      cases behind with
      | none => rfl
      | some b =>
          obtain ⟨obj, gap⟩ := b
          refine if_neg ?_
          rintro rfl
          exact hp.elim h.1 h.2
  | _ => rfl

/-- **The order of the contents**, in every run up to the drain in which the waiting packets
are spared. -/
theorem contents_of_reachable {ok : Sys → Label → Prop} {s : Sys}
    (hdrain : ∀ s a, ok s a → beforeDrain s a) (hspares : ∀ s a, ok s a → sparesWaiting s a)
    (h : system.Reachable ok s) : s.enqueued = s.dequeued ++ s.dataQueue.map s.delivery := by
  have hrefines : LTS.Refines system ok (fifo Delivery) (queueOf id) := by
    refine refines_fifo hdrain fun s a t hreach hok hm packet hp => ?_
    rw [delivery_of_queue (law_of_reachable hreach) hm hp,
      reach_of_spared (hspares s a hok) (Or.inl hp), Delivery.wiped_zero]
  have hlaw := fifo_law_of_refines hrefines h
  have hid : ∀ l : List Delivery, l.map id = l := List.map_id
  show s.enqueued = _
  rw [← hid s.enqueued, ← hid s.dequeued]
  exact hlaw

/-! ## What is handled was dequeued -/

/-- The packet that was dequeued and not yet handed to its handler. -/
def Process.unhandled (s : Sys) : Process → List Delivery
  | .handling packet => [s.delivery packet]
  | _ => []

/-- **Step lemma.**  A packet is handled when it leaves the hand of the process thread. -/
theorem handled_step {s t : Sys} {a : Label} (hreach : system.Reachable beforeDrain s)
    (hs : s.dequeued = s.handled ++ s.processor.unhandled s) (hm : Move s a t) :
    t.dequeued = t.handled ++ t.processor.unhandled t := by
  -- a step of another thread leaves the packet in hand alone
  have hframe : t.dequeued = s.dequeued → t.handled = s.handled → t.processor = s.processor →
      t.dequeued = t.handled ++ t.processor.unhandled t := by
    intro hdequeued hhandled hprocessor
    rw [hdequeued, hhandled, hprocessor, hs]
    cases hp : s.processor with
    | handling packet =>
        show _ = s.handled ++ [t.delivery packet]
        rw [delivery_of_handling (law_of_reachable hreach) hm hp]
        rfl
    | _ => rfl
  cases hm with
  | launched hr =>
      have habsent := absent_of_early hreach (by rw [hr]; rfl)
      rw [habsent] at hs
      exact hs
  | checked hp =>
      rw [hp] at hs
      show s.dequeued =
        s.handled ++ (if s.isRunning then Process.waiting else .exited).unhandled _
      split <;> exact hs
  | timedOut hp | underflow hp | rewritten _ _ _ _ hp | sent _ _ hp | gaveBack _ hp =>
      rw [hp] at hs
      exact hs
  | unsent => exact hs
  | took packet rest hp =>
      rw [hp] at hs
      have hall : s.dequeued = s.handled := hs.trans (List.append_nil _)
      show s.dequeued ++ [s.delivery packet] = s.handled ++ [s.delivery packet]
      rw [hall]
  | terminated packet rest hp hstate => exact absurd hstate (state_ne_terminate hreach)
  | unanswered packet hp | found packet _ hp =>
      rw [hp] at hs
      show s.dequeued = (s.handled ++ [s.delivery packet]) ++ []
      rw [hs, List.append_nil]
      rfl
  | _ => exact hframe rfl rfl rfl

/-- The handled packets are the dequeued ones, up to the one in hand. -/
theorem handled_of_reachable {s : Sys} (h : system.Reachable beforeDrain s) :
    s.dequeued = s.handled ++ s.processor.unhandled s := by
  refine LTS.Reachable.induction (I := fun s => s.dequeued = s.handled ++ s.processor.unhandled s)
    ?_ ?_ h
  · rintro _ rfl
    rfl
  · intro s a t hreach hs _ hstep
    exact handled_step hreach hs (move_of_step hstep)

/-! ## What is enqueued was received -/

/-- The packet that `run` makes of received bytes, for some name of the sender. -/
def Carries (bytes : Str) (packet : Packet) : Prop :=
  ∃ name : Str, name.length ≤ 32 ∧ packet =
    ((Packet.ofBytes bytes).write 6 (List.replicate 32 0)).write 6 name

/-- What carries the received bytes outside of `src`, and a name there. -/
theorem carries_of_src {bytes name : Str} {packet : Packet} (hname : name.length ≤ 32)
    (hbytes : Packet.SameButSrc packet (Packet.ofBytes bytes))
    (hsrc : packet.src = Packet.padded name) : Carries bytes packet := by
  refine ⟨name, hname, Packet.eq_of_src (q := (Packet.ofBytes bytes).stamp name) ?_ ?_⟩
  · rw [hsrc, Packet.src_stamp hname]
  · intro i hi hout
    rw [Packet.stamp_getElem? hname hout]
    exact Packet.sameButSrc_iff.mp hbytes i hi hout

/-- Packets that are spared carry a name in `src`. -/
theorem titled_of_reachable {ok : Sys → Label → Prop} {s : Sys}
    (hspares : ∀ s a, ok s a → sparesWaiting s a) (h : system.Reachable ok s) :
    Titled (fun d => ∃ name : Str, name.length ≤ 32 ∧ d.packet.src = Packet.padded name) s := by
  refine LTS.Reachable.induction (I := Titled _) ?_ ?_ h
  · rintro _ rfl
    exact ⟨fun d hd => absurd hd List.not_mem_nil, fun packet hp => absurd hp List.not_mem_nil⟩
  · intro s a t hreach hs hok hstep
    refine hs.step (law_of_reachable hreach) (move_of_step hstep) ?_ ?_
    · intro ready it sock packet _
      exact ⟨_, length_getName_le hreach sock, src_stamp_delivery hreach ready it sock packet⟩
    · intro packet hp htitle
      rwa [reach_of_spared (hspares s a hok) (Or.inr (Run.mem_hand_of_stamped hp)),
        Delivery.wiped_zero]

/-- Where the waiting packets are spared, so is the one in the hand of `run`. -/
theorem spares_of_sparesWaiting {conn : ℕ} {s : Sys} {a : Label} (h : sparesWaiting s a) :
    spares conn s a := by
  refine spares_iff.mpr fun packet hp _ => ?_
  rw [reach_of_spared h (Or.inr (s.runner.held_subset_hand hp)), Packet.wiped_zero]
  exact Packet.SameButSrc.refl _

/-- Packets that are spared carry what was received, one for one and in order. -/
theorem carried_of_reachable {ok : Sys → Label → Prop} {s : Sys}
    (hspares : ∀ s a, ok s a → sparesWaiting s a) (h : system.Reachable ok s) :
    ∃ done pending, s.received = done ++ pending ∧
      pending.length = (if s.runner.pending then 1 else 0) ∧
      done.Forall₂ (fun r d => d.conn = r.1 ∧ Carries r.2 d.packet) s.enqueued := by
  obtain ⟨done, pending, hsplit, hlength, hdone⟩ := carried_of_titled
    (fun conn s a hok => spares_of_sparesWaiting (hspares s a hok)) h
    (titled_of_reachable hspares h)
  refine ⟨done, pending, hsplit, hlength, hdone.imp ?_⟩
  rintro r d ⟨hconn, hbytes, name, hname, hsrc⟩
  exact ⟨hconn, carries_of_src hname hbytes hsrc⟩

/-! ## Main result -/

/-- The steps before the drain in which the waiting packets are spared. -/
def sparingDrain (s : Sys) (a : Label) : Prop := beforeDrain s a ∧ sparesWaiting s a

instance (s : Sys) (a : Label) : Decidable (sparingDrain s a) :=
  inferInstanceAs (Decidable (beforeDrain s a ∧ sparesWaiting s a))

/-- **Packet queue discipline.**  Up to the drain: the process thread has not run into
an empty queue; `STATE_DATAREADY` says exactly that the queue is not empty; the
enqueued packets are the dequeued ones followed by those in the queue; of every
connection, what was handled is the beginning of what was enqueued; and what was
enqueued was received, packet by packet, up to the one in hand.  As long as the waiting
packets are spared, the same holds of their contents. -/
theorem packet_queue_discipline {s : Sys} (h : system.Reachable beforeDrain s) :
    s.processor ≠ .undefined ∧
    (s.state = .dataReady ↔ s.dataQueue ≠ []) ∧
    s.enqueued.map ticket =
      (s.dequeued.map ticket ++ s.dataQueue.map fun packet => ticket (s.delivery packet)) ∧
    (∀ c, (s.handled.filter fun d => d.conn = c).map ticket <+:
      (s.enqueued.filter fun d => d.conn = c).map ticket) ∧
    (∃ done pending, s.received = done ++ pending ∧ pending.length ≤ 1 ∧
      done.Forall₂ Worn s.enqueued) ∧
    (system.Reachable sparingDrain s →
      s.enqueued = s.dequeued ++ s.dataQueue.map s.delivery ∧
      (∀ c, s.handled.filter (fun d => d.conn = c) <+: s.enqueued.filter (fun d => d.conn = c)) ∧
      ∃ done pending, s.received = done ++ pending ∧ pending.length ≤ 1 ∧
        done.Forall₂ (fun r d => d.conn = r.1 ∧ Carries r.2 d.packet) s.enqueued) := by
  have hinv := queueInv_of_reachable h
  have hlaw := tickets_of_reachable h
  have hhandled := handled_of_reachable h
  have hshort : ∀ {pending : List (ℕ × Str)},
      pending.length = (if s.runner.pending then 1 else 0) → pending.length ≤ 1 := by
    intro pending hlength
    rw [hlength]
    split_ifs
    · exact le_refl 1
    · exact Nat.zero_le 1
  refine ⟨hinv.defined, hinv.ready, hlaw, fun c => ?_, ?_, fun hspared => ⟨?_, fun c => ?_, ?_⟩⟩
  · -- the connection is read off the ticket
    have hfilter : ∀ l : List Delivery, (l.filter fun d => d.conn = c).map ticket =
        (l.map ticket).filter fun x => x.1 = c := by
      intro l
      rw [List.filter_map]
      rfl
    rw [hfilter, hfilter, hlaw, hhandled, List.map_append, List.append_assoc, List.filter_append]
    exact List.prefix_append _ _
  · obtain ⟨done, pending, hsplit, hlength, hdone⟩ := exists_pending (worn_of_reachable h)
    exact ⟨done, pending, hsplit, hshort hlength, hdone⟩
  · exact contents_of_reachable (fun _ _ hok => hok.1) (fun _ _ hok => hok.2) hspared
  · rw [contents_of_reachable (fun _ _ hok => hok.1) (fun _ _ hok => hok.2) hspared, hhandled,
      List.append_assoc, List.filter_append]
    exact List.prefix_append _ _
  · obtain ⟨done, pending, hsplit, hlength, hdone⟩ :=
      carried_of_reachable (fun _ _ hok => hok.2) hspared
    exact ⟨done, pending, hsplit, hshort hlength, hdone⟩

/-- The discipline after `onePacketRun`: one packet enqueued, and dequeued. -/
theorem packet_queue_discipline_onePacket :
    ∃ s : Sys, s.enqueued.length = 1 ∧ s.processor ≠ .undefined ∧
      s.enqueued = s.dequeued ++ s.dataQueue.map s.delivery := by
  have hrun : LTS.exec system sparingDrain fresh onePacketRun = some _ := rfl
  have hspared : system.Reachable sparingDrain _ := LTS.reachable_of_exec rfl hrun
  have hall := packet_queue_discipline (hspared.mono fun _ _ hok => hok.1)
  obtain ⟨hdefined, -, -, -, -, hcontents⟩ := hall
  exact ⟨_, rfl, hdefined, (hcontents hspared).1⟩

end TcpServer
