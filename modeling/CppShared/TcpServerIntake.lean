/-
# What the server makes of received bytes

What is written into a packet after `recv`, and by whom.  A packet in the queue or in the
hand of a thread is written to by its owner only, but for the `memset` of the Show handler,
which is too long and zeroes the beginning of the packet that lies behind the handler's
(`delivery_stable`).

`taken s` are the packets made of received bytes: the enqueued ones and the one that `run`
holds.  `Intake` says what a step does to them; `taken_of_reachable` is the induction over
it, for any relation between the received bytes and the packet; with it

* every packet carries the bytes it was made of, as far as no such write has reached it, in
  every run (`worn_of_reachable`);
* it carries them in every field but `src` as long as those writes spare the packet that
  `run` holds (`kept_of_reachable`).
-/
import CppShared.TcpServerOwnership

namespace TcpServer

/-! ## Who writes into a packet -/

/-- The entry of a packet whose first `k` bytes were zeroed. -/
def Delivery.wiped (d : Delivery) (k : ℕ) : Delivery := { d with packet := d.packet.wiped k }

@[simp] theorem Delivery.wiped_zero (d : Delivery) : d.wiped 0 = d := by
  rw [Delivery.wiped, Packet.wiped_zero]

/-- `objectPool.push` does not write into packets. -/
theorem giveBack_delivery (s : Sys) (obj packet : ℕ) :
    (giveBack s obj).delivery packet = s.delivery packet := by
  have hsame : (s.objectPool.push s.memory (some obj)).2.1.packet = s.memory.packet := by
    rcases s.objectPool.push_cases s.memory obj with hdel | hpush
    · rw [hdel]
    · rw [hpush]
  show Delivery.mk (s.origin packet) packet
    ((s.objectPool.push s.memory (some obj)).2.1.packet packet) = _
  rw [hsame]
  rfl

/-- `objectPool.get` writes into the packet that it hands out. -/
theorem getPacket_delivery (s : Sys) (ready : Finset ℤ) (it sock : ℕ) {packet : ℕ}
    (h : packet ≠ (s.objectPool.get s.memory).1) :
    (getPacket s ready it sock).delivery packet = s.delivery packet := by
  have hsame : (s.objectPool.get s.memory).2.2.packet packet = s.memory.packet packet := by
    rcases s.objectPool.get_cases s.memory with hnew | ⟨obj, rest, hpool, hfront⟩
    · rw [hnew] at h ⊢
      exact Function.update_of_ne h _ _
    · rw [hfront] at h ⊢
      exact Function.update_of_ne h _ _
  show Delivery.mk (s.origin packet) packet ((s.objectPool.get s.memory).2.2.packet packet) = _
  rw [hsame]
  rfl

/-- **One writer.**  A packet that is not in the pool is written to by the thread that
holds it; from a step of any other thread it has zeros in front at most. -/
theorem delivery_of_held {s t : Sys} {a : Label} (hlaw : (ledgerOf s).Law) (hm : Move s a t)
    {k : Place} {packet : ℕ} (hp : packet ∈ heldAt s k) (hpool : k ≠ .pool)
    (hrun : k = .run → a.isProcess = true ∨ a = .stop)
    (hprocess : k = .process →
      a.isProcess = false ∨ ∀ sock, s.processor ≠ .replying packet sock) :
    t.delivery packet = (s.delivery packet).wiped (a.reach packet) := by
  -- a step that writes into no packet, or into another one
  have hsame : t.delivery packet = s.delivery packet → a.reach packet = 0 →
      t.delivery packet = (s.delivery packet).wiped (a.reach packet) := by
    intro heq hreach
    rw [heq, hreach, Delivery.wiped_zero]
  have hwrite : ∀ {obj : ℕ} (p : Packet), packet ≠ obj →
      Delivery.mk (s.origin packet) packet ((s.memory.write obj p).packet packet) =
        s.delivery packet := by
    intro obj p hne
    rw [Memory.packet_write_of_ne _ _ hne]
    rfl
  have hother : ∀ {obj : ℕ}, obj ∈ heldAt s .run → ¬(a.isProcess = true ∨ a = .stop) →
      packet ≠ obj := by
    rintro obj hobj hthread rfl
    by_cases hk : k = .run
    · exact hthread (hrun hk)
    · exact hlaw.disjoint hk hp hobj
  cases hm with
  | got ready it sock hr =>
      refine hsame (getPacket_delivery s ready it sock ?_) rfl
      rintro rfl
      exact get_not_held hlaw hpool hp
  | recvData ready it sock obj bytes hr =>
      have hhand : obj ∈ s.runner.hand := by
        rw [hr]
        exact List.mem_cons_self
      have hne : packet ≠ obj := hother hhand (by simp [Label.isProcess])
      refine hsame ?_ rfl
      show Delivery.mk (Function.update s.origin obj sock packet) packet
        ((s.memory.write obj _).packet packet) = _
      rw [Function.update_of_ne hne]
      exact hwrite _ hne
  | stamped ready it sock obj hr =>
      have hhand : obj ∈ s.runner.hand := by
        rw [hr]
        exact List.mem_cons_self
      exact hsame (hwrite _ (hother hhand (by simp [Label.isProcess]))) rfl
  | rewritten obj sock stack behind hreply =>
      have hhand : obj ∈ s.processor.hand := by
        rw [hreply]
        exact List.mem_cons_self
      have hne : packet ≠ obj := by
        rintro rfl
        by_cases hk : k = .process
        · rcases hprocess hk with hthread | hnot
          · exact absurd hthread (by simp [Label.isProcess])
          · exact hnot sock hreply
        · exact hlaw.disjoint hk hp hhand
      show Delivery.mk (s.origin packet) packet
        (((overrun s.memory behind).write obj _).packet packet) = _
      rw [Memory.packet_write_of_ne _ _ hne, overrun_packet s.memory stack]
      rfl
  | gaveBack obj => exact hsame (giveBack_delivery s obj packet) rfl
  | pushed obj => exact hsame (giveBack_delivery s obj packet) rfl
  | terminated obj => exact hsame (giveBack_delivery s obj packet) rfl
  | _ => exact hsame rfl rfl

/-- A queued packet. -/
theorem delivery_of_queue {s t : Sys} {a : Label} (hlaw : (ledgerOf s).Law) (hm : Move s a t)
    {packet : ℕ} (hqueued : packet ∈ s.dataQueue) :
    t.delivery packet = (s.delivery packet).wiped (a.reach packet) :=
  delivery_of_held hlaw hm (k := .queue) hqueued (by decide) (by simp) (by simp)

/-- The packet in the hand of `run`, when another thread moves. -/
theorem delivery_of_hand {s t : Sys} {a : Label} (hlaw : (ledgerOf s).Law) (hm : Move s a t)
    (ha : a.isProcess = true ∨ a = .stop) {packet : ℕ} (hp : packet ∈ s.runner.hand) :
    t.delivery packet = (s.delivery packet).wiped (a.reach packet) :=
  delivery_of_held hlaw hm (k := .run) hp (by decide) (fun _ => ha) (by simp)

/-- A packet at its handler, which has not begun to answer. -/
theorem delivery_of_handling {s t : Sys} {a : Label} (hlaw : (ledgerOf s).Law) (hm : Move s a t)
    {packet : ℕ} (hp : s.processor = .handling packet) : t.delivery packet = s.delivery packet := by
  have hhand : packet ∈ s.processor.hand := by
    rw [hp]
    exact List.mem_cons_self
  have hquiet : a.reach packet = 0 := by
    cases hm with
    | rewritten obj sock stack behind hreply => exact absurd (hp.symm.trans hreply) (by simp)
    | _ => rfl
  rw [delivery_of_held hlaw hm (k := .process) hhand (by decide) (by simp)
    (fun _ => Or.inr fun sock => by simp [hp]), hquiet, Delivery.wiped_zero]

/-! ## The packet that `run` receives into -/

/-- The packet in `recv` is cleared, and the one with bytes knows its connection. -/
def Ready (s : Sys) : Run → Prop
  | .receiving _ _ _ packet => s.memory.packet packet = Packet.zero
  | .stamping _ _ sock packet => s.origin packet = sock
  | _ => True

/-- Another thread moves. -/
theorem Ready.frame {s t : Sys} {r : Run} (h : Ready s r)
    (hsame : ∀ packet ∈ r.hand, ∃ k, t.delivery packet = (s.delivery packet).wiped k) :
    Ready t r := by
  cases r with
  | receiving ready it sock packet =>
      obtain ⟨k, hk⟩ := hsame packet List.mem_cons_self
      have hcontent : t.memory.packet packet = (s.memory.packet packet).wiped k :=
        congrArg Delivery.packet hk
      show t.memory.packet packet = Packet.zero
      rw [hcontent, show s.memory.packet packet = Packet.zero from h, Packet.zero_wiped]
  | stamping ready it sock packet =>
      obtain ⟨k, hk⟩ := hsame packet List.mem_cons_self
      exact (congrArg Delivery.conn hk).trans h
  | _ => trivial

/-- **Step lemma.** -/
theorem Ready.step {s t : Sys} {a : Label} (hlaw : (ledgerOf s).Law) (h : Ready s s.runner)
    (hm : Move s a t) : Ready t t.runner := by
  have hother : t.runner = s.runner → a.isProcess = true ∨ a = .stop → Ready t t.runner := by
    intro hrunner ha
    rw [hrunner]
    exact h.frame fun packet hp => ⟨_, delivery_of_hand hlaw hm ha hp⟩
  cases hm with
  | got ready it sock hr =>
      show (s.objectPool.get s.memory).2.2.packet (s.objectPool.get s.memory).1 = _
      rcases s.objectPool.get_cases s.memory with hnew | ⟨obj, rest, -, hfront⟩
      · rw [hnew]
        exact Function.update_self _ _ _
      · rw [hfront]
        exact Function.update_self _ _ _
  | recvData ready it sock packet bytes hr => exact Function.update_self _ _ _
  | looped hr =>
      show Ready _ (if s.isRunning then Run.selecting else .returned 0)
      split <;> trivial
  | erased ready it name sock hr =>
      show Ready _ (if it < (s.clients.eraseAt it).entries.length then Run.walking ready (it + 1)
        else .undefined)
      split <;> trivial
  | checked | timedOut | underflow | took | terminated | unanswered | found | rewritten | sent
  | unsent | gaveBack => exact hother rfl (Or.inl rfl)
  | stopCalled | stored | joined | joinThrew | closed | began | clientClosed | clientGone
  | advanced | advanceUndefined | clientsClosed | drainTested | popped | popUndefined | pushed =>
      exact hother rfl (Or.inr rfl)
  | _ => trivial

theorem ready_of_reachable {ok : Sys → Label → Prop} {s : Sys} (h : system.Reachable ok s) :
    Ready s s.runner := by
  refine LTS.Reachable.induction (I := fun s => Ready s s.runner) ?_ ?_ h
  · rintro _ rfl
    trivial
  · intro s a t hreach hs _ hstep
    exact hs.step (law_of_reachable hreach) (move_of_step hstep)

/-! ## What is made of received bytes -/

/-- The packet with received bytes in the hand of `run`. -/
def Run.held : Run → List ℕ
  | .stamping _ _ _ packet => [packet]
  | .queueing _ _ packet => [packet]
  | _ => []

/-- `run` holds received bytes that are not queued yet. -/
def Run.pending : Run → Bool
  | .stamping _ _ _ _ => true
  | .queueing _ _ _ => true
  | _ => false

theorem Run.length_held (r : Run) : r.held.length = if r.pending then 1 else 0 := by
  cases r <;> rfl

theorem Run.held_of_not_pending {r : Run} (h : r.pending = false) : r.held = [] := by
  apply List.eq_nil_of_length_eq_zero
  rw [r.length_held, h]
  rfl

theorem Run.held_subset_hand (r : Run) : r.held ⊆ r.hand := by
  cases r <;> first | exact List.nil_subset _ | exact List.Subset.refl _

/-- The packets made of received bytes, in the order of the receipts. -/
def taken (s : Sys) : List Delivery := s.enqueued ++ s.runner.held.map s.delivery

theorem taken_of_not_pending {s : Sys} (h : s.runner.pending = false) : taken s = s.enqueued := by
  rw [taken, Run.held_of_not_pending h]
  exact List.append_nil _

/-- What a step does to the packets made of received bytes. -/
inductive Intake (s : Sys) (a : Label) (t : Sys) : Prop
  /-- The write behind another packet may reach the one in hand. -/
  | passed (hreceived : t.received = s.received)
      (htaken : taken t = s.enqueued ++
        s.runner.held.map fun packet => (s.delivery packet).wiped (a.reach packet))
  | received (sock packet : ℕ) (bytes : Str) (hreach : ∀ obj, a.reach obj = 0)
      (hreceived : t.received = s.received ++ [(sock, bytes)])
      (htaken : taken t = taken s ++ [⟨sock, packet, Packet.ofBytes bytes⟩])
  | stamped (packet : ℕ) (name : Str) (hname : name.length ≤ 32) (hreach : ∀ obj, a.reach obj = 0)
      (hheld : s.runner.held = [packet]) (hreceived : t.received = s.received)
      (htaken : taken t = s.enqueued ++
        [{ s.delivery packet with packet := (s.memory.packet packet).stamp name }])

/-- Every step does one of these. -/
theorem intake_of_move {ok : Sys → Label → Prop} {s t : Sys} {a : Label}
    (hreach : system.Reachable ok s) (hm : Move s a t) : Intake s a t := by
  have hlaw := law_of_reachable hreach
  have hready := ready_of_reachable hreach
  -- `run` moves on without received bytes
  have hpass : s.runner.held = [] → t.runner.held = [] → t.received = s.received →
      t.enqueued = s.enqueued → Intake s a t := by
    intro hheld hheld' hreceived henqueued
    refine .passed hreceived ?_
    rw [taken, hheld, hheld', henqueued]
    rfl
  have hother : t.runner = s.runner → a.isProcess = true ∨ a = .stop →
      t.received = s.received → t.enqueued = s.enqueued → Intake s a t := by
    intro hrunner ha hreceived henqueued
    refine .passed hreceived ?_
    rw [taken, hrunner, henqueued]
    congr 1
    apply List.map_congr_left
    intro packet hp
    exact delivery_of_hand hlaw hm ha (s.runner.held_subset_hand hp)
  cases hm with
  | tcpFails hr | initFails _ hr | listens _ hr | idel hr | launched hr | entered hr
  | enterUndefined hr | selectedNone _ _ hr | selected _ _ hr | newConnection _ hr
  | noConnection _ hr | testUndefined _ hr | acceptFails _ hr | unnamed _ _ hr
  | connection _ _ _ hr | registered _ _ hr | registerUndefined _ _ hr | passEnd _ _ hr
  | notReady _ _ _ _ hr | isReady _ _ _ _ hr | got _ _ _ hr | recvFails _ _ _ _ hr
  | disconnected _ _ _ _ hr | disconnectUndefined _ _ _ _ hr =>
      exact hpass (by rw [hr]; rfl) rfl rfl rfl
  | looped hr | erased _ _ _ _ hr =>
      exact hpass (by rw [hr]; rfl) (by dsimp only; split <;> rfl) rfl rfl
  | recvData ready it sock packet bytes hr =>
      have hzero : s.memory.packet packet = Packet.zero := by
        rw [hr] at hready
        exact hready
      refine .received sock packet bytes (fun _ => rfl) rfl ?_
      rw [taken, taken, hr]
      show s.enqueued ++ [Delivery.mk (Function.update s.origin packet sock packet) packet
        ((s.memory.write packet ((s.memory.packet packet).write 0 bytes)).packet packet)] = _
      rw [Function.update_self, Memory.packet_write_self, hzero]
      exact congrArg (· ++ _) (List.append_nil _).symm
  | stamped ready it sock packet hr =>
      have hname := length_getName_le hreach sock
      refine .stamped packet _ hname (fun _ => rfl) (by rw [hr]; rfl) rfl ?_
      show s.enqueued ++ [Delivery.mk (s.origin packet) packet
        ((s.memory.write packet ((s.memory.packet packet).stamp
          (s.socketAt sock).getName)).packet packet)] = _
      rw [Memory.packet_write_self]
      rfl
  | queued ready it packet hr hs =>
      refine .passed rfl ?_
      rw [hr]
      show (s.enqueued ++ [s.delivery packet]) ++ [] =
        s.enqueued ++ [(s.delivery packet).wiped 0]
      rw [List.append_nil, Delivery.wiped_zero]
  | notQueued ready it packet hr hs => exact absurd hs (state_ne_terminate hreach)
  | checked | timedOut | underflow | took | terminated | unanswered | found | rewritten | sent
  | unsent | gaveBack => exact hother rfl (Or.inl rfl) rfl rfl
  | stopCalled | stored | joined | joinThrew | closed | began | clientClosed | clientGone
  | advanced | advanceUndefined | clientsClosed | drainTested | popped | popUndefined | pushed =>
      exact hother rfl (Or.inr rfl) rfl rfl

/-- A relation to a list with one more element. -/
theorem forall₂_concat_iff {α β : Type*} {R : α → β → Prop} {l : List α} {l' : List β} {x : β} :
    l.Forall₂ R (l' ++ [x]) ↔ ∃ init r, l = init ++ [r] ∧ init.Forall₂ R l' ∧ R r x := by
  constructor
  · intro h
    have hlast := List.forall₂_drop_append l l' [x] h
    obtain ⟨r, rest, hr, hrest, hdrop⟩ := List.forall₂_cons_right_iff.mp hlast
    rw [List.forall₂_nil_right_iff.mp hrest] at hdrop
    refine ⟨l.take l'.length, r, ?_, List.forall₂_take_append l l' [x] h, hr⟩
    rw [← hdrop]
    exact (List.take_append_drop _ _).symm
  · rintro ⟨init, r, rfl, hinit, hr⟩
    exact List.rel_append hinit (List.Forall₂.cons hr List.Forall₂.nil)

section Relation

variable {R : ℕ × Str → Delivery → Prop}

/-- The packets in hand are none or one. -/
theorem Run.held_cases (r : Run) : r.held = [] ∨ ∃ packet, r.held = [packet] := by
  cases r with
  | stamping _ _ _ packet => exact Or.inr ⟨packet, rfl⟩
  | queueing _ _ packet => exact Or.inr ⟨packet, rfl⟩
  | _ => exact Or.inl rfl

/-- **Step lemma.**  A relation between receipts and packets that every receipt
establishes, and that neither stamp nor write from behind breaks. -/
theorem forall₂_taken_step {s t : Sys} {a : Label} (h : s.received.Forall₂ R (taken s))
    (hstep : Intake s a t)
    (hreceive : ∀ sock packet bytes, R (sock, bytes) ⟨sock, packet, Packet.ofBytes bytes⟩)
    (hstamp : ∀ r d (name : Str), name.length ≤ 32 → R r d →
      R r { d with packet := d.packet.stamp name })
    (hwipe : ∀ packet ∈ s.runner.held, ∀ r, R r (s.delivery packet) →
      R r ((s.delivery packet).wiped (a.reach packet))) : t.received.Forall₂ R (taken t) := by
  cases hstep with
  | passed hreceived htaken =>
      rw [hreceived, htaken]
      rcases s.runner.held_cases with hheld | ⟨packet, hheld⟩
      · rw [taken, hheld] at h
        rw [hheld]
        exact h
      · rw [taken, hheld] at h
        rw [hheld]
        obtain ⟨init, r, hsplit, hinit, hr⟩ := forall₂_concat_iff.mp h
        refine forall₂_concat_iff.mpr ⟨init, r, hsplit, hinit, hwipe packet ?_ r hr⟩
        rw [hheld]
        exact List.mem_cons_self
  | received sock packet bytes hreach hreceived htaken =>
      rw [hreceived, htaken]
      exact forall₂_concat_iff.mpr ⟨s.received, (sock, bytes), rfl, h, hreceive sock packet bytes⟩
  | stamped packet name hname hreach hheld hreceived htaken =>
      rw [hreceived, htaken]
      rw [taken, hheld] at h
      obtain ⟨init, r, hsplit, hinit, hr⟩ := forall₂_concat_iff.mp h
      exact forall₂_concat_iff.mpr ⟨init, r, hsplit, hinit, hstamp r _ name hname hr⟩

/-- **Run lemma.** -/
theorem taken_of_reachable {ok : Sys → Label → Prop} {s : Sys} (h : system.Reachable ok s)
    (hreceive : ∀ sock packet bytes, R (sock, bytes) ⟨sock, packet, Packet.ofBytes bytes⟩)
    (hstamp : ∀ r d (name : Str), name.length ≤ 32 → R r d →
      R r { d with packet := d.packet.stamp name })
    (hwipe : ∀ s a, ok s a → ∀ packet ∈ s.runner.held, ∀ r, R r (s.delivery packet) →
      R r ((s.delivery packet).wiped (a.reach packet))) : s.received.Forall₂ R (taken s) := by
  refine LTS.Reachable.induction (I := fun s => s.received.Forall₂ R (taken s)) ?_ ?_ h
  · rintro _ rfl
    exact List.Forall₂.nil
  · intro s a t hreach hs hok hstep
    exact forall₂_taken_step hs (intake_of_move hreach (move_of_step hstep)) hreceive hstamp
      (hwipe s a hok)

/-- The enqueued packets, and what is still in hand. -/
theorem exists_pending {s : Sys} (h : s.received.Forall₂ R (taken s)) :
    ∃ done pending, s.received = done ++ pending ∧
      pending.length = (if s.runner.pending then 1 else 0) ∧ done.Forall₂ R s.enqueued := by
  refine ⟨s.received.take s.enqueued.length, s.received.drop s.enqueued.length,
    (List.take_append_drop _ _).symm, ?_, List.forall₂_take_append _ _ _ h⟩
  have hrest := List.forall₂_drop_append _ _ _ h
  rw [hrest.length_eq, List.length_map, Run.length_held]

end Relation

/-! ## The content -/

/-- The packet belongs to the connection, and carries the bytes in every field but `src`, as
far as no write from behind has reached it. -/
def Worn (r : ℕ × Str) (d : Delivery) : Prop :=
  d.conn = r.1 ∧ ∃ k, Packet.SameButSrc d.packet ((Packet.ofBytes r.2).wiped k)

/-- In every run, what was received is taken, one for one and in order. -/
theorem worn_of_reachable {ok : Sys → Label → Prop} {s : Sys} (h : system.Reachable ok s) :
    s.received.Forall₂ Worn (taken s) := by
  refine taken_of_reachable h ?_ ?_ ?_
  · intro sock packet bytes
    refine ⟨rfl, 0, ?_⟩
    rw [Packet.wiped_zero]
    exact Packet.SameButSrc.refl _
  · rintro r d name hname ⟨hconn, k, hk⟩
    exact ⟨hconn, k, (Packet.sameButSrc_stamp hname).trans hk⟩
  · rintro s a - packet - r ⟨hconn, k, hk⟩
    refine ⟨hconn, max k (a.reach packet), ?_⟩
    rw [← Packet.wiped_wiped]
    exact hk.wiped _

/-- No write behind a packet of the Show handler shows in the packet with the bytes of the
connection `conn` in the hand of `run`, unless it is in `src`. -/
def spares (conn : ℕ) (s : Sys) : Label → Prop
  | .answer _ (some (obj, gap)) => obj ∈ s.runner.held → s.origin obj = conn →
      Packet.SameButSrc ((s.memory.packet obj).wiped (70 - gap)) (s.memory.packet obj)
  | _ => True

theorem spares_iff {conn : ℕ} {s : Sys} {a : Label} :
    spares conn s a ↔ ∀ packet ∈ s.runner.held, s.origin packet = conn →
      Packet.SameButSrc ((s.memory.packet packet).wiped (a.reach packet))
        (s.memory.packet packet) := by
  -- where nothing is zeroed
  have hsame : ∀ {packet k}, k = 0 → Packet.SameButSrc ((s.memory.packet packet).wiped k)
      (s.memory.packet packet) := by
    rintro packet k rfl
    rw [Packet.wiped_zero]
    exact Packet.SameButSrc.refl _
  cases a with
  | answer stack behind =>
      cases behind with
      | none => exact iff_of_true trivial fun _ _ _ => hsame rfl
      | some b =>
          obtain ⟨obj, gap⟩ := b
          constructor
          · intro h packet hp hconn
            by_cases hobj : obj = packet
            · subst hobj
              rw [show (Label.answer stack (some (obj, gap))).reach obj = 70 - gap from if_pos rfl]
              exact h hp hconn
            · exact hsame (if_neg hobj)
          · intro h hp hconn
            have hat := h obj hp hconn
            rwa [show (Label.answer stack (some (obj, gap))).reach obj = 70 - gap from
              if_pos rfl] at hat
  | _ => exact iff_of_true trivial fun _ _ _ => hsame rfl

/-- A packet of the connection carries the bytes in every field but `src`. -/
def Kept (conn : ℕ) (r : ℕ × Str) (d : Delivery) : Prop :=
  d.conn = conn → Packet.SameButSrc d.packet (Packet.ofBytes r.2)

/-- **Step lemma.**  A step that spares the packet in hand keeps what the packets carry. -/
theorem kept_step {conn : ℕ} {s t : Sys} {a : Label} (h : s.received.Forall₂ (Kept conn) (taken s))
    (hstep : Intake s a t) (hok : spares conn s a) : t.received.Forall₂ (Kept conn) (taken t) := by
  refine forall₂_taken_step h hstep ?_ ?_ ?_
  · exact fun sock packet bytes _ => Packet.SameButSrc.refl _
  · exact fun r d name hname hd hconn => (Packet.sameButSrc_stamp hname).trans (hd hconn)
  · exact fun packet hp r hd hconn => (spares_iff.mp hok packet hp hconn).trans (hd hconn)

/-- As long as no write from behind shows in them, the packets carry what was received. -/
theorem kept_of_reachable {ok : Sys → Label → Prop} {conn : ℕ} {s : Sys}
    (hok : ∀ s a, ok s a → spares conn s a) (h : system.Reachable ok s) :
    s.received.Forall₂ (Kept conn) (taken s) := by
  refine LTS.Reachable.induction (I := fun s => s.received.Forall₂ (Kept conn) (taken s)) ?_ ?_ h
  · rintro _ rfl
    exact List.Forall₂.nil
  · intro s a t hreach hs hstepok hstep
    exact kept_step hs (intake_of_move hreach (move_of_step hstep)) (hok s a hstepok)

/-- **Step lemma, backwards.**  Zeros stay: packets that carry what was received did so
before the step, and the step has spared the one in hand. -/
theorem kept_of_step {ok : Sys → Label → Prop} {conn : ℕ} {s t : Sys} {a : Label}
    (hreach : system.Reachable ok s) (hstep : Intake s a t)
    (h : t.received.Forall₂ (Kept conn) (taken t)) :
    s.received.Forall₂ (Kept conn) (taken s) ∧ spares conn s a := by
  have hworn := worn_of_reachable hreach
  have hquiet : (∀ obj, a.reach obj = 0) → spares conn s a := by
    refine fun hzero => spares_iff.mpr fun packet _ _ => ?_
    rw [hzero, Packet.wiped_zero]
    exact Packet.SameButSrc.refl _
  cases hstep with
  | passed hreceived htaken =>
      rw [hreceived, htaken] at h
      rcases s.runner.held_cases with hheld | ⟨packet, hheld⟩
      · rw [hheld] at h
        rw [taken, hheld]
        refine ⟨h, spares_iff.mpr fun packet hp => ?_⟩
        rw [hheld] at hp
        exact absurd hp List.not_mem_nil
      · rw [hheld] at h
        rw [taken, hheld] at hworn ⊢
        obtain ⟨init, r, hsplit, hinit, hr⟩ := forall₂_concat_iff.mp h
        obtain ⟨init', r', hsplit', -, -, k, hk⟩ := forall₂_concat_iff.mp hworn
        obtain ⟨-, hlast⟩ := List.append_inj' (hsplit.symm.trans hsplit') rfl
        obtain rfl := List.singleton_inj.mp hlast
        -- zeros stay, so none has shown in the packet before this step
        have hbefore : s.origin packet = conn →
            Packet.SameButSrc (s.memory.packet packet) (Packet.ofBytes r.2) :=
          fun hconn => hk.before_wiped (hr hconn)
        refine ⟨forall₂_concat_iff.mpr ⟨init, r, hsplit, hinit, hbefore⟩,
          spares_iff.mpr fun obj hobj hconn => ?_⟩
        rw [hheld] at hobj
        obtain rfl := List.mem_singleton.mp hobj
        exact (hr hconn).trans (hbefore hconn).symm
  | received sock packet bytes hzero hreceived htaken =>
      rw [hreceived, htaken] at h
      obtain ⟨init, r, hsplit, hinit, -⟩ := forall₂_concat_iff.mp h
      obtain ⟨rfl, -⟩ := List.append_inj' hsplit rfl
      exact ⟨hinit, hquiet hzero⟩
  | stamped packet name hname hzero hheld hreceived htaken =>
      rw [hreceived, htaken] at h
      rw [taken, hheld]
      obtain ⟨init, r, hsplit, hinit, hr⟩ := forall₂_concat_iff.mp h
      refine ⟨forall₂_concat_iff.mpr ⟨init, r, hsplit, hinit, fun hconn => ?_⟩, hquiet hzero⟩
      exact (Packet.sameButSrc_stamp hname).symm.trans (hr hconn)

/-- **The exact condition.**  The packets of a connection carry what was received on it in
exactly the runs in which every write from behind spares them. -/
theorem kept_iff {conn : ℕ} {as : List Label} {s : Sys}
    (h : system.Run (fun _ _ => True) as s) :
    s.received.Forall₂ (Kept conn) (taken s) ↔ system.Run (spares conn) as s := by
  obtain ⟨s₀, hinit, hpath⟩ := h
  have hstep : ∀ {s t : Sys} {a : Label}, system.Reachable (fun _ _ => True) s →
      system.step s a = some t → Intake s a t :=
    fun hreach hst => intake_of_move hreach (move_of_step hst)
  have hexact : s.received.Forall₂ (Kept conn) (taken s) ↔
      system.Path (spares conn) s₀ as s := by
    apply LTS.Path.exact (P := fun t => t.received.Forall₂ (Kept conn) (taken t))
      (B := fun t => ¬t.received.Forall₂ (Kept conn) (taken t)) hinit hpath
    · rintro _ rfl
      exact List.Forall₂.nil
    · intro s a t hreach hs hok hst
      exact kept_step hs (hstep (hreach.mono fun _ _ _ => trivial) hst) hok
    · intro s a t hreach _ hnot hst ht
      exact hnot (kept_of_step hreach (hstep hreach hst) ht).2
    · intro s a t hreach hbad _ hst ht
      exact hbad (kept_of_step hreach (hstep hreach hst) ht).1
    · exact fun s hs hnot => hnot hs
  refine hexact.trans ⟨fun hp => ⟨s₀, hinit, hp⟩, ?_⟩
  rintro ⟨s₁, hinit', hp⟩
  obtain rfl : s₁ = s₀ := (show s₁ = fresh from hinit').trans (show s₀ = fresh from hinit).symm
  exact hp

/-! ## The name in a packet -/

/-- The stamped packet that `run` is about to queue. -/
def Run.stamped : Run → List ℕ
  | .queueing _ _ packet => [packet]
  | _ => []

/-- It is in the hand of `run`. -/
theorem Run.mem_hand_of_stamped {r : Run} {packet : ℕ} (h : packet ∈ r.stamped) :
    packet ∈ r.hand := by
  cases r with
  | queueing ready it obj => exact h
  | _ => exact absurd h List.not_mem_nil

/-- The packets that are queued, or about to be, have the property `P`. -/
structure Titled (P : Delivery → Prop) (s : Sys) : Prop where
  enqueued : ∀ d ∈ s.enqueued, P d
  next : ∀ packet ∈ s.runner.stamped, P (s.delivery packet)

/-- **Step lemma.**  A property that the stamp establishes and that no write from behind
breaks. -/
theorem Titled.step {P : Delivery → Prop} {s t : Sys} {a : Label} (h : Titled P s)
    (hlaw : (ledgerOf s).Law) (hm : Move s a t)
    (hstamp : ∀ ready it sock packet, s.runner = .stamping ready it sock packet →
      P ((stamp s ready it sock packet).delivery packet))
    (hwipe : ∀ packet ∈ s.runner.stamped, P (s.delivery packet) →
      P ((s.delivery packet).wiped (a.reach packet))) : Titled P t := by
  -- `run` moves on without a stamped packet
  have hpass : t.enqueued = s.enqueued → t.runner.stamped = [] → Titled P t := by
    intro henqueued hstamped
    refine ⟨?_, ?_⟩
    · rw [henqueued]
      exact h.enqueued
    · rw [hstamped]
      exact fun packet hp => absurd hp List.not_mem_nil
  have hother : t.enqueued = s.enqueued → t.runner = s.runner →
      a.isProcess = true ∨ a = .stop → Titled P t := by
    intro henqueued hrunner ha
    refine ⟨?_, ?_⟩
    · rw [henqueued]
      exact h.enqueued
    · rw [hrunner]
      intro packet hp
      rw [delivery_of_hand hlaw hm ha (Run.mem_hand_of_stamped hp)]
      exact hwipe packet hp (h.next packet hp)
  cases hm with
  | looped hr =>
      refine hpass rfl ?_
      show (if s.isRunning then Run.selecting else .returned 0).stamped = []
      split <;> rfl
  | erased ready it name sock hr =>
      refine hpass rfl ?_
      show (if it < (s.clients.eraseAt it).entries.length then Run.walking ready (it + 1)
        else .undefined).stamped = []
      split <;> rfl
  | stamped ready it sock packet hr =>
      refine ⟨h.enqueued, fun obj hobj => ?_⟩
      obtain rfl := List.mem_singleton.mp hobj
      exact hstamp ready it sock obj hr
  | queued ready it packet hr =>
      refine ⟨fun d hd => ?_, fun packet hp => absurd hp List.not_mem_nil⟩
      rcases List.mem_append.mp hd with hold | hnew
      · exact h.enqueued d hold
      · obtain rfl := List.mem_singleton.mp hnew
        exact h.next packet (by rw [hr]; exact List.mem_singleton_self _)
  | checked | timedOut | underflow | took | terminated | unanswered | found | rewritten | sent
  | unsent | gaveBack => exact hother rfl rfl (Or.inl rfl)
  | stopCalled | stored | joined | joinThrew | closed | began | clientClosed | clientGone
  | advanced | advanceUndefined | clientsClosed | drainTested | popped | popUndefined | pushed =>
      exact hother rfl rfl (Or.inr rfl)
  | _ => exact hpass rfl rfl

/-- What packets with the property `P` carry, as long as no write from behind shows in them:
what was received, one for one and in order, up to the one in hand. -/
theorem carried_of_titled {ok : Sys → Label → Prop} {s : Sys} {P : Delivery → Prop}
    (hok : ∀ conn s a, ok s a → spares conn s a) (h : system.Reachable ok s) (ht : Titled P s) :
    ∃ done pending, s.received = done ++ pending ∧
      pending.length = (if s.runner.pending then 1 else 0) ∧
      done.Forall₂ (fun r d => d.conn = r.1 ∧
        Packet.SameButSrc d.packet (Packet.ofBytes r.2) ∧ P d) s.enqueued := by
  have hall : s.received.Forall₂ (fun r d => d.conn = r.1 ∧
      Packet.SameButSrc d.packet (Packet.ofBytes r.2)) (taken s) := by
    have hworn := worn_of_reachable h
    have hkept := fun conn => kept_of_reachable (hok conn) h
    rw [List.forall₂_iff_get] at hworn ⊢
    refine ⟨hworn.1, fun i hi hi' => ⟨(hworn.2 i hi hi').1, ?_⟩⟩
    exact (List.forall₂_iff_get.mp (hkept _)).2 i hi hi' rfl
  obtain ⟨done, pending, hsplit, hlength, hdone⟩ := exists_pending hall
  refine ⟨done, pending, hsplit, hlength, ?_⟩
  rw [List.forall₂_iff_get] at hdone ⊢
  refine ⟨hdone.1, fun i hi hi' => ?_⟩
  obtain ⟨hconn, hbytes⟩ := hdone.2 i hi hi'
  exact ⟨hconn, hbytes, ht.enqueued _ (List.get_mem _ ⟨i, hi'⟩)⟩

/-- Stamping writes the name of the client into `src`. -/
theorem src_stamp_delivery {ok : Sys → Label → Prop} {s : Sys} (h : system.Reachable ok s)
    (ready : Finset ℤ) (it sock packet : ℕ) :
    ((stamp s ready it sock packet).delivery packet).packet.src =
      Packet.padded (s.socketAt sock).getName := by
  show ((s.memory.write packet ((s.memory.packet packet).stamp
    (s.socketAt sock).getName)).packet packet).src = _
  rw [Memory.packet_write_self]
  exact Packet.src_stamp (length_getName_le h sock)

end TcpServer
