/-
# What the clients send, with `select` (`Select::run` and `Select::receive` in `tcppipe.hpp`)

The threads of `TcpPipeSelect`, with the connections behind their sockets: a byte stream for each
client, which can send, finish and be reset at any time.  A `select` that is not timed out has
found something to receive, and `recv` gives the next bytes, at most `max_buffer_len` of them.
The operations of the two threads on `socketMap`, which has no lock, are single steps here too.

* `streams_printed`: what the receive thread prints of a client is what the client has sent, in
  order and without a gap, under the address of that client, and it destroys the socket of a client
  that was not reset only behind its last byte: for every order of the two threads and the
  clients, also where `polls_iff` says that the polling goes wrong.  Of a client that was not
  entered, since another one has its address, nothing is ever printed.
-/
import CppShared.Inbound
import CppShared.SocketSendString
import CppShared.TcpPipeSelect

open Epoll (getAddress destroy)

namespace Select

/-! ## The server and its clients -/

/-- A line `from:…message:…`, with the client that it comes from. -/
structure Line where
  sender : Str
  client : ℕ
  content : Str
  deriving DecidableEq

/-- The server, the connections in the order of `sockets`, and the lines that were printed. -/
structure Net where
  server : Sys
  lines : List (Inbound UInt8)
  printed : List Line

/-- `recv` at the place where the thread is. -/
def recv (w : Net) (it : Str × ℕ) (content : Str) : Option Net :=
  match w.lines[it.2]? with
  | none => none
  | some l =>
      if h : l.Gives SendString.maxBufferLen content then
        some { w with
          lines := w.lines.set it.2 (l.take content h.1)
          printed :=
            if content = [] then w.printed else w.printed ++ [⟨it.1, it.2, content⟩] }
      else none

/-- The part that the kernel has in a step of the server. -/
def kernel (w : Net) : Label → Option Net
  | .accept _ _ => some { w with lines := w.lines ++ [.new] }
  | .select true =>
      match w.server.point with
      | .selecting it => if ∀ l ∈ w.lines[it.2]?, l.Readable then some w else none
      | _ => some w
  | .recv content =>
      match w.server.point with
      | .receiving it => recv w it content
      | _ => some w
  | _ => some w

/-- What happens next. -/
inductive Act
  | server (a : Label)
  | client (i : ℕ) (d : Deed UInt8)
  deriving DecidableEq

/-- One step. -/
def act (fdSetSize : ℕ) (w : Net) : Act → Option Net
  | .server a =>
      match step fdSetSize w.server a with
      | none => none
      | some t => (kernel w a).map fun v => { v with server := t }
  | .client i d =>
      match w.lines[i]? with
      | none => none
      | some l => (l.after d).map fun l' => { w with lines := w.lines.set i l' }

/-- The two threads and their clients. -/
def served (fdSetSize : ℕ) : LTS Net Act where
  init w := w = ⟨fresh, [], []⟩
  step := act fdSetSize

/-- What is known of the server alone holds here as well. -/
theorem refines_system (fdSetSize : ℕ) :
    LTS.Refines (served fdSetSize) (fun _ _ => True) (system fdSetSize) Net.server where
  init w h := by
    rw [h]
    rfl
  step w a w' _ _ hstep := by
    cases a with
    | server a =>
        simp only [served, act] at hstep
        cases ht : step fdSetSize w.server a with
        | none => simp [ht] at hstep
        | some t =>
            rw [ht] at hstep
            obtain ⟨v, -, rfl⟩ := Option.map_eq_some_iff.mp hstep
            exact ⟨[a], LTS.Path.single trivial ht⟩
    | client i d =>
        simp only [served, act] at hstep
        cases hl : w.lines[i]? with
        | none => simp [hl] at hstep
        | some l =>
            rw [hl] at hstep
            obtain ⟨l', -, rfl⟩ := Option.map_eq_some_iff.mp hstep
            exact ⟨[], LTS.Path.nil _⟩

/-! ## What holds in every run -/

/-- The pieces in the lines that were printed. -/
def pieces (printed : List Line) : List (ℕ × Str) := printed.map fun p => (p.client, p.content)

/-- All that was printed of a client. -/
def printedOf (w : Net) (i : ℕ) : Str := Inbound.joined (pieces w.printed) i

/-- Nothing is lost on the way. -/
structure Intact (w : Net) : Prop where
  length : w.lines.length = w.server.sockets.length
  logged : Inbound.Logged w.lines (pieces w.printed)
  named : ∀ p ∈ w.printed, w.server.socketMap.find? p.sender = some p.client
  closed : ∀ k i l, w.server.socketMap.find? k = some i → w.lines[i]? = some l →
    w.server.connected i = false → l.Ended
  /-- What `select` has found is there up to the `recv`. -/
  ready : ∀ it, w.server.point = .receiving it →
    w.server.connected it.2 = true ∧ ∀ l ∈ w.lines[it.2]?, l.Readable

theorem intact_init : Intact ⟨fresh, [], []⟩ where
  length := rfl
  logged := Inbound.Logged.nil
  named := by simp
  closed := by simp
  ready it hp := by cases hp

/-- **Step lemma** for a client. -/
theorem Intact.client {w : Net} (h : Intact w) {i : ℕ} {l l' : Inbound UInt8}
    (hl : w.lines[i]? = some l) (hgrows : l.Grows l') :
    Intact { w with lines := w.lines.set i l' } := by
  refine ⟨List.length_set.trans h.length, h.logged.set hl hgrows.taken, h.named,
    fun k j e hk he hdead => ?_, fun it hp => ⟨(h.ready it hp).1, fun e he => ?_⟩⟩
  · rcases (getElem?_set_iff hl).mp he with ⟨rfl, rfl⟩ | ⟨-, he⟩
    · exact hgrows.ended (h.closed k j l hk hl hdead)
    · exact h.closed k j e hk he hdead
  · rcases (getElem?_set_iff hl).mp he with ⟨heq, rfl⟩ | ⟨-, he⟩
    · rw [← heq] at hl
      exact hgrows.readable ((h.ready it hp).2 l hl)
    · exact (h.ready it hp).2 e he

/-- The receive thread moves on, and does not come to a `recv`. -/
theorem Intact.frame {w : Net} (h : Intact w) {t : Sys} (hsockets : t.sockets = w.server.sockets)
    (hmap : t.socketMap = w.server.socketMap)
    (hpoint : ∀ it, t.point = .receiving it → w.server.point = .receiving it) :
    Intact { w with server := t } where
  length := h.length.trans (congrArg List.length hsockets.symm)
  logged := h.logged
  named p hp := by
    dsimp only
    rw [hmap]
    exact h.named p hp
  closed k i l hk hl hdead := by
    dsimp only [Sys.connected] at hk hdead
    rw [hmap] at hk
    rw [hsockets] at hdead
    exact h.closed k i l hk hl hdead
  ready it hp := by
    dsimp only [Sys.connected]
    rw [hsockets]
    exact h.ready it (hpoint it hp)

/-- **Step lemma** for a `select` that has found something. -/
theorem Intact.select {w : Net} (h : Intact w) {it : Str × ℕ}
    (hconnected : w.server.connected it.2 = true) (hreadable : ∀ l ∈ w.lines[it.2]?, l.Readable)
    (polled : List ℕ) :
    Intact { w with server := { w.server with polled := polled, point := .receiving it } } := by
  refine { h with ready := fun it' hp => ?_ }
  obtain rfl := Point.receiving.inj hp
  exact ⟨hconnected, hreadable⟩

/-- **Step lemma** for a piece of a stream. -/
theorem Intact.message {w : Net} (h : Intact w) (hinv : Inv w.server) {it : Str × ℕ}
    {l : Inbound UInt8} {content : Str} (hp : w.server.point = .receiving it)
    (hl : w.lines[it.2]? = some l) (hfront : content <+: l.waiting) :
    Intact ⟨{ w.server with point := .advancing it }, w.lines.set it.2 (l.take content hfront),
      w.printed ++ [⟨it.1, it.2, content⟩]⟩ := by
  refine ⟨List.length_set.trans h.length, ?_, fun p hmem => ?_, fun k j e hk he hdead => ?_,
    by simp⟩
  · rw [pieces, List.map_append]
    exact h.logged.take hl hfront
  · rcases List.mem_append.mp hmem with hmem | hmem
    · exact h.named p hmem
    · obtain rfl := List.mem_singleton.mp hmem
      exact hinv.entry it (by rw [hp]; rfl)
  · rcases (getElem?_set_iff hl).mp he with ⟨rfl, rfl⟩ | ⟨-, he⟩
    · -- the socket has been open since `select` has found it
      exact absurd ((h.ready it hp).1.symm.trans hdead) (by simp)
    · exact h.closed k j e hk he hdead

/-- **Step lemma** for the end of a stream. -/
theorem Intact.disconnect {w : Net} (h : Intact w) {it : Str × ℕ} {l : Inbound UInt8}
    (hl : w.lines[it.2]? = some l) (hended : l.Ended) (hfront : [] <+: l.waiting) :
    Intact ⟨{ w.server with
        sockets := w.server.sockets.modify it.2 destroy
        point := .advancing it },
      w.lines.set it.2 (l.take [] hfront), w.printed⟩ := by
  refine ⟨?_, h.logged.set hl (List.append_nil _), h.named, fun k j e hk he hdead => ?_, by simp⟩
  · show (w.lines.set it.2 _).length = (w.server.sockets.modify it.2 destroy).length
    rw [List.length_set, List.length_modify]
    exact h.length
  · rcases (getElem?_set_iff hl).mp he with ⟨rfl, rfl⟩ | ⟨hne, he⟩
    · exact hended
    · rw [connected_modify _ rfl, if_neg (Ne.symm hne)] at hdead
      exact h.closed k j e hk he hdead

/-- **Step lemma** for a new connection, which may get a place in the table. -/
theorem Intact.accept {w : Net} (h : Intact w) (hinv : Inv w.server) {sock : Socket} {t : Sys}
    (hsockets : t.sockets = w.server.sockets ++ [sock]) (hpoint : t.point = w.server.point)
    (hkept : ∀ k i, w.server.socketMap.find? k = some i → t.socketMap.find? k = some i)
    (hnew : ∀ k i, t.socketMap.find? k = some i →
      w.server.socketMap.find? k = some i ∨ t.connected i = true) :
    Intact { w with server := t, lines := w.lines ++ [.new] } := by
  have hold : ∀ {i}, i < w.server.sockets.length → t.connected i = w.server.connected i :=
    fun hi => connected_concat hi sock t hsockets
  refine ⟨?_, h.logged.snoc, fun p hp => hkept _ _ (h.named p hp), fun k i l hk hl hdead => ?_,
    fun it hp => ?_⟩
  · show (w.lines ++ [_]).length = t.sockets.length
    rw [hsockets, List.length_append, List.length_append, h.length]
    rfl
  · rcases hnew k i hk with hk | hconnected
    · -- an entry from before is never about the new connection
      have hlt := hinv.lt_length hk
      rcases getElem?_concat_iff.mp hl with hl | ⟨rfl, -⟩
      · rw [hold hlt] at hdead
        exact h.closed k i l hk hl hdead
      · exact absurd (h.length ▸ hlt) (Nat.lt_irrefl _)
    · exact absurd (hconnected.symm.trans hdead) (by simp)
  · replace hp : w.server.point = .receiving it := hpoint.symm.trans hp
    have hlt := hinv.lt_length (hinv.entry it (by rw [hp]; rfl))
    refine ⟨(hold hlt).trans (h.ready it hp).1, fun l hl => ?_⟩
    rcases getElem?_concat_iff.mp hl with hl | ⟨heq, -⟩
    · exact (h.ready it hp).2 l hl
    · rw [heq, h.length] at hlt
      exact absurd hlt (Nat.lt_irrefl _)

/-- `recvMessage` gives what `recv` has returned, and the socket is destroyed if it is nothing. -/
theorem Intact.recv {fdSetSize : ℕ} {w w' : Net} (h : Intact w) (hinv : Inv w.server) {t : Sys}
    {content : Str} (ht : step fdSetSize w.server (.recv content) = some t)
    (hk : kernel w (.recv content) = some w') : Intact { w' with server := t } := by
  change Select.receive w.server w.server.point (.recv content) = some t at ht
  unfold kernel at hk
  cases hp : w.server.point with
  | receiving it =>
      rw [hp] at ht hk
      dsimp only at hk
      unfold Select.recv at hk
      cases hl : w.lines[it.2]? with
      | none => simp [hl] at hk
      | some l =>
          rw [hl] at hk
          dsimp only at hk
          split_ifs at hk with hgives hcontent
          · obtain rfl := Option.some.inj hk
            obtain rfl := Option.some.inj ((if_pos hcontent).symm.trans ht)
            subst hcontent
            exact h.disconnect hl (hgives.2.2 rfl) hgives.1
          · obtain rfl := Option.some.inj hk
            obtain rfl := Option.some.inj ((if_neg hcontent).symm.trans ht)
            exact h.message hinv hp hl hgives.1
  | head | walking it | selecting it => simp [Select.receive, hp] at ht
  | advancing it | returned | left => simp [Select.receive, hp] at ht

/-- **Step lemma** for the server. -/
theorem Intact.server {fdSetSize : ℕ} {w w' : Net} (h : Intact w) (hinv : Inv w.server) {a : Label}
    {t : Sys} (ht : step fdSetSize w.server a = some t) (hk : kernel w a = some w') :
    Intact { w' with server := t } := by
  have hm := move_of_step ht
  cases hm with
  | begun | finished | passEnd | entered | advanced | runEnds | stopped =>
      obtain rfl := Option.some.inj hk
      exact h.frame rfl rfl (by simp)
  | failed it ready hp hconnected =>
      cases ready with
      | true =>
          simp only [kernel, hp] at hk
          obtain ⟨-, hk⟩ := Option.ite_none_right_eq_some.mp hk
          obtain rfl := Option.some.inj hk
          exact h.frame rfl rfl (by simp)
      | false =>
          obtain rfl := Option.some.inj hk
          exact h.frame rfl rfl (by simp)
  | polled it ready hp hconnected =>
      cases ready with
      | true =>
          simp only [kernel, hp] at hk
          obtain ⟨hreadable, hk⟩ := Option.ite_none_right_eq_some.mp hk
          obtain rfl := Option.some.inj hk
          exact h.select hconnected hreadable _
      | false =>
          obtain rfl := Option.some.inj hk
          exact h.frame rfl rfl (by simp)
  | message | disconnected => exact h.recv hinv ht hk
  | refused fd addr =>
      obtain rfl := Option.some.inj hk
      exact h.accept hinv rfl rfl (fun _ _ => id) fun _ _ => Or.inl
  | accepted fd addr hfd =>
      obtain rfl := Option.some.inj hk
      refine h.accept hinv rfl rfl (fun _ _ => OrderedMap.find?_insert_of_find?) fun k i hfind => ?_
      rcases OrderedMap.of_find?_insert hfind with hold | ⟨-, rfl⟩
      · exact Or.inl hold
      · refine Or.inr ?_
        rw [Sys.connected, List.getElem?_concat_length]
        simpa [Socket.accepting] using hfd

theorem intact_of_reachable {fdSetSize : ℕ} {w : Net}
    (h : (served fdSetSize).Reachable (fun _ _ => True) w) : Inv w.server ∧ Intact w := by
  have hinv : ∀ {u : Net}, (served fdSetSize).Reachable (fun _ _ => True) u → Inv u.server :=
    fun hu => inv_of_reachable ((refines_system fdSetSize).reachable hu)
  refine ⟨hinv h, ?_⟩
  refine LTS.Reachable.induction (I := Intact) ?_ ?_ h
  · rintro _ rfl
    exact intact_init
  · intro w a w' hreach hw _ hstep
    cases a with
    | server a =>
        simp only [served, act] at hstep
        cases ht : step fdSetSize w.server a with
        | none => simp [ht] at hstep
        | some t =>
            rw [ht] at hstep
            obtain ⟨v, hk, rfl⟩ := Option.map_eq_some_iff.mp hstep
            exact hw.server (hinv hreach) ht hk
    | client i d =>
        simp only [served, act] at hstep
        cases hl : w.lines[i]? with
        | none => simp [hl] at hstep
        | some l =>
            rw [hl] at hstep
            obtain ⟨l', hafter, rfl⟩ := Option.map_eq_some_iff.mp hstep
            exact hw.client hl (Inbound.grows_of_after hafter)

/-! ## Main result -/

/-- The way from a client to the output. -/
structure Printed (w : Net) (i : ℕ) (l : Inbound UInt8) : Prop where
  /-- What was printed and what waits is what was sent. -/
  whole : printedOf w i ++ l.waiting = l.sent
  /-- Each line has the address of the client in front. -/
  named : ∀ p ∈ w.printed, p.client = i →
    ∃ sock, w.server.sockets[i]? = some sock ∧ p.sender = getAddress sock
  /-- The socket of a client that was entered is destroyed behind its last byte. -/
  closed : i ∈ w.server.socketMap.values → w.server.connected i = false →
    l.peer = .reset ∨ l.peer = .finished ∧ printedOf w i = l.sent
  /-- Nothing is printed of a client that was not entered. -/
  lost : i ∉ w.server.socketMap.values → printedOf w i = []

/-- **What the clients send is printed**, client by client, and no `recv` waits: for every order
of the two threads, their operations on `socketMap` taken as single steps, and of the clients,
whatever `select` and `recv` return. -/
theorem streams_printed {fdSetSize : ℕ} {w : Net}
    (h : (served fdSetSize).Reachable (fun _ _ => True) w) :
    (∀ (i : ℕ) l, w.lines[i]? = some l → Printed w i l) ∧
      ∀ it, w.server.point = .receiving it →
        ∃ content w', act fdSetSize w (.server (.recv content)) = some w' := by
  obtain ⟨hinv, hw⟩ := intact_of_reachable h
  refine ⟨fun i l hl => ⟨hw.logged.whole hl, fun p hp hi => ?_, fun hin hdead => ?_,
    fun hout => ?_⟩, fun it hp => ?_⟩
  · obtain ⟨sock, hsock, hkey⟩ := hinv.key p.sender p.client (hw.named p hp)
    exact ⟨sock, hi ▸ hsock, hkey.symm⟩
  · obtain ⟨k, hk⟩ := OrderedMap.mem_values_iff.mp hin
    exact (hw.closed k i l hk hl hdead).imp_right fun hend =>
      ⟨hend.1, hw.logged.eq_sent hl hend.2⟩
  · refine Inbound.joined_eq_nil fun p hp heq => ?_
    obtain ⟨line, hline, rfl⟩ := List.mem_map.mp hp
    exact hout (OrderedMap.mem_values_iff.mpr ⟨line.sender, heq ▸ hw.named line hline⟩)
  · have hlt := hinv.lt_length (hinv.entry it (by rw [hp]; rfl))
    rw [← hw.length] at hlt
    have hl : w.lines[it.2]? = some w.lines[it.2] := List.getElem?_eq_getElem hlt
    obtain ⟨content, hgives⟩ :=
      ((hw.ready it hp).2 _ hl).exists_gives (n := SendString.maxBufferLen) (by decide)
    obtain ⟨t, ht⟩ : ∃ t, step fdSetSize w.server (.recv content) = some t := by
      show ∃ t, Select.receive w.server w.server.point (.recv content) = some t
      rw [hp]
      by_cases hcontent : content = []
      · exact ⟨_, if_pos hcontent⟩
      · exact ⟨_, if_neg hcontent⟩
    obtain ⟨v, hv⟩ : ∃ v, kernel w (.recv content) = some v := by
      simp only [kernel, hp, recv, hl, dif_pos hgives]
      exact ⟨_, rfl⟩
    refine ⟨content, { v with server := t }, ?_⟩
    rw [act, ht]
    dsimp only
    rw [hv, Option.map_some]

/-- Two clients come from one address, the second one when the first one has left; the first one
sends a word before that. -/
def sameAddressRun : List Act :=
  [.server (.accept 5 ⟨127, 0, 0, 1, 4000⟩), .client 0 (.send (str "hello")), .server .test,
    .server .next, .server (.select true), .server (.recv (str "he")), .client 0 .finish,
    .server .next, .server .next, .server .test, .server .next, .server (.select true),
    .server (.recv (str "llo")), .server .next, .server .next, .server .test, .server .next,
    .server (.select true), .server (.recv []), .server (.accept 6 ⟨127, 0, 0, 1, 4000⟩),
    .client 1 (.send (str "hi"))]

theorem sameAddressRun_end :
    (LTS.exec (served 1024) (fun _ _ => True) ⟨fresh, [], []⟩ sameAddressRun).map
        (fun w => (w.lines, w.server.socketMap.values, w.server.connected 0)) =
      some ([⟨str "hello", str "hello", [], .finished, rfl⟩,
        ⟨str "hi", [], str "hi", .sending, rfl⟩], [0], false) := by
  decide +kernel

/-- `streams_printed` at that run: all of the first client, and nothing of the second one. -/
theorem streams_printed_sameAddress : ∃ w l, w.lines[0]? = some l ∧
    printedOf w 0 = str "hello" ∧ printedOf w 1 = [] := by
  obtain ⟨w, hexec, hend⟩ := Option.map_eq_some_iff.mp sameAddressRun_end
  obtain ⟨hlines, hrest⟩ := Prod.mk.inj hend
  obtain ⟨hvalues, hdead⟩ := Prod.mk.inj hrest
  have hreach : (served 1024).Reachable (fun _ _ => True) w := LTS.reachable_of_exec rfl hexec
  have hall := (streams_printed hreach).1
  have hfirst : w.lines[0]? = some ⟨str "hello", str "hello", [], .finished, rfl⟩ := by
    rw [hlines]
    rfl
  have hsecond : w.lines[1]? = some ⟨str "hi", [], str "hi", .sending, rfl⟩ := by
    rw [hlines]
    rfl
  have hclosed := (hall 0 _ hfirst).closed (by rw [hvalues]; simp) hdead
  exact ⟨w, _, hfirst, (hclosed.resolve_left (by simp)).2,
    (hall 1 _ hsecond).lost (by rw [hvalues]; simp)⟩

end Select
