/-
# From `push` to the output (`TcpPipe` in `tcppipe.hpp`)

`TcpPipe::push` hands a message to `sendMessage` of its client, in one `send` or in several,
and the io thread of the shared server prints what `recv` gives.  `push_printed` follows the
messages of one pipe over both ends, among any number of other clients: what is printed of
them is their text, one after another, and all of it once the server has nothing to receive.
Where a message ends is lost, since `recv` may cut and join them.
-/
import CppShared.TcpPipeEpollStreams

namespace Epoll

open SendString (Answers Roomy pipeSendMessage)

/-! ## One message -/

/-- A call of `push`: `size` bytes at `data`, and what `send` returns. -/
structure Push where
  data : ℕ → UInt8
  size : ℕ
  results : List ℤ

namespace Push

/-- The message. -/
def content (p : Push) : Str := Socket.slice p.data 0 p.size

/-- What `send` has accepted of it. -/
def accepted (p : Push) : Str := (pipeSendMessage p.data p.size p.results).accepted

/-- `sendMessage` has stayed inside the message, and has returned `true`. -/
structure Done (p : Push) : Prop where
  size : p.size < 2 ^ 64
  answers : Answers p.size p.results
  roomy : Roomy p.size p.results
  result : (pipeSendMessage p.data p.size p.results).result = some true

/-- The whole message is on its way. -/
theorem Done.accepted_eq {p : Push} (h : p.Done) : p.accepted = p.content := by
  have hresult := h.result
  unfold accepted content
  unfold pipeSendMessage at hresult ⊢
  by_cases hshort : p.size < SendString.maxBufferLen
  · simp only [if_pos hshort] at hresult ⊢
    cases hresults : p.results with
    | nil =>
        rw [hresults] at hresult
        simp [SendString.short] at hresult
    | cons len rest =>
        have hlen := h.answers len (by rw [hresults]; exact List.mem_cons_self)
        rw [hresults] at hresult
        simp only [SendString.short, Option.some.injEq, decide_eq_true_eq] at hresult
        have heq := (SendString.toSize_eq_iff hshort hlen).mp hresult
        rw [SendString.short, heq, Int.toNat_natCast]
  · simp only [if_neg hshort] at hresult ⊢
    have hroomy : SendString.RoomyFrom p.size 0 p.results := by
      have hroomy := h.roomy
      unfold Roomy at hroomy
      simpa [SendString.RoomyFrom, hshort] using hroomy
    have hbound : ∀ len ∈ p.results, len ≤ SendString.maxBufferLen := by
      intro len hlen
      have hle := (h.answers len hlen).2
      omega
    have hsends := SendString.loop_sends p.data h.size p.results hbound (Nat.zero_le _) hroomy
    obtain ⟨pos, hpos, hsize⟩ := Option.map_eq_some_iff.mp hresult
    exact (hsends.honest pos hpos).mp (of_decide_eq_true hsize)

end Push

/-! ## What a client has sent -/

/-- The bytes that a step sends for a client. -/
def bytesOf (i : ℕ) : Act → Str
  | .client j (.send bytes) => if j = i then bytes else []
  | _ => []

/-- All that a client sends in a run. -/
def sentBy (i : ℕ) (as : List Act) : Str := as.flatMap (bytesOf i)

theorem sentBy_concat (i : ℕ) (as : List Act) (a : Act) :
    sentBy i (as ++ [a]) = sentBy i as ++ bytesOf i a := by
  rw [sentBy, List.flatMap_append, List.flatMap_singleton]
  rfl

/-- Every connection has what its client has sent. -/
structure Sent (as : List Act) (w : Net) : Prop where
  line : ∀ (i : ℕ) st, w.streams[i]? = some st → st.line.sent = sentBy i as
  beyond : ∀ i, w.streams.length ≤ i → sentBy i as = []

/-- A step of the kernel sends nothing, and ends no stream. -/
structure Keeps (w v : Net) : Prop where
  line : ∀ (i : ℕ) st, v.streams[i]? = some st →
    (∃ e, w.streams[i]? = some e ∧ st.line.sent = e.line.sent ∧ st.line.peer = e.line.peer) ∨
      i = w.streams.length ∧ st.line = .new
  length : w.streams.length ≤ v.streams.length

theorem Keeps.refl (w : Net) : Keeps w w :=
  ⟨fun _ st hst => Or.inl ⟨st, hst, rfl, rfl⟩, le_rfl⟩

theorem keeps_recv {w v : Net} {fd : ℤ} {content : Str} (h : recv w fd content = some v) :
    Keeps w v := by
  unfold recv at h
  dsimp only at h
  split at h
  · obtain ⟨-, h⟩ := Option.ite_none_right_eq_some.mp h
    obtain rfl := Option.some.inj h
    exact Keeps.refl w
  · next st hst =>
      split_ifs at h with hgives
      · obtain rfl := Option.some.inj h
        refine ⟨fun j e he => Or.inl ?_, List.length_set.ge⟩
        rcases (getElem?_set_iff hst).mp he with ⟨rfl, rfl⟩ | ⟨-, he⟩
        · exact ⟨st, hst, rfl, rfl⟩
        · exact ⟨e, he, rfl, rfl⟩
      · obtain rfl := Option.some.inj h
        refine ⟨fun j e he => Or.inl ?_, List.length_set.ge⟩
        rcases (getElem?_set_iff hst).mp he with ⟨rfl, rfl⟩ | ⟨-, he⟩
        · exact ⟨st, hst, rfl, rfl⟩
        · exact ⟨e, he, rfl, rfl⟩

theorem keeps_kernel {w v : Net} {a : Action} (h : kernel w a = some v) : Keeps w v := by
  unfold kernel at h
  split at h
  · obtain ⟨-, h⟩ := Option.ite_none_right_eq_some.mp h
    obtain rfl := Option.some.inj h
    exact Keeps.refl w
  · obtain rfl := Option.some.inj h
    refine ⟨fun j e he => ?_, ?_⟩
    · rcases getElem?_concat_iff.mp he with he | ⟨rfl, rfl⟩
      · exact Or.inl ⟨e, he, rfl, rfl⟩
      · exact Or.inr ⟨rfl, rfl⟩
    · show w.streams.length ≤ (w.streams ++ [_]).length
      rw [List.length_append]
      exact Nat.le_add_right _ _
  · split at h
    · obtain rfl := Option.some.inj h
      exact Keeps.refl w
    · exact keeps_recv h
  · obtain rfl := Option.some.inj h
    exact Keeps.refl w

/-- What a deed adds to the stream. -/
theorem sent_after {l l' : Inbound UInt8} {d : Deed UInt8} (h : l.after d = some l') (i : ℕ) :
    l'.sent = l.sent ++ bytesOf i (.client i d) := by
  cases d with
  | send items =>
      obtain ⟨-, h⟩ := Option.ite_none_right_eq_some.mp h
      obtain rfl := Option.some.inj h
      rw [bytesOf, if_pos rfl]
  | finish =>
      obtain ⟨-, h⟩ := Option.ite_none_right_eq_some.mp h
      obtain rfl := Option.some.inj h
      exact (List.append_nil _).symm
  | reset =>
      obtain rfl := Option.some.inj h
      exact (List.append_nil _).symm

theorem bytesOf_ne {i j : ℕ} (hij : j ≠ i) (d : Deed UInt8) : bytesOf i (.client j d) = [] := by
  cases d with
  | send items => exact if_neg hij
  | finish | reset => rfl

/-- **Step lemma.** -/
theorem Sent.step {as : List Act} {w v : Net} {a : Act} (h : Sent as w)
    (hstep : act w a = some v) : Sent (as ++ [a]) v := by
  cases a with
  | io a =>
      have hnone : ∀ i, sentBy i (as ++ [.io a]) = sentBy i as := by
        intro i
        rw [sentBy_concat]
        exact List.append_nil _
      simp only [act] at hstep
      cases ht : sessions.step w.io a with
      | none => simp [ht] at hstep
      | some t =>
          rw [ht] at hstep
          obtain ⟨u, hkernel, rfl⟩ := Option.map_eq_some_iff.mp hstep
          have hkeeps := keeps_kernel hkernel
          refine ⟨fun i st hst => ?_, fun i hi => ?_⟩
          · rw [hnone]
            rcases hkeeps.line i st hst with ⟨e, he, heq, -⟩ | ⟨rfl, hnew⟩
            · exact heq.trans (h.line i e he)
            · -- nothing was sent on a connection before it was accepted
              rw [hnew]
              exact (h.beyond _ le_rfl).symm
          · rw [hnone]
            exact h.beyond i (hkeeps.length.trans hi)
  | client j d =>
      simp only [act] at hstep
      cases hst : w.streams[j]? with
      | none => simp [hst] at hstep
      | some st =>
          rw [hst] at hstep
          obtain ⟨line, hafter, rfl⟩ := Option.map_eq_some_iff.mp hstep
          refine ⟨fun i e he => ?_, fun i hi => ?_⟩
          · rw [sentBy_concat]
            rcases (getElem?_set_iff hst).mp he with ⟨rfl, rfl⟩ | ⟨hij, he⟩
            · rw [← h.line i st hst]
              exact sent_after hafter i
            · rw [bytesOf_ne (Ne.symm hij), List.append_nil]
              exact h.line i e he
          · have hlt := (List.getElem?_eq_some_iff.mp hst).1
            change (w.streams.set j _).length ≤ i at hi
            rw [List.length_set] at hi
            rw [sentBy_concat, bytesOf_ne (Nat.ne_of_lt (hlt.trans_le hi)), List.append_nil]
            exact h.beyond i hi

theorem sent_of_run {as : List Act} {w : Net} (h : served.Run (fun _ _ => True) as w) :
    Sent as w := by
  refine LTS.Run.induction (I := Sent) (fun w hw => ?_) ?_ h
  · refine ⟨fun i st hst => ?_, fun i _ => rfl⟩
    rw [hw.2.1] at hst
    simp at hst
  · intro as w a v _ hw _ hstep
    exact hw.step hstep

/-! ## Main result -/

/-- **What is pushed is printed.**  What is printed of a pipe is a front part of its messages,
one behind the other, and it is all of them when they are on their way, there is nothing to
report, and the connection was not reset and is still watched. -/
theorem push_printed {as : List Act} {w : Net} (h : served.Run (fun _ _ => True) as w) {i : ℕ}
    {st : Stream} (hst : w.streams[i]? = some st) {pushes : List Push}
    (hdone : ∀ p ∈ pushes, p.Done) (hsent : sentBy i as <+: pushes.flatMap Push.accepted) :
    printedOf w i <+: pushes.flatMap Push.content ∧
      (sentBy i as = pushes.flatMap Push.accepted → Idle w → ∀ fd ∈ w.io.watched,
        st.fd = some fd → st.line.peer ≠ .reset →
          printedOf w i = pushes.flatMap Push.content) := by
  have hcontent : pushes.flatMap Push.accepted = pushes.flatMap Push.content :=
    List.flatMap_congr fun p hp => (hdone p hp).accepted_eq
  obtain ⟨hinv, hw⟩ := intact_of_reachable h.reachable
  have hline := (sent_of_run h).line i st hst
  rw [hcontent] at hsent ⊢
  refine ⟨?_, fun hall hidle fd hfd hk hpeer => ?_⟩
  · have hfront : printedOf w i <+: st.line.sent := ⟨_, hw.logged.whole (getElem?_lines hst)⟩
    exact hfront.trans (hline ▸ hsent)
  · have hnil := hw.waiting_of_idle hinv hidle hst hfd hk hpeer
    rw [printedOf, hw.logged.eq_sent (getElem?_lines hst) hnil, hline, hall]

/-- Two messages of a pipe, with another client between them; `recv` joins and cuts them. -/
def pushRun : List Act :=
  [.io (.loop (.test true)), .io (.loop (.wait [⟨1, 3⟩])),
    .io (.loop (.accept 5 ⟨127, 0, 0, 1, 4000⟩ true)), .client 0 (.send [7, 7, 7]),
    .io (.loop (.test true)), .io (.loop (.wait [⟨1, 5⟩, ⟨1, 3⟩])),
    .io (.loop (.receive [7, 7])), .io (.loop (.accept 6 ⟨127, 0, 0, 1, 4001⟩ true)),
    .client 1 (.send [9]), .client 0 (.send [7, 7]), .io (.loop (.test true)),
    .io (.loop (.wait [⟨1, 6⟩, ⟨1, 5⟩])), .io (.loop (.receive [9])),
    .io (.loop (.receive [7, 7, 7])), .io (.loop (.test true))]

/-- The messages. -/
def twoPushes : List Push := [⟨fun _ => 7, 3, [3]⟩, ⟨fun _ => 7, 2, [2]⟩]

theorem done_twoPushes : ∀ p ∈ twoPushes, p.Done := by
  have hthree : Answers 3 [3] := by simp [Answers, SendString.maxBufferLen]
  have htwo : Answers 2 [2] := by simp [Answers, SendString.maxBufferLen]
  intro p hp
  have hcases : p = ⟨fun _ => 7, 3, [3]⟩ ∨ p = ⟨fun _ => 7, 2, [2]⟩ := by
    simpa [twoPushes] using hp
  rcases hcases with rfl | rfl
  · exact ⟨by decide, hthree, Or.inl (by decide), rfl⟩
  · exact ⟨by decide, htwo, Or.inl (by decide), rfl⟩

theorem pushRun_end :
    (LTS.exec served (fun _ _ => True) ⟨fresh, [], []⟩ pushRun).map
        (fun w => (w.streams, w.io.watched)) =
      some ([⟨some 5, [7, 7, 7, 7, 7], [7, 7, 7, 7, 7], [], .sending, rfl⟩,
        ⟨some 6, [9], [9], [], .sending, rfl⟩], {3, 5, 6}) := by
  decide +kernel

/-- `push_printed` at that run. -/
theorem push_printed_twoPushes : ∃ w, printedOf w 0 = [7, 7, 7, 7, 7] := by
  obtain ⟨w, hexec, hend⟩ := Option.map_eq_some_iff.mp pushRun_end
  obtain ⟨hstreams, hwatched⟩ := Prod.mk.inj hend
  have hrun : served.Run (fun _ _ => True) pushRun w :=
    ⟨_, ⟨started_fresh, rfl, rfl⟩, LTS.path_of_exec hexec⟩
  have hst : w.streams[0]? =
      some ⟨some 5, [7, 7, 7, 7, 7], [7, 7, 7, 7, 7], [], .sending, rfl⟩ := by
    rw [hstreams]
    rfl
  have hidle : Idle w := by
    rintro event - hserver (heq | ⟨st, hmem, -, hshows⟩)
    · exact hserver heq
    · rw [hstreams] at hmem
      have hread : ¬st.line.Readable ∧ st.line.peer = .sending := by
        rcases List.mem_pair.mp hmem with rfl | rfl
        · exact ⟨by decide, rfl⟩
        · exact ⟨by decide, rfl⟩
      rw [Stream.Shows, if_neg (by simp [hread.2])] at hshows
      exact hread.1 hshows.2
  have hfive : (5 : ℤ) ∈ w.io.watched := by
    rw [hwatched]
    decide
  have hprinted := (push_printed hrun hst done_twoPushes (by decide)).2 (by decide) hidle 5 hfive
    rfl (by simp)
  exact ⟨w, hprinted⟩

end Epoll
