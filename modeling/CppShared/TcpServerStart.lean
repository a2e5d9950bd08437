/-
# What a failed `start` leaves behind

`init` destroys the listening socket on each of its exits after `tcp`, and then
nothing is left of the attempt (`clean_of_undone`), unless the descriptor is `0`, which
`destroy` does not close.  `run` returns `-1` when `accepting` yields no socket, and
undoes nothing: the process thread goes on, and the listening socket stays open.

`start_clean_iff`: as long as nobody calls `stop`, a failed `start` has left the server
as it was exactly in the runs without such a step (`undone`).
-/
import CppShared.TcpServerSender

namespace TcpServer

/-! ## The condition on the steps -/

/-- `init` fails on a descriptor that `destroy` closes, and `accepting` yields a socket. -/
def undone (_ : Sys) : Label → Prop
  | .start (.bindOrListenFails fd) => fd ≠ 0
  | .accept .fails => False
  | .accept (.unnamed _) => False
  | _ => True

instance decidableUndone (s : Sys) (a : Label) : Decidable (undone s a) :=
  match a with
  | .start (.bindOrListenFails fd) => inferInstanceAs (Decidable (fd ≠ 0))
  | .accept .fails | .accept (.unnamed _) => inferInstanceAs (Decidable False)
  | .start .tcpFails | .start (.listens _) | .accept (.connection _ _) | .run | .select _ _
  | .recv _ | .disconnect | .process | .answer _ _ | .stop => inferInstanceAs (Decidable True)

/-! ## The server before the call -/

/-- There is a process thread, and it has not returned. -/
def Process.running : Process → Bool
  | .absent => false
  | .exited => false
  | _ => true

/-- `start` has returned a non-zero value. -/
def Failed (s : Sys) : Prop := ∃ code, code ≠ 0 ∧ s.runner = .returned code

/-- No process thread runs, every socket is closed, `dataQueue` and `clients` are empty. -/
structure Clean (s : Sys) : Prop where
  thread : s.processor.running = false
  closed : s.openFds = ∅
  queue : s.dataQueue = []
  clients : s.clients.entries = []

/-- A step of a process thread needs the thread. -/
theorem Clean.not_process {s : Sys} (h : Clean s) {p : Process} (hp : s.processor = p)
    (hrunning : p.running = true) : False := by
  have hnot := h.thread
  rw [hp, hrunning] at hnot
  exact Bool.noConfusion hnot

/-- `stop` finds nothing to do, and changes nothing of this. -/
theorem Clean.stop {s t : Sys} (h : Clean s) (hm : Move s .stop t) : Clean t := by
  obtain ⟨hthread, hclosed, hqueue, hclients⟩ := h
  cases hm with
  | closed =>
      refine ⟨hthread, ?_, hqueue, hclients⟩
      show s.socket.closes s.openFds = ∅
      rw [hclosed, Socket.closes_empty]
  | clientClosed it =>
      refine ⟨hthread, ?_, hqueue, hclients⟩
      show (s.socketAt it.2).closes s.openFds = ∅
      rw [hclosed, Socket.closes_empty]
  | popped packet rest hs hq =>
      rw [hqueue] at hq
      exact absurd hq (List.cons_ne_nil packet rest).symm
  | _ => exact ⟨hthread, hclosed, hqueue, hclients⟩

/-! ## When every failure is undone -/

/-- Before `start`, and after it has failed, there is nothing to clean up. -/
theorem clean_of_undone {s : Sys} (h : system.Reachable undone s) :
    s.runner = .idle ∨ Failed s → Clean s := by
  refine LTS.Reachable.induction (I := fun s => s.runner = .idle ∨ Failed s → Clean s) ?_ ?_ h
  · rintro _ rfl _
    exact ⟨rfl, rfl, rfl, rfl⟩
  · intro s a t _ hs hok hstep ht
    -- most steps of `run` lead on inside of it
    have hnot : ∀ {u : Sys} {r : Run}, u.runner = r → r ≠ .idle → (∀ code, r ≠ .returned code) →
        u.runner = .idle ∨ Failed u → Clean u := by
      rintro u r hr hidle hret (h | ⟨code, -, h⟩)
      · exact absurd (hr.symm.trans h) hidle
      · exact absurd (hr.symm.trans h) (hret code)
    cases move_of_step hstep with
    | initFails fd hr hfd =>
        obtain ⟨hthread, hclosed, hqueue, hclients⟩ := hs (Or.inl hr)
        refine ⟨hthread, ?_, hqueue, hclients⟩
        have hpos : 0 < fd := lt_of_le_of_ne hfd.1 (Ne.symm hok)
        show ({ s.socket with fd := fd } : Socket).closes (insert fd s.openFds) = ∅
        rw [hclosed]
        exact Socket.closes_insert hpos
    | looped hr =>
        by_cases hrun : s.isRunning = true
        · exact hnot (if_pos hrun) (by simp) (by simp) ht
        · have hret : (if s.isRunning then Run.selecting else .returned 0) = .returned 0 :=
            if_neg hrun
          rcases ht with ht | ⟨code, hcode, ht⟩
          · exact absurd (hret.symm.trans ht) (by simp)
          · exact absurd (Run.returned.inj (hret.symm.trans ht)).symm hcode
    | erased ready it name sock =>
        by_cases hlt : it < (s.clients.eraseAt it).entries.length
        · exact hnot (if_pos hlt) (by simp) (by simp) ht
        · exact hnot (if_neg hlt) (by simp) (by simp) ht
    | acceptFails => exact hok.elim
    | unnamed => exact hok.elim
    | checked hp | timedOut hp | underflow hp | took _ _ hp | terminated _ _ hp
    | unanswered _ hp | found _ _ hp | rewritten _ _ _ _ hp | sent _ _ hp | unsent _ _ hp
    | gaveBack _ hp =>
        exact ((hs ht).not_process hp rfl).elim
    | stopCalled | stored | joined | joinThrew | closed | began | clientClosed | clientGone
    | advanced | advanceUndefined | clientsClosed | drainTested | popped | popUndefined | pushed =>
        exact (hs ht).stop (move_of_step hstep)
    | got ready it sock =>
        exact hnot (r := Run.receiving ready it sock _) rfl (by simp) (by simp) ht
    | stamped ready it sock packet =>
        exact hnot (r := Run.queueing ready it packet) rfl (by simp) (by simp) ht
    | _ => exact hnot rfl (by simp) (by simp) ht

/-! ## When a failure is not undone -/

/-- `start` has made the process thread and has not returned. -/
def Run.serving : Run → Bool
  | .idle => false
  | .listening => false
  | .launching => false
  | .returned _ => false
  | .threw => false
  | .undefined => false
  | _ => true

/-- Before `stop` a step of the process thread does not end it. -/
theorem running_step {s t : Sys} {a : Label} (hreach : system.Reachable beforeStop s)
    (hm : Move s a t) (ha : a.isProcess = true) : t.processor.running = true := by
  cases hm with
  | checked =>
      have hnext : (if s.isRunning then Process.waiting else .exited) = .waiting :=
        if_pos (isRunning_of_reachable hreach)
      show (if s.isRunning then Process.waiting else .exited).running = true
      rw [hnext]
      rfl
  | terminated packet rest hp hs => exact absurd hs (state_ne_terminate hreach)
  | unsent packet sock hp =>
      rw [hp]
      rfl
  | timedOut | underflow | took | unanswered | found | rewritten | sent | gaveBack => rfl
  | _ => exact Bool.noConfusion ha

/-- A step of the process thread moves no other thread and touches no descriptor. -/
theorem process_frame {s t : Sys} {a : Label} (hm : Move s a t) (ha : a.isProcess = true) :
    t.runner = s.runner ∧ t.openFds = s.openFds := by
  cases hm <;> first | exact ⟨rfl, rfl⟩ | exact Bool.noConfusion ha

/-- Before `stop` the process thread runs as long as `run` does. -/
theorem running_of_serving {s : Sys} (h : system.Reachable beforeStop s) :
    s.runner.serving = true → s.processor.running = true := by
  refine LTS.Reachable.induction
    (I := fun s => s.runner.serving = true → s.processor.running = true) ?_ ?_ h
  · rintro _ rfl hserving
    exact Bool.noConfusion hserving
  · intro s a t hreach hs hok hstep ht
    -- `run` was in its loop before the step
    have hback : ∀ {r : Run}, s.runner = r → r.serving = true → s.processor.running = true := by
      rintro r rfl hr
      exact hs hr
    cases move_of_step hstep with
    | tcpFails | initFails | listens | idel | enterUndefined | testUndefined | acceptFails
    | unnamed | registerUndefined | disconnectUndefined => exact Bool.noConfusion ht
    | launched => rfl
    | checked | timedOut | underflow | took | terminated | unanswered | found | rewritten
    | sent | unsent | gaveBack => exact running_step hreach (move_of_step hstep) rfl
    | stopCalled | stored | joined | joinThrew | closed | began | clientClosed | clientGone
    | advanced | advanceUndefined | clientsClosed | drainTested | popped | popUndefined | pushed =>
        exact hok.elim
    | entered hr | looped hr | selectedNone _ _ hr | selected _ _ hr | newConnection _ hr
    | noConnection _ hr | connection _ _ _ hr | registered _ _ hr | passEnd _ _ hr
    | erased _ _ _ _ hr | notReady _ _ _ _ hr | isReady _ _ _ _ hr | got _ _ _ hr
    | recvFails _ _ _ _ hr | recvData _ _ _ _ _ hr | disconnected _ _ _ _ hr | stamped _ _ _ _ hr
    | queued _ _ _ hr | notQueued _ _ _ hr => exact hback hr rfl

/-- `start` has failed, and the process thread runs or a socket is open. -/
def Littered (s : Sys) : Prop := Failed s ∧ (s.processor.running = true ∨ s.openFds ≠ ∅)

/-- A failure that is not undone leaves something behind. -/
theorem littered_of_not_undone {s t : Sys} {a : Label} (hreach : system.Reachable beforeStop s)
    (hnot : ¬undone s a) (hm : Move s a t) : Littered t := by
  have hfailed : ∀ u : Sys, u.runner = .returned (-1) → Failed u :=
    fun u hu => ⟨-1, by decide, hu⟩
  cases hm with
  | initFails fd hr hfd =>
      obtain rfl : fd = 0 := not_not.mp hnot
      refine ⟨hfailed _ rfl, Or.inr ?_⟩
      exact Finset.insert_ne_empty 0 s.openFds
  | acceptFails ready hr | unnamed ready fd hr =>
      have hserving : s.runner.serving = true := by
        rw [hr]
        rfl
      have hrunning : s.processor.running = true := running_of_serving hreach hserving
      exact ⟨hfailed _ rfl, Or.inl hrunning⟩
  | _ => exact absurd trivial hnot

/-- After `start` has returned, only the other threads move. -/
theorem label_of_returned {s t : Sys} {a : Label} {code : ℤ} (hr : s.runner = .returned code)
    (hm : Move s a t) : a.isProcess = true ∨ a = .stop := by
  have hno : ∀ {r : Run}, s.runner = r → r ≠ .returned code → False :=
    fun hr' hne => hne (hr'.symm.trans hr)
  cases hm with
  | checked | timedOut | underflow | took | terminated | unanswered | found | rewritten | sent
  | unsent | gaveBack => exact Or.inl rfl
  | stopCalled | stored | joined | joinThrew | closed | began | clientClosed | clientGone
  | advanced | advanceUndefined | clientsClosed | drainTested | popped | popUndefined | pushed =>
      exact Or.inr rfl
  | tcpFails hr' | initFails _ hr' | listens _ hr' | idel hr' | launched hr' | entered hr'
  | enterUndefined hr' | looped hr' | selectedNone _ _ hr' | selected _ _ hr'
  | newConnection _ hr' | noConnection _ hr' | testUndefined _ hr' | acceptFails _ hr'
  | unnamed _ _ hr' | connection _ _ _ hr' | registered _ _ hr' | registerUndefined _ _ hr'
  | passEnd _ _ hr' | erased _ _ _ _ hr' | notReady _ _ _ _ hr' | isReady _ _ _ _ hr'
  | got _ _ _ hr' | recvFails _ _ _ _ hr' | recvData _ _ _ _ _ hr' | disconnected _ _ _ _ hr'
  | disconnectUndefined _ _ _ _ hr' | stamped _ _ _ _ hr' | queued _ _ _ hr'
  | notQueued _ _ _ hr' => exact (hno hr' (by simp)).elim

/-- Before `stop` nobody cleans up. -/
theorem Littered.step {s t : Sys} {a : Label} (hreach : system.Reachable beforeStop s)
    (h : Littered s) (hok : beforeStop s a) (hm : Move s a t) : Littered t := by
  obtain ⟨⟨code, hcode, hr⟩, hleft⟩ := h
  rcases label_of_returned hr hm with ha | rfl
  · obtain ⟨hrunner, hopen⟩ := process_frame hm ha
    refine ⟨⟨code, hcode, hrunner.trans hr⟩, ?_⟩
    rcases hleft with hrunning | hfds
    · exact Or.inl (running_step hreach hm ha)
    · exact Or.inr (hopen ▸ hfds)
  · exact hok.elim

theorem Littered.not_clean {s : Sys} (h : Littered s) : ¬Clean s := by
  intro hclean
  rcases h.2 with hrunning | hfds
  · exact hclean.not_process rfl hrunning
  · exact hfds hclean.closed

/-! ## Main result -/

/-- A failed `start` has left the server as it was in every run whose failures are all
undone, with any calls of `stop`; and while nobody calls `stop`, in no other run. -/
theorem start_clean_iff {as : List Label} {s : Sys} (h : system.Run beforeStop as s) :
    (∀ bs t, system.Run undone bs t → Failed t → Clean t) ∧
      ((Failed s → Clean s) ↔ system.Run (fun s a => beforeStop s a ∧ undone s a) as s) := by
  refine ⟨fun bs t hrun ht => clean_of_undone hrun.reachable (Or.inr ht), ?_⟩
  obtain ⟨s₀, h₀, hpath⟩ := h
  have hiff : (Failed s → Clean s) ↔
      system.Path (fun s a => beforeStop s a ∧ undone s a) s₀ as s := by
    apply LTS.Path.exact (B := Littered) (P := fun s => Failed s → Clean s) h₀ hpath
    · rintro _ rfl ⟨code, -, hr⟩
      exact Run.noConfusion hr
    · intro s a t hreach _ hok hstep ht
      have hundone : system.Reachable undone s := hreach.mono fun _ _ hok => hok.2
      exact clean_of_undone (hundone.step hok.2 hstep) (Or.inr ht)
    · intro s a t hreach hok hnot hstep
      exact littered_of_not_undone hreach (fun hu => hnot ⟨hok, hu⟩) (move_of_step hstep)
    · intro s a t hreach hB hok hstep
      exact hB.step hreach hok (move_of_step hstep)
    · exact fun s hclean hB => hB.not_clean (hclean hB.1)
  constructor
  · exact fun hclean => ⟨s₀, h₀, hiff.mp hclean⟩
  · rintro ⟨s₁, h₁, hrun⟩
    obtain rfl : s₁ = s₀ := h₁.trans h₀.symm
    exact hiff.mpr hrun

/-- `bind` fails on descriptor `3`. -/
theorem start_clean_bindFails : ∃ s, Failed s ∧ ((Failed s → Clean s) ↔
    system.Run (fun s a => beforeStop s a ∧ undone s a) [.start (.bindOrListenFails 3)] s) := by
  have hrun : system.Run beforeStop [.start (.bindOrListenFails 3)] _ :=
    ⟨fresh, rfl, LTS.path_of_exec (show LTS.exec _ _ _ [_] = some _ from rfl)⟩
  exact ⟨_, ⟨-1, by decide, rfl⟩, (start_clean_iff hrun).2⟩

/-- The first `accept` fails. -/
def acceptFailsRun : List Label :=
  [.start (.listens 3), .run, .run, .run, .run, .select (.ready {3}) 0, .run, .accept .fails]

/-- `start` returns `-1` while the process thread runs and the listening socket is open. -/
theorem start_leaves_thread : ¬∀ as s, system.Run beforeStop as s → Failed s → Clean s := by
  intro h
  have hrun : system.Run beforeStop acceptFailsRun _ :=
    ⟨fresh, rfl, LTS.path_of_exec (show LTS.exec _ _ _ acceptFailsRun = some _ from rfl)⟩
  have hclean := h _ _ hrun ⟨-1, by decide, rfl⟩
  exact Bool.noConfusion hclean.thread

end TcpServer
