/-
# The time limit of `select`

`TcpServer::run` sets `tv` to three seconds once, before its loop.  On Linux `select`
writes the time it has not slept into `tv`, so each call starts with what the one before
it has left; `Select::receive` of `src/tcppipe.hpp` sets its `tv` inside the loop.

* `tv_le_of_path`: in the loop the limit never grows, so after the first timeout every
  later `select` only polls;
* `full_limit_iff`: every `select` is entered with the full limit exactly in the runs in
  which no earlier one has used any of it up.
-/
import CppShared.TcpServerSelect

namespace TcpServer

/-- `run` has been entered, or `start` is over. -/
def Run.begun (r : Run) : Prop := r.phase = .looping ∨ r.phase = .ended

/-- What a step does to the limit: `run` sets it once, and `select` lowers it. -/
theorem Move.limit {s t : Sys} {a : Label} (h : Move s a t) :
    (t.tv = s.tv ∧ (t.runner.phase = .looping → s.runner.phase = .looping) ∧
      (s.runner.begun → t.runner.begun)) ∨
    (s.runner = .entering ∧ t.tv = 3000000) ∨
    ∃ result left, a = .select result left ∧ s.runner = .selecting ∧ left ≤ s.tv ∧ t.tv = left := by
  cases h with
  | entered hr => exact Or.inr (Or.inl ⟨hr, rfl⟩)
  | selectedNone result left hr hleft =>
      exact Or.inr (Or.inr ⟨result, left, rfl, hr, hleft, rfl⟩)
  | selected fds left hr hleft => exact Or.inr (Or.inr ⟨.ready fds, left, rfl, hr, hleft, rfl⟩)
  | tcpFails hr | initFails fd hr | listens fd hr | idel hr | launched hr | enterUndefined hr =>
      exact Or.inl ⟨rfl, by simp [Run.phase], by simp [Run.begun, Run.phase, hr]⟩
  | looped hr =>
      refine Or.inl ⟨rfl, fun _ => by rw [hr]; rfl, fun _ => ?_⟩
      show (if s.isRunning then Run.selecting else .returned 0).begun
      split_ifs
      · exact Or.inl rfl
      · exact Or.inr rfl
  | erased ready it name sock hr =>
      refine Or.inl ⟨rfl, fun _ => by rw [hr]; rfl, fun _ => ?_⟩
      show (if it < (s.clients.eraseAt it).entries.length then Run.walking ready (it + 1)
        else .undefined).begun
      split_ifs
      · exact Or.inl rfl
      · exact Or.inr rfl
  | testUndefined ready hr | acceptFails ready hr | unnamed ready fd hr
  | registerUndefined ready sock hr | disconnectUndefined ready it sock packet hr =>
      exact Or.inl ⟨rfl, fun _ => by rw [hr]; rfl, fun _ => Or.inr rfl⟩
  | newConnection ready hr | noConnection ready hr | connection ready fd addr hr
  | registered ready sock hr | passEnd ready it hr | notReady ready it name sock hr
  | isReady ready it name sock hr | got ready it sock hr | recvFails ready it sock packet hr
  | recvData ready it sock packet bytes hr | disconnected ready it sock packet hr
  | stamped ready it sock packet hr | queued ready it packet hr | notQueued ready it packet hr =>
      exact Or.inl ⟨rfl, fun _ => by rw [hr]; rfl, fun _ => Or.inl rfl⟩
  | checked | timedOut | underflow | took | terminated | unanswered | found | rewritten | sent
  | unsent | gaveBack | stopCalled | stored | joined | joinThrew | closed | began | clientClosed
  | clientGone | advanced | advanceUndefined | clientsClosed | drainTested | popped
  | popUndefined | pushed =>
      exact Or.inl ⟨rfl, id, id⟩

/-! ## The limit only falls -/

/-- Once `run` is entered it is not entered again, and its limit never grows. -/
theorem tv_le_of_path {ok : Sys → Label → Prop} {s t : Sys} {as : List Label}
    (h : system.Path ok s as t) (hs : s.runner.begun) : t.runner.begun ∧ t.tv ≤ s.tv := by
  refine LTS.Path.preserves (I := fun u => u.runner.begun ∧ u.tv ≤ s.tv) h ⟨hs, le_refl _⟩ ?_
  rintro u a v ⟨hbegun, hle⟩ - hstep
  have hmove := move_of_step hstep
  rcases hmove.limit with ⟨htv, -, hkeep⟩ | ⟨hr, -⟩ | ⟨result, left, rfl, -, hleft, htv⟩
  · exact ⟨hkeep hbegun, htv.trans_le hle⟩
  · rw [hr] at hbegun
    simp [Run.begun, Run.phase] at hbegun
  · refine ⟨?_, (htv.trans_le hleft).trans hle⟩
    cases hmove with
    | selectedNone | selected => exact Or.inl rfl

/-! ## The exact condition -/

/-- `select` returns without having used up any of its limit. -/
def keepsLimit (s : Sys) : Label → Prop
  | .select _ left => left = s.tv
  | _ => True

instance (s : Sys) (a : Label) : Decidable (keepsLimit s a) :=
  match a with
  | .select _ left => inferInstanceAs (Decidable (left = s.tv))
  | .start _ | .run | .accept _ | .recv _ | .disconnect | .process | .answer _ _ | .stop =>
      inferInstanceAs (Decidable True)

/-- While no `select` uses any of it up, the limit in the loop is the full one. -/
theorem tv_of_keepsLimit {s : Sys} (h : system.Reachable keepsLimit s) :
    s.runner.phase = .looping → s.tv = 3000000 := by
  refine LTS.Reachable.induction (I := fun s => s.runner.phase = .looping → s.tv = 3000000) ?_ ?_ h
  · rintro _ rfl hphase
    simp [fresh, Run.phase] at hphase
  · intro s a t _ hs hok hstep hphase
    rcases (move_of_step hstep).limit with
      ⟨htv, hback, -⟩ | ⟨-, htv⟩ | ⟨result, left, rfl, hr, -, htv⟩
    · exact htv.trans (hs (hback hphase))
    · exact htv
    · replace hok : left = s.tv := hok
      rw [htv, hok]
      exact hs (by rw [hr]; rfl)

/-- **The wait of the server keeps its limit**: in a run up to an entry of `select`, all
calls of `select` are entered with the full three seconds exactly if none of those before
has used any of its limit up. -/
theorem full_limit_iff {s : Sys} {as : List Label}
    (h : system.Path (fun _ _ => True) fresh as s) (hs : s.runner = .selecting) :
    (∀ bs t, bs <+: as → system.Path (fun _ _ => True) fresh bs t → t.runner = .selecting →
      t.tv = 3000000) ↔ system.Path keepsLimit fresh as s := by
  have h₀ : system.init fresh := rfl
  refine LTS.Path.checkpoints_iff (C := fun u => u.runner = .selecting)
    (B := fun u => u.runner.begun ∧ u.tv ≠ 3000000) h₀ h hs ?_ ?_ ?_ ?_
  · intro s hreach hr
    exact tv_of_keepsLimit hreach (by rw [hr]; rfl)
  · intro s a t hreach _ hnot hstep
    cases a with
    | select result left =>
        have hfull := tv_of_keepsLimit hreach
        cases move_of_step hstep with
        | selectedNone _ _ hr | selected _ _ hr =>
            rw [hr] at hfull
            exact ⟨Or.inl rfl, fun heq => hnot (heq.trans (hfull rfl).symm)⟩
    | _ => exact absurd trivial hnot
  · -- before the next `select` nothing restores the limit
    intro s a t _ hbad hnot _ hstep
    rcases (move_of_step hstep).limit with ⟨htv, -, hkeep⟩ | ⟨hr, -⟩ | ⟨-, -, -, hr, -⟩
    · exact ⟨hkeep hbad.1, fun heq => hbad.2 (htv.symm.trans heq)⟩
    · have hbegun := hbad.1
      rw [hr] at hbegun
      simp [Run.begun, Run.phase] at hbegun
    · exact absurd hr hnot
  · exact fun s hbad _ => hbad.2

/-- The server starts, and the first `select` times out. -/
def timeoutRun : List Label :=
  [.start (.listens 3), .run, .run, .run, .run, .select .timeout 0, .run]

/-- `full_limit_iff` at that run. -/
theorem full_limit_iff_timeout : ∃ s,
    (∀ bs t, bs <+: timeoutRun → system.Path (fun _ _ => True) fresh bs t →
      t.runner = .selecting → t.tv = 3000000) ↔ system.Path keepsLimit fresh timeoutRun s :=
  ⟨_, full_limit_iff (LTS.path_of_exec (show LTS.exec _ _ _ timeoutRun = some _ from rfl)) rfl⟩

/-- Its second `select` is entered with no time left. -/
theorem select_polls : ¬∀ s, system.Reachable (fun _ _ => True) s → s.runner = .selecting →
    s.tv = 3000000 := by
  intro hall
  have hreach : system.Reachable (fun _ _ => True) _ :=
    LTS.reachable_of_exec rfl (show LTS.exec _ _ _ timeoutRun = some _ from rfl)
  exact absurd (hall _ hreach rfl) (by decide)

end TcpServer
