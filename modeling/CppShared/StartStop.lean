/-
# Calls of `start` and `stop`

`TcpServer` and `TcpClient` keep a flag `isRunning` and one thread object
(`processThread`, `recvThread`).  The constructor sets the flag, `stop` clears it and
nothing sets it again; and `stop` reads it as if it said that there is a thread.

Here a call is one step, and what it does to the flag, the thread object and the socket
is all that is kept; what `stop` does to the clients and the queue of the server, and
what the calls return, plays no part.  The server's `start` returns only when `run`
does; the next call of a sequence is then made by another thread.
-/
import CppShared.Socket
import Mathlib.Data.List.Induction
import Mathlib.Data.List.Infix

/-! ## The thread object -/

/-- How the socket calls of a `start` end. -/
inductive Start
  | tcpFails
  /-- `bind`, `listen` or `connect` fails on the new socket. -/
  | callFails (fd : ℤ)
  /-- Also where an `accept` of the server fails later: its threads are there by then. -/
  | succeeds (fd : ℤ)
  deriving DecidableEq, Repr

/-- A call. -/
inductive Call
  | start (result : Start)
  | stop
  deriving DecidableEq, Repr

/-- Misuses of a `std::thread`. -/
inductive Fault
  /-- `join` without a thread throws. -/
  | joinWithoutThread
  /-- An assignment over a thread that was not joined ends the program. -/
  | threadOverwritten
  deriving DecidableEq, Repr

/-- The members that `start` and `stop` share: `joinable` says that the thread object
holds a thread. -/
structure Owner where
  isRunning : Bool
  joinable : Bool
  socket : Socket
  deriving DecidableEq

/-- After the constructor. -/
def constructed : Owner := ⟨true, false, Socket.new⟩

/-- `thread = std::thread(...)`. -/
def assignThread (o : Owner) : Except Fault Owner :=
  if o.joinable then .error .threadOverwritten else .ok { o with joinable := true }

/-- `thread.join()`; it returns when the worker has seen the flag. -/
def joinThread (o : Owner) : Except Fault Owner :=
  if o.joinable then .ok { o with joinable := false } else .error .joinWithoutThread

/-- The branch `if (isRunning.load())` of `stop`. -/
def haltThread (o : Owner) : Except Fault Owner :=
  if o.isRunning then joinThread { o with isRunning := false } else .ok o

/-! ## The two classes -/

/-- `TcpServer::start`; without a socket it throws, and a socket that cannot listen is
destroyed. -/
def TcpServer.callStart (o : Owner) : Start → Except Fault Owner
  | .tcpFails => .ok { o with socket := { o.socket with fd := -1 } }
  | .callFails fd => .ok { o with socket := { o.socket with fd := fd }.destroy }
  | .succeeds fd => assignThread { o with socket := { o.socket with fd := fd } }

/-- `TcpServer::stop`. -/
def TcpServer.callStop (o : Owner) : Except Fault Owner :=
  (haltThread o).map fun o => { o with socket := o.socket.destroy }

/-- A call on a `TcpServer`. -/
def TcpServer.call (o : Owner) : Call → Except Fault Owner
  | .start result => TcpServer.callStart o result
  | .stop => TcpServer.callStop o

/-- `TcpClient::start`; a socket that cannot connect is kept. -/
def TcpClient.callStart (o : Owner) : Start → Except Fault Owner
  | .tcpFails => .ok { o with socket := { o.socket with fd := -1 } }
  | .callFails fd => .ok { o with socket := { o.socket with fd := fd } }
  | .succeeds fd => assignThread { o with socket := { o.socket with fd := fd } }

/-- `TcpClient::stop`. -/
def TcpClient.callStop (o : Owner) : Except Fault Owner :=
  (haltThread o).map fun o => { o with socket := o.socket.destroy }

/-- A call on a `TcpClient`. -/
def TcpClient.call (o : Owner) : Call → Except Fault Owner
  | .start result => TcpClient.callStart o result
  | .stop => TcpClient.callStop o

/-! ## Sequences of calls -/

/-- A sequence of calls on a new object. -/
def calls (call : Owner → Call → Except Fault Owner) (cs : List Call) : Except Fault Owner :=
  cs.foldlM call constructed

/-- The call is a `start` that succeeds. -/
def Call.succeeds : Call → Bool
  | .start (.succeeds _) => true
  | _ => false

/-- The worker is meant to run: a `start` has succeeded and no `stop` has come after it. -/
def meant (cs : List Call) : Bool :=
  cs.foldl (fun m c => match c with
    | .start (.succeeds _) => true
    | .start _ => m
    | .stop => false) false

/-- After each call of the sequence no thread object was misused so far, and the flag
is set while the worker is meant to run. -/
def Safe (call : Owner → Call → Except Fault Owner) (cs : List Call) : Prop :=
  ∀ ds, ds <+: cs → ∃ o, calls call ds = .ok o ∧ (meant ds = true → o.isRunning = true)

/-- At most one `start` succeeds, and every `stop` comes after it. -/
def OneStart (cs : List Call) : Prop :=
  cs.countP Call.succeeds ≤ 1 ∧
    ∀ front back, cs = front ++ .stop :: back → front.any Call.succeeds = true

/-! ## The flag and the thread object alone -/

/-- What decides about faults. -/
structure Flags where
  isRunning : Bool
  joinable : Bool
  deriving DecidableEq

def Owner.flags (o : Owner) : Flags := ⟨o.isRunning, o.joinable⟩

/-- A call seen without the socket. -/
def flagStep (f : Flags) : Call → Except Fault Flags
  | .start (.succeeds _) =>
      if f.joinable then .error .threadOverwritten else .ok { f with joinable := true }
  | .start _ => .ok f
  | .stop =>
      if f.isRunning then
        if f.joinable then .ok ⟨false, false⟩ else .error .joinWithoutThread
      else .ok f

/-- The class decides by the flag and the thread object alone. -/
def Decides (call : Owner → Call → Except Fault Owner) : Prop :=
  ∀ o c, (call o c).map Owner.flags = flagStep o.flags c

theorem decides_server : Decides TcpServer.call := by
  rintro ⟨isRunning, joinable, socket⟩ c
  cases c with
  | start result => cases result <;> cases joinable <;> rfl
  | stop => cases isRunning <;> cases joinable <;> rfl

theorem decides_client : Decides TcpClient.call := by
  rintro ⟨isRunning, joinable, socket⟩ c
  cases c with
  | start result => cases result <;> cases joinable <;> rfl
  | stop => cases isRunning <;> cases joinable <;> rfl

/-- The calls of a sequence on the flag and the thread object. -/
def flagCalls (cs : List Call) : Except Fault Flags := cs.foldlM flagStep ⟨true, false⟩

/-- One more call. -/
theorem calls_concat (call : Owner → Call → Except Fault Owner) (cs : List Call) (c : Call) :
    calls call (cs ++ [c]) = (calls call cs).bind fun o => call o c := by
  rw [calls, List.foldlM_append, ← calls]
  cases calls call cs with
  | error fault => rfl
  | ok o => exact bind_pure (call o c)

theorem flagCalls_concat (cs : List Call) (c : Call) :
    flagCalls (cs ++ [c]) = (flagCalls cs).bind fun f => flagStep f c := by
  rw [flagCalls, List.foldlM_append, ← flagCalls]
  cases flagCalls cs with
  | error fault => rfl
  | ok f => exact bind_pure (flagStep f c)

/-- A sequence of calls seen without the socket. -/
theorem flags_calls {call : Owner → Call → Except Fault Owner} (h : Decides call) (cs : List Call) :
    (calls call cs).map Owner.flags = flagCalls cs := by
  induction cs using List.reverseRecOn with
  | nil => rfl
  | append_singleton cs c ih =>
      rw [calls_concat, flagCalls_concat, ← ih]
      cases calls call cs with
      | error fault => rfl
      | ok o => exact h o c

/-- A sequence that misuses the thread object is not safe. -/
theorem not_safe_of_error {call : Owner → Call → Except Fault Owner} {cs : List Call}
    {fault : Fault} (h : calls call cs = .error fault) : ¬Safe call cs := by
  intro hsafe
  obtain ⟨o, ho, -⟩ := hsafe cs (List.prefix_refl cs)
  rw [h] at ho
  cases ho

/-- Nor is one that leaves the flag cleared with the worker meant to run. -/
theorem not_safe_of_halted {call : Owner → Call → Except Fault Owner} {cs : List Call}
    {o : Owner} (h : calls call cs = .ok o) (hm : meant cs = true)
    (hrun : o.isRunning = false) : ¬Safe call cs := by
  intro hsafe
  obtain ⟨o', ho, hset⟩ := hsafe cs (List.prefix_refl cs)
  obtain rfl := Except.ok.inj (h.symm.trans ho)
  exact absurd (hrun.symm.trans (hset hm)) Bool.false_ne_true

/-- The sequence is safe if the flag and the thread object are. -/
theorem safe_iff_flags {call : Owner → Call → Except Fault Owner} (h : Decides call)
    (cs : List Call) : Safe call cs ↔ ∀ ds, ds <+: cs →
      ∃ f, flagCalls ds = .ok f ∧ (meant ds = true → f.isRunning = true) := by
  apply forall_congr'
  intro ds
  apply imp_congr_right
  intro _
  rw [← flags_calls h ds]
  cases calls call ds with
  | error fault => simp [Except.map]
  | ok o => simp [Except.map, Owner.flags]

/-! ## The exact condition -/

/-- The call is `stop`. -/
def Call.isStop : Call → Bool
  | .stop => true
  | _ => false

/-- Where a `stop` stands in a longer sequence. -/
theorem eq_append_stop_iff {cs front back : List Call} {c : Call} :
    cs ++ [c] = front ++ .stop :: back ↔
      (c = .stop ∧ cs = front ∧ back = []) ∨
        ∃ rest, back = rest ++ [c] ∧ cs = front ++ .stop :: rest := by
  constructor
  · intro h
    rcases List.eq_nil_or_concat back with rfl | ⟨rest, b, rfl⟩
    · obtain ⟨hcs, hc⟩ := List.append_inj' h rfl
      exact Or.inl ⟨List.singleton_inj.mp hc, hcs, rfl⟩
    · rw [List.concat_eq_append, ← List.cons_append, ← List.append_assoc] at h
      obtain ⟨hcs, hc⟩ := List.append_inj' h rfl
      obtain rfl := List.singleton_inj.mp hc
      exact Or.inr ⟨rest, List.concat_eq_append, hcs⟩
  · rintro (⟨rfl, rfl, rfl⟩ | ⟨rest, rfl, rfl⟩)
    · rfl
    · rw [List.append_assoc, List.cons_append]

/-- One more call of a sequence in which at most one `start` succeeds. -/
theorem oneStart_concat (cs : List Call) (c : Call) :
    OneStart (cs ++ [c]) ↔ OneStart cs ∧ (c = .stop → cs.any Call.succeeds = true) ∧
      (c.succeeds = true → cs.any Call.succeeds = false) := by
  have hcount : (cs ++ [c]).countP Call.succeeds ≤ 1 ↔ cs.countP Call.succeeds ≤ 1 ∧
      (c.succeeds = true → cs.any Call.succeeds = false) := by
    have hnone : cs.any Call.succeeds = false ↔ cs.countP Call.succeeds = 0 := by
      rw [List.any_eq_false, List.countP_eq_zero]
    rw [List.countP_append, List.countP_singleton, hnone]
    split_ifs with hc
    · simp only [hc, true_implies]
      omega
    · simp [hc]
  have hstops : (∀ front back, cs ++ [c] = front ++ .stop :: back →
        front.any Call.succeeds = true) ↔
      (∀ front back, cs = front ++ .stop :: back → front.any Call.succeeds = true) ∧
      (c = .stop → cs.any Call.succeeds = true) := by
    constructor
    · intro h
      constructor
      · intro front rest heq
        apply h front (rest ++ [c])
        exact eq_append_stop_iff.mpr (Or.inr ⟨rest, rfl, heq⟩)
      · intro hc
        apply h cs []
        exact eq_append_stop_iff.mpr (Or.inl ⟨hc, rfl, rfl⟩)
    · rintro ⟨hold, hlast⟩ front back heq
      rcases eq_append_stop_iff.mp heq with ⟨hc, rfl, -⟩ | ⟨rest, -, hcs⟩
      · exact hlast hc
      · exact hold front rest hcs
  rw [OneStart, OneStart, hcount, hstops]
  tauto

/-- Before a `start` has succeeded there is no `stop`. -/
theorem no_stop_of_oneStart {cs : List Call} (h : OneStart cs)
    (hnone : cs.any Call.succeeds = false) : cs.any Call.isStop = false := by
  rw [List.any_eq_false]
  intro c hc hstop
  obtain rfl : c = .stop := by
    cases c with
    | start result => exact absurd hstop Bool.false_ne_true
    | stop => rfl
  obtain ⟨front, back, rfl⟩ := List.append_of_mem hc
  have hfront := h.2 front back rfl
  rw [List.any_append, hfront, Bool.true_or] at hnone
  exact absurd hnone.symm Bool.false_ne_true

/-- What the calls have done to the flag and the thread object. -/
theorem flagCalls_of_oneStart {cs : List Call} (h : OneStart cs) :
    flagCalls cs = .ok ⟨!cs.any Call.isStop, cs.any Call.succeeds && !cs.any Call.isStop⟩ := by
  induction cs using List.reverseRecOn with
  | nil => rfl
  | append_singleton cs c ih =>
      obtain ⟨hcs, hstop, hstart⟩ := (oneStart_concat cs c).mp h
      rw [flagCalls_concat, ih hcs, List.any_append, List.any_append]
      cases c with
      | start result =>
          cases result with
          | succeeds fd =>
              have hnone := hstart rfl
              rw [no_stop_of_oneStart hcs hnone, hnone]
              rfl
          | tcpFails => simp [Except.bind, flagStep, Call.isStop, Call.succeeds]
          | callFails fd => simp [Except.bind, flagStep, Call.isStop, Call.succeeds]
      | stop =>
          rw [hstop rfl]
          cases cs.any Call.isStop <;> rfl

/-- Whether the worker is meant to run after one more call. -/
theorem meant_concat (cs : List Call) (c : Call) :
    meant (cs ++ [c]) = (c.succeeds || (meant cs && !c.isStop)) := by
  rw [meant, List.foldl_append, ← meant]
  cases c with
  | start result => cases result <;> simp [Call.succeeds, Call.isStop]
  | stop => simp [Call.succeeds, Call.isStop]

/-- In a sequence of that kind no `stop` has come while the worker is meant to run. -/
theorem no_stop_of_meant {cs : List Call} (h : OneStart cs) (hm : meant cs = true) :
    cs.any Call.isStop = false := by
  induction cs using List.reverseRecOn with
  | nil => rfl
  | append_singleton cs c ih =>
      obtain ⟨hcs, -, hstart⟩ := (oneStart_concat cs c).mp h
      rw [meant_concat, Bool.or_eq_true, Bool.and_eq_true] at hm
      rw [List.any_append, Bool.or_eq_false_iff]
      rcases hm with hc | ⟨hold, hnot⟩
      · constructor
        · exact no_stop_of_oneStart hcs (hstart hc)
        · cases c with
          | start result => rfl
          | stop => exact absurd hc Bool.false_ne_true
      · constructor
        · exact ih hcs hold
        · simpa using hnot

/-- A longer sequence of that kind extends one of that kind. -/
theorem oneStart_of_prefix {cs ds : List Call} (h : OneStart cs) (hd : ds <+: cs) :
    OneStart ds := by
  obtain ⟨es, rfl⟩ := hd
  induction es using List.reverseRecOn with
  | nil => rwa [List.append_nil] at h
  | append_singleton es c ih =>
      rw [← List.append_assoc] at h
      exact ih ((oneStart_concat _ c).mp h).1

/-- The flag and the thread object stand the sequence exactly if at most one `start`
succeeds and no `stop` comes before it. -/
theorem flags_safe_iff (cs : List Call) :
    (∀ ds, ds <+: cs → ∃ f, flagCalls ds = .ok f ∧ (meant ds = true → f.isRunning = true)) ↔
      OneStart cs := by
  constructor
  · intro h
    induction cs using List.reverseRecOn with
    | nil => exact ⟨Nat.zero_le 1, fun front back heq => by simp at heq⟩
    | append_singleton cs c ih =>
        have hcs : OneStart cs := ih fun ds hd => h ds (hd.trans (List.prefix_append cs [c]))
        obtain ⟨f, hf, hrun⟩ := h (cs ++ [c]) (List.prefix_refl _)
        rw [flagCalls_concat, flagCalls_of_oneStart hcs] at hf
        rw [meant_concat] at hrun
        apply (oneStart_concat cs c).mpr
        refine ⟨hcs, ?_, ?_⟩
        · rintro rfl
          by_contra hnone
          rw [Bool.not_eq_true] at hnone
          -- the flag is still set and there is no thread to join
          rw [no_stop_of_oneStart hcs hnone, hnone] at hf
          cases hf
        · intro hc
          cases c with
          | stop => exact absurd hc Bool.false_ne_true
          | start result =>
              cases result with
              | tcpFails => exact absurd hc Bool.false_ne_true
              | callFails fd => exact absurd hc Bool.false_ne_true
              | succeeds fd =>
                  by_contra hsome
                  rw [Bool.not_eq_false] at hsome
                  rw [hsome] at hf
                  cases hstop : cs.any Call.isStop with
                  | true =>
                      -- the worker of the second `start` finds the flag cleared
                      rw [hstop] at hf
                      cases hf
                      exact absurd (hrun rfl) Bool.false_ne_true
                  | false =>
                      -- the thread of the first `start` was not joined
                      rw [hstop] at hf
                      cases hf
  · intro h ds hd
    have hds := oneStart_of_prefix h hd
    refine ⟨_, flagCalls_of_oneStart hds, ?_⟩
    intro hm
    rw [no_stop_of_meant hds hm]
    rfl

/-- **Sequences of `start` and `stop`.**  On a server and on a client, a sequence of calls
is safe exactly if at most one `start` succeeds and every `stop` comes after it; a `start`
whose `accept` fails later succeeds. -/
theorem start_stop_safe_iff (cs : List Call) :
    (Safe TcpServer.call cs ↔ OneStart cs) ∧ (Safe TcpClient.call cs ↔ OneStart cs) := by
  constructor
  · rw [safe_iff_flags decides_server, flags_safe_iff]
  · rw [safe_iff_flags decides_client, flags_safe_iff]

/-- A `start` after a `stop` has a worker that leaves its loop at once, and a `stop`
without a `start` joins no thread. -/
theorem restart_not_running :
    ¬Safe TcpServer.call [.start (.succeeds 3), .stop, .start (.succeeds 3)] ∧
      ¬Safe TcpClient.call [.start (.succeeds 3), .stop, .start (.succeeds 3)] ∧
      ¬Safe TcpServer.call [.stop] ∧ ¬Safe TcpClient.call [.stop] := by
  refine ⟨?_, ?_, ?_, ?_⟩
  · exact not_safe_of_halted (show calls TcpServer.call _ = .ok _ from rfl) rfl rfl
  · exact not_safe_of_halted (show calls TcpClient.call _ = .ok _ from rfl) rfl rfl
  · exact not_safe_of_error (show calls TcpServer.call _ = .error _ from rfl)
  · exact not_safe_of_error (show calls TcpClient.call _ = .error _ from rfl)
