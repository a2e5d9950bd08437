/-
# One pass of the receive loop

The loop of `run` over `clients` erases the clients without a descriptor, and its `it++`
also advances the iterator that `erase` returned.  A pass is what `run` does from
`clients.begin()` until it leaves the loop, next to the process thread and without a call
of `stop`.  The results of `recv` are arbitrary.

The steps of `run` refine the sweep over the entries (`passInv_of_path`), so a pass does
what it is for exactly when behind every client without a descriptor there is one with a
descriptor that is not ready (`receive_pass_iff`).
-/
import CppShared.Sweep
import CppShared.TcpServerNames

namespace TcpServer

open Sweep

/-! ## A pass -/

/-- `run` is in its receive loop. -/
def inPass : Run → Prop
  | .walking _ _ => True
  | .getting _ _ _ => True
  | .receiving _ _ _ _ => True
  | .dropping _ _ _ _ => True
  | .stamping _ _ _ _ => True
  | .queueing _ _ _ => True
  | _ => False

instance decidableInPass (r : Run) : Decidable (inPass r) := by
  cases r <;> unfold inPass <;> infer_instance

/-- A step of the pass: `run` is in its loop, and nobody calls `stop`. -/
def passing (s : Sys) (a : Label) : Prop := inPass s.runner ∧ a ≠ .stop

instance (s : Sys) (a : Label) : Decidable (passing s a) :=
  inferInstanceAs (Decidable (_ ∧ _))

/-- The socket that a step calls `recv` on. -/
def recvOn (s : Sys) : Label → List ℕ
  | .recv _ =>
      match s.runner with
      | .receiving _ _ sock _ => [sock]
      | _ => []
  | _ => []

/-- The client has no descriptor. -/
def gone (s : Sys) (e : Str × ℕ) : Prop := (s.socketAt e.2).fd < 0

/-- The descriptor of the client is ready. -/
def readable (s : Sys) (ready : Finset ℤ) (e : Str × ℕ) : Prop := (s.socketAt e.2).fd ∈ ready

instance (s : Sys) : DecidablePred (gone s) := fun e =>
  inferInstanceAs (Decidable ((s.socketAt e.2).fd < 0))

instance (s : Sys) (ready : Finset ℤ) : DecidablePred (readable s ready) := fun e =>
  inferInstanceAs (Decidable ((s.socketAt e.2).fd ∈ ready))

/-- The pass from `s` to `t`, with `recv` called on the sockets `recvs`, has visited every
client. -/
structure VisitsAll (s : Sys) (ready : Finset ℤ) (t : Sys) (recvs : List ℕ) : Prop where
  /-- Exactly the clients without a descriptor were erased. -/
  erased : t.clients.entries = s.clients.entries.filter fun e => ¬(s.socketAt e.2).fd < 0
  /-- One `recv` was called on each of the others that is ready. -/
  received : recvs.Perm ((s.clients.entries.filter fun e =>
    ¬(s.socketAt e.2).fd < 0 ∧ (s.socketAt e.2).fd ∈ ready).map Prod.snd)
  /-- No iterator was advanced past `end()`. -/
  inside : t.runner ≠ .undefined

/-- Behind every client without a descriptor there is one with a descriptor that is not
ready. -/
def Apart (s : Sys) (ready : Finset ℤ) : Prop :=
  ∀ i e, s.clients.entries[i]? = some e → (s.socketAt e.2).fd < 0 →
    ∃ d, s.clients.entries[i + 1]? = some d ∧ ¬(s.socketAt d.2).fd < 0 ∧
      (s.socketAt d.2).fd ∉ ready

/-! ## The loop refines the sweep -/

section

variable (s₀ : Sys) (ready : Finset ℤ)

/-- The sweep over entries, as the sockets were at the start of the pass. -/
def sweep (l : List (Str × ℕ)) : Option (List (Str × ℕ) × List (Str × ℕ)) :=
  pass (gone s₀) (readable s₀ ready) l

/-- The pass stands at position `it` with the entries `rest` ahead. -/
structure At (s : Sys) (recvs : List ℕ) (it : ℕ) (rest kept got : List (Str × ℕ)) : Prop where
  entries : s.clients.entries = kept ++ rest
  length : kept.length = it
  recvs_eq : recvs = got.map Prod.snd
  untouched : ∀ e ∈ rest, s.socketAt e.2 = s₀.socketAt e.2
  distinct : (rest.map Prod.snd).Nodup
  sweep_eq : sweep s₀ ready s₀.clients.entries =
    (sweep s₀ ready rest).map fun r => (kept ++ r.1, got ++ r.2)

/-- What holds at each place of the loop. -/
def PassInv (s : Sys) (recvs : List ℕ) : Run → Prop
  | .walking ready' it => ready' = ready ∧ ∃ rest kept got, At s₀ ready s recvs it rest kept got
  | .getting ready' it sock | .receiving ready' it sock _ =>
      ready' = ready ∧ ∃ name rest kept got, ¬gone s₀ (name, sock) ∧
        readable s₀ ready (name, sock) ∧ At s₀ ready s recvs it ((name, sock) :: rest) kept got
  | .dropping ready' it sock _ =>
      ready' = ready ∧ (s.socketAt sock).fd ∈ ready ∧ ∃ rest kept got, sock ∉ rest.map Prod.snd ∧
        At s₀ ready s recvs (it + 1) rest kept got
  | .stamping ready' it _ _ | .queueing ready' it _ =>
      ready' = ready ∧ ∃ rest kept got, At s₀ ready s recvs (it + 1) rest kept got
  | .head =>
      ∃ got, sweep s₀ ready s₀.clients.entries = some (s.clients.entries, got) ∧
        recvs = got.map Prod.snd
  | .undefined => sweep s₀ ready s₀.clients.entries = none
  | _ => False

end

variable {s₀ : Sys} {ready : Finset ℤ}

/-- The entry at hand is the first one ahead. -/
theorem At.getElem? {s : Sys} {recvs : List ℕ} {it : ℕ} {rest kept got : List (Str × ℕ)}
    (h : At s₀ ready s recvs it rest kept got) : s.clients.entries[it]? = rest[0]? := by
  rw [h.entries, List.getElem?_append_right (Nat.le_of_eq h.length), h.length, Nat.sub_self]

/-- A step that leaves the table and the sockets ahead alone. -/
theorem At.frame {s t : Sys} {recvs : List ℕ} {it : ℕ} {rest kept got : List (Str × ℕ)}
    (h : At s₀ ready s recvs it rest kept got) (hclients : t.clients = s.clients)
    (hsockets : ∀ e ∈ rest, t.socketAt e.2 = s.socketAt e.2) :
    At s₀ ready t recvs it rest kept got :=
  { h with
    entries := by rw [hclients, h.entries]
    untouched := fun e he => (hsockets e he).trans (h.untouched e he) }

/-- The pass goes on behind an entry that stays. -/
theorem At.advance {s : Sys} {recvs : List ℕ} {it : ℕ} {e : Str × ℕ}
    {rest kept got m : List (Str × ℕ)} (h : At s₀ ready s recvs it (e :: rest) kept got)
    (hsweep : sweep s₀ ready (e :: rest) =
      (sweep s₀ ready rest).map fun r => (e :: r.1, m ++ r.2)) :
    At s₀ ready s (recvs ++ m.map Prod.snd) (it + 1) rest (kept ++ [e]) (got ++ m) where
  entries := by rw [h.entries, List.append_assoc, List.singleton_append]
  length := by rw [List.length_append, List.length_singleton, h.length]
  recvs_eq := by rw [h.recvs_eq, List.map_append]
  untouched := fun d hd => h.untouched d (List.mem_cons_of_mem e hd)
  distinct := (List.nodup_cons.mp h.distinct).2
  sweep_eq := by
    rw [h.sweep_eq, hsweep, Option.map_map]
    congr 1
    funext r
    simp

/-- The pass goes on behind the entry that follows an erased one. -/
theorem At.erase {s t : Sys} {recvs : List ℕ} {it : ℕ} {e d : Str × ℕ}
    {rest kept got : List (Str × ℕ)} (h : At s₀ ready s recvs it (e :: d :: rest) kept got)
    (hgone : gone s₀ e) (hclients : t.clients = s.clients.eraseAt it)
    (hsockets : t.sockets = s.sockets) : At s₀ ready t recvs (it + 1) rest (kept ++ [d]) got where
  entries := by
    rw [hclients]
    show s.clients.entries.eraseIdx it = _
    rw [h.entries, List.eraseIdx_append_of_length_le (Nat.le_of_eq h.length), h.length,
      Nat.sub_self, List.eraseIdx_cons_zero, List.append_assoc, List.singleton_append]
  length := by rw [List.length_append, List.length_singleton, h.length]
  recvs_eq := h.recvs_eq
  untouched := by
    intro c hc
    rw [socketAt_congr hsockets]
    exact h.untouched c (List.mem_cons_of_mem e (List.mem_cons_of_mem d hc))
  distinct := (List.nodup_cons.mp (List.nodup_cons.mp h.distinct).2).2
  sweep_eq := by
    rw [h.sweep_eq, sweep, pass_dead hgone, ← sweep, Option.map_map]
    congr 1
    funext r
    simp

/-- A step of another thread. -/
theorem PassInv.frame {s t : Sys} {recvs : List ℕ} {r : Run} (h : PassInv s₀ ready s recvs r)
    (hclients : t.clients = s.clients) (hsockets : t.sockets = s.sockets) :
    PassInv s₀ ready t recvs r := by
  have hat := socketAt_congr hsockets
  have hframe : ∀ {it rest kept got}, At s₀ ready s recvs it rest kept got →
      At s₀ ready t recvs it rest kept got :=
    fun hpos => hpos.frame hclients fun e _ => congrFun hat e.2
  cases r with
  | walking | stamping | queueing =>
      obtain ⟨hready, rest, kept, got, hpos⟩ := h
      exact ⟨hready, rest, kept, got, hframe hpos⟩
  | getting | receiving =>
      obtain ⟨hready, name, rest, kept, got, hgone, hreadable, hpos⟩ := h
      exact ⟨hready, name, rest, kept, got, hgone, hreadable, hframe hpos⟩
  | dropping ready' it sock packet =>
      obtain ⟨hready, hfd, rest, kept, got, hout, hpos⟩ := h
      refine ⟨hready, ?_, rest, kept, got, hout, hframe hpos⟩
      rw [hat]
      exact hfd
  | head =>
      obtain ⟨got, hsweep, hrecvs⟩ := h
      refine ⟨got, ?_, hrecvs⟩
      rw [hclients]
      exact hsweep
  | undefined => exact h
  | _ => exact h.elim

/-- Another socket is destroyed. -/
theorem socketAt_destroyClient {s : Sys} {sock k : ℕ} (h : k ≠ sock) :
    (destroyClient s sock).socketAt k = s.socketAt k := by
  show (s.sockets.set sock _)[k]?.getD Socket.new = _
  rw [List.getElem?_set_ne (Ne.symm h)]
  rfl

/-- At the end of the table the pass is over. -/
theorem PassInv.passEnd {s : Sys} {recvs : List ℕ} {ready' : Finset ℤ} {it : ℕ}
    (h : PassInv s₀ ready s recvs (.walking ready' it)) (hit : s.clients.entries[it]? = none) :
    PassInv s₀ ready s recvs .head := by
  obtain ⟨-, rest, kept, got, hpos⟩ := h
  obtain rfl : rest = [] := by
    rw [hpos.getElem?] at hit
    simpa using hit
  refine ⟨got, ?_, hpos.recvs_eq⟩
  rw [hpos.sweep_eq, hpos.entries, sweep, pass_nil]
  simp

/-- The entry at hand, with its socket as it was. -/
theorem PassInv.at_entry {s : Sys} {recvs : List ℕ} {ready' : Finset ℤ} {it sock : ℕ} {name : Str}
    (h : PassInv s₀ ready s recvs (.walking ready' it))
    (hit : s.clients.entries[it]? = some (name, sock)) :
    ready' = ready ∧ s.socketAt sock = s₀.socketAt sock ∧
      ∃ rest kept got, At s₀ ready s recvs it ((name, sock) :: rest) kept got := by
  obtain ⟨hready, rest, kept, got, hpos⟩ := h
  rw [hpos.getElem?] at hit
  cases rest with
  | nil => simp at hit
  | cons e rest =>
      obtain rfl := Option.some.inj hit
      exact ⟨hready, hpos.untouched _ List.mem_cons_self, rest, kept, got, hpos⟩

/-- The turn at a client without a descriptor. -/
theorem PassInv.erased {s : Sys} {recvs : List ℕ} {ready' : Finset ℤ} {it sock : ℕ} {name : Str}
    (h : PassInv s₀ ready s recvs (.walking ready' it))
    (hit : s.clients.entries[it]? = some (name, sock)) (hfd : (s.socketAt sock).fd < 0) :
    PassInv s₀ ready
      { s with
        clients := s.clients.eraseAt it
        runner :=
          if it < (s.clients.eraseAt it).entries.length then .walking ready' (it + 1)
          else .undefined } recvs
      (if it < (s.clients.eraseAt it).entries.length then .walking ready' (it + 1)
        else .undefined) := by
  obtain ⟨hready, hsock, rest, kept, got, hpos⟩ := h.at_entry hit
  have hgone : gone s₀ (name, sock) := by
    unfold gone
    rwa [← hsock]
  have hlength : (s.clients.eraseAt it).entries.length = it + rest.length := by
    show (s.clients.entries.eraseIdx it).length = _
    rw [hpos.entries, List.eraseIdx_append_of_length_le (Nat.le_of_eq hpos.length), hpos.length,
      Nat.sub_self, List.eraseIdx_cons_zero, List.length_append, hpos.length]
  rw [hlength]
  cases rest with
  | nil =>
      -- `erase` has returned `end()`
      rw [if_neg (by simp)]
      show sweep s₀ ready s₀.clients.entries = none
      rw [hpos.sweep_eq, sweep, pass_dead_last hgone]
      rfl
  | cons d rest =>
      rw [if_pos (by simp)]
      exact ⟨hready, rest, kept ++ [d], got, hpos.erase hgone rfl rfl⟩

/-- The turn at a client that is not ready. -/
theorem PassInv.notReady {s : Sys} {recvs : List ℕ} {ready' : Finset ℤ} {it sock : ℕ} {name : Str}
    (h : PassInv s₀ ready s recvs (.walking ready' it))
    (hit : s.clients.entries[it]? = some (name, sock)) (hfd : ¬(s.socketAt sock).fd < 0)
    (hout : (s.socketAt sock).fd ∉ ready') :
    PassInv s₀ ready s recvs (.walking ready' (it + 1)) := by
  obtain ⟨rfl, hsock, rest, kept, got, hpos⟩ := h.at_entry hit
  rw [hsock] at hfd hout
  have hnext := hpos.advance (m := []) (pass_idle hfd hout)
  simp only [List.map_nil, List.append_nil] at hnext
  exact ⟨rfl, rest, _, got, hnext⟩

/-- The turn at a client that is ready. -/
theorem PassInv.isReady {s : Sys} {recvs : List ℕ} {ready' : Finset ℤ} {it sock : ℕ} {name : Str}
    (h : PassInv s₀ ready s recvs (.walking ready' it))
    (hit : s.clients.entries[it]? = some (name, sock)) (hfd : ¬(s.socketAt sock).fd < 0)
    (hin : (s.socketAt sock).fd ∈ ready') :
    PassInv s₀ ready s recvs (.getting ready' it sock) := by
  obtain ⟨rfl, hsock, rest, kept, got, hpos⟩ := h.at_entry hit
  rw [hsock] at hfd hin
  exact ⟨rfl, name, rest, kept, got, hfd, hin, hpos⟩

/-- `recv` is called on the client at hand. -/
theorem PassInv.received {s : Sys} {recvs : List ℕ} {ready' : Finset ℤ} {it sock packet : ℕ}
    (h : PassInv s₀ ready s recvs (.receiving ready' it sock packet)) :
    ready' = ready ∧ (s.socketAt sock).fd ∈ ready ∧ ∃ rest kept got, sock ∉ rest.map Prod.snd ∧
      At s₀ ready s (recvs ++ [sock]) (it + 1) rest kept got := by
  obtain ⟨rfl, name, rest, kept, got, hgone, hreadable, hpos⟩ := h
  have hsock := hpos.untouched _ List.mem_cons_self
  refine ⟨rfl, ?_, rest, _, _, (List.nodup_cons.mp hpos.distinct).1,
    hpos.advance (m := [(name, sock)]) (pass_ready hgone hreadable)⟩
  rw [show s.socketAt sock = s₀.socketAt sock from hsock]
  exact hreadable

/-- The socket of a client is destroyed, which is no other client's. -/
theorem PassInv.disconnected {s t : Sys} {recvs : List ℕ} {ready' : Finset ℤ}
    {it sock packet : ℕ} (h : PassInv s₀ ready s recvs (.dropping ready' it sock packet))
    (hclients : t.clients = s.clients) (hsockets : t.sockets = (destroyClient s sock).sockets) :
    PassInv s₀ ready t recvs (.walking ready' (it + 1)) := by
  obtain ⟨hready, -, rest, kept, got, hout, hpos⟩ := h
  refine ⟨hready, rest, kept, got, hpos.frame hclients fun e he => ?_⟩
  rw [socketAt_congr hsockets]
  apply socketAt_destroyClient
  rintro rfl
  exact hout (List.mem_map.mpr ⟨e, he, rfl⟩)

/-- **Step lemma.** -/
theorem PassInv.move {s t : Sys} {a : Label} {recvs : List ℕ}
    (hready : ∀ fd ∈ ready, inFdSet fd) (h : PassInv s₀ ready s recvs s.runner)
    (hok : passing s a) (hm : Move s a t) :
    PassInv s₀ ready t (recvs ++ recvOn s a) t.runner := by
  have hquiet : ∀ {r}, PassInv s₀ ready s recvs r → t.clients = s.clients →
      t.sockets = s.sockets → PassInv s₀ ready t (recvs ++ []) r := by
    intro r hr hclients hsockets
    rw [List.append_nil]
    exact hr.frame hclients hsockets
  obtain ⟨hin, hstop⟩ := hok
  cases hm with
  | passEnd ready' it hr hit =>
      rw [hr] at h
      exact hquiet (h.passEnd hit) rfl rfl
  | erased ready' it name sock hr hit hfd =>
      rw [hr] at h
      have hnext := h.erased hit hfd
      rw [← List.append_nil recvs] at hnext
      exact hnext
  | notReady ready' it name sock hr hit hfd hout =>
      rw [hr] at h
      exact hquiet (h.notReady hit hfd hout) rfl rfl
  | isReady ready' it name sock hr hit hfd hmem =>
      rw [hr] at h
      exact hquiet (h.isReady hit hfd hmem) rfl rfl
  | got ready' it sock hr =>
      rw [hr] at h
      exact hquiet (r := .receiving ready' it sock _) h rfl rfl
  | recvFails ready' it sock packet hr =>
      rw [hr] at h
      obtain ⟨hready', hfd, rest, kept, got, hout, hpos⟩ := h.received
      have hrecv : recvOn s (.recv .fails) = [sock] := by rw [recvOn, hr]
      rw [hrecv]
      exact ⟨hready', hfd, rest, kept, got, hout, hpos.frame rfl fun _ _ => rfl⟩
  | recvData ready' it sock packet bytes hr =>
      rw [hr] at h
      obtain ⟨hready', -, rest, kept, got, -, hpos⟩ := h.received
      have hrecv : recvOn s (.recv (.data bytes)) = [sock] := by rw [recvOn, hr]
      rw [hrecv]
      exact ⟨hready', rest, kept, got, hpos.frame rfl fun _ _ => rfl⟩
  | disconnected ready' it sock packet hr =>
      rw [hr] at h
      rw [show recvOn s .disconnect = [] from rfl, List.append_nil]
      exact h.disconnected rfl rfl
  | disconnectUndefined ready' it sock packet hr hfd =>
      rw [hr] at h
      exact absurd (hready _ h.2.1) hfd
  | stamped ready' it sock packet hr =>
      rw [hr] at h
      exact hquiet (r := .queueing ready' it packet) h rfl rfl
  | queued ready' it packet hr | notQueued ready' it packet hr =>
      rw [hr] at h
      exact hquiet (r := .walking ready' (it + 1)) h rfl rfl
  | checked | timedOut | underflow | took | terminated | unanswered | found | rewritten | sent
  | unsent | gaveBack =>
      exact hquiet h rfl rfl
  | tcpFails hr | initFails _ hr | listens _ hr | idel hr | launched hr | entered hr
  | enterUndefined hr | looped hr | selectedNone _ _ hr | selected _ _ hr | newConnection _ hr
  | noConnection _ hr | testUndefined _ hr | acceptFails _ hr | unnamed _ _ hr
  | connection _ _ _ hr | registered _ _ hr | registerUndefined _ _ hr =>
      rw [hr] at hin
      exact hin.elim
  | _ => exact absurd rfl hstop

/-- Where a pass ends the sweep has a result exactly if no iterator went past `end()`. -/
theorem PassInv.result {s : Sys} {recvs : List ℕ} {r : Run} (h : PassInv s₀ ready s recvs r)
    (hend : ¬inPass r) :
    (r ≠ .undefined ∧ ∃ got, sweep s₀ ready s₀.clients.entries = some (s.clients.entries, got) ∧
      recvs = got.map Prod.snd) ∨
    r = .undefined ∧ sweep s₀ ready s₀.clients.entries = none := by
  cases r with
  | head => exact Or.inl ⟨by simp, h⟩
  | undefined => exact Or.inr ⟨rfl, h⟩
  | walking | getting | receiving | dropping | stamping | queueing => exact absurd trivial hend
  | _ => exact h.elim

/-- Every pass refines the sweep over the entries. -/
theorem passInv_of_path {s : Sys} (hr : s.runner = .walking ready 0)
    (hready : ∀ fd ∈ ready, inFdSet fd) (hdistinct : s.clients.values.Nodup) {as : List Label}
    {q : Sys × List ℕ}
    (h : (system.watch recvOn).Path (fun p a => passing p.1 a) (s, []) as q) :
    PassInv s ready q.1 q.2 q.1.runner := by
  refine h.preserves (I := fun q => PassInv s ready q.1 q.2 q.1.runner) ?_ ?_
  · show PassInv s ready s [] s.runner
    rw [hr]
    refine ⟨rfl, s.clients.entries, [], [], rfl, rfl, rfl, fun _ _ => rfl, hdistinct, ?_⟩
    simp
  · intro p a q hp hok hstep
    obtain ⟨hmove, hrecord⟩ := LTS.watch_step.mp hstep
    rw [hrecord]
    exact hp.move hready hok (move_of_step hmove)

/-! ## Every pass ends -/

theorem step_walking {s : Sys} {ready : Finset ℤ} {it : ℕ} (hr : s.runner = .walking ready it) :
    system.step s .run = some (walk s ready it) := by
  show runStep s = _
  unfold runStep
  rw [hr]

/-- Where `recv` fails the pass comes to the next entry. -/
theorem path_of_getting {s : Sys} {ready : Finset ℤ} {it sock : ℕ}
    (hr : s.runner = .getting ready it sock) :
    ∃ as t, system.Path passing s as t ∧ (t.runner = .undefined ∨
      t.runner = .walking ready (it + 1) ∧ t.clients = s.clients) := by
  have hget : system.step s .run = some (getPacket s ready it sock) := by
    show runStep s = _
    unfold runStep
    rw [hr]
  set u := getPacket s ready it sock with hu
  have hrecv : system.step u (.recv .fails) =
      some { u with runner := .dropping ready it sock (s.objectPool.get s.memory).1 } := rfl
  have hpath : system.Path passing s [.run, .recv .fails]
      { u with runner := .dropping ready it sock (s.objectPool.get s.memory).1 } :=
    LTS.Path.append (LTS.Path.single ⟨by rw [hr]; trivial, by simp⟩ hget)
      (LTS.Path.single ⟨trivial, by simp⟩ hrecv)
  set v : Sys := { u with runner := .dropping ready it sock (s.objectPool.get s.memory).1 }
  by_cases hfd : inFdSet (v.socketAt sock).fd
  · have hstep : system.step v .disconnect = some _ := if_pos hfd
    exact ⟨_, _, hpath.snoc ⟨trivial, by simp⟩ hstep, Or.inr ⟨rfl, rfl⟩⟩
  · have hstep : system.step v .disconnect = some _ := if_neg hfd
    exact ⟨_, _, hpath.snoc ⟨trivial, by simp⟩ hstep, Or.inl rfl⟩

/-- A pass can come to its end. -/
theorem pass_ends (n : ℕ) {s : Sys} {ready : Finset ℤ} {it : ℕ}
    (hr : s.runner = .walking ready it) (hn : s.clients.entries.length ≤ it + n) :
    ∃ as t, system.Path passing s as t ∧ ¬inPass t.runner := by
  induction n generalizing s it with
  | zero =>
      have hok : passing s .run := ⟨by rw [hr]; trivial, by simp⟩
      have hstep := step_walking hr
      rw [walk_end (List.getElem?_eq_none (by omega))] at hstep
      exact ⟨_, _, LTS.Path.single hok hstep, id⟩
  | succ n ih =>
      have hok : passing s .run := ⟨by rw [hr]; trivial, by simp⟩
      have hstep := step_walking hr
      cases hit : s.clients.entries[it]? with
      | none =>
          rw [walk_end hit] at hstep
          exact ⟨_, _, LTS.Path.single hok hstep, id⟩
      | some e =>
          obtain ⟨name, sock⟩ := e
          by_cases hfd : (s.socketAt sock).fd < 0
          · rw [walk_stale hit hfd] at hstep
            by_cases hlast : it < (s.clients.eraseAt it).entries.length
            · rw [if_pos hlast] at hstep
              have hle : (s.clients.eraseAt it).entries.length ≤ it + 1 + n := by
                have herase : (s.clients.entries.eraseIdx it).length ≤ s.clients.entries.length :=
                  (List.eraseIdx_sublist _ _).length_le
                exact herase.trans (by omega)
              set u : Sys := { s with
                clients := s.clients.eraseAt it
                runner := .walking ready (it + 1) }
              obtain ⟨as, t, hpath, hend⟩ := ih (s := u) rfl hle
              exact ⟨_, t, (LTS.Path.single hok hstep).append hpath, hend⟩
            · rw [if_neg hlast] at hstep
              exact ⟨_, _, LTS.Path.single hok hstep, id⟩
          · by_cases hready : (s.socketAt sock).fd ∈ ready
            · rw [walk_ready hit hfd hready] at hstep
              obtain ⟨bs, u, hbs, hu⟩ :=
                path_of_getting (s := { s with runner := .getting ready it sock }) rfl
              have hpath := (LTS.Path.single hok hstep).append hbs
              rcases hu with hu | ⟨hu, hclients⟩
              · exact ⟨_, u, hpath, by rw [hu]; exact id⟩
              · have hle : u.clients.entries.length ≤ it + 1 + n := by
                  rw [hclients]
                  exact hn.trans (by omega)
                obtain ⟨as, t, hrest, hend⟩ := ih hu hle
                exact ⟨_, t, hpath.append hrest, hend⟩
            · rw [walk_pass hit hfd hready] at hstep
              have hle : s.clients.entries.length ≤ it + 1 + n := by omega
              obtain ⟨as, t, hpath, hend⟩ :=
                ih (s := { s with runner := .walking ready (it + 1) }) rfl hle
              exact ⟨_, t, (LTS.Path.single hok hstep).append hpath, hend⟩

/-! ## The exact condition -/

/-- **A pass visits every client** exactly if behind every client without a descriptor
there is one with a descriptor that is not ready.  No two entries share a socket, as in
every run (`PeerInv.once`), and an `fd_set` has members below `FD_SETSIZE` only. -/
theorem receive_pass_iff {s : Sys} (hr : s.runner = .walking ready 0)
    (hready : ∀ fd ∈ ready, inFdSet fd) (hdistinct : s.clients.values.Nodup) :
    (∃ as t, (system.watch recvOn).Path (fun p a => passing p.1 a) (s, []) as t ∧
      ¬inPass t.1.runner) ∧
    ∀ as t recvs, (system.watch recvOn).Path (fun p a => passing p.1 a) (s, []) as (t, recvs) →
      ¬inPass t.runner → (VisitsAll s ready t recvs ↔ Apart s ready) := by
  constructor
  · obtain ⟨as, t, hpath, hend⟩ := pass_ends s.clients.entries.length hr (by omega)
    obtain ⟨recvs, hwatched⟩ : ∃ recvs, (system.watch recvOn).Path (fun p a => passing p.1 a)
        (s, []) as (t, [] ++ recvs) := hpath.watch []
    exact ⟨as, _, hwatched, hend⟩
  · intro as t recvs hpath hend
    have hinv : PassInv s ready t recvs t.runner := passInv_of_path hr hready hdistinct hpath
    rcases hinv.result hend with ⟨hinside, got, hsweep, rfl⟩ | ⟨hundefined, hnone⟩
    · constructor
      · intro hvisits
        refine spaced_of_pass hsweep hvisits.erased ?_
        have hlength := hvisits.received.length_eq
        rw [List.length_map, List.length_map] at hlength
        exact hlength
      · intro happart
        have hpass : sweep s ready s.clients.entries = some _ := pass_of_spaced happart
        rw [hsweep, Option.some.injEq, Prod.mk.injEq] at hpass
        refine ⟨hpass.1, ?_, hinside⟩
        rw [hpass.2]
        exact List.Perm.refl _
    · constructor
      · exact fun hvisits => absurd hundefined hvisits.inside
      · intro happart
        have hpass : sweep s ready s.clients.entries = some _ := pass_of_spaced happart
        exact absurd (hnone.symm.trans hpass) (by simp)

/-- One of two clients leaves, and a third one connects. -/
def oneLeftRun : List Label :=
  oneLeavesRun ++ [.run, .select (.ready {3}) 0, .run,
    .accept (.connection 4 ⟨127, 0, 0, 1, 5002⟩), .run]

/-- The server at the start of the pass that follows. -/
def oneLeft : Sys := (LTS.exec system (fun _ _ => True) fresh oneLeftRun).getD fresh

/-- `receive_pass_iff` where the client behind the one that left is not ready. -/
theorem receive_pass_oneLeft : ∃ t, oneLeft.clients.entries.length = 3 ∧
    t.clients.entries.length = 2 ∧ VisitsAll oneLeft {3} t [] := by
  have hpath : (system.watch recvOn).Path (fun p a => passing p.1 a) (oneLeft, [])
      [.run, .run, .run] (_, []) := LTS.path_of_exec (show LTS.exec _ _ _ _ = some _ from rfl)
  have hiff := (receive_pass_iff (s := oneLeft) rfl (by decide) (by decide)).2 _ _ _ hpath id
  refine ⟨_, rfl, rfl, hiff.mpr ?_⟩
  intro i e he hgone
  match i with
  | 0 => exact ⟨_, rfl, by decide, by decide⟩
  | 1 | 2 =>
      obtain rfl := Option.some.inj he
      exact absurd hgone (by decide)
  | i + 3 =>
      have hnone : oneLeft.clients.entries[i + 3]? = none := rfl
      exact absurd (he.symm.trans hnone) (by simp)

/-- A client leaves, and one whose name is smaller connects. -/
def lastLeftRun : List Label :=
  oneDisconnectRun ++ [.run, .run, .select (.ready {3}) 0, .run,
    .accept (.connection 4 ⟨127, 0, 0, 1, 4000⟩), .run]

/-- The loop erases the last client and advances past the end. -/
theorem receive_pass_overruns :
    ¬∀ s ready as t recvs, system.Reachable beforeStop s → s.runner = .walking ready 0 →
      (system.watch recvOn).Path (fun p a => passing p.1 a) (s, []) as (t, recvs) →
      ¬inPass t.runner → VisitsAll s ready t recvs := by
  intro h
  have hreach : system.Reachable beforeStop _ :=
    LTS.reachable_of_exec rfl (show LTS.exec _ _ _ lastLeftRun = _ from rfl)
  have hvisits := h _ {3} [.run, .run] _ [] hreach rfl
    (LTS.path_of_exec (show LTS.exec _ _ _ _ = some _ from rfl)) id
  exact hvisits.inside rfl

end TcpServer
