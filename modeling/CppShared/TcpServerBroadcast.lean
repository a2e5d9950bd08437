/-
# Sending to a peer that is gone

`Socket::sendMessage` for a buffer goes on after a `send` that fails: its position moves
on a positive result only.  The results of the calls on one socket are an infinite
sequence, and a call of `sendMessage` returns if finitely many of them are enough.

It returns exactly if the results reach the size of the buffer (`returns_iff_reaches`),
which a peer that is gone has to have done before.  `TcpServer::broadcast` and
`TcpServer_Show` return when the calls that they make do (`sends_return_iff`).
-/
import CppShared.ServerHandler
import CppShared.SocketSend

namespace Socket

/-! ## One socket -/

/-- The results of the first `m` calls. -/
def firstResults (results : ℕ → ℤ) (m : ℕ) : List ℤ := (List.range m).map results

/-- What the first `k` calls have accepted, as an `unsigned long`. -/
def acceptedBy (results : ℕ → ℤ) (k : ℕ) : ℕ := total (firstResults results k) % 2 ^ 64

/-- The calls reach the size of the buffer. -/
def Reaches (results : ℕ → ℤ) (dataSize : ℕ) : Prop := ∃ k, dataSize ≤ acceptedBy results k

theorem firstResults_length (results : ℕ → ℤ) (m : ℕ) : (firstResults results m).length = m := by
  rw [firstResults, List.length_map, List.length_range]

theorem take_firstResults (results : ℕ → ℤ) {k m : ℕ} (h : k ≤ m) :
    (firstResults results m).take k = firstResults results k := by
  rw [firstResults, ← List.map_take, List.take_range, Nat.min_eq_left h]
  rfl

/-- The position after a result, whatever it is. -/
theorem advance_mod {pos : ℕ} (hpos : pos < 2 ^ 64) (len : ℤ) :
    advance pos len = (pos + len.toNat) % 2 ^ 64 := by
  unfold advance
  by_cases hlen : 0 < len
  · rw [if_pos hlen]
  · rw [if_neg hlen, Int.toNat_of_nonpos (Int.not_lt.mp hlen), Nat.add_zero, Nat.mod_eq_of_lt hpos]

/-- **Loop lemma.**  From `pos` on the loop is left when a sum of results reaches the
size. -/
theorem sendLoop_returned_iff (data : ℕ → UInt8) (dataSize : ℕ) (results : List ℤ) {pos : ℕ}
    (hpos : pos < 2 ^ 64) : (sendLoop data dataSize pos results).returned = true ↔
      ∃ k ≤ results.length, dataSize ≤ (pos + total (results.take k)) % 2 ^ 64 := by
  have hzero : ∀ l : List ℤ, (pos + total (l.take 0)) % 2 ^ 64 = pos := by
    intro l
    rw [List.take_zero]
    exact Nat.mod_eq_of_lt hpos
  induction results generalizing pos with
  | nil =>
      rw [sendLoop]
      split_ifs with hlt
      · refine iff_of_false (by simp) ?_
        rintro ⟨k, -, hle⟩
        rw [List.take_nil, ← List.take_zero (l := []), hzero] at hle
        omega
      · exact iff_of_true rfl ⟨0, Nat.le_refl 0, by rw [hzero]; omega⟩
  | cons len rest ih =>
      rw [sendLoop]
      split_ifs with hlt
      · have hnext := advance_mod hpos len
        have hbound : advance pos len < 2 ^ 64 := by
          rw [hnext]
          exact Nat.mod_lt _ (by decide)
        have hsum : ∀ k, (advance pos len + total (rest.take k)) % 2 ^ 64 =
            (pos + total ((len :: rest).take (k + 1))) % 2 ^ 64 := by
          intro k
          rw [hnext, Nat.mod_add_mod, total_take_succ, Nat.add_assoc]
        refine (ih hbound fun l => ?_).trans ?_
        · rw [List.take_zero]
          exact Nat.mod_eq_of_lt hbound
        · constructor
          · rintro ⟨k, hk, hle⟩
            exact ⟨k + 1, Nat.succ_le_succ hk, hsum k ▸ hle⟩
          · rintro ⟨k, hk, hle⟩
            cases k with
            | zero =>
                rw [hzero] at hle
                omega
            | succ k => exact ⟨k, Nat.le_of_succ_le_succ hk, (hsum k).symm ▸ hle⟩
      · exact iff_of_true rfl ⟨0, Nat.zero_le _, by rw [hzero]; omega⟩

/-- After the first `m` results. -/
theorem sendMessage_returned_iff (data : ℕ → UInt8) (dataSize : ℕ) (results : ℕ → ℤ) (m : ℕ) :
    (sendMessage data dataSize (firstResults results m)).returned = true ↔
      ∃ k ≤ m, dataSize ≤ acceptedBy results k := by
  rw [sendMessage, sendLoop_returned_iff data dataSize _ (by decide), firstResults_length]
  constructor
  · rintro ⟨k, hk, hle⟩
    rw [Nat.zero_add, take_firstResults results hk] at hle
    exact ⟨k, hk, hle⟩
  · rintro ⟨k, hk, hle⟩
    refine ⟨k, hk, ?_⟩
    rw [Nat.zero_add, take_firstResults results hk]
    exact hle

/-- **`sendMessage` returns** exactly if the results reach the size of the buffer. -/
theorem returns_iff_reaches (data : ℕ → UInt8) (dataSize : ℕ) (results : ℕ → ℤ) :
    (∃ m, (sendMessage data dataSize (firstResults results m)).returned = true) ↔
      Reaches results dataSize := by
  constructor
  · rintro ⟨m, hm⟩
    obtain ⟨k, -, hk⟩ := (sendMessage_returned_iff data dataSize results m).mp hm
    exact ⟨k, hk⟩
  · rintro ⟨k, hk⟩
    exact ⟨k, (sendMessage_returned_iff data dataSize results k).mpr ⟨k, Nat.le_refl k, hk⟩⟩

/-- A peer that is gone accepts nothing. -/
theorem acceptedBy_of_dead {results : ℕ → ℤ} {n : ℕ} (hdead : ∀ k, n ≤ k → results k ≤ 0) (k : ℕ) :
    acceptedBy results (n + k) = acceptedBy results n := by
  induction k with
  | zero => rfl
  | succ k ih =>
      rw [← ih]
      unfold acceptedBy firstResults total
      rw [← Nat.add_assoc, List.range_succ, List.map_append, List.map_append, List.sum_append]
      simp [Int.toNat_of_nonpos (hdead (n + k) (Nat.le_add_right n k))]

/-- When the peer is gone, the size has to be reached before. -/
theorem reaches_of_dead {results : ℕ → ℤ} {n dataSize : ℕ} (hdead : ∀ k, n ≤ k → results k ≤ 0) :
    Reaches results dataSize ↔ ∃ k ≤ n, dataSize ≤ acceptedBy results k := by
  constructor
  · rintro ⟨k, hk⟩
    rcases Nat.le_total k n with hle | hle
    · exact ⟨k, hle, hk⟩
    · obtain ⟨j, rfl⟩ := Nat.exists_eq_add_of_le hle
      rw [acceptedBy_of_dead hdead] at hk
      exact ⟨n, Nat.le_refl n, hk⟩
  · rintro ⟨k, -, hk⟩
    exact ⟨k, hk⟩

end Socket

namespace TcpServer

open Socket (SendTrace firstResults acceptedBy Reaches)

/-! ## Every client -/

/-- What happened so far in a call of `broadcast`: the calls of `sendMessage` with their
clients, and whether it has returned. -/
structure BroadcastTrace where
  sends : List (ℕ × SendTrace)
  returned : Bool

/-- The loop of `broadcast`; `results` gives the results of `send` for each name. -/
def broadcastLoop (data : ℕ → UInt8) (dataSize : ℕ) (results : Str → List ℤ) :
    List (Str × ℕ) → BroadcastTrace
  | [] => ⟨[], true⟩
  | (name, clientSocket) :: rest =>
      let t := Socket.sendMessage data dataSize (results name)
      if t.returned then
        let next := broadcastLoop data dataSize results rest
        ⟨(clientSocket, t) :: next.sends, next.returned⟩
      else ⟨[(clientSocket, t)], false⟩

/-- `TcpServer::broadcast`. -/
def broadcast (data : ℕ → UInt8) (dataSize : ℕ) (clients : OrderedMap Str ℕ)
    (results : Str → List ℤ) : BroadcastTrace :=
  broadcastLoop data dataSize results clients.entries

/-- `TcpServer_Show` with the call of `sendMessage` at its end: whether it has returned. -/
def showReturned (clients : OrderedMap Str ℕ) (packet : Packet) (behind : Str)
    (results : Str → List ℤ) : Bool :=
  match ServerHandler.tcpServerShow clients packet behind with
  | none => true
  | some (_, t) =>
      (Socket.sendMessage (fun i => t.reply.bytes.getD i 0) maxBufferLen
        (results (packet.cstr 6))).returned

/-- The broadcast is over when each of its calls is. -/
theorem broadcastLoop_returned_iff (data : ℕ → UInt8) (dataSize : ℕ) (results : Str → List ℤ)
    (entries : List (Str × ℕ)) : (broadcastLoop data dataSize results entries).returned = true ↔
      ∀ e ∈ entries, (Socket.sendMessage data dataSize (results e.1)).returned = true := by
  induction entries with
  | nil => exact iff_of_true rfl fun e he => absurd he List.not_mem_nil
  | cons e rest ih =>
      obtain ⟨name, clientSocket⟩ := e
      rw [broadcastLoop, List.forall_mem_cons]
      by_cases ht : (Socket.sendMessage data dataSize (results name)).returned = true
      · rw [if_pos ht]
        exact ih.trans (and_iff_right ht).symm
      · rw [if_neg ht]
        exact iff_of_false Bool.false_ne_true fun h => ht h.1

/-- One number of results is enough for finitely many clients. -/
theorem exists_bound {results : Str → ℕ → ℤ} {dataSize : ℕ} {entries : List (Str × ℕ)}
    (h : ∀ e ∈ entries, Reaches (results e.1) dataSize) :
    ∃ m, ∀ e ∈ entries, ∃ k ≤ m, dataSize ≤ acceptedBy (results e.1) k := by
  induction entries with
  | nil => exact ⟨0, fun e he => absurd he List.not_mem_nil⟩
  | cons e rest ih =>
      obtain ⟨m, hm⟩ := ih fun d hd => h d (List.mem_cons_of_mem e hd)
      obtain ⟨k, hk⟩ := h e List.mem_cons_self
      refine ⟨max m k, fun d hd => ?_⟩
      rcases List.mem_cons.mp hd with rfl | hd
      · exact ⟨k, Nat.le_max_right m k, hk⟩
      · obtain ⟨j, hj, hle⟩ := hm d hd
        exact ⟨j, hj.trans (Nat.le_max_left m k), hle⟩

/-- **`broadcast` returns** exactly if every client's results reach the size. -/
theorem broadcast_returns_iff (data : ℕ → UInt8) (dataSize : ℕ) (clients : OrderedMap Str ℕ)
    (results : Str → ℕ → ℤ) :
    (∃ m, (broadcast data dataSize clients fun name => firstResults (results name) m).returned =
      true) ↔ ∀ e ∈ clients.entries, Reaches (results e.1) dataSize := by
  constructor
  · rintro ⟨m, hm⟩ e he
    have hsend := (broadcastLoop_returned_iff data dataSize _ clients.entries).mp hm e he
    exact (Socket.returns_iff_reaches data dataSize (results e.1)).mp ⟨m, hsend⟩
  · intro h
    obtain ⟨m, hm⟩ := exists_bound h
    refine ⟨m, (broadcastLoop_returned_iff data dataSize _ clients.entries).mpr fun e he => ?_⟩
    exact (Socket.sendMessage_returned_iff data dataSize (results e.1) m).mpr (hm e he)

/-- **`TcpServer_Show` returns** exactly if there is no client of that name, or its results
reach the size of a packet. -/
theorem show_returns_iff (clients : OrderedMap Str ℕ) (packet : Packet) (behind : Str)
    (results : Str → ℕ → ℤ) :
    (∃ m, showReturned clients packet behind (fun name => firstResults (results name) m) = true) ↔
      ∀ client, clients.find? (packet.cstr 6) = some client →
        Reaches (results (packet.cstr 6)) maxBufferLen := by
  unfold showReturned ServerHandler.tcpServerShow
  cases hclient : clients.find? (packet.cstr 6) with
  | none => exact iff_of_true ⟨0, rfl⟩ (by simp)
  | some client =>
      refine (Socket.returns_iff_reaches _ maxBufferLen (results (packet.cstr 6))).trans ?_
      exact ⟨fun h _ _ => h, fun h => h client rfl⟩

/-! ## The exact condition -/

/-- **Sending to peers that are gone.**  From its call `n name` on every `send` to the
client `name` fails or accepts nothing.  Then `sendMessage`, `broadcast` and
`TcpServer_Show` return if and only if the results before have reached the size, for each
client that they send to. -/
theorem sends_return_iff (data : ℕ → UInt8) (dataSize : ℕ) {results : Str → ℕ → ℤ} {n : Str → ℕ}
    (hdead : ∀ name k, n name ≤ k → results name k ≤ 0) (clients : OrderedMap Str ℕ)
    (packet : Packet) (behind : Str) :
    (∀ name, (∃ m, (Socket.sendMessage data dataSize
        (firstResults (results name) m)).returned = true) ↔
      ∃ k ≤ n name, dataSize ≤ acceptedBy (results name) k) ∧
    ((∃ m, (broadcast data dataSize clients fun name =>
        firstResults (results name) m).returned = true) ↔
      ∀ e ∈ clients.entries, ∃ k ≤ n e.1, dataSize ≤ acceptedBy (results e.1) k) ∧
    ((∃ m, showReturned clients packet behind (fun name => firstResults (results name) m) = true) ↔
      ∀ client, clients.find? (packet.cstr 6) = some client →
        ∃ k ≤ n (packet.cstr 6), maxBufferLen ≤ acceptedBy (results (packet.cstr 6)) k) := by
  have hreaches : ∀ name size, Reaches (results name) size ↔
      ∃ k ≤ n name, size ≤ acceptedBy (results name) k :=
    fun name _ => Socket.reaches_of_dead (hdead name)
  refine ⟨fun name => ?_, ?_, ?_⟩
  · rw [Socket.returns_iff_reaches, hreaches]
  · rw [broadcast_returns_iff]
    exact forall₂_congr fun e _ => hreaches e.1 dataSize
  · rw [show_returns_iff]
    exact forall₂_congr fun _ _ => hreaches (packet.cstr 6) maxBufferLen

/-- A client that takes a whole packet before it is gone. -/
def takesOne (_ : Str) (k : ℕ) : ℤ := if k = 0 then 1024 else -1

/-- `sends_return_iff` at `takesOne`. -/
theorem sends_return_takesOne :
    ∃ m, (Socket.sendMessage (fun _ => 0) 1024 (firstResults (takesOne []) m)).returned = true := by
  have hdead : ∀ name k, (fun _ : Str => 1) name ≤ k → takesOne name k ≤ 0 := by
    intro name k hk
    have hne : k ≠ 0 := Nat.ne_of_gt hk
    simp [takesOne, hne]
  exact ((sends_return_iff (fun _ => 0) 1024 hdead OrderedMap.empty Packet.zero []).1 []).mpr
    ⟨1, Nat.le_refl 1, by decide⟩

/-- A packet for a peer that is gone keeps `sendMessage` for ever. -/
theorem sendMessage_spins : ¬∃ m,
    (Socket.sendMessage (fun _ => 0) 1024 (firstResults (fun _ => -1) m)).returned = true := by
  rw [Socket.returns_iff_reaches, Socket.reaches_of_dead (n := 0) (fun _ _ => by decide)]
  rintro ⟨k, hk, hle⟩
  obtain rfl := Nat.le_zero.mp hk
  exact absurd hle (by decide)

end TcpServer
