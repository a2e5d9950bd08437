/-
# Sending a buffer (`Socket::sendMessage(unsigned char*, unsigned long)`)

The loop hands `data` to `send` in pieces of at most `MAX_PAYLOAD_LEN` bytes and
advances by what was accepted.  The environment is the list of results of the
`send` calls; a list that ends while the loop still runs leaves the last call
pending.  Positions are unsigned 64-bit, a result is an `int`.

The length of the last piece is `MAX_PAYLOAD_LEN - res` where `res` bytes are
left, so the piece fits only when `res` is at least half of `MAX_PAYLOAD_LEN`.
`sendMessage_exact_iff` is the exact condition for a complete and safe delivery:
the loop never gets to a point with fewer bytes left than that.
-/
import CppShared.Bytes
import Mathlib.Algebra.BigOperators.Group.List.Basic
import Mathlib.Algebra.Order.Ring.Nat

namespace Socket

/-- `MAX_PAYLOAD_LEN`. -/
def maxPayloadLen : ℕ := 1024

/-- The bytes in `[pos, pos + len)`. -/
def slice (data : ℕ → UInt8) (pos len : ℕ) : Str := (List.range len).map fun i => data (pos + i)

/-- What happened so far in a call: the ranges handed to `send` as offset and
length, the bytes it accepted, and whether the function has returned. -/
structure SendTrace where
  ranges : List (ℕ × ℕ)
  accepted : Str
  returned : Bool

/-- `bufLen` with `res = dataSize - pos` bytes left. -/
def bufLen (dataSize pos : ℕ) : ℕ :=
  if dataSize - pos ≥ maxPayloadLen then maxPayloadLen else maxPayloadLen - (dataSize - pos)

/-- `if (len > 0) pos += len`. -/
def advance (pos : ℕ) (len : ℤ) : ℕ := if 0 < len then (pos + len.toNat) % 2 ^ 64 else pos

/-- The loop from `pos` on, one result for each completed `send`. -/
def sendLoop (data : ℕ → UInt8) (dataSize pos : ℕ) : List ℤ → SendTrace
  | [] =>
      if pos < dataSize then ⟨[(pos, bufLen dataSize pos)], [], false⟩ else ⟨[], [], true⟩
  | len :: rest =>
      if pos < dataSize then
        let next := sendLoop data dataSize (advance pos len) rest
        ⟨(pos, bufLen dataSize pos) :: next.ranges, slice data pos len.toNat ++ next.accepted,
          next.returned⟩
      else ⟨[], [], true⟩

/-- `Socket::sendMessage(unsigned char*, unsigned long)`. -/
def sendMessage (data : ℕ → UInt8) (dataSize : ℕ) (results : List ℤ) : SendTrace :=
  sendLoop data dataSize 0 results

/-- No call accepts more than it was handed. -/
def Fits (dataSize pos : ℕ) : List ℤ → Prop
  | [] => True
  | len :: rest =>
      pos < dataSize → len ≤ bufLen dataSize pos ∧ Fits dataSize (advance pos len) rest

/-- Delivery of `[pos, dataSize)`: every range lies inside the buffer, and on
return the accepted bytes are the content of the buffer, each once. -/
structure Exact (data : ℕ → UInt8) (dataSize pos : ℕ) (t : SendTrace) : Prop where
  inside : ∀ r ∈ t.ranges, r.1 + r.2 ≤ dataSize
  complete : t.returned = true → t.accepted = slice data pos (dataSize - pos)

/-! ## One piece -/

/-- The bytes that the positive results account for. -/
def total (results : List ℤ) : ℕ := (results.map Int.toNat).sum

/-- Some bytes are left, but fewer than half a piece. -/
def Short (dataSize pos : ℕ) : Prop := pos < dataSize ∧ dataSize < pos + maxPayloadLen / 2

/-- A piece overruns the buffer exactly when the rest is short. -/
theorem bufLen_inside_iff {dataSize pos : ℕ} (hpos : pos < dataSize) :
    pos + bufLen dataSize pos ≤ dataSize ↔ ¬Short dataSize pos := by
  unfold Short bufLen maxPayloadLen
  constructor
  · intro hle hshort
    rw [if_neg (by omega)] at hle
    omega
  · intro hshort
    by_cases hbig : dataSize - pos ≥ 1024
    · rw [if_pos hbig]
      omega
    · rw [if_neg hbig]
      omega

/-- Two adjacent slices. -/
theorem slice_append (data : ℕ → UInt8) (pos m n : ℕ) :
    slice data pos m ++ slice data (pos + m) n = slice data pos (m + n) := by
  unfold slice
  rw [List.range_add, List.map_append, List.map_map]
  congr 1
  apply List.map_congr_left
  intro i _
  show data (pos + m + i) = data (pos + (m + i))
  rw [Nat.add_assoc]

/-- A result that fits into the buffer moves the position by what it says. -/
theorem advance_eq {dataSize pos : ℕ} {len : ℤ} (hsize : dataSize < 2 ^ 64)
    (hle : pos + len.toNat ≤ dataSize) : advance pos len = pos + len.toNat := by
  unfold advance
  by_cases hlen : 0 < len
  · rw [if_pos hlen, Nat.mod_eq_of_lt (by omega)]
  · rw [if_neg hlen]
    omega

/-! ## The whole loop -/

/-- The bytes sent after the first `k + 1` results. -/
theorem total_take_succ (len : ℤ) (rest : List ℤ) (k : ℕ) :
    total ((len :: rest).take (k + 1)) = len.toNat + total (rest.take k) := by
  unfold total
  rw [List.take_succ_cons, List.map_cons, List.sum_cons]

/-- At the end of the buffer nothing is short any more. -/
theorem not_short_of_le {dataSize pos : ℕ} (h : dataSize ≤ pos) : ¬Short dataSize pos := by
  intro hshort
  have hlt := hshort.1
  omega

/-- One more result: the first piece fits and the rest is delivered. -/
theorem exact_cons_iff (data : ℕ → UInt8) {dataSize pos : ℕ} {len : ℤ} {rest : List ℤ}
    (hlt : pos < dataSize) (hle : pos + len.toNat ≤ dataSize) (hinside : ¬Short dataSize pos)
    (hadvance : advance pos len = pos + len.toNat) :
    Exact data dataSize pos (sendLoop data dataSize pos (len :: rest)) ↔
      Exact data dataSize (pos + len.toNat) (sendLoop data dataSize (pos + len.toNat) rest) := by
  have hrest : dataSize - pos = len.toNat + (dataSize - (pos + len.toNat)) := by omega
  rw [sendLoop, if_pos hlt, hadvance]
  constructor
  · rintro ⟨hin, hcomplete⟩
    refine ⟨fun r hr => hin r (List.mem_cons_of_mem _ hr), fun hret => ?_⟩
    have hacc := hcomplete hret
    rw [hrest, ← slice_append] at hacc
    exact List.append_cancel_left hacc
  · rintro ⟨hin, hcomplete⟩
    refine ⟨fun r hr => ?_, fun hret => ?_⟩
    · rcases List.mem_cons.mp hr with rfl | hr
      · exact (bufLen_inside_iff hlt).mpr hinside
      · exact hin r hr
    · show slice data pos len.toNat ++ _ = _
      rw [hcomplete hret, slice_append, ← hrest]

/-- At the end of the buffer the loop returns, and nothing is left to deliver. -/
theorem exact_of_le (data : ℕ → UInt8) {dataSize pos : ℕ} (results : List ℤ)
    (h : dataSize ≤ pos) : Exact data dataSize pos (sendLoop data dataSize pos results) := by
  have hend : sendLoop data dataSize pos results = ⟨[], [], true⟩ := by
    cases results with
    | nil => exact if_neg (Nat.not_lt.mpr h)
    | cons len rest => exact if_neg (Nat.not_lt.mpr h)
  rw [hend]
  refine ⟨fun r hr => absurd hr List.not_mem_nil, fun _ => ?_⟩
  rw [Nat.sub_eq_zero_of_le h]
  rfl

/-- A call that is still pending is safe when its range is. -/
theorem exact_nil_iff (data : ℕ → UInt8) {dataSize pos : ℕ} (hlt : pos < dataSize) :
    Exact data dataSize pos (sendLoop data dataSize pos []) ↔ ¬Short dataSize pos := by
  rw [sendLoop, if_pos hlt]
  constructor
  · intro hexact
    exact (bufLen_inside_iff hlt).mp (hexact.inside _ List.mem_cons_self)
  · intro hshort
    refine ⟨fun r hr => ?_, fun hret => absurd hret (by simp)⟩
    obtain rfl := List.mem_singleton.mp hr
    exact (bufLen_inside_iff hlt).mpr hshort

/-- A piece that overruns the buffer spoils the delivery. -/
theorem not_exact_of_short (data : ℕ → UInt8) {dataSize pos : ℕ} (len : ℤ) (rest : List ℤ)
    (hshort : Short dataSize pos) :
    ¬Exact data dataSize pos (sendLoop data dataSize pos (len :: rest)) := by
  intro hexact
  have hin := hexact.inside (pos, bufLen dataSize pos)
    (by rw [sendLoop, if_pos hshort.1]; exact List.mem_cons_self)
  exact (bufLen_inside_iff hshort.1).mp hin hshort

/-- **Loop lemma.**  From `pos` on the delivery is exact iff no partial sum of the
results stops short of the end. -/
theorem sendLoop_exact_iff (data : ℕ → UInt8) {dataSize : ℕ} (hsize : dataSize < 2 ^ 64)
    (results : List ℤ) {pos : ℕ} (hpos : pos ≤ dataSize) (hfits : Fits dataSize pos results) :
    Exact data dataSize pos (sendLoop data dataSize pos results) ↔
      ∀ k ≤ results.length, ¬Short dataSize (pos + total (results.take k)) := by
  induction results generalizing pos with
  | nil =>
      simp only [List.take_nil]
      show _ ↔ ∀ k ≤ 0, ¬Short dataSize (pos + 0)
      rcases Nat.lt_or_ge pos dataSize with hlt | hend
      · rw [exact_nil_iff data hlt]
        exact ⟨fun hshort _ _ => hshort, fun hall => hall 0 (Nat.le_refl 0)⟩
      · exact iff_of_true (exact_of_le data [] hend) fun _ _ => not_short_of_le hend
  | cons len rest ih =>
      rcases Nat.lt_or_ge pos dataSize with hlt | hend
      · by_cases hshort : Short dataSize pos
        · -- the first piece overruns the buffer, and the empty sum is short
          exact iff_of_false (not_exact_of_short data len rest hshort)
            fun hall => hall 0 (Nat.zero_le _) hshort
        · obtain ⟨hlen, hrest⟩ := hfits hlt
          have hinside := (bufLen_inside_iff hlt).mpr hshort
          have hle : pos + len.toNat ≤ dataSize := by omega
          have hadvance := advance_eq hsize hle
          rw [hadvance] at hrest
          rw [exact_cons_iff data hlt hle hshort hadvance, ih hle hrest]
          constructor
          · intro hall k hk
            cases k with
            | zero => exact hshort
            | succ k =>
                rw [total_take_succ, ← Nat.add_assoc]
                exact hall k (by simpa using hk)
          · intro hall k hk
            have hnot := hall (k + 1) (by simpa using hk)
            rw [total_take_succ, ← Nat.add_assoc] at hnot
            exact hnot
      · refine iff_of_true (exact_of_le data (len :: rest) hend) fun k _ => ?_
        exact not_short_of_le (Nat.le_add_right_of_le hend)

/-! ## Main result -/

/-- **Delivery.**  `sendMessage` passes only ranges inside the buffer to `send` and
returns with exactly the content of the buffer accepted, if and only if at no point
between two calls fewer than half a piece, but some bytes, are left. -/
theorem sendMessage_exact_iff (data : ℕ → UInt8) {dataSize : ℕ} (results : List ℤ)
    (hsize : dataSize < 2 ^ 64) (hfits : Fits dataSize 0 results) :
    Exact data dataSize 0 (sendMessage data dataSize results) ↔
      ∀ k ≤ results.length, ¬Short dataSize (total (results.take k)) := by
  have h := sendLoop_exact_iff data hsize results (Nat.zero_le dataSize) hfits
  simp only [Nat.zero_add] at h
  rw [sendMessage]
  exact h

/-- A whole packet, accepted in one piece. -/
theorem sendMessage_exact_packet :
    Exact (fun _ => 0) 1024 0 (sendMessage (fun _ => 0) 1024 [1024]) := by
  refine (sendMessage_exact_iff (fun _ => 0) [1024] (by decide) ?_).mpr ?_
  · intro _
    exact ⟨by decide, trivial⟩
  · intro k hk
    have hcases : k = 0 ∨ k = 1 := by
      rw [List.length_singleton] at hk
      omega
    rcases hcases with rfl | rfl
    · rintro ⟨-, hlt⟩
      exact absurd hlt (by decide)
    · rintro ⟨hlt, -⟩
      exact absurd hlt (by decide)

/-- A buffer of 100 bytes: the first call is handed 924 of them. -/
theorem sendMessage_overrun :
    ¬Exact (fun _ => 0) 100 0 (sendMessage (fun _ => 0) 100 [924]) := by
  intro h
  have hin := h.inside (0, 924) List.mem_cons_self
  exact absurd hin (by decide)

end Socket
