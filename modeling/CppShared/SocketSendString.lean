/-
# Sending a string (`sendMessage(const std::string &)`)

The two sockets of `tcppipe.hpp` and the one of `tcpserver` send a string in the same
way: a short one in one call, a longer one in a loop that always hands a full
`max_buffer_len` to `send`, also where less is left.  The loop ends on a negative result;
`tcppipe.hpp` then says whether everything was sent.  The content is the first `size`
bytes at `content.data()`, and the results of `send` are the environment as for a buffer.

`sendMessage_delivered_iff` is the exact condition for a delivery that stays inside the
content: the loop never gets to a point with some bytes left, but fewer than
`max_buffer_len`, and `tcppipe.hpp` must not fail to send the empty string.
-/
import CppShared.SocketSend

namespace SendString

open Socket (slice advance total)

/-! ## The loop -/

/-- What happened so far in the loop; `pos` is the value with which it was left. -/
structure LoopTrace where
  ranges : List (ℕ × ℕ)
  accepted : Str
  pos : Option ℕ
  deriving DecidableEq, Repr

/-- The `while` loop from `pos` on, with pieces of `maxLen` bytes. -/
def loop (data : ℕ → UInt8) (size maxLen pos : ℕ) : List ℤ → LoopTrace
  | [] => if pos < size then ⟨[(pos, maxLen)], [], none⟩ else ⟨[], [], some pos⟩
  | len :: rest =>
      if pos < size then
        if len < 0 then ⟨[(pos, maxLen)], [], some pos⟩
        else
          let next := loop data size maxLen (advance pos len) rest
          ⟨(pos, maxLen) :: next.ranges, slice data pos len.toNat ++ next.accepted, next.pos⟩
      else ⟨[], [], some pos⟩

/-- What happened so far in a call: the ranges handed to `send`, the bytes it accepted,
and the value returned. -/
structure Trace where
  ranges : List (ℕ × ℕ)
  accepted : Str
  result : Option Bool
  deriving DecidableEq, Repr

/-- The one call for a short string; the comparison converts the result to `std::size_t`. -/
def short (data : ℕ → UInt8) (size : ℕ) : List ℤ → Trace
  | [] => ⟨[(0, size)], [], none⟩
  | len :: _ => ⟨[(0, size)], slice data 0 len.toNat, some (decide (toSize len = size))⟩

/-- `max_buffer_len`, and `MAX_PAYLOAD_LEN` of the server. -/
def maxBufferLen : ℕ := 1024

/-- `Socket::sendMessage` of `tcppipe.hpp`, the same text for Linux and for WIN32. -/
def pipeSendMessage (data : ℕ → UInt8) (size : ℕ) (results : List ℤ) : Trace :=
  if size < maxBufferLen then short data size results
  else
    let t := loop data size maxBufferLen 0 results
    ⟨t.ranges, t.accepted, t.pos.map fun pos => decide (pos = size)⟩

/-- `Socket::sendMessage` of `tcpserver`, which returns no value. -/
def serverSendMessage (data : ℕ → UInt8) (size : ℕ) (results : List ℤ) : Socket.SendTrace :=
  if size < maxBufferLen then
    let t := short data size results
    ⟨t.ranges, t.accepted, t.result.isSome⟩
  else
    let t := loop data size maxBufferLen 0 results
    ⟨t.ranges, t.accepted, t.pos.isSome⟩

/-! ## The property and the condition -/

/-- Delivery: every range lies inside the content, and what was accepted is a front part
of it. -/
structure Delivered (data : ℕ → UInt8) (size : ℕ) (ranges : List (ℕ × ℕ)) (accepted : Str) :
    Prop where
  inside : ∀ r ∈ ranges, r.1 + r.2 ≤ size
  front : accepted <+: slice data 0 size

/-- The value returned says whether the whole content was accepted. -/
def Honest (data : ℕ → UInt8) (size : ℕ) (t : Trace) : Prop :=
  ∀ b, t.result = some b → (b = true ↔ t.accepted = slice data 0 size)

/-- What `send` returns: an `int`, at most the length it was handed. -/
def Answers (size : ℕ) (results : List ℤ) : Prop :=
  ∀ len ∈ results, -2 ^ 31 ≤ len ∧ len ≤ min size maxBufferLen

/-- Some bytes are left, but fewer than a piece. -/
def Tight (size pos : ℕ) : Prop := pos < size ∧ size < pos + maxBufferLen

/-- The loop never stands at a tight point. -/
def Roomy (size : ℕ) (results : List ℤ) : Prop :=
  size < maxBufferLen ∨ ∀ k ≤ results.length, (∀ len ∈ results.take k, 0 ≤ len) →
    ¬Tight size (total (results.take k))

/-! ## Slices -/

theorem length_slice (data : ℕ → UInt8) (pos len : ℕ) : (slice data pos len).length = len := by
  unfold slice
  rw [List.length_map, List.length_range]

/-- A slice is a front part of a longer one. -/
theorem slice_prefix (data : ℕ → UInt8) (pos : ℕ) {m n : ℕ} (h : m ≤ n) :
    slice data pos m <+: slice data pos n := by
  refine ⟨slice data (pos + m) (n - m), ?_⟩
  rw [Socket.slice_append, Nat.add_sub_cancel' h]

/-- Slices from one position are told apart by their lengths. -/
theorem slice_eq_iff (data : ℕ → UInt8) (pos m n : ℕ) :
    slice data pos m = slice data pos n ↔ m = n := by
  constructor
  · intro h
    have hlength := congrArg List.length h
    rwa [length_slice, length_slice] at hlength
  · rintro rfl
    rfl

/-! ## The whole loop -/

/-- What the loop has to do from `pos` on. -/
structure Sends (data : ℕ → UInt8) (size pos : ℕ) (t : LoopTrace) : Prop where
  inside : ∀ r ∈ t.ranges, r.1 + r.2 ≤ size
  front : t.accepted <+: slice data pos (size - pos)
  honest : ∀ p, t.pos = some p → (p = size ↔ t.accepted = slice data pos (size - pos))

/-- A piece leaves the content exactly at a tight point. -/
theorem inside_iff {size pos : ℕ} (hlt : pos < size) :
    pos + maxBufferLen ≤ size ↔ ¬Tight size pos := by
  unfold Tight
  omega

/-- One more result that is not negative. -/
theorem loop_cons (data : ℕ → UInt8) {size pos : ℕ} {len : ℤ} {rest : List ℤ}
    (hsize : size < 2 ^ 64) (hlt : pos < size) (hlen : 0 ≤ len) (hle : pos + len.toNat ≤ size) :
    loop data size maxBufferLen pos (len :: rest) =
      ⟨(pos, maxBufferLen) :: (loop data size maxBufferLen (pos + len.toNat) rest).ranges,
        slice data pos len.toNat ++ (loop data size maxBufferLen (pos + len.toNat) rest).accepted,
        (loop data size maxBufferLen (pos + len.toNat) rest).pos⟩ := by
  rw [loop, if_pos hlt, if_neg (Int.not_lt.mpr hlen), Socket.advance_eq hsize hle]

/-- A loop that goes on delivers the piece and the rest. -/
theorem Sends.cons {data : ℕ → UInt8} {size pos len : ℕ} {t : LoopTrace} (hlt : pos < size)
    (hle : pos + len ≤ size) (hroom : ¬Tight size pos) (h : Sends data size (pos + len) t) :
    Sends data size pos
      ⟨(pos, maxBufferLen) :: t.ranges, slice data pos len ++ t.accepted, t.pos⟩ := by
  have hsplit : slice data pos (size - pos) =
      slice data pos len ++ slice data (pos + len) (size - (pos + len)) := by
    rw [Socket.slice_append]
    congr 1
    omega
  refine ⟨fun r hr => ?_, ?_, fun p hp => ?_⟩
  · rcases List.mem_cons.mp hr with rfl | hr
    · exact (inside_iff hlt).mpr hroom
    · exact h.inside r hr
  · rw [hsplit]
    exact (List.prefix_append_right_inj _).mpr h.front
  · rw [h.honest p hp, hsplit]
    exact (List.append_right_inj _).symm

/-- A loop that stops before the end, with one last piece that fits. -/
theorem sends_stopped (data : ℕ → UInt8) {size pos : ℕ} (hlt : pos < size)
    (hroom : ¬Tight size pos) {p : Option ℕ} (hp : ∀ q, p = some q → q = pos) :
    Sends data size pos ⟨[(pos, maxBufferLen)], [], p⟩ := by
  refine ⟨fun r hr => ?_, List.nil_prefix, fun q hq => ?_⟩
  · rw [List.mem_singleton.mp hr]
    exact (inside_iff hlt).mpr hroom
  · rw [hp q hq]
    constructor
    · intro heq
      omega
    · intro hnil
      have hlength := congrArg List.length hnil
      rw [length_slice, List.length_nil] at hlength
      omega

/-- At the end of the content the loop is left. -/
theorem sends_done (data : ℕ → UInt8) (size : ℕ) : Sends data size size ⟨[], [], some size⟩ := by
  refine ⟨fun r hr => absurd hr List.not_mem_nil, List.nil_prefix, fun p hp => ?_⟩
  obtain rfl := Option.some.inj hp
  rw [Nat.sub_self]
  exact iff_of_true rfl rfl

/-- No sum of results in front of a negative one is tight, from `pos` on. -/
def RoomyFrom (size pos : ℕ) (results : List ℤ) : Prop :=
  ∀ k ≤ results.length, (∀ len ∈ results.take k, 0 ≤ len) →
    ¬Tight size (pos + total (results.take k))

theorem RoomyFrom.head {size pos : ℕ} {results : List ℤ} (h : RoomyFrom size pos results) :
    ¬Tight size pos := by
  have hzero := h 0 (Nat.zero_le _) (by simp)
  simpa [total] using hzero

theorem roomyFrom_cons {size pos : ℕ} {len : ℤ} {rest : List ℤ} (hroom : ¬Tight size pos)
    (hlen : 0 ≤ len) :
    RoomyFrom size pos (len :: rest) ↔ RoomyFrom size (pos + len.toNat) rest := by
  constructor
  · intro h k hk hnonneg
    have hnot := h (k + 1) (by simpa using hk) (by simpa using ⟨hlen, hnonneg⟩)
    rw [Socket.total_take_succ, ← Nat.add_assoc] at hnot
    exact hnot
  · intro h k hk hnonneg
    cases k with
    | zero => simpa [total] using hroom
    | succ k =>
        rw [Socket.total_take_succ, ← Nat.add_assoc]
        refine h k (by simpa using hk) fun l hl => hnonneg l ?_
        exact List.mem_cons_of_mem _ hl

/-- Behind a negative result nothing counts. -/
theorem roomyFrom_of_neg {size pos : ℕ} {len : ℤ} {rest : List ℤ} (hroom : ¬Tight size pos)
    (hneg : len < 0) : RoomyFrom size pos (len :: rest) := by
  intro k _ hnonneg
  cases k with
  | zero => simpa [total] using hroom
  | succ k => exact absurd (hnonneg len List.mem_cons_self) (Int.not_le.mpr hneg)

/-- At the end of the content nothing is left. -/
theorem roomyFrom_end (size : ℕ) (results : List ℤ) : RoomyFrom size size results := by
  intro k _ _ htight
  have hlt := htight.1
  omega

/-- **Loop lemma.**  A loop that is never at a tight point does what it has to. -/
theorem loop_sends (data : ℕ → UInt8) {size : ℕ} (hsize : size < 2 ^ 64) (results : List ℤ)
    (hanswers : ∀ len ∈ results, len ≤ maxBufferLen) {pos : ℕ} (hpos : pos ≤ size)
    (hroomy : RoomyFrom size pos results) :
    Sends data size pos (loop data size maxBufferLen pos results) := by
  induction results generalizing pos with
  | nil =>
      rcases Nat.lt_or_eq_of_le hpos with hlt | rfl
      · rw [loop, if_pos hlt]
        exact sends_stopped data hlt hroomy.head (by simp)
      · rw [loop, if_neg (Nat.lt_irrefl _)]
        exact sends_done data pos
  | cons len rest ih =>
      rcases Nat.lt_or_eq_of_le hpos with hlt | rfl
      · by_cases hneg : len < 0
        · rw [loop, if_pos hlt, if_pos hneg]
          exact sends_stopped data hlt hroomy.head (by simp [eq_comm])
        · have hlen := Int.not_lt.mp hneg
          have hfits := (inside_iff hlt).mpr hroomy.head
          have hbound := hanswers len List.mem_cons_self
          have hle : pos + len.toNat ≤ size := by omega
          rw [loop_cons data hsize hlt hlen hle]
          apply Sends.cons hlt hle hroomy.head
          apply ih (fun l hl => hanswers l (List.mem_cons_of_mem _ hl)) hle
          exact (roomyFrom_cons hroomy.head hlen).mp hroomy
      · rw [loop, if_neg (Nat.lt_irrefl _)]
        exact sends_done data pos

/-- **Loop lemma.**  A loop with every range inside the content is never at a tight point. -/
theorem loop_roomy (data : ℕ → UInt8) {size : ℕ} (hsize : size < 2 ^ 64) (results : List ℤ)
    (hanswers : ∀ len ∈ results, len ≤ maxBufferLen) {pos : ℕ} (hpos : pos ≤ size)
    (hinside : ∀ r ∈ (loop data size maxBufferLen pos results).ranges, r.1 + r.2 ≤ size) :
    RoomyFrom size pos results := by
  induction results generalizing pos with
  | nil =>
      rcases Nat.lt_or_eq_of_le hpos with hlt | rfl
      · rw [loop, if_pos hlt] at hinside
        intro k _ _
        rw [List.take_nil]
        exact (inside_iff hlt).mp (hinside _ List.mem_cons_self)
      · exact roomyFrom_end pos []
  | cons len rest ih =>
      rcases Nat.lt_or_eq_of_le hpos with hlt | rfl
      · by_cases hneg : len < 0
        · rw [loop, if_pos hlt, if_pos hneg] at hinside
          exact roomyFrom_of_neg ((inside_iff hlt).mp (hinside _ List.mem_cons_self)) hneg
        · have hlen := Int.not_lt.mp hneg
          have hbound := hanswers len List.mem_cons_self
          have hfits : pos + maxBufferLen ≤ size := by
            apply hinside (pos, maxBufferLen)
            rw [loop, if_pos hlt, if_neg hneg]
            exact List.mem_cons_self
          have hle : pos + len.toNat ≤ size := by omega
          rw [loop_cons data hsize hlt hlen hle] at hinside
          apply (roomyFrom_cons ((inside_iff hlt).mp hfits) hlen).mpr
          exact ih (fun l hl => hanswers l (List.mem_cons_of_mem _ hl)) hle
            fun r hr => hinside r (List.mem_cons_of_mem _ hr)
      · exact roomyFrom_end pos (len :: rest)

/-! ## The short string -/

/-- The one call for a short string is inside the content. -/
theorem short_delivered (data : ℕ → UInt8) {size : ℕ} {results : List ℤ}
    (hanswers : Answers size results) :
    Delivered data size (short data size results).ranges (short data size results).accepted := by
  cases results with
  | nil =>
      refine ⟨fun r hr => ?_, List.nil_prefix⟩
      rw [List.mem_singleton.mp hr, Nat.zero_add]
  | cons len rest =>
      have hle := (hanswers len List.mem_cons_self).2
      refine ⟨fun r hr => ?_, slice_prefix data 0 (by omega)⟩
      rw [List.mem_singleton.mp hr, Nat.zero_add]

/-- A result of `send` as a `std::size_t`. -/
theorem toSize_eq_iff {size : ℕ} {len : ℤ} (hsize : size < maxBufferLen)
    (hlen : -2 ^ 31 ≤ len ∧ len ≤ min size maxBufferLen) : toSize len = size ↔ len = size := by
  unfold maxBufferLen at hsize hlen
  unfold toSize
  omega

/-- What is said about a short string is right, unless it is empty and `send` fails. -/
theorem short_honest_iff (data : ℕ → UInt8) {size : ℕ} {results : List ℤ}
    (hsize : size < maxBufferLen) (hanswers : Answers size results) :
    Honest data size (short data size results) ↔
      (size = 0 → ∀ len ∈ results.head?, 0 ≤ len) := by
  cases results with
  | nil => exact iff_of_true (fun b hb => by simp [short] at hb) (by simp)
  | cons len rest =>
      have hlen := hanswers len List.mem_cons_self
      have hhonest : Honest data size (short data size (len :: rest)) ↔
          (len = size ↔ len.toNat = size) := by
        unfold Honest short
        simp only [Option.some.injEq, forall_eq', decide_eq_true_eq, slice_eq_iff,
          toSize_eq_iff hsize hlen]
      rw [hhonest]
      simp only [List.head?_cons, Option.mem_some_iff, forall_eq']
      omega

/-! ## Main result -/

/-- **Delivery of a string.**  For both sockets: the calls stay inside the content and a
front part of it is accepted if and only if the loop is never at a tight point; and what
`tcppipe.hpp` returns is right as well, unless the string is empty and `send` fails. -/
theorem sendMessage_delivered_iff (data : ℕ → UInt8) {size : ℕ} {results : List ℤ}
    (hsize : size < 2 ^ 64) (hanswers : Answers size results) :
    (Delivered data size (pipeSendMessage data size results).ranges
        (pipeSendMessage data size results).accepted ∧
      Honest data size (pipeSendMessage data size results) ↔
      Roomy size results ∧ (size = 0 → ∀ len ∈ results.head?, 0 ≤ len)) ∧
    (Delivered data size (serverSendMessage data size results).ranges
        (serverSendMessage data size results).accepted ↔ Roomy size results) := by
  unfold pipeSendMessage serverSendMessage
  by_cases hshort : size < maxBufferLen
  · simp only [if_pos hshort]
    have hroomy : Roomy size results := Or.inl hshort
    have hdelivered := short_delivered data hanswers
    exact ⟨and_congr (iff_of_true hdelivered hroomy) (short_honest_iff data hshort hanswers),
      iff_of_true hdelivered hroomy⟩
  · simp only [if_neg hshort]
    have hbound : ∀ len ∈ results, len ≤ maxBufferLen := by
      intro len hlen
      have hle := (hanswers len hlen).2
      omega
    have hroomy : Roomy size results ↔ RoomyFrom size 0 results := by
      unfold Roomy RoomyFrom
      simp only [hshort, false_or, Nat.zero_add]
    have hsends := fun h => loop_sends data hsize results hbound (Nat.zero_le size) (hroomy.mp h)
    have hback := fun h => hroomy.mpr (loop_roomy data hsize results hbound (Nat.zero_le size) h)
    have hpos : size = 0 → ∀ len ∈ results.head?, 0 ≤ len := by
      intro hzero
      unfold maxBufferLen at hshort
      omega
    refine ⟨⟨fun h => ⟨hback h.1.inside, hpos⟩, fun h => ?_⟩, fun h => hback h.inside, fun h => ?_⟩
    · have hs := hsends h.1
      refine ⟨⟨hs.inside, hs.front⟩, fun b hb => ?_⟩
      obtain ⟨p, hp, rfl⟩ := Option.map_eq_some_iff.mp hb
      rw [decide_eq_true_eq]
      exact hs.honest p hp
    · exact ⟨(hsends h).inside, (hsends h).front⟩

/-- Two full pieces, each accepted whole. -/
theorem sendMessage_delivered_twoPieces :
    Honest (fun _ => 0) 2048 (pipeSendMessage (fun _ => 0) 2048 [1024, 1024]) := by
  have hanswers : Answers 2048 [1024, 1024] := by
    intro len hlen
    obtain rfl : len = 1024 := by simpa using hlen
    decide
  refine ((sendMessage_delivered_iff (fun _ => 0) (by decide) hanswers).1.mpr ⟨?_, by simp⟩).2
  refine Or.inr fun k hk _ => ?_
  have hcases : k = 0 ∨ k = 1 ∨ k = 2 := by
    rw [List.length_cons, List.length_singleton] at hk
    omega
  rcases hcases with rfl | rfl | rfl
  · exact fun htight => absurd htight.2 (by decide)
  · exact fun htight => absurd htight.2 (by decide)
  · exact fun htight => absurd htight.1 (by decide)

/-- A string of 1025 bytes: the second call is handed 1024 where one byte is left. -/
theorem sendMessage_string_overruns : Answers 1025 [1024] ∧
    ¬Delivered (fun _ => 0) 1025 (pipeSendMessage (fun _ => 0) 1025 [1024]).ranges
      (pipeSendMessage (fun _ => 0) 1025 [1024]).accepted := by
  constructor
  · intro len hlen
    rw [List.mem_singleton.mp hlen]
    decide
  · intro h
    have hinside := h.inside (1024, 1024) (List.mem_cons_of_mem _ List.mem_cons_self)
    exact absurd hinside (by decide)

end SendString
