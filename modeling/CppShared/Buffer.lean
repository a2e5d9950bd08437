/-
# The double buffer (`class Buffer` in `src/buffer.hpp`)

A `Buffer` writes to one array while another one is read.  `write` tests whether the
write side is already full: then it swaps the two arrays, clears the new write side and
returns 1, without the data.  Otherwise it copies all of the data behind the first `wLen`
bytes and returns 0; it does not test whether they fit.

* `in_bounds_iff`: no copy leaves its array exactly if every write to a side that is not
  full fits into the rest of it;
* `stream`: then what the swaps expose and what is still on the write side are together
  the data of the writes that returned 0.
-/
import CppShared.Transition
import Mathlib.Algebra.Group.Nat.Defs
import Mathlib.Logic.Function.Basic

namespace Buffer

/-! ## The class -/

/-- The members, and the arrays: `arrays p` are the bytes of the array that `p` points
to. -/
structure Sys where
  wData : ℕ
  wLen : ℕ
  rData : ℕ
  rLen : ℕ
  capacity : ℕ
  arrays : ℕ → List UInt8
  /-- A `memcpy` or a `memset` went past the end of its array. -/
  overrun : Bool
  /-- The value of `wLen + len` did not fit into an `unsigned long`. -/
  wrapped : Bool

/-- `memcpy(a + pos, data, len)`, as far as it stays inside the array. -/
def memcpy (a : List UInt8) (pos : ℕ) (data : List UInt8) : List UInt8 :=
  (a.take pos ++ data ++ a.drop (pos + data.length)).take a.length

/-- `memset(a, 0, n)`, as far as it stays inside the array. -/
def memset (a : List UInt8) (n : ℕ) : List UInt8 :=
  (List.replicate n 0 ++ a.drop n).take a.length

/-- `write`: the object afterwards, and what is returned. -/
def write (s : Sys) (data : List UInt8) : Sys × ℕ :=
  if s.wLen ≥ s.capacity then
    ({ s with
        rData := s.wData
        rLen := s.wLen
        wData := s.rData
        wLen := 0
        arrays := Function.update s.arrays s.rData (memset (s.arrays s.rData) s.capacity)
        overrun := s.overrun || decide ((s.arrays s.rData).length < s.capacity) }, 1)
  else
    ({ s with
        arrays := Function.update s.arrays s.wData (memcpy (s.arrays s.wData) s.wLen data)
        wLen := (s.wLen + data.length) % 2 ^ 64
        overrun := s.overrun || decide ((s.arrays s.wData).length < s.wLen + data.length)
        wrapped := s.wrapped || decide (2 ^ 64 ≤ s.wLen + data.length) }, 0)

/-- A call with no regard to what is returned; the label is the data. -/
def system (s₀ : Sys) : LTS Sys (List UInt8) where
  init s := s = s₀
  step s data := some (write s data).1

/-! ## Copying -/

@[simp] theorem length_memcpy (a : List UInt8) (pos : ℕ) (data : List UInt8) :
    (memcpy a pos data).length = a.length := by
  simp only [memcpy, List.length_take, List.length_append, List.length_drop]
  omega

/-- A copy that fits stands behind what was there before. -/
theorem take_memcpy {a : List UInt8} {pos : ℕ} {data : List UInt8}
    (h : pos + data.length ≤ a.length) :
    (memcpy a pos data).take (pos + data.length) = a.take pos ++ data := by
  have hlen : (a.take pos ++ data).length = pos + data.length := by
    rw [List.length_append, List.length_take]
    omega
  rw [memcpy, List.take_take, Nat.min_eq_left h, ← hlen]
  exact List.take_left

/-- An array is cleared as a whole. -/
theorem memset_length (a : List UInt8) : memset a a.length = List.replicate a.length 0 := by
  rw [memset, List.drop_length, List.append_nil, List.take_of_length_le]
  exact List.length_replicate.le

/-! ## The two arrays -/

/-- Two different arrays of `capacity` bytes each. -/
structure Layout (s : Sys) : Prop where
  pos : 0 < s.capacity
  small : s.capacity < 2 ^ 64
  distinct : s.wData ≠ s.rData
  lengthW : (s.arrays s.wData).length = s.capacity
  lengthR : (s.arrays s.rData).length = s.capacity

/-- A write to a full side swaps. -/
theorem write_full {s : Sys} (hs : Layout s) (h : s.capacity ≤ s.wLen) (data : List UInt8) :
    write s data =
      ({ s with
          rData := s.wData
          rLen := s.wLen
          wData := s.rData
          wLen := 0
          arrays := Function.update s.arrays s.rData (List.replicate s.capacity 0) }, 1) := by
  have hfits : ¬(s.arrays s.rData).length < s.capacity := by
    rw [hs.lengthR]
    exact Nat.lt_irrefl _
  have hclear : memset (s.arrays s.rData) s.capacity = List.replicate s.capacity 0 := by
    rw [← hs.lengthR]
    exact memset_length _
  simp only [write, if_pos h, hclear, hfits, decide_false, Bool.or_false]

/-- A write to a side with enough room copies. -/
theorem write_room {s : Sys} (hs : Layout s) {data : List UInt8}
    (h : s.wLen < s.capacity) (hroom : s.wLen + data.length ≤ s.capacity) :
    write s data =
      ({ s with
          arrays := Function.update s.arrays s.wData (memcpy (s.arrays s.wData) s.wLen data)
          wLen := s.wLen + data.length }, 0) := by
  have hfits : ¬(s.arrays s.wData).length < s.wLen + data.length := by
    rw [hs.lengthW]
    exact not_lt.mpr hroom
  have hlt : s.wLen + data.length < 2 ^ 64 := lt_of_le_of_lt hroom hs.small
  simp only [write, if_neg (not_le.mpr h), hfits, not_le.mpr hlt, decide_false, Bool.or_false,
    Nat.mod_eq_of_lt hlt]

/-- **Step lemma.**  A write keeps the two arrays, whatever its length. -/
theorem Layout.write {s : Sys} (hs : Layout s) (data : List UInt8) :
    Layout (Buffer.write s data).1 := by
  have hne := hs.distinct
  by_cases hfull : s.capacity ≤ s.wLen
  · rw [write_full hs hfull data]
    refine ⟨hs.pos, hs.small, hne.symm, ?_, ?_⟩
    · show (Function.update s.arrays s.rData _ s.rData).length = s.capacity
      rw [Function.update_self]
      exact List.length_replicate
    · show (Function.update s.arrays s.rData _ s.wData).length = s.capacity
      rw [Function.update_of_ne hne]
      exact hs.lengthW
  · rw [Buffer.write, if_neg hfull]
    refine ⟨hs.pos, hs.small, hne, ?_, ?_⟩
    · show (Function.update s.arrays s.wData _ s.wData).length = s.capacity
      rw [Function.update_self, length_memcpy]
      exact hs.lengthW
    · show (Function.update s.arrays s.wData _ s.rData).length = s.capacity
      rw [Function.update_of_ne hne.symm]
      exact hs.lengthR

theorem layout_of_reachable {s₀ s : Sys} {ok : Sys → List UInt8 → Prop} (h₀ : Layout s₀)
    (h : (system s₀).Reachable ok s) : Layout s := by
  refine LTS.Reachable.induction (I := Layout) ?_ ?_ h
  · rintro _ rfl
    exact h₀
  · intro s data t _ hs _ hstep
    obtain rfl := Option.some.inj hstep
    exact hs.write data

/-! ## The bounds -/

/-- The fill levels are within the capacity, and so were all copies and sums. -/
structure InBounds (s : Sys) : Prop where
  wLen_le : s.wLen ≤ s.capacity
  rLen_le : s.rLen ≤ s.capacity
  inside : s.overrun = false
  exact : s.wrapped = false

/-- What is written to a side that is not full fits into the rest of it. -/
def fits (s : Sys) (data : List UInt8) : Prop :=
  s.wLen < s.capacity → data.length ≤ s.capacity - s.wLen

instance (s : Sys) (data : List UInt8) : Decidable (fits s data) :=
  inferInstanceAs (Decidable (_ → _))

/-- **Step lemma.**  A write that fits keeps the bounds. -/
theorem InBounds.write {s : Sys} {data : List UInt8} (hs : InBounds s) (hl : Layout s)
    (hok : fits s data) : InBounds (Buffer.write s data).1 := by
  by_cases hfull : s.capacity ≤ s.wLen
  · rw [write_full hl hfull data]
    exact ⟨Nat.zero_le _, hs.wLen_le, hs.inside, hs.exact⟩
  · have hlt := not_le.mp hfull
    have hle := hok hlt
    have hroom : s.wLen + data.length ≤ s.capacity := by omega
    rw [write_room hl hlt hroom]
    exact ⟨hroom, hs.rLen_le, hs.inside, hs.exact⟩

/-- A write that does not fit overruns the array. -/
theorem overrun_write {s : Sys} {data : List UInt8} (hl : Layout s) (hnot : ¬fits s data) :
    (write s data).1.overrun = true := by
  obtain ⟨hlt, hgt⟩ := Classical.not_imp.mp hnot
  have hover : (s.arrays s.wData).length < s.wLen + data.length := by
    rw [hl.lengthW]
    omega
  rw [write, if_neg (not_le.mpr hlt)]
  simp [hover]

/-- **No copy leaves its array** in exactly the histories in which the read side starts
within the capacity and each write to a side that is not full fits into the rest of it. -/
theorem in_bounds_iff {s₀ s : Sys} {calls : List (List UInt8)} (h₀ : Layout s₀)
    (hw : s₀.wLen ≤ s₀.capacity) (hnew : s₀.overrun = false ∧ s₀.wrapped = false)
    (h : (system s₀).Path (fun _ _ => True) s₀ calls s) :
    (∀ bs t, bs <+: calls → (system s₀).Path (fun _ _ => True) s₀ bs t → InBounds t) ↔
      s₀.rLen ≤ s₀.capacity ∧ (system s₀).Path fits s₀ calls s := by
  have hiff : s₀.rLen ≤ s₀.capacity →
      ((∀ bs t, bs <+: calls → (system s₀).Path (fun _ _ => True) s₀ bs t → InBounds t) ↔
        (system s₀).Path fits s₀ calls s) := by
    intro hr
    have hinit : (system s₀).init s₀ := rfl
    apply LTS.Path.always_iff hinit h
    · rintro _ rfl
      exact ⟨hw, hr, hnew.1, hnew.2⟩
    · intro s data t hreach hs hok hstep
      obtain rfl := Option.some.inj hstep
      exact hs.write (layout_of_reachable h₀ hreach) hok
    · intro s data t hreach _ hnot hstep ht
      obtain rfl := Option.some.inj hstep
      have hover := overrun_write (layout_of_reachable h₀ hreach) hnot
      exact absurd (ht.inside.symm.trans hover) Bool.noConfusion
    · exact fun _ _ _ => trivial
  constructor
  · intro hall
    have hr := (hall [] s₀ List.nil_prefix (LTS.Path.nil s₀)).rLen_le
    exact ⟨hr, (hiff hr).mp hall⟩
  · rintro ⟨hr, hpath⟩
    exact (hiff hr).mpr hpath

/-- A new buffer over two arrays of `n` bytes. -/
def fresh (n : ℕ) : Sys where
  wData := 0
  wLen := 0
  rData := 1
  rLen := 0
  capacity := n
  arrays _ := List.replicate n 0
  overrun := false
  wrapped := false

theorem layout_fresh {n : ℕ} (hpos : 0 < n) (hsmall : n < 2 ^ 64) : Layout (fresh n) :=
  ⟨hpos, hsmall, Nat.zero_ne_one, List.length_replicate, List.length_replicate⟩

/-- `in_bounds_iff` at three writes to a buffer of two bytes. -/
theorem in_bounds_iff_two : ∃ s,
    (∀ bs t, bs <+: [[1], [2], [3, 4]] →
      (system (fresh 2)).Path (fun _ _ => True) (fresh 2) bs t → InBounds t) ↔
      (fresh 2).rLen ≤ (fresh 2).capacity ∧
        (system (fresh 2)).Path fits (fresh 2) [[1], [2], [3, 4]] s :=
  ⟨_, in_bounds_iff (layout_fresh (by decide) (by decide)) (by decide) ⟨rfl, rfl⟩
    (LTS.path_of_exec (show LTS.exec _ _ _ _ = some _ from rfl))⟩

/-- Three bytes are written to a buffer of two. -/
theorem buffer_overrun :
    ¬∀ s, (system (fresh 2)).Reachable (fun _ _ => True) s → InBounds s := by
  intro hall
  have hreach : (system (fresh 2)).Reachable (fun _ _ => True) (write (fresh 2) [1, 2, 3]).1 :=
    (LTS.Reachable.init rfl).step trivial rfl
  exact absurd (hall _ hreach).inside (by decide)

/-! ## The byte stream -/

/-- What a caller sees of a call. -/
inductive Event
  /-- It returned 1, and the read side has this content. -/
  | exposed (content : List UInt8)
  /-- It returned 0. -/
  | accepted (data : List UInt8)

/-- The content of the write side. -/
def written (s : Sys) : List UInt8 := (s.arrays s.wData).take s.wLen

/-- The content of the read side. -/
def readable (s : Sys) : List UInt8 := (s.arrays s.rData).take s.rLen

/-- The event of a call. -/
def observe (s : Sys) (data : List UInt8) : List Event :=
  let r := write s data
  if r.2 = 1 then [.exposed (readable r.1)] else [.accepted data]

/-- The bytes that the swaps have exposed. -/
def exposed (record : List Event) : List UInt8 :=
  record.flatMap fun
    | .exposed content => content
    | .accepted _ => []

/-- The bytes that the writes which returned 0 have brought. -/
def accepted (record : List Event) : List UInt8 :=
  record.flatMap fun
    | .exposed _ => []
    | .accepted data => data

/-- The two sides have changed places. -/
def Swapped (s t : Sys) : Prop := t.wData = s.rData ∧ t.rData = s.wData ∧ t.rLen = s.wLen

/-- The bytes of the old write side are as they were, those of the new one are zero. -/
def StoredNothing (s t : Sys) : Prop :=
  t.arrays s.wData = s.arrays s.wData ∧ t.arrays t.wData = List.replicate s.capacity 0

/-- What a write returns. -/
theorem write_eq_one_iff {s : Sys} (hs : Layout s) (data : List UInt8) :
    (write s data).2 = 1 ↔
      Swapped s (write s data).1 ∧ StoredNothing s (write s data).1 ∧
        (write s data).1.wLen = 0 := by
  by_cases hfull : s.capacity ≤ s.wLen
  · rw [write_full hs hfull data]
    refine iff_of_true rfl ⟨⟨rfl, rfl, rfl⟩, ⟨?_, ?_⟩, rfl⟩
    · exact Function.update_of_ne hs.distinct _ _
    · exact Function.update_self _ _ _
  · have hzero : (write s data).2 = 0 := by rw [write, if_neg hfull]
    have hsame : (write s data).1.wData = s.wData := by rw [write, if_neg hfull]
    refine iff_of_false (by omega) ?_
    rintro ⟨⟨hswap, -⟩, -⟩
    exact hs.distinct (hsame.symm.trans hswap)

/-- The invariant of the stream. -/
structure Stream (s₀ : Sys) (p : Sys × List Event) : Prop where
  layout : Layout p.1
  wLen_le : p.1.wLen ≤ p.1.capacity
  pair : p.1.wData = s₀.wData ∧ p.1.rData = s₀.rData ∨
    p.1.wData = s₀.rData ∧ p.1.rData = s₀.wData
  bytes : exposed p.2 ++ written p.1 = accepted p.2

/-- **Step lemma.**  A write that fits continues the stream. -/
theorem Stream.write {s₀ s : Sys} {record : List Event} {data : List UInt8}
    (hs : Stream s₀ (s, record)) (hok : fits s data) :
    Stream s₀ ((Buffer.write s data).1, record ++ observe s data) := by
  have hl : Layout s := hs.layout
  have hw : s.wLen ≤ s.capacity := hs.wLen_le
  have hbytes : exposed record ++ written s = accepted record := hs.bytes
  have hnext := hl.write data
  unfold observe
  by_cases hfull : s.capacity ≤ s.wLen
  · rw [write_full hl hfull data] at hnext ⊢
    refine ⟨hnext, Nat.zero_le _, hs.pair.symm.imp And.symm And.symm, ?_⟩
    -- what stood on the write side is exposed as a whole
    have hcontent : (Function.update s.arrays s.rData (List.replicate s.capacity 0) s.wData).take
        s.wLen = written s := by
      rw [Function.update_of_ne hl.distinct]
      rfl
    simp only [if_true, exposed, accepted, written, readable, List.flatMap_append,
      List.flatMap_singleton, List.take_zero, List.append_nil] at hbytes hcontent ⊢
    rw [hcontent]
    exact hbytes
  · have hlt := not_le.mp hfull
    have hle := hok hlt
    have hroom : s.wLen + data.length ≤ s.capacity := by omega
    rw [write_room hl hlt hroom] at hnext ⊢
    refine ⟨hnext, hroom, hs.pair, ?_⟩
    have hcontent : (Function.update s.arrays s.wData
        (memcpy (s.arrays s.wData) s.wLen data) s.wData).take (s.wLen + data.length) =
          written s ++ data := by
      rw [Function.update_self]
      exact take_memcpy (hl.lengthW.symm ▸ hroom)
    simp only [Nat.zero_ne_one, if_false, exposed, accepted, written, List.flatMap_append,
      List.flatMap_singleton, List.append_nil] at hbytes hcontent ⊢
    rw [hcontent, ← List.append_assoc, hbytes]

/-- **The double buffer keeps the byte stream**, as long as each write to a side that is
not full fits into the rest of it. -/
theorem stream {s₀ : Sys} {calls : List (List UInt8)} {q : Sys × List Event} (h₀ : Layout s₀)
    (hempty : s₀.wLen = 0)
    (h : ((system s₀).watch observe).Path (fun p data => fits p.1 data) (s₀, []) calls q) :
    exposed q.2 ++ written q.1 = accepted q.2 ∧
      (∀ data, (write q.1 data).2 = 1 ↔
        Swapped q.1 (write q.1 data).1 ∧ StoredNothing q.1 (write q.1 data).1 ∧
          (write q.1 data).1.wLen = 0) ∧
      q.1.wData ≠ q.1.rData ∧
      (q.1.wData = s₀.wData ∧ q.1.rData = s₀.rData ∨
        q.1.wData = s₀.rData ∧ q.1.rData = s₀.wData) := by
  have hinv : Stream s₀ q := by
    refine LTS.Path.preserves h ?_ ?_
    · refine ⟨h₀, by rw [hempty]; exact Nat.zero_le _, Or.inl ⟨rfl, rfl⟩, ?_⟩
      simp [exposed, accepted, written, hempty]
    · intro p data r hp hok hstep
      obtain ⟨hmove, hrecord⟩ := LTS.watch_step.mp hstep
      obtain ⟨t, record⟩ := r
      obtain rfl := Option.some.inj hmove
      obtain rfl := hrecord
      exact hp.write hok
  exact ⟨hinv.bytes, write_eq_one_iff hinv.layout, hinv.layout.distinct, hinv.pair⟩

/-- `stream` at a buffer of two bytes that is filled twice. -/
theorem stream_two : ∃ q : Sys × List Event,
    exposed q.2 ++ written q.1 = accepted q.2 ∧ accepted q.2 = [1, 2, 3, 4, 5] := by
  have hpath : ((system (fresh 2)).watch observe).Path (fun p data => fits p.1 data)
      (fresh 2, []) [[1], [2], [9], [3, 4], [9, 9], [5]] _ :=
    LTS.path_of_exec (show LTS.exec _ _ _ _ = some _ from rfl)
  exact ⟨_, (stream (layout_fresh (by decide) (by decide)) rfl hpath).1, by decide⟩

end Buffer
