/-
# Packets (`packet.h`)

`struct Packet` is kept as the 1024 bytes it occupies, because both ends read it
from the wire by a cast: `signature` at offset 0, `type` at 2, `datasize` at 4,
`src` at 6, `dst` at 38 and `data` at 70.  The 16-bit fields are little-endian.
-/
import CppShared.Bytes
import CppShared.Framing

/-- `MAX_BUFFER_LEN`, which is also `sizeof(Packet)`. -/
def maxBufferLen : ℕ := 1024

/-- `TcpMessage_Show`. -/
def tcpMessageShow : ℕ := 1

/-- `Packet`. -/
structure Packet where
  bytes : Str
  size : bytes.length = maxBufferLen
  deriving DecidableEq

namespace Packet

/-- A packet after `memset` with zero. -/
def zero : Packet := ⟨List.replicate maxBufferLen 0, List.length_replicate⟩

/-- Write bytes at an offset; what would lie behind the packet is cut off. -/
def write (p : Packet) (off : ℕ) (bs : Str) : Packet where
  bytes := (p.bytes.take off ++ bs ++ p.bytes.drop (off + bs.length)).take maxBufferLen
  size := by
    have hsize := p.size
    simp only [List.length_take, List.length_append, List.length_drop]
    omega

/-! ## Fields -/

/-- The bytes of a field. -/
def fieldAt (p : Packet) (off len : ℕ) : Str := (p.bytes.drop off).take len

/-- The value of a little-endian number. -/
def le : Str → ℕ
  | [] => 0
  | b :: rest => b.toNat + 256 * le rest

def signature (p : Packet) : ℕ := le (p.fieldAt 0 2)

def type (p : Packet) : ℕ := le (p.fieldAt 2 2)

def datasize (p : Packet) : ℕ := le (p.fieldAt 4 2)

def src (p : Packet) : Str := p.fieldAt 6 32

def dst (p : Packet) : Str := p.fieldAt 38 32

def data (p : Packet) : Str := p.fieldAt 70 (maxBufferLen - 70)

/-- The C string that begins at an offset. -/
def cstr (p : Packet) (off : ℕ) : Str := (p.bytes.drop off).takeWhile (· ≠ 0)

/-- Equal in every field but `src`. -/
structure SameButSrc (p q : Packet) : Prop where
  signature : p.signature = q.signature
  type : p.type = q.type
  datasize : p.datasize = q.datasize
  dst : p.dst = q.dst
  data : p.data = q.data

instance (p q : Packet) : Decidable (SameButSrc p q) :=
  decidable_of_iff (p.signature = q.signature ∧ p.type = q.type ∧ p.datasize = q.datasize ∧
      p.dst = q.dst ∧ p.data = q.data)
    ⟨fun ⟨h₁, h₂, h₃, h₄, h₅⟩ => ⟨h₁, h₂, h₃, h₄, h₅⟩,
      fun h => ⟨h.signature, h.type, h.datasize, h.dst, h.data⟩⟩

/-! ## Writing and reading -/

theorem ext_bytes {p q : Packet} (h : p.bytes = q.bytes) : p = q := by
  cases p
  cases q
  simpa using h

/-- Packets are equal if they agree in every byte. -/
theorem ext_getElem? {p q : Packet} (h : ∀ i < maxBufferLen, p.bytes[i]? = q.bytes[i]?) :
    p = q := by
  apply ext_bytes
  apply List.ext_getElem?
  intro i
  by_cases hi : i < maxBufferLen
  · exact h i hi
  · rw [List.getElem?_eq_none (by rw [p.size]; omega),
      List.getElem?_eq_none (by rw [q.size]; omega)]

/-- A write that ends inside the packet. -/
theorem write_bytes {p : Packet} {off : ℕ} {bs : Str} (h : off + bs.length ≤ maxBufferLen) :
    (p.write off bs).bytes = p.bytes.take off ++ bs ++ p.bytes.drop (off + bs.length) := by
  have hsize := p.size
  unfold write
  apply List.take_of_length_le
  simp only [List.length_append, List.length_take, List.length_drop]
  omega

/-- A write leaves the bytes in front of it alone. -/
theorem take_write {p : Packet} {off k : ℕ} {bs : Str} (h : off + bs.length ≤ maxBufferLen)
    (hk : k ≤ off) : (p.write off bs).bytes.take k = p.bytes.take k := by
  have hsize := p.size
  have hlen : (p.bytes.take off).length = off := by
    rw [List.length_take]
    omega
  rw [write_bytes h, List.append_assoc, List.take_append_of_le_length (by omega), List.take_take,
    Nat.min_eq_left hk]

/-- A write leaves the bytes behind it alone. -/
theorem drop_write {p : Packet} {off k : ℕ} {bs : Str} (h : off + bs.length ≤ maxBufferLen)
    (hk : off + bs.length ≤ k) : (p.write off bs).bytes.drop k = p.bytes.drop k := by
  have hsize := p.size
  have hlen : (p.bytes.take off ++ bs).length = off + bs.length := by
    rw [List.length_append, List.length_take]
    omega
  rw [write_bytes h, List.drop_append, hlen, List.drop_drop,
    List.drop_eq_nil_of_le (by omega), List.nil_append]
  congr 1
  omega

/-- A byte of a field. -/
theorem fieldAt_getElem? (p : Packet) {off len i : ℕ} (hlow : off ≤ i) (hhigh : i < off + len) :
    (p.fieldAt off len)[i - off]? = p.bytes[i]? := by
  rw [fieldAt, List.getElem?_take_of_lt (by omega), List.getElem?_drop,
    Nat.add_sub_cancel' hlow]

/-- Packets that agree outside `src` byte by byte agree in the other fields. -/
theorem sameButSrc_of_bytes {p q : Packet} (hhead : p.bytes.take 6 = q.bytes.take 6)
    (htail : p.bytes.drop 38 = q.bytes.drop 38) : SameButSrc p q := by
  have hfield : ∀ off, off + 2 ≤ 6 → p.fieldAt off 2 = q.fieldAt off 2 := by
    intro off hoff
    have hcut : ∀ r : Packet, r.fieldAt off 2 = ((r.bytes.take 6).drop off).take 2 := by
      intro r
      rw [fieldAt, List.drop_take, List.take_take, Nat.min_eq_left (by omega)]
    rw [hcut, hcut, hhead]
  refine ⟨?_, ?_, ?_, ?_, ?_⟩
  · rw [signature, signature, hfield 0 (by omega)]
  · rw [type, type, hfield 2 (by omega)]
  · rw [datasize, datasize, hfield 4 (by omega)]
  · rw [dst, dst, fieldAt, fieldAt, htail]
  · have hdrop : ∀ r : Packet, r.bytes.drop 70 = (r.bytes.drop 38).drop 32 := by
      intro r
      rw [List.drop_drop]
    rw [data, data, fieldAt, fieldAt, hdrop p, hdrop q, htail]

theorem SameButSrc.refl (p : Packet) : SameButSrc p p := ⟨rfl, rfl, rfl, rfl, rfl⟩

theorem SameButSrc.trans {p q r : Packet} (h : SameButSrc p q) (h' : SameButSrc q r) :
    SameButSrc p r :=
  ⟨h.signature.trans h'.signature, h.type.trans h'.type, h.datasize.trans h'.datasize,
    h.dst.trans h'.dst, h.data.trans h'.data⟩

/-- Writing into `src` leaves the other fields alone. -/
theorem sameButSrc_write {p : Packet} {bs : Str} (h : bs.length ≤ 32) :
    SameButSrc (p.write 6 bs) p := by
  have hinside : 6 + bs.length ≤ maxBufferLen := by
    unfold maxBufferLen
    omega
  apply sameButSrc_of_bytes
  · exact take_write hinside (le_refl 6)
  · exact drop_write hinside (by omega)

/-! ## Stamping -/

/-- A name in the field `src`, filled up with zeros. -/
def padded (name : Str) : Str := name ++ List.replicate (32 - name.length) 0

/-- The packet after `memset` and `memcpy` on `src`. -/
def stamp (p : Packet) (name : Str) : Packet := (p.write 6 (List.replicate 32 0)).write 6 name

/-- A padded name fills the field. -/
theorem length_padded {name : Str} (h : name.length ≤ 32) : (padded name).length = 32 := by
  rw [padded, List.length_append, List.length_replicate]
  omega

/-- The bytes of a stamped packet. -/
theorem stamp_bytes {p : Packet} {name : Str} (h : name.length ≤ 32) :
    (p.stamp name).bytes = p.bytes.take 6 ++ padded name ++ p.bytes.drop 38 := by
  have hzeros : 6 + (List.replicate 32 (0 : UInt8)).length ≤ maxBufferLen := by
    rw [List.length_replicate]
    decide
  have hname : 6 + name.length ≤ maxBufferLen := by
    unfold maxBufferLen
    omega
  have hsize := p.size
  have hhead : (p.bytes.take 6).length = 6 := by
    rw [List.length_take, hsize]
    decide
  have hmiddle : (p.bytes.take 6 ++ List.replicate 32 (0 : UInt8)).length = 38 := by
    rw [List.length_append, hhead, List.length_replicate]
  rw [stamp, write_bytes hname, write_bytes hzeros, List.length_replicate, padded]
  rw [List.append_assoc (p.bytes.take 6), List.take_left' hhead, ← List.append_assoc,
    List.drop_append_of_le_length (by omega), List.drop_append, hhead,
    List.drop_eq_nil_of_le (by omega), List.nil_append, Nat.add_sub_cancel_left,
    List.drop_replicate]
  simp only [List.append_assoc]

/-- The field `src` of a stamped packet. -/
theorem src_stamp {p : Packet} {name : Str} (h : name.length ≤ 32) :
    (p.stamp name).src = padded name := by
  have hhead : (p.bytes.take 6).length = 6 := by
    rw [List.length_take, p.size]
    decide
  rw [src, fieldAt, stamp_bytes h, List.append_assoc, List.drop_left' hhead,
    List.take_left' (length_padded h)]

/-- The C string in `src` of a stamped packet is the name. -/
theorem cstr_stamp {p : Packet} {name : Str} (h : name.length < 32) (hname : ∀ b ∈ name, b ≠ 0) :
    (p.stamp name).cstr 6 = name := by
  have hhead : (p.bytes.take 6).length = 6 := by
    rw [List.length_take, p.size]
    decide
  obtain ⟨k, hk⟩ : ∃ k, 32 - name.length = k + 1 := ⟨31 - name.length, by omega⟩
  rw [cstr, stamp_bytes h.le, List.append_assoc, List.drop_left' hhead, padded, hk,
    List.replicate_succ, List.append_assoc, List.cons_append]
  exact takeWhile_append_zero hname _

/-- A stamp leaves the bytes outside of `src` alone. -/
theorem stamp_getElem? {p : Packet} {name : Str} (h : name.length ≤ 32) {i : ℕ}
    (hi : i < 6 ∨ 38 ≤ i) : (p.stamp name).bytes[i]? = p.bytes[i]? := by
  have hhead : (p.bytes.take 6).length = 6 := by
    rw [List.length_take, p.size]
    decide
  have hlen : (p.bytes.take 6 ++ padded name).length = 38 := by
    rw [List.length_append, hhead, length_padded h]
  rw [stamp_bytes h]
  rcases hi with hi | hi
  · rw [List.append_assoc, List.getElem?_append_left (by omega), List.getElem?_take_of_lt hi]
  · rw [List.getElem?_append_right (by omega), List.getElem?_drop, hlen]
    congr 1
    omega

/-- A stamp leaves the other fields alone. -/
theorem sameButSrc_stamp {p : Packet} {name : Str} (h : name.length ≤ 32) :
    SameButSrc (p.stamp name) p :=
  (sameButSrc_write h).trans (sameButSrc_write (by rw [List.length_replicate]))

/-- Packets are equal if they agree in `src` and in every other byte. -/
theorem eq_of_src {p q : Packet} (hsrc : p.src = q.src)
    (hrest : ∀ i < maxBufferLen, i < 6 ∨ 38 ≤ i → p.bytes[i]? = q.bytes[i]?) : p = q := by
  apply ext_getElem?
  intro i hi
  by_cases hout : i < 6 ∨ 38 ≤ i
  · exact hrest i hi hout
  · have hfield : ∀ r : Packet, r.src[i - 6]? = r.bytes[i]? :=
      fun r => r.fieldAt_getElem? (by omega) (by omega)
    rw [← hfield p, ← hfield q, hsrc]

/-! ## Zeros written from in front -/

/-- The packet after a write of zeros that ends in it has reached its first `k` bytes. -/
def wiped (p : Packet) (k : ℕ) : Packet := p.write 0 (List.replicate k 0)

/-- Byte by byte: zeros, and what was there behind them. -/
theorem wiped_getElem? (p : Packet) (k : ℕ) {i : ℕ} (hi : i < maxBufferLen) :
    (p.wiped k).bytes[i]? = if i < k then some 0 else p.bytes[i]? := by
  show ((p.bytes.take 0 ++ List.replicate k (0 : UInt8) ++
    p.bytes.drop (0 + (List.replicate k (0 : UInt8)).length)).take maxBufferLen)[i]? = _
  rw [List.getElem?_take_of_lt hi, List.take_zero, List.nil_append, Nat.zero_add,
    List.length_replicate]
  split_ifs with hk
  · rw [List.getElem?_append_left (by rwa [List.length_replicate]),
      List.getElem?_replicate_of_lt hk]
  · rw [List.getElem?_append_right (by rw [List.length_replicate]; omega), List.length_replicate,
      List.getElem?_drop, Nat.add_sub_cancel' (by omega)]

@[simp] theorem wiped_zero (p : Packet) : p.wiped 0 = p := by
  apply ext_getElem?
  intro i hi
  rw [wiped_getElem? p 0 hi, if_neg (Nat.not_lt_zero i)]

theorem zero_wiped (k : ℕ) : zero.wiped k = zero := by
  apply ext_getElem?
  intro i hi
  rw [wiped_getElem? zero k hi]
  split_ifs
  · exact (List.getElem?_replicate_of_lt hi).symm
  · rfl

/-- Two such writes are one. -/
theorem wiped_wiped (p : Packet) (j k : ℕ) : (p.wiped j).wiped k = p.wiped (max j k) := by
  apply ext_getElem?
  intro i hi
  rw [wiped_getElem? _ k hi, wiped_getElem? p j hi, wiped_getElem? p _ hi]
  split_ifs <;> first | rfl | omega

/-- The bytes behind the zeros stay. -/
theorem drop_wiped (p : Packet) {k off : ℕ} (h : k ≤ off) :
    (p.wiped k).bytes.drop off = p.bytes.drop off := by
  apply List.ext_getElem?
  intro i
  rw [List.getElem?_drop, List.getElem?_drop]
  by_cases hi : off + i < maxBufferLen
  · rw [wiped_getElem? p k hi, if_neg (by omega)]
  · rw [List.getElem?_eq_none (by rw [(p.wiped k).size]; omega),
      List.getElem?_eq_none (by rw [p.size]; omega)]

/-- A packet that is one for the Show handler after the write was hit in `signature` only:
the handler's number stands in the byte behind it. -/
theorem le_two_of_type_wiped {p : Packet} {k : ℕ} (h : (p.wiped k).type = tcpMessageShow) :
    k ≤ 2 := by
  by_contra hk
  have hzero : (p.wiped k).bytes[2]? = some 0 := by
    rw [wiped_getElem? p k (by decide), if_pos (by omega)]
  have hlength : 2 < (p.wiped k).bytes.length := by
    rw [(p.wiped k).size]
    decide
  obtain ⟨_, hget⟩ := List.getElem?_eq_some_iff.mp hzero
  rw [type, fieldAt, List.drop_eq_getElem_cons hlength, hget, List.take_succ_cons] at h
  have hvalue : le (0 :: ((p.wiped k).bytes.drop 3).take 1) =
      256 * le (((p.wiped k).bytes.drop 3).take 1) := Nat.zero_add _
  rw [hvalue, tcpMessageShow] at h
  omega

/-- What is read behind the zeros is what was there. -/
theorem type_wiped (p : Packet) {k : ℕ} (h : k ≤ 2) : (p.wiped k).type = p.type := by
  rw [type, type, fieldAt, fieldAt, drop_wiped p h]

theorem cstr_wiped (p : Packet) {k off : ℕ} (h : k ≤ off) : (p.wiped k).cstr off = p.cstr off := by
  rw [cstr, cstr, drop_wiped p h]

/-! ## Equality outside of `src`, byte by byte -/

/-- A number determines its two bytes. -/
theorem le_injective {a b : Str} (ha : a.length = 2) (hb : b.length = 2) (h : le a = le b) :
    a = b := by
  obtain ⟨a₀, a₁, rfl⟩ := List.length_eq_two.mp ha
  obtain ⟨b₀, b₁, rfl⟩ := List.length_eq_two.mp hb
  have hvalue : ∀ x y : UInt8, le [x, y] = x.toNat + 256 * y.toNat := fun _ _ => rfl
  rw [hvalue, hvalue] at h
  have ha₀ := a₀.toNat_lt
  have hb₀ := b₀.toNat_lt
  have hlow : a₀ = b₀ := UInt8.toNat_inj.mp (by omega)
  have hhigh : a₁ = b₁ := UInt8.toNat_inj.mp (by omega)
  rw [hlow, hhigh]

/-- Packets agree in the fields but `src` exactly if they agree in the bytes outside of it. -/
theorem sameButSrc_iff {p q : Packet} : SameButSrc p q ↔
    ∀ i < maxBufferLen, i < 6 ∨ 38 ≤ i → p.bytes[i]? = q.bytes[i]? := by
  constructor
  · intro h i hi hout
    have hfield : ∀ off len, p.fieldAt off len = q.fieldAt off len → off ≤ i → i < off + len →
        p.bytes[i]? = q.bytes[i]? := by
      intro off len heq hlow hhigh
      rw [← fieldAt_getElem? p hlow hhigh, ← fieldAt_getElem? q hlow hhigh, heq]
    have hlength : ∀ (r : Packet) off, off ≤ 4 → (r.fieldAt off 2).length = 2 := by
      intro r off hoff
      have hsize := r.size
      unfold maxBufferLen at hsize
      rw [fieldAt, List.length_take, List.length_drop]
      omega
    have hnumber : ∀ off, off ≤ 4 → le (p.fieldAt off 2) = le (q.fieldAt off 2) →
        p.fieldAt off 2 = q.fieldAt off 2 :=
      fun off hoff => le_injective (hlength p off hoff) (hlength q off hoff)
    rcases Nat.lt_or_ge i 2 with h2 | h2
    · exact hfield 0 2 (hnumber 0 (by omega) h.signature) (by omega) (by omega)
    rcases Nat.lt_or_ge i 4 with h4 | h4
    · exact hfield 2 2 (hnumber 2 (by omega) h.type) (by omega) (by omega)
    rcases Nat.lt_or_ge i 6 with h6 | h6
    · exact hfield 4 2 (hnumber 4 (by omega) h.datasize) (by omega) (by omega)
    rcases Nat.lt_or_ge i 70 with h70 | h70
    · exact hfield 38 32 h.dst (by omega) (by omega)
    · exact hfield 70 (maxBufferLen - 70) h.data h70 (by omega)
  · intro h
    apply sameButSrc_of_bytes
    · apply List.ext_getElem?
      intro i
      by_cases hi : i < 6
      · rw [List.getElem?_take_of_lt hi, List.getElem?_take_of_lt hi]
        exact h i (hi.trans (by decide)) (Or.inl hi)
      · rw [List.getElem?_take_eq_none (by omega), List.getElem?_take_eq_none (by omega)]
    · apply List.ext_getElem?
      intro i
      rw [List.getElem?_drop, List.getElem?_drop]
      by_cases hi : 38 + i < maxBufferLen
      · exact h (38 + i) hi (Or.inr (by omega))
      · rw [List.getElem?_eq_none (by rw [p.size]; omega),
          List.getElem?_eq_none (by rw [q.size]; omega)]

theorem SameButSrc.symm {p q : Packet} (h : SameButSrc p q) : SameButSrc q p :=
  ⟨h.signature.symm, h.type.symm, h.datasize.symm, h.dst.symm, h.data.symm⟩

/-- The same write into both. -/
theorem SameButSrc.wiped {p q : Packet} (h : SameButSrc p q) (k : ℕ) :
    SameButSrc (p.wiped k) (q.wiped k) := by
  refine sameButSrc_iff.mpr fun i hi hout => ?_
  rw [wiped_getElem? p k hi, wiped_getElem? q k hi, sameButSrc_iff.mp h i hi hout]

/-- A write that does not show hides no shorter one. -/
theorem SameButSrc.of_wiped_le {p : Packet} {j k : ℕ} (h : SameButSrc (p.wiped k) p)
    (hle : j ≤ k) : SameButSrc (p.wiped j) p := by
  refine sameButSrc_iff.mpr fun i hi hout => ?_
  have hk := sameButSrc_iff.mp h i hi hout
  rw [wiped_getElem? p k hi] at hk
  rw [wiped_getElem? p j hi]
  split_ifs with hj
  · rwa [if_pos (by omega)] at hk
  · rfl

/-- Only zeros were written over `q`, and in the end none of them shows: none showed before. -/
theorem SameButSrc.before_wiped {p q : Packet} {j k : ℕ} (hp : SameButSrc p (q.wiped k))
    (h : SameButSrc (p.wiped j) q) : SameButSrc p q := by
  have hall : SameButSrc (q.wiped (max k j)) q := by
    rw [← wiped_wiped]
    exact (hp.wiped j).symm.trans h
  exact hp.trans (hall.of_wiped_le (le_max_left k j))

/-! ## Packets on the wire -/

/-- The packet that a receiver reads from the bytes of one `recv`, over zeros. -/
def ofBytes (bs : Str) : Packet := zero.write 0 bs

/-- Byte by byte: what was received, and zeros behind it. -/
theorem ofBytes_getElem? (bs : Str) {i : ℕ} (hi : i < maxBufferLen) :
    (ofBytes bs).bytes[i]? = some (bs.getD i 0) := by
  show ((zero.bytes.take 0 ++ bs ++ zero.bytes.drop (0 + bs.length)).take maxBufferLen)[i]? = _
  rw [List.getElem?_take_of_lt hi, List.take_zero, List.nil_append, Nat.zero_add]
  rw [List.getD_eq_getElem?_getD]
  by_cases hlt : i < bs.length
  · rw [List.getElem?_append_left hlt, List.getElem?_eq_getElem hlt, Option.getD_some]
  · rw [List.getElem?_append_right (by omega), List.getElem?_drop,
      List.getElem?_eq_none (by omega : bs.length ≤ i), Option.getD_none]
    show (List.replicate maxBufferLen (0 : UInt8))[_]? = _
    rw [List.getElem?_replicate_of_lt (by omega)]

/-- A whole packet is read as it was sent. -/
theorem ofBytes_bytes (p : Packet) : ofBytes p.bytes = p := by
  apply ext_bytes
  have hsize := p.size
  rw [ofBytes, write_bytes (by omega), List.take_zero, List.nil_append,
    List.drop_eq_nil_of_le (by rw [zero.size]; omega), List.append_nil]

/-- The bytes of packets that are written one after another. -/
def wire (ps : List Packet) : Str := (ps.map bytes).flatten

/-- A receiver that makes one packet of every chunk, right but for `src` if the chunk
is a packet, gets the packets of the stream exactly when no packet is cut. -/
theorem forall₂_sameButSrc_iff {chunks : List Str} {ps made : List Packet}
    (hchunks : ∀ chunk ∈ chunks, chunk.length ≤ maxBufferLen) (hstream : chunks.flatten = wire ps)
    (hmade : made.Forall₂ (fun q chunk => SameButSrc q (ofBytes chunk)) chunks) :
    made.Forall₂ SameButSrc ps ↔ ∀ chunk ∈ chunks, chunk.length = maxBufferLen := by
  have hsize : ∀ b ∈ ps.map bytes, b.length = maxBufferLen :=
    List.forall_mem_map.mpr fun p _ => p.size
  refine Framing.forall₂_iff_whole hsize hstream rfl (by decide) hchunks (hmade.imp ?_)
  rintro q _ hq p rfl
  rwa [ofBytes_bytes] at hq

/-- The same for a receiver that may spoil what it makes of a chunk: it gets the packets of
the stream exactly when no packet is cut and none was spoilt. -/
theorem forall₂_sameButSrc_iff_kept {chunks : List Str} {ps made : List Packet}
    (hchunks : ∀ chunk ∈ chunks, chunk.length ≤ maxBufferLen) (hstream : chunks.flatten = wire ps)
    (hlength : made.length = chunks.length) :
    made.Forall₂ SameButSrc ps ↔ (∀ chunk ∈ chunks, chunk.length = maxBufferLen) ∧
      made.Forall₂ (fun q chunk => SameButSrc q (ofBytes chunk)) chunks := by
  have hsize : ∀ b ∈ ps.map bytes, b.length = maxBufferLen :=
    List.forall_mem_map.mpr fun p _ => p.size
  constructor
  · intro hall
    have hcount : chunks.length = (ps.map bytes).length := by
      rw [← hlength, hall.length_eq, List.length_map]
    have hwhole := (Framing.whole_iff_length hsize hstream (by decide) hchunks).mp hcount
    refine ⟨hwhole, ?_⟩
    rw [Framing.eq_of_whole hsize hstream (by decide) hwhole, List.forall₂_map_right_iff]
    refine hall.imp fun q p h => ?_
    rwa [ofBytes_bytes]
  · rintro ⟨hwhole, hmade⟩
    exact (forall₂_sameButSrc_iff hchunks hstream hmade).mpr hwhole

end Packet
