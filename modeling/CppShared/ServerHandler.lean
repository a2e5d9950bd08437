/-
# The Show handler (`TcpServer_Show` in `tcpserver/src/serverhandler.cpp`)

The handler copies 64 bytes of `packet->data` into a local array, clears the field,
prints a text with the array as a string into it and sends the packet back.  The model
records which bytes it reads through `data` and writes through `packet->data`.  The
formatted read of the array goes on behind it when no zero byte is in it; `behind` stands
for the bytes of the stack there, up to the next zero.

`memset` is given 1024 bytes for a field of 954, so the handler leaves the field for every
packet (`show_unfaithful`).  The rest of it is right if there is a zero byte among the 64
(`printed_inside_iff`, `data_reply`).  The server's model (`TcpServer.rewritePacket`) takes the
reply from here, and the write behind the packet with it.
-/
import CppShared.OrderedMap
import CppShared.Packet
import Mathlib.Data.List.TakeWhile

namespace ServerHandler

/-! ## The handler -/

/-- What the handler does through `data` and through `packet->data`, as offsets and
lengths, and the packet that it sends. -/
structure ShowTrace where
  reads : List (ℕ × ℕ)
  writes : List (ℕ × ℕ)
  reply : Packet

/-- The local array after `memcpy(data, packet->data, 64)`. -/
def localData (packet : Packet) : Str := packet.data.take 64

/-- What `%s` prints for the array. -/
def printed (packet : Packet) (behind : Str) : Str :=
  if 0 ∈ localData packet then (localData packet).takeWhile (· ≠ 0)
  else localData packet ++ behind

/-- The text of `snprintf`, before it is cut off. -/
def text (packet : Packet) (behind : Str) : Str :=
  str "client:" ++ packet.cstr 6 ++ str ", data:" ++ printed packet behind

/-- The packet after `memset(packet->data, 0, 1024)`. -/
def cleared (packet : Packet) : Packet := packet.write 70 (List.replicate 1024 0)

/-- The handler behind the search for the client. -/
def answer (packet : Packet) (behind : Str) : ShowTrace where
  reads := [(0, (printed packet behind).length + 1)]
  writes := [(0, 1024), (0, min (text packet behind).length 255 + 1)]
  reply := (cleared packet).write 70 ((text packet behind).take 255 ++ [0])

/-- `TcpServer_Show`: the client that gets the packet, and the trace; `none` when
`getClient` finds nobody. -/
def tcpServerShow (clients : OrderedMap Str ℕ) (packet : Packet) (behind : Str) :
    Option (ℕ × ShowTrace) :=
  (clients.find? (packet.cstr 6)).map fun client => (client, answer packet behind)

/-! ## The property -/

/-- Equal in every field but `data`. -/
structure SameButData (p q : Packet) : Prop where
  signature : p.signature = q.signature
  type : p.type = q.type
  datasize : p.datasize = q.datasize
  src : p.src = q.src
  dst : p.dst = q.dst

/-- The text that the reply has to carry. -/
def echoText (packet : Packet) : Str :=
  str "client:" ++ packet.cstr 6 ++ str ", data:" ++ (localData packet).takeWhile (· ≠ 0)

/-- The handler stays inside its buffers and echoes. -/
structure ShowFaithful (packet : Packet) (t : ShowTrace) : Prop where
  reads : ∀ r ∈ t.reads, r.1 + r.2 ≤ 64
  writes : ∀ r ∈ t.writes, r.1 + r.2 ≤ 954
  others : SameButData t.reply packet
  data : t.reply.data = echoText packet ++ List.replicate (954 - (echoText packet).length) 0

/-! ## What is printed -/

theorem length_localData (packet : Packet) : (localData packet).length = 64 := by
  have hsize := packet.size
  unfold localData Packet.data Packet.fieldAt
  simp only [List.length_take, List.length_drop, hsize, maxBufferLen]
  omega

/-- A text in front of a zero byte is shorter than the field. -/
theorem length_takeWhile_lt {l : Str} (h : 0 ∈ l) : (l.takeWhile (· ≠ 0)).length < l.length := by
  induction l with
  | nil => simp at h
  | cons b rest ih =>
      by_cases hb : b = 0
      · rw [List.takeWhile_cons_of_neg (by simp [hb])]
        exact Nat.zero_lt_succ _
      · have hrest : 0 ∈ rest := by
          rcases List.mem_cons.mp h with heq | hmem
          · exact absurd heq.symm hb
          · exact hmem
        rw [List.takeWhile_cons_of_pos (by simpa using hb)]
        exact Nat.succ_lt_succ (ih hrest)

/-- **The read of the array** stays inside it if and only if there is a zero byte in it. -/
theorem printed_inside_iff (packet : Packet) (behind : Str) :
    (printed packet behind).length + 1 ≤ 64 ↔ 0 ∈ localData packet := by
  have hlength := length_localData packet
  unfold printed
  split_ifs with hzero
  · have hlt := length_takeWhile_lt hzero
    exact iff_of_true (by omega) hzero
  · refine iff_of_false ?_ hzero
    rw [List.length_append]
    omega

/-- The text is the one to carry if there is a zero byte in the array, or nothing is read
behind it. -/
theorem text_eq_echoText {packet : Packet} {behind : Str}
    (h : 0 ∈ localData packet ∨ behind = []) : text packet behind = echoText packet := by
  unfold text echoText printed
  split_ifs with hzero
  · rfl
  · rw [h.resolve_left hzero, List.append_nil, List.takeWhile_eq_self_iff.mpr]
    intro b hb
    simpa using ne_of_mem_of_not_mem hb hzero

/-- The C string in `src`, when the field holds a zero byte. -/
theorem length_cstr_lt {packet : Packet} (h : 0 ∈ packet.src) : (packet.cstr 6).length < 32 := by
  have hsplit : packet.bytes.drop 6 = packet.src ++ (packet.bytes.drop 6).drop 32 :=
    (List.take_append_drop 32 _).symm
  have hlt := length_takeWhile_lt h
  have hle : packet.src.length ≤ 32 := List.length_take_le _ _
  have hcut : packet.cstr 6 = packet.src.takeWhile (· ≠ 0) := by
    unfold Packet.cstr
    rw [hsplit, List.takeWhile_append, if_neg (Nat.ne_of_lt hlt)]
  rw [hcut]
  omega

theorem length_echoText {packet : Packet} (hsrc : 0 ∈ packet.src) :
    (echoText packet).length ≤ 109 := by
  have hname := length_cstr_lt hsrc
  have hshown := (List.takeWhile_sublist (l := localData packet) (· ≠ 0)).length_le
  have hlength := length_localData packet
  have hclient : (str "client:").length = 7 := by decide
  have hcomma : (str ", data:").length = 7 := by decide
  unfold echoText
  simp only [List.length_append, hclient, hcomma]
  omega

/-! ## The reply -/

/-- The bytes in front of `data`. -/
theorem length_head (packet : Packet) : (packet.bytes.take 70).length = 70 := by
  rw [List.length_take, packet.size]
  rfl

/-- The packet after `memset`: the field is cleared. -/
theorem cleared_bytes (packet : Packet) :
    (cleared packet).bytes = packet.bytes.take 70 ++ List.replicate 954 0 := by
  have hsize := packet.size
  have hhead := length_head packet
  unfold cleared Packet.write
  dsimp only
  rw [List.length_replicate, List.drop_eq_nil_of_le (by rw [hsize]; decide), List.append_nil,
    List.take_append, hhead, List.take_replicate, List.take_of_length_le (by rw [hhead]; decide)]
  rfl

/-- A text printed into the cleared field. -/
theorem bytes_write_cleared (packet : Packet) {bs : Str} (h : bs.length ≤ 954) :
    ((cleared packet).write 70 bs).bytes =
      packet.bytes.take 70 ++ (bs ++ List.replicate (954 - bs.length) 0) := by
  have hhead := length_head packet
  have hdrop : (packet.bytes.take 70 ++ List.replicate 954 0).drop (70 + bs.length) =
      List.replicate (954 - bs.length) 0 := by
    rw [List.drop_append, hhead, List.drop_eq_nil_of_le (by omega), List.nil_append,
      Nat.add_sub_cancel_left, List.drop_replicate]
  rw [Packet.write_bytes (by unfold maxBufferLen; omega), cleared_bytes, hdrop,
    List.take_left' hhead, List.append_assoc]

/-- Packets that agree in front of `data` agree in the other fields. -/
theorem sameButData_of_take {p q : Packet} (h : p.bytes.take 70 = q.bytes.take 70) :
    SameButData p q := by
  have hfield : ∀ off len, off + len ≤ 70 → p.fieldAt off len = q.fieldAt off len := by
    intro off len hle
    have hcut : ∀ r : Packet, r.fieldAt off len = ((r.bytes.take 70).drop off).take len := by
      intro r
      rw [Packet.fieldAt, List.drop_take, List.take_take, Nat.min_eq_left (by omega)]
    rw [hcut, hcut, h]
  refine ⟨?_, ?_, ?_, ?_, ?_⟩
  · rw [Packet.signature, Packet.signature, hfield 0 2 (by omega)]
  · rw [Packet.type, Packet.type, hfield 2 2 (by omega)]
  · rw [Packet.datasize, Packet.datasize, hfield 4 2 (by omega)]
  · exact hfield 6 32 (by omega)
  · exact hfield 38 32 (by omega)

/-- The handler leaves the fields in front of `data` alone. -/
theorem sameButData_reply (packet : Packet) (behind : Str) :
    SameButData (answer packet behind).reply packet := by
  have hlength : ((text packet behind).take 255 ++ [0]).length ≤ 954 := by
    rw [List.length_append, List.length_take, List.length_singleton]
    omega
  apply sameButData_of_take
  show (((cleared packet).write 70 _).bytes).take 70 = _
  rw [bytes_write_cleared packet hlength]
  exact List.take_left' (length_head packet)

/-- The bytes of the reply. -/
theorem reply_bytes {packet : Packet} {behind : Str} (hsrc : 0 ∈ packet.src)
    (hdata : 0 ∈ localData packet ∨ behind = []) :
    (answer packet behind).reply.bytes = packet.bytes.take 70 ++
      (echoText packet ++ List.replicate (954 - (echoText packet).length) 0) := by
  have hle := length_echoText hsrc
  have hlength : (echoText packet ++ [0]).length ≤ 954 := by
    rw [List.length_append, List.length_singleton]
    omega
  have hzeros : [0] ++ List.replicate (954 - (echoText packet ++ [0]).length) (0 : UInt8) =
      List.replicate (954 - (echoText packet).length) 0 := by
    rw [List.singleton_append, ← List.replicate_succ, List.length_append, List.length_singleton]
    congr 1
    omega
  have hreply : (answer packet behind).reply =
      (cleared packet).write 70 (echoText packet ++ [0]) := by
    unfold answer
    dsimp only
    rw [text_eq_echoText hdata, List.take_of_length_le (by omega)]
  rw [hreply, bytes_write_cleared packet hlength, List.append_assoc, hzeros]

/-- **The reply** carries the text, padded with zeros, if there is a zero byte in the
array. -/
theorem data_reply {packet : Packet} (behind : Str) (hsrc : 0 ∈ packet.src)
    (hdata : 0 ∈ localData packet) : (answer packet behind).reply.data =
      echoText packet ++ List.replicate (954 - (echoText packet).length) 0 := by
  have hle := length_echoText hsrc
  have hhead := length_head packet
  rw [Packet.data, Packet.fieldAt, reply_bytes hsrc (Or.inl hdata), List.drop_left' hhead]
  apply List.take_of_length_le
  rw [List.length_append, List.length_replicate]
  unfold maxBufferLen
  omega

/-! ## Main result -/

/-- **The handler leaves its buffers** for every packet of a registered client.  Whatever
the packet, `memset` writes 1024 bytes into the field of 954; the array is read past its
end exactly when no zero byte is in it; the other fields stay as they are, and with a zero
byte in the array the reply carries the text. -/
theorem show_unfaithful {clients : OrderedMap Str ℕ} {packet : Packet} {client : ℕ}
    (behind : Str) (hclient : clients.find? (packet.cstr 6) = some client)
    (hsrc : 0 ∈ packet.src) :
    ∃ t, tcpServerShow clients packet behind = some (client, t) ∧ ¬ShowFaithful packet t ∧
      (0, 1024) ∈ t.writes ∧ ((∀ r ∈ t.reads, r.1 + r.2 ≤ 64) ↔ 0 ∈ localData packet) ∧
      SameButData t.reply packet ∧
      (0 ∈ localData packet → t.reply.data =
        echoText packet ++ List.replicate (954 - (echoText packet).length) 0) := by
  have hwrites : (0, 1024) ∈ (answer packet behind).writes := List.mem_cons_self
  refine ⟨answer packet behind, ?_, fun h => ?_, hwrites, ?_, sameButData_reply packet behind,
    data_reply behind hsrc⟩
  · unfold tcpServerShow
    rw [hclient]
    rfl
  · exact absurd (h.writes _ hwrites) (by decide)
  · rw [← printed_inside_iff packet behind, answer, List.forall_mem_singleton, Nat.zero_add]

/-- A Show packet of the client `a` with the text `hi`. -/
def hiPacket : Packet := (Packet.zero.stamp (str "a")).write 70 (str "hi")

/-- `show_unfaithful` at `hiPacket`. -/
theorem show_unfaithful_hi : ∃ t,
    tcpServerShow (OrderedMap.empty.insert (str "a") 0) hiPacket [] = some (0, t) ∧
      ¬ShowFaithful hiPacket t := by
  have hclient : (OrderedMap.empty.insert (str "a") 0).find? (hiPacket.cstr 6) = some 0 := rfl
  obtain ⟨t, hshow, hnot, -⟩ := show_unfaithful [] hclient (by decide)
  exact ⟨t, hshow, hnot⟩

/-- The handler leaves the field also where the client has put a zero byte behind its text. -/
theorem show_leaves_field :
    0 ∈ localData hiPacket ∧ ¬ShowFaithful hiPacket (answer hiPacket []) := by
  refine ⟨by decide, fun h => ?_⟩
  exact absurd (h.writes (0, 1024) List.mem_cons_self) (by decide)

end ServerHandler
