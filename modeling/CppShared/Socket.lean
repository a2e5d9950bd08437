/-
# Sockets (`class Socket` in `tcpserver/src/socket.hpp`)

A `Socket` is a descriptor with the host and port it was created for.  The host is
kept as the text in front of the terminating zero.  `accept` and `getnameinfo`
with numeric flags are the environment: an accepted IPv4 peer is an `Addr`, and
its host and port come as decimal texts.
-/
import CppShared.Bytes
import Mathlib.Data.Finset.Basic

/-- The decimal text of a number. -/
def decimal (n : ℕ) : Str := (Nat.toDigits 10 n).map Char.toUInt8

/-- The peer address `accept` fills in. -/
structure Addr where
  a : UInt8
  b : UInt8
  c : UInt8
  d : UInt8
  port : UInt16
  deriving DecidableEq, Repr

/-- The numeric host text of `getnameinfo`. -/
def Addr.host (addr : Addr) : Str :=
  decimal addr.a.toNat ++ str "." ++ decimal addr.b.toNat ++ str "." ++ decimal addr.c.toNat ++
    str "." ++ decimal addr.d.toNat

/-- What `recv` returns: no bytes (an error, or the end of the stream) or some. -/
inductive Received
  | fails
  | data (bytes : Str)
  deriving DecidableEq, Repr

/-- `Socket`. -/
structure Socket where
  fd : ℤ
  port : ℕ
  host : Str
  deriving DecidableEq, Repr

namespace Socket

/-- `Socket()`. -/
def new : Socket := ⟨-1, 0, []⟩

/-- The socket `accepting` makes for a new connection: `atoi` of the port text is
the port. -/
def accepting (fd : ℤ) (addr : Addr) : Socket := ⟨fd, addr.port.toNat, addr.host⟩

/-- `destroy`: descriptor `0` is neither closed nor forgotten. -/
def destroy (s : Socket) : Socket := ⟨if 0 < s.fd then -1 else s.fd, 0, []⟩

/-- What the `close` in `destroy` does to the open descriptors. -/
def closes (s : Socket) (openFds : Finset ℤ) : Finset ℤ :=
  if 0 < s.fd then openFds.erase s.fd else openFds

/-- `destroy` does nothing to a destroyed socket. -/
theorem destroy_destroy (s : Socket) : s.destroy.destroy = s.destroy := by
  simp only [destroy]
  split_ifs <;> simp_all

/-- Closing a socket opens none. -/
theorem closes_empty (c : Socket) : c.closes ∅ = ∅ := by
  rw [closes]
  split_ifs
  · exact Finset.erase_empty _
  · rfl

/-- A descriptor that was opened and closed again is gone. -/
theorem closes_insert {c : Socket} (h : 0 < c.fd) : c.closes (insert c.fd ∅) = ∅ := by
  rw [closes, if_pos h, Finset.erase_insert (Finset.notMem_empty _)]

/-- Closing a socket leaves the other descriptors open. -/
theorem mem_closes_of_ne {c : Socket} {openFds : Finset ℤ} {fd : ℤ} (hmem : fd ∈ openFds)
    (hne : 0 < c.fd → fd ≠ c.fd) : fd ∈ c.closes openFds := by
  rw [closes]
  split_ifs with hpos
  · exact Finset.mem_erase.mpr ⟨hne hpos, hmem⟩
  · exact hmem

/-- `getName`. -/
def getName (s : Socket) : Str := s.host ++ str ":" ++ decimal s.port

/-! ## The length of a name -/

/-- A number below `10 ^ k` has at most `k` decimal digits. -/
theorem length_decimal_le {n k : ℕ} (hk : 0 < k) (hn : n < 10 ^ k) : (decimal n).length ≤ k := by
  rw [decimal, List.length_map]
  exact (Nat.length_toDigits_le_iff (by decide) hk).mpr hn

/-- The name of an IPv4 peer fits into `Packet::src` with room for a zero. -/
theorem length_getName_accepting (fd : ℤ) (addr : Addr) :
    (accepting fd addr).getName.length ≤ 21 := by
  have hbyte : ∀ b : UInt8, (decimal b.toNat).length ≤ 3 := by
    intro b
    apply length_decimal_le (by decide)
    have hlt := b.toNat_lt
    omega
  have hport : (decimal addr.port.toNat).length ≤ 5 := by
    apply length_decimal_le (by decide)
    have hlt := addr.port.toNat_lt
    omega
  have ha := hbyte addr.a
  have hb := hbyte addr.b
  have hc := hbyte addr.c
  have hd := hbyte addr.d
  have hdot : (str ".").length = 1 := by decide
  have hcolon : (str ":").length = 1 := by decide
  simp only [getName, accepting, Addr.host, List.length_append, hdot, hcolon]
  omega

/-- A destroyed socket is called `:0`. -/
theorem getName_destroy (s : Socket) : s.destroy.getName = str ":0" := by
  show [] ++ str ":" ++ decimal 0 = str ":0"
  decide

/-! ## The characters of a name -/

/-- The characters of a decimal text are digits. -/
theorem val_of_mem_toDigits {n : ℕ} {c : Char} (h : c ∈ Nat.toDigits 10 n) :
    48 ≤ c.val.toNat ∧ c.val.toNat ≤ 57 := by
  have hdigit := Nat.isDigit_of_mem_toDigits (by decide) (by decide) h
  simpa [Char.isDigit, UInt32.le_iff_toNat_le] using hdigit

/-- So are its bytes. -/
theorem toNat_of_mem_decimal {n : ℕ} {b : UInt8} (h : b ∈ decimal n) :
    48 ≤ b.toNat ∧ b.toNat ≤ 57 := by
  obtain ⟨c, hc, rfl⟩ := List.mem_map.mp h
  have hrange := val_of_mem_toDigits hc
  show 48 ≤ c.val.toNat % 256 ∧ c.val.toNat % 256 ≤ 57
  omega

/-- A decimal text has no zero byte. -/
theorem ne_zero_of_mem_decimal {n : ℕ} {b : UInt8} (h : b ∈ decimal n) : b ≠ 0 := by
  rintro rfl
  exact absurd (toNat_of_mem_decimal h).1 (by decide)

/-- The name of a peer has no zero byte. -/
theorem ne_zero_of_mem_getName (fd : ℤ) (addr : Addr) {b : UInt8}
    (h : b ∈ (accepting fd addr).getName) : b ≠ 0 := by
  have hdot : (0 : UInt8) ∉ str "." := by decide
  have hcolon : (0 : UInt8) ∉ str ":" := by decide
  simp only [getName, accepting, Addr.host, List.mem_append] at h
  rcases h with ((((((((h | h) | h) | h) | h) | h) | h) | h) | h)
  · exact ne_zero_of_mem_decimal h
  · exact ne_of_mem_of_not_mem h hdot
  · exact ne_zero_of_mem_decimal h
  · exact ne_of_mem_of_not_mem h hdot
  · exact ne_zero_of_mem_decimal h
  · exact ne_of_mem_of_not_mem h hdot
  · exact ne_zero_of_mem_decimal h
  · exact ne_of_mem_of_not_mem h hcolon
  · exact ne_zero_of_mem_decimal h

/-- Nor has the name of a destroyed socket. -/
theorem ne_zero_of_mem_getName_destroy (s : Socket) {b : UInt8} (h : b ∈ s.destroy.getName) :
    b ≠ 0 := by
  have hzero : (0 : UInt8) ∉ str ":0" := by decide
  rw [getName_destroy] at h
  exact ne_of_mem_of_not_mem h hzero

/-- A peer has dots in its name, so it is not called like a destroyed socket. -/
theorem getName_accepting_ne (fd : ℤ) (addr : Addr) (s : Socket) :
    (accepting fd addr).getName ≠ s.destroy.getName := by
  intro heq
  have hdot : (46 : UInt8) ∈ (accepting fd addr).getName := by
    have hmem : (46 : UInt8) ∈ str "." := by decide
    simp only [getName, accepting, Addr.host, List.mem_append]
    tauto
  rw [heq, getName_destroy] at hdot
  exact absurd hdot (by decide)

end Socket
