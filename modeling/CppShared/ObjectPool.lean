/-
# The object pool (`class ObjectPool` in `tcpserver/src/tcpserver.h`)

`get` hands out a packet from the front of the list, or a new one, and zeroes it;
`push` puts a packet at the back of the list, or deletes it when the list is long.
Every member function is one critical section of the pool's own mutex.

Packets are named by the order in which `new` made them, so a packet made after
another one was deleted is never confused with it.
-/
import CppShared.Packet
import Mathlib.Logic.Function.Basic

/-- The packets on the heap: how many were made, which of them were deleted, and
their content. -/
structure Memory where
  next : ℕ
  deleted : List ℕ
  packet : ℕ → Packet

/-- Store a packet's content. -/
def Memory.write (m : Memory) (obj : ℕ) (p : Packet) : Memory :=
  { m with packet := Function.update m.packet obj p }

@[simp] theorem Memory.packet_write_self (m : Memory) (obj : ℕ) (p : Packet) :
    (m.write obj p).packet obj = p :=
  Function.update_self _ _ _

theorem Memory.packet_write_of_ne (m : Memory) {obj other : ℕ} (p : Packet) (h : other ≠ obj) :
    (m.write obj p).packet other = m.packet other :=
  Function.update_of_ne h _ _

/-- `new Packet()`. -/
def Memory.new (m : Memory) : ℕ × Memory := (m.next, { m with next := m.next + 1 })

/-- `delete`. -/
def Memory.delete (m : Memory) (obj : ℕ) : Memory := { m with deleted := m.deleted ++ [obj] }

/-- `ObjectPool`. -/
structure ObjectPool where
  maxObjectCount : ℤ
  pool : List ℕ

namespace ObjectPool

/-- `pool.size() > maxObjectCount`, the `int` converted to `std::size_t`. -/
def isFull (o : ObjectPool) : Bool := toSize o.maxObjectCount < o.pool.length

/-- The choice `get` makes before it zeroes the packet. -/
def pick (o : ObjectPool) (m : Memory) : ℕ × ObjectPool × Memory :=
  if o.isFull then (m.new.1, o, m.new.2)
  else
    match o.pool with
    | [] => (m.new.1, o, m.new.2)
    | obj :: rest => (obj, { o with pool := rest }, m)

/-- `get`. -/
def get (o : ObjectPool) (m : Memory) : ℕ × ObjectPool × Memory :=
  let (obj, o', m') := o.pick m
  (obj, o', m'.write obj Packet.zero)

/-- `push`; the last component is the caller's pointer afterwards. -/
def push (o : ObjectPool) (m : Memory) : Option ℕ → ObjectPool × Memory × Option ℕ
  | none => (o, m, none)
  | some obj =>
      if o.isFull then (o, m.delete obj, none)
      else ({ o with pool := o.pool ++ [obj] }, m, some obj)

/-! ## What the two functions do -/

/-- `get` makes a packet when the pool is full or empty. -/
theorem get_new {o : ObjectPool} (m : Memory) (h : o.isFull = true ∨ o.pool = []) :
    o.get m = (m.next, o, { m with
      next := m.next + 1
      packet := Function.update m.packet m.next Packet.zero }) := by
  unfold get pick
  by_cases hfull : o.isFull = true
  · rw [if_pos hfull]
    rfl
  · rw [if_neg hfull, h.resolve_left hfull]
    rfl

/-- `get` takes the front of a pool that is neither. -/
theorem get_pooled {o : ObjectPool} (m : Memory) {obj : ℕ} {rest : List ℕ}
    (hroom : o.isFull = false) (hpool : o.pool = obj :: rest) :
    o.get m = (obj, { o with pool := rest }, { m with
      packet := Function.update m.packet obj Packet.zero }) := by
  unfold get pick
  rw [if_neg (by simp [hroom]), hpool]
  rfl

/-- `push` deletes the packet when the pool is full. -/
theorem push_full {o : ObjectPool} (m : Memory) (obj : ℕ) (h : o.isFull = true) :
    o.push m (some obj) = (o, m.delete obj, none) := by
  unfold push
  dsimp only
  rw [if_pos h]

/-- `push` puts the packet at the back of a pool that is not full. -/
theorem push_room {o : ObjectPool} (m : Memory) (obj : ℕ) (h : o.isFull = false) :
    o.push m (some obj) = ({ o with pool := o.pool ++ [obj] }, m, some obj) := by
  unfold push
  dsimp only
  rw [if_neg (by simp [h])]

/-- `get` either makes a packet and leaves the list alone, or takes the front of
the list. -/
theorem get_cases (o : ObjectPool) (m : Memory) :
    o.get m = (m.next, o, { m with
      next := m.next + 1
      packet := Function.update m.packet m.next Packet.zero }) ∨
    ∃ obj rest, o.pool = obj :: rest ∧ o.get m = (obj, { o with pool := rest }, { m with
      packet := Function.update m.packet obj Packet.zero }) := by
  cases hfull : o.isFull with
  | true => exact Or.inl (get_new m (Or.inl hfull))
  | false =>
      cases hpool : o.pool with
      | nil => exact Or.inl (get_new m (Or.inr hpool))
      | cons obj rest => exact Or.inr ⟨obj, rest, rfl, get_pooled m hfull hpool⟩

/-- `push` of a packet either deletes it or puts it at the back of the list. -/
theorem push_cases (o : ObjectPool) (m : Memory) (obj : ℕ) :
    o.push m (some obj) = (o, { m with deleted := m.deleted ++ [obj] }, none) ∨
    o.push m (some obj) = ({ o with pool := o.pool ++ [obj] }, m, some obj) := by
  cases hfull : o.isFull with
  | true => exact Or.inl (push_full m obj hfull)
  | false => exact Or.inr (push_room m obj hfull)

end ObjectPool
