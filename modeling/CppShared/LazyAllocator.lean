/-
# The block cache (`src/LazyAlloctor.hpp`)

`LazyAllocator<T>` hands out arrays and keeps those it gets back in a multimap under
their length.  A request is rounded up to a multiple of 1024 elements, so that all
requests of one class share their blocks; when 256 blocks are cached, a block that
comes back is deleted.

The model is a transition system over whole calls, made one after another.  Callers
push a block they hold, once, with the size they asked for.

* `std::size_t` is `ℕ` with the arithmetic modulo `2 ^ 64` written out;
* blocks are named by the order in which `new T[]` made them, so a block made after
  another one was deleted is never confused with it;
* `held` records the blocks the callers hold with the sizes they asked for, `lost`
  the blocks that went back with size 0, which `push` ignores.
-/
import CppShared.Ledger
import CppShared.OrderedMultimap

/-- The arrays on the heap: how many were made, which of them were deleted, and the
length each was made with. -/
structure Blocks where
  next : ℕ
  deleted : List ℕ
  length : ℕ → ℕ

/-- `new T[n]`. -/
def Blocks.new (b : Blocks) (n : ℕ) : ℕ × Blocks :=
  (b.next, { b with next := b.next + 1, length := Function.update b.length b.next n })

/-- `delete []`. -/
def Blocks.delete (b : Blocks) (ptr : ℕ) : Blocks := { b with deleted := b.deleted ++ [ptr] }

/-- Deleting the blocks of a list one by one. -/
theorem Blocks.foldl_delete (b : Blocks) (ptrs : List ℕ) :
    ptrs.foldl Blocks.delete b = { b with deleted := b.deleted ++ ptrs } := by
  induction ptrs generalizing b with
  | nil => simp
  | cons ptr rest ih => simp [ih, Blocks.delete]

namespace LazyAllocator

/-- The number of values of `std::size_t`. -/
def sizeCount : ℕ := 2 ^ 64

/-- `capacity`. -/
def capacity : ℕ := 256

/-- `totalSize`, computed from the requested size by `pop` and by `push`. -/
def totalSize (size : ℕ) : ℕ :=
  if size &&& 0x3ff ≠ 0 then (((size >>> 10) + 1) <<< 10) % sizeCount else size

/-- `container`. -/
abbrev Container := OrderedMultimap ℕ ℕ

/-- `pop`: the block it returns and the state it leaves. -/
def pop (container : Container) (blocks : Blocks) (size : ℕ) : ℕ × Container × Blocks :=
  match container.find? (totalSize size) with
  | none => ((blocks.new (totalSize size)).1, container, (blocks.new (totalSize size)).2)
  | some ptr => (ptr, container.eraseFound (totalSize size), blocks)

/-- `push`; the last component is the caller's pointer afterwards. -/
def push (container : Container) (blocks : Blocks) (size : ℕ) :
    Option ℕ → Container × Blocks × Option ℕ
  | none => (container, blocks, none)
  | some ptr =>
      if size = 0 then (container, blocks, some ptr)
      else if container.size < capacity then
        (container.insert (totalSize size) ptr, blocks, some ptr)
      else (container, blocks.delete ptr, none)

/-- `clear`. -/
def clear (container : Container) (blocks : Blocks) : Container × Blocks :=
  (.empty, container.values.foldl Blocks.delete blocks)

/-! ## What the functions do -/

/-- `pop` makes a block when none of the class is cached. -/
theorem pop_of_none {container : Container} {blocks : Blocks} {size : ℕ}
    (h : container.find? (totalSize size) = none) :
    pop container blocks size = (blocks.next, container, (blocks.new (totalSize size)).2) := by
  rw [pop, h]
  rfl

/-- `pop` takes a block of the class that is cached. -/
theorem pop_of_some {container : Container} {blocks : Blocks} {size ptr : ℕ}
    (h : container.find? (totalSize size) = some ptr) :
    pop container blocks size = (ptr, container.eraseFound (totalSize size), blocks) := by
  rw [pop, h]

/-- `push` with size 0 does nothing. -/
theorem push_zero (container : Container) (blocks : Blocks) (ptr : ℕ) :
    push container blocks 0 (some ptr) = (container, blocks, some ptr) := by
  rw [push, if_pos rfl]

/-- `push` caches a block as long as there is room, and leaves the caller's pointer. -/
theorem push_of_lt {container : Container} {blocks : Blocks} {size : ℕ} (ptr : ℕ)
    (hsize : size ≠ 0) (h : container.size < capacity) :
    push container blocks size (some ptr) =
      (container.insert (totalSize size) ptr, blocks, some ptr) := by
  rw [push, if_neg hsize, if_pos h]

/-- `push` deletes a block when there is no room. -/
theorem push_of_not_lt {container : Container} {blocks : Blocks} {size : ℕ} (ptr : ℕ)
    (hsize : size ≠ 0) (h : ¬container.size < capacity) :
    push container blocks size (some ptr) = (container, blocks.delete ptr, none) := by
  rw [push, if_neg hsize, if_neg h]

/-- `clear` deletes what is cached. -/
theorem clear_eq (container : Container) (blocks : Blocks) :
    clear container blocks =
      (.empty, { blocks with deleted := blocks.deleted ++ container.values }) := by
  rw [clear, Blocks.foldl_delete]

/-! ## Histories of calls -/

/-- The allocator, the heap and the callers. -/
structure Sys where
  container : Container
  blocks : Blocks
  held : List (ℕ × ℕ)
  lost : List ℕ

/-- A call. -/
inductive Label
  /-- Somebody calls `pop`. -/
  | pop (size : ℕ)
  /-- Somebody calls `pop`, and `new` throws. -/
  | popThrows (size : ℕ)
  /-- Somebody who holds `ptr`, asked for with `size`, pushes it. -/
  | push (size ptr : ℕ)
  | clear
  deriving DecidableEq, Repr

/-- One call. -/
def step (s : Sys) : Label → Option Sys
  | .pop size =>
      if size < sizeCount then
        let r := pop s.container s.blocks size
        some { s with container := r.2.1, blocks := r.2.2, held := s.held ++ [(size, r.1)] }
      else none
  | .popThrows size =>
      if size < sizeCount ∧ s.container.find? (totalSize size) = none then some s else none
  | .push size ptr =>
      if (size, ptr) ∈ s.held then
        let r := push s.container s.blocks size (some ptr)
        some { s with
          container := r.1
          blocks := r.2.1
          held := s.held.erase (size, ptr)
          lost := if size = 0 then s.lost ++ [ptr] else s.lost }
      else none
  | .clear =>
      let r := clear s.container s.blocks
      some { s with container := r.1, blocks := r.2 }

/-- A constructed allocator. -/
def fresh : Sys where
  container := .empty
  blocks := ⟨0, [], fun _ => 0⟩
  held := []
  lost := []

/-- The allocator with its callers. -/
def system : LTS Sys Label where
  init s := s = fresh
  step := step

/-- The outcomes of a call, one constructor for each path through the code. -/
inductive Move (s : Sys) : Label → Sys → Prop
  | popNew (size : ℕ) (hsize : size < sizeCount)
      (hfind : s.container.find? (totalSize size) = none) :
      Move s (.pop size)
        { s with
          blocks := (s.blocks.new (totalSize size)).2
          held := s.held ++ [(size, s.blocks.next)] }
  | popCached (size ptr : ℕ) (hsize : size < sizeCount)
      (hfind : s.container.find? (totalSize size) = some ptr) :
      Move s (.pop size)
        { s with
          container := s.container.eraseFound (totalSize size)
          held := s.held ++ [(size, ptr)] }
  | popThrows (size : ℕ) (hfind : s.container.find? (totalSize size) = none) :
      Move s (.popThrows size) s
  | pushZero (ptr : ℕ) (hheld : (0, ptr) ∈ s.held) :
      Move s (.push 0 ptr)
        { s with held := s.held.erase (0, ptr), lost := s.lost ++ [ptr] }
  | pushCached (size ptr : ℕ) (hheld : (size, ptr) ∈ s.held) (hsize : size ≠ 0)
      (hroom : s.container.size < capacity) :
      Move s (.push size ptr)
        { s with
          container := s.container.insert (totalSize size) ptr
          held := s.held.erase (size, ptr) }
  | pushDeleted (size ptr : ℕ) (hheld : (size, ptr) ∈ s.held) (hsize : size ≠ 0)
      (hfull : ¬s.container.size < capacity) :
      Move s (.push size ptr)
        { s with
          blocks := s.blocks.delete ptr
          held := s.held.erase (size, ptr) }
  | clear :
      Move s .clear
        { s with
          container := .empty
          blocks := { s.blocks with deleted := s.blocks.deleted ++ s.container.values } }

/-- **Inversion.**  Every call is one of the moves. -/
theorem move_of_step {s t : Sys} {a : Label} (h : step s a = some t) : Move s a t := by
  unfold step at h
  cases a with
  | pop size =>
      dsimp only at h
      split_ifs at h with hsize
      obtain rfl := Option.some.inj h
      cases hfind : s.container.find? (totalSize size) with
      | none =>
          rw [pop_of_none hfind]
          exact .popNew size hsize hfind
      | some ptr =>
          rw [pop_of_some hfind]
          exact .popCached size ptr hsize hfind
  | popThrows size =>
      dsimp only at h
      split_ifs at h with hthrows
      obtain rfl := Option.some.inj h
      exact .popThrows size hthrows.2
  | push size ptr =>
      dsimp only at h
      split_ifs at h with hheld hzero
      · subst hzero
        rw [push_zero] at h
        obtain rfl := Option.some.inj h
        exact .pushZero ptr hheld
      · obtain rfl := Option.some.inj h
        by_cases hroom : s.container.size < capacity
        · rw [push_of_lt ptr hzero hroom]
          exact .pushCached size ptr hheld hzero hroom
        · rw [push_of_not_lt ptr hzero hroom]
          exact .pushDeleted size ptr hheld hzero hroom
  | clear =>
      dsimp only at h
      rw [clear_eq] at h
      obtain rfl := Option.some.inj h
      exact .clear

end LazyAllocator
