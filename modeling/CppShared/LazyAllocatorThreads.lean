/-
# The block cache and its threads

`LazyAllocator::push` reads `container.size()` before it locks the mutex, so a call is
two steps: the test, and under the lock the insertion, or the deletion of the block.
`pop` and `clear` are critical sections.  Other threads can take their steps between the
test and the insertion.

* `pushTest` is the first step; `push_alone` says that a thread that is not interrupted
  does what `push` does;
* `Move.load`: what a step does to the blocks that are cached or about to be inserted;
* `size_lt_of_reachable`: the cache outgrows its capacity by less than the number of
  threads;
* `within_capacity_iff`: it does not, in a run and after the insertions it leaves under way,
  exactly if every test that finds room counts with the insertions under way.
-/
import CppShared.LazyAllocator
import CppShared.Table

namespace LazyAllocatorThreads

open LazyAllocator (Container capacity sizeCount totalSize pop push clear)

/-- Where a thread is in `push`. -/
inductive Caller
  | outside
  /-- There was room; about to lock `mutex` and insert. -/
  | inserting (size ptr : ℕ)
  /-- There was none; about to delete the block. -/
  | deleting (ptr : ℕ)
  deriving DecidableEq, Repr

/-- The allocator, the heap and the threads. -/
structure Sys where
  container : Container
  blocks : Blocks
  callers : List Caller

/-- A step: which thread moves, and the call it makes. -/
inductive Label
  /-- The thread calls `push` and makes the tests. -/
  | push (c size : ℕ) (ptr : Option ℕ)
  /-- The rest of `push`. -/
  | caller (c : ℕ)
  | pop (c size : ℕ)
  /-- `pop`, where `new` throws. -/
  | popThrows (c size : ℕ)
  | clear (c : ℕ)
  deriving DecidableEq, Repr

/-- The tests at the head of `push`. -/
def pushTest (container : Container) (size : ℕ) : Option ℕ → Caller
  | none => .outside
  | some ptr =>
      if size = 0 then .outside
      else if container.size < capacity then .inserting size ptr
      else .deleting ptr

/-- The rest of `push`. -/
def callerStep (s : Sys) (c : ℕ) : Option Sys :=
  match s.callers[c]? with
  | some (.inserting size ptr) =>
      some { s with
        container := s.container.insert (totalSize size) ptr
        callers := s.callers.set c .outside }
  | some (.deleting ptr) =>
      some { s with blocks := s.blocks.delete ptr, callers := s.callers.set c .outside }
  | _ => none

/-- One step. -/
def step (s : Sys) : Label → Option Sys
  | .push c size ptr =>
      if s.callers[c]? = some .outside then
        some { s with callers := s.callers.set c (pushTest s.container size ptr) }
      else none
  | .caller c => callerStep s c
  | .pop c size =>
      if s.callers[c]? = some .outside ∧ size < sizeCount then
        let r := pop s.container s.blocks size
        some { s with container := r.2.1, blocks := r.2.2 }
      else none
  | .popThrows c size =>
      if s.callers[c]? = some .outside ∧ s.container.find? (totalSize size) = none then some s
      else none
  | .clear c =>
      if s.callers[c]? = some .outside then
        let r := clear s.container s.blocks
        some { s with container := r.1, blocks := r.2 }
      else none

/-- A constructed allocator and `n` threads. -/
def fresh (n : ℕ) : Sys where
  container := .empty
  blocks := ⟨0, [], fun _ => 0⟩
  callers := List.replicate n .outside

/-- The allocator with `n` threads. -/
def system (n : ℕ) : LTS Sys Label where
  init s := s = fresh n
  step := step

/-- The outcomes of a step, as far as the number of blocks goes. -/
inductive Move (s : Sys) : Label → Sys → Prop
  | pushTested (c size : ℕ) (ptr : Option ℕ) (hc : s.callers[c]? = some .outside) :
      Move s (.push c size ptr)
        { s with callers := s.callers.set c (pushTest s.container size ptr) }
  | inserted (c size ptr : ℕ) (hc : s.callers[c]? = some (.inserting size ptr)) :
      Move s (.caller c)
        { s with
          container := s.container.insert (totalSize size) ptr
          callers := s.callers.set c .outside }
  | deleted (c ptr : ℕ) (hc : s.callers[c]? = some (.deleting ptr)) :
      Move s (.caller c)
        { s with blocks := s.blocks.delete ptr, callers := s.callers.set c .outside }
  | popped (c size : ℕ) :
      Move s (.pop c size)
        { s with
          container := (pop s.container s.blocks size).2.1
          blocks := (pop s.container s.blocks size).2.2 }
  | popThrows (c size : ℕ) : Move s (.popThrows c size) s
  | cleared (c : ℕ) :
      Move s (.clear c)
        { s with
          container := (clear s.container s.blocks).1
          blocks := (clear s.container s.blocks).2 }

/-- **Inversion.**  Every step is one of the moves. -/
theorem move_of_step {s t : Sys} {a : Label} (h : step s a = some t) : Move s a t := by
  cases a with
  | push c size ptr =>
      obtain ⟨hc, h⟩ := Option.ite_none_right_eq_some.mp h
      obtain rfl := Option.some.inj h
      exact .pushTested c size ptr hc
  | caller c =>
      replace h : callerStep s c = some t := h
      unfold callerStep at h
      split at h
      · next size ptr hc =>
          obtain rfl := Option.some.inj h
          exact .inserted c size ptr hc
      · next ptr hc =>
          obtain rfl := Option.some.inj h
          exact .deleted c ptr hc
      · simp at h
  | pop c size =>
      obtain ⟨-, h⟩ := Option.ite_none_right_eq_some.mp h
      obtain rfl := Option.some.inj h
      exact .popped c size
  | popThrows c size =>
      obtain ⟨-, h⟩ := Option.ite_none_right_eq_some.mp h
      obtain rfl := Option.some.inj h
      exact .popThrows c size
  | clear c =>
      obtain ⟨-, h⟩ := Option.ite_none_right_eq_some.mp h
      obtain rfl := Option.some.inj h
      exact .cleared c

/-! ## One thread alone -/

/-- A thread that is not interrupted does what `push` does. -/
theorem push_alone {n : ℕ} {s : Sys} {c : ℕ} (hc : s.callers[c]? = some .outside) (size : ℕ)
    (ptr : Option ℕ) :
    ∃ as, (system n).Path (fun _ _ => True) s as
      ⟨(push s.container s.blocks size ptr).1, (push s.container s.blocks size ptr).2.1,
        s.callers⟩ := by
  obtain ⟨hlt, hget⟩ := List.getElem?_eq_some_iff.mp hc
  have hself : s.callers.set c .outside = s.callers := by
    rw [← hget]
    exact List.set_getElem_self hlt
  have htest : (system n).Path (fun _ _ => True) s [.push c size ptr]
      { s with callers := s.callers.set c (pushTest s.container size ptr) } :=
    LTS.Path.single trivial (if_pos hc)
  -- the second step, when there is one
  have hrest : ∀ {p : Caller} {u : Sys}, pushTest s.container size ptr = p →
      callerStep { s with callers := s.callers.set c p } c = some u →
      (system n).Path (fun _ _ => True) s [.push c size ptr, .caller c] u := by
    intro p u hp hstep
    rw [hp] at htest
    exact htest.append (LTS.Path.single trivial hstep)
  have hpoint : ∀ p : Caller, (s.callers.set c p)[c]? = some p :=
    fun p => List.getElem?_set_self hlt
  cases ptr with
  | none =>
      rw [show pushTest s.container size none = .outside from rfl, hself] at htest
      exact ⟨_, htest⟩
  | some x =>
      by_cases hsize : size = 0
      · subst hsize
        rw [LazyAllocator.push_zero]
        rw [show pushTest s.container 0 (some x) = .outside from rfl, hself] at htest
        exact ⟨_, htest⟩
      · by_cases hroom : s.container.size < capacity
        · rw [LazyAllocator.push_of_lt x hsize hroom]
          refine ⟨_, hrest (p := .inserting size x) ?_ ?_⟩
          · unfold pushTest
            dsimp only
            rw [if_neg hsize, if_pos hroom]
          · simp only [callerStep, hpoint, List.set_set, hself]
        · rw [LazyAllocator.push_of_not_lt x hsize hroom]
          refine ⟨_, hrest (p := .deleting x) ?_ ?_⟩
          · unfold pushTest
            dsimp only
            rw [if_neg hsize, if_neg hroom]
          · simp only [callerStep, hpoint, List.set_set, hself]

/-! ## The number of blocks -/

/-- `pop` caches nothing. -/
theorem size_pop_le (container : Container) (blocks : Blocks) (size : ℕ) :
    (pop container blocks size).2.1.size ≤ container.size := by
  cases hfind : container.find? (totalSize size) with
  | none => rw [LazyAllocator.pop_of_none hfind]
  | some ptr =>
      rw [LazyAllocator.pop_of_some hfind]
      have hlen := (OrderedMultimap.perm_eraseFound hfind).length_eq
      rw [List.length_cons] at hlen
      show (container.eraseFound (totalSize size)).entries.length ≤ container.entries.length
      omega

theorem size_insert (container : Container) (k ptr : ℕ) :
    (container.insert k ptr).size = container.size + 1 :=
  (container.perm_insert k ptr).length_eq

/-- The thread found room. -/
def Caller.isInserting : Caller → Bool
  | .inserting _ _ => true
  | _ => false

/-- The threads between a test that found room and their insertion. -/
def pending (s : Sys) : ℕ := s.callers.countP Caller.isInserting

/-- A thread that finds room finds fewer than `capacity` blocks. -/
theorem isInserting_pushTest {container : Container} {size : ℕ} {ptr : Option ℕ}
    (h : (pushTest container size ptr).isInserting = true) : container.size < capacity := by
  cases ptr with
  | none => simp [pushTest, Caller.isInserting] at h
  | some x =>
      unfold pushTest at h
      dsimp only at h
      split_ifs at h with hsize hroom
      · simp [Caller.isInserting] at h
      · exact hroom
      · simp [Caller.isInserting] at h

/-- The step is a test that finds room. -/
def findsRoom (s : Sys) : Label → Prop
  | .push _ size ptr => (pushTest s.container size ptr).isInserting = true
  | _ => False

instance (s : Sys) (a : Label) : Decidable (findsRoom s a) :=
  match a with
  | .push _ size ptr =>
      inferInstanceAs (Decidable ((pushTest s.container size ptr).isInserting = true))
  | .caller _ | .pop _ _ | .popThrows _ _ | .clear _ => inferInstanceAs (Decidable False)

/-- What a step does to the number of threads, and to the blocks with the pending
insertions: a test that finds room adds one insertion, and no other step adds anything. -/
structure Load (s : Sys) (a : Label) (t : Sys) : Prop where
  threads : t.callers.length = s.callers.length
  room : findsRoom s a → t.container.size = s.container.size ∧ pending t = pending s + 1
  other : ¬findsRoom s a → t.container.size + pending t ≤ s.container.size + pending s

/-- **Step lemma.** -/
theorem Move.load {s t : Sys} {a : Label} (h : Move s a t) : Load s a t := by
  cases h with
  | pushTested c size ptr hc =>
      have hcount := countP_set_add hc (pushTest s.container size ptr) Caller.isInserting
      have hout : Caller.outside.isInserting = false := rfl
      refine ⟨List.length_set, fun hin => ⟨rfl, ?_⟩, fun hnot => ?_⟩
      · have hin' : (pushTest s.container size ptr).isInserting = true := hin
        simp only [hout, hin', Bool.false_eq_true, if_true, if_false] at hcount
        show List.countP _ (s.callers.set c _) = pending s + 1
        rw [pending]
        omega
      · have hnot' : ¬(pushTest s.container size ptr).isInserting = true := hnot
        simp only [hout, hnot', Bool.false_eq_true, if_false] at hcount
        show s.container.size + List.countP _ (s.callers.set c _) ≤ s.container.size + pending s
        rw [pending]
        omega
  | inserted c size ptr hc =>
      have hcount := countP_set_add hc .outside Caller.isInserting
      simp only [Caller.isInserting, if_true, Bool.false_eq_true, if_false] at hcount
      refine ⟨List.length_set, False.elim, fun _ => ?_⟩
      show (s.container.insert _ ptr).size + List.countP _ (s.callers.set c _) ≤ _
      rw [size_insert, pending]
      omega
  | deleted c ptr hc =>
      have hcount := countP_set_add hc .outside Caller.isInserting
      simp only [Caller.isInserting, Bool.false_eq_true, if_false] at hcount
      refine ⟨List.length_set, False.elim, fun _ => ?_⟩
      show s.container.size + List.countP _ (s.callers.set c _) ≤ _
      rw [pending]
      omega
  | popped c size =>
      exact ⟨rfl, False.elim, fun _ =>
        Nat.add_le_add_right (size_pop_le s.container s.blocks size) _⟩
  | popThrows c size => exact ⟨rfl, False.elim, fun _ => le_refl _⟩
  | cleared c => exact ⟨rfl, False.elim, fun _ => Nat.add_le_add_right (Nat.zero_le _) _⟩

theorem pending_fresh (n : ℕ) : pending (fresh n) = 0 := by
  refine List.countP_eq_zero.mpr fun p hp => ?_
  rw [List.eq_of_mem_replicate hp]
  exact Bool.false_ne_true

/-- With `n` threads the cache holds fewer than `capacity + n` blocks. -/
theorem size_lt_of_reachable {n : ℕ} {ok : Sys → Label → Prop} {s : Sys}
    (h : (system n).Reachable ok s) : s.container.size < capacity + n := by
  have hinv : s.callers.length = n ∧ s.container.size + pending s < capacity + n := by
    refine LTS.Reachable.induction (I := fun s => s.callers.length = n ∧
      s.container.size + pending s < capacity + n) ?_ ?_ h
    · rintro _ rfl
      refine ⟨List.length_replicate, ?_⟩
      rw [pending_fresh]
      exact Nat.add_pos_left (by decide) n
    · intro s a t _ hs _ hstep
      have hload := (move_of_step hstep).load
      have hthreads : t.callers.length = n := hload.threads.trans hs.1
      refine ⟨hthreads, ?_⟩
      by_cases hroom : findsRoom s a
      · -- the test has found fewer than `capacity` blocks, and every insertion has its thread
        have hfew : s.container.size < capacity := by
          cases a with
          | push c size ptr => exact isInserting_pushTest hroom
          | _ => exact hroom.elim
        have hle : pending t ≤ n := by
          rw [← hthreads]
          exact List.countP_le_length
        rw [(hload.room hroom).1]
        exact Nat.add_lt_add_of_lt_of_le hfew hle
      · exact Nat.lt_of_le_of_lt (hload.other hroom) hs.2
  omega

/-! ## The bound -/

/-- A test that finds room finds it for the pending insertions, too. -/
def keepsRoom (s : Sys) (a : Label) : Prop :=
  findsRoom s a → s.container.size + pending s < capacity

instance (s : Sys) (a : Label) : Decidable (keepsRoom s a) :=
  inferInstanceAs (Decidable (findsRoom s a → _))

/-- The rest of a `push`. -/
def finishing (_ : Sys) (a : Label) : Prop := ∃ c, a = .caller c

/-- A state is within the capacity, with the insertions that are under way in it. -/
def WithinCapacity (n : ℕ) (s : Sys) : Prop :=
  ∀ cs u, (system n).Path finishing s cs u → u.container.size ≤ capacity

/-- **Run lemma.**  As long as the tests count with the pending insertions, these have their
room. -/
theorem room_of_reachable {n : ℕ} {s : Sys} (h : (system n).Reachable keepsRoom s) :
    s.container.size + pending s ≤ capacity := by
  refine LTS.Reachable.induction (I := fun s => s.container.size + pending s ≤ capacity) ?_ ?_ h
  · rintro _ rfl
    rw [pending_fresh]
    exact Nat.zero_le _
  · intro s a t _ hs hok hstep
    have hload := (move_of_step hstep).load
    by_cases hroom : findsRoom s a
    · obtain ⟨hsize, hpending⟩ := hload.room hroom
      have hlt := hok hroom
      rw [hsize, hpending]
      omega
    · exact (hload.other hroom).trans hs

/-- Insertions with their room lead to states within the capacity. -/
theorem withinCapacity_of_room {n : ℕ} {s : Sys} (h : s.container.size + pending s ≤ capacity) :
    WithinCapacity n s := by
  intro cs u hpath
  have hend : u.container.size + pending u ≤ capacity := by
    refine LTS.Path.preserves (I := fun s => s.container.size + pending s ≤ capacity) hpath h ?_
    rintro s _ t hs ⟨c, rfl⟩ hstep
    have hm : Move s (.caller c) t := move_of_step hstep
    exact (hm.load.other id).trans hs
  exact (Nat.le_add_right _ _).trans hend

/-- All pending insertions can be made, one after another. -/
theorem exists_inserted (n : ℕ) (s : Sys) : ∃ cs u, (system n).Path finishing s cs u ∧
    u.container.size = s.container.size + pending s := by
  induction hk : pending s generalizing s with
  | zero => exact ⟨[], s, LTS.Path.nil s, rfl⟩
  | succ k ih =>
      obtain ⟨p, hp, hinserting⟩ := List.countP_pos_iff.mp (Nat.lt_of_lt_of_eq k.succ_pos hk.symm)
      obtain ⟨c, hlt, hget⟩ := List.mem_iff_getElem.mp hp
      cases p with
      | inserting size ptr =>
          have hc : s.callers[c]? = some (.inserting size ptr) :=
            List.getElem?_eq_some_iff.mpr ⟨hlt, hget⟩
          let t : Sys := { s with
            container := s.container.insert (totalSize size) ptr
            callers := s.callers.set c .outside }
          have hstep : (system n).step s (.caller c) = some t := by
            show callerStep s c = _
            rw [callerStep, hc]
          have hcount := countP_set_add hc .outside Caller.isInserting
          simp only [Caller.isInserting, if_true, Bool.false_eq_true, if_false] at hcount
          have hpending : pending t = k := by
            show List.countP _ (s.callers.set c _) = k
            rw [pending] at hk
            omega
          obtain ⟨cs, u, hpath, hsize⟩ := ih t hpending
          refine ⟨.caller c :: cs, u, (LTS.Path.single ⟨c, rfl⟩ hstep).append hpath, ?_⟩
          have hinsert : t.container.size = s.container.size + 1 := size_insert _ _ _
          omega
      | _ => exact absurd hinserting Bool.false_ne_true

/-- **The cache keeps within its capacity**, in a run and after the insertions that it leaves
under way, exactly if every test of the run that finds room finds it for the insertions under
way as well. -/
theorem within_capacity_iff {n : ℕ} {s : Sys} {as : List Label}
    (h : (system n).Path (fun _ _ => True) (fresh n) as s) :
    (∀ bs t, bs <+: as → (system n).Path (fun _ _ => True) (fresh n) bs t →
      WithinCapacity n t) ↔
    (system n).Path keepsRoom (fresh n) as s := by
  have h₀ : (system n).init (fresh n) := rfl
  apply LTS.Path.always_iff_first (P := WithinCapacity n) h₀ h
  · rintro _ rfl
    exact withinCapacity_of_room (room_of_reachable (n := n) (LTS.Reachable.init rfl))
  · intro s a t hreach _ hok hstep
    exact withinCapacity_of_room (room_of_reachable (hreach.step hok hstep))
  · intro s a t _ _ hnot hstep hwithin
    obtain ⟨hroom, hfull⟩ := Classical.not_imp.mp hnot
    obtain ⟨hsize, hpending⟩ := (move_of_step hstep).load.room hroom
    obtain ⟨cs, u, hpath, hend⟩ := exists_inserted n t
    have hle := hwithin cs u hpath
    omega

/-- Two threads push a block each, one inside the call of the other. -/
def twoPushesRun : List Label :=
  [.push 0 32 (some 0), .push 1 32 (some 1), .caller 0, .caller 1]

/-- `within_capacity_iff` at that run. -/
theorem within_capacity_twoPushes : ∃ s,
    (∀ bs t, bs <+: twoPushesRun → (system 2).Path (fun _ _ => True) (fresh 2) bs t →
      WithinCapacity 2 t) ↔
    (system 2).Path keepsRoom (fresh 2) twoPushesRun s :=
  ⟨_, within_capacity_iff (LTS.path_of_exec (show LTS.exec _ _ _ twoPushesRun = some _ from rfl))⟩

/-- A thread can fill the cache up to any number of blocks within the capacity. -/
theorem reachable_size {n k : ℕ} (hn : 0 < n) (hk : k ≤ capacity) :
    ∃ s, (system n).Reachable (fun _ _ => True) s ∧ s.container.size = k ∧
      s.callers = List.replicate n .outside := by
  induction k with
  | zero => exact ⟨fresh n, LTS.Reachable.init rfl, rfl, rfl⟩
  | succ k ih =>
      obtain ⟨s, hs, hsize, hcallers⟩ := ih (Nat.le_of_succ_le hk)
      have hc : s.callers[0]? = some .outside := by
        rw [hcallers]
        exact List.getElem?_replicate_of_lt hn
      obtain ⟨as, hpath⟩ := push_alone (n := n) hc 1 (some 0)
      refine ⟨_, hs.path hpath, ?_, hcallers⟩
      rw [LazyAllocator.push_of_lt 0 (by decide) (by omega)]
      show (s.container.insert _ 0).size = k + 1
      rw [size_insert, hsize]

/-- Two threads find the last place free, and both insert. -/
theorem capacity_exceeded :
    ¬∀ s, (system 2).Reachable (fun _ _ => True) s → s.container.size ≤ 256 := by
  intro hall
  obtain ⟨s, hs, hsize, hcallers⟩ := reachable_size (n := 2) (k := 255) (by decide) (by decide)
  have hroom : s.container.size < capacity := by
    rw [hsize]
    decide
  have htest : ∀ ptr, pushTest s.container 1 (some ptr) = .inserting 1 ptr := by
    intro ptr
    unfold pushTest
    dsimp only
    rw [if_neg (by decide), if_pos hroom]
  obtain ⟨container, blocks, callers⟩ := s
  obtain rfl : callers = [.outside, .outside] := hcallers
  have hboth := (hs.step (a := Label.push 0 1 (some 0)) trivial rfl).step
    (a := Label.push 1 1 (some 1)) trivial rfl
  simp only [htest] at hboth
  have hend := (hboth.step (a := Label.caller 0) trivial rfl).step (a := Label.caller 1) trivial rfl
  have hle := hall _ hend
  rw [size_insert, size_insert, hsize] at hle
  exact absurd hle (by decide)

end LazyAllocatorThreads
