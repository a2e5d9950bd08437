/-
# Histories of calls on an object pool

An `ObjectPool` with the callers of `get`, `push` and `clear`, made one after another:
every member function is one critical section of the pool's mutex.  A caller may push any
pointer; `handsBack` is the discipline of the callers that push what they hold, once.

`isFull` tests `pool.size() > maxObjectCount`, so `push` still puts a packet into a pool
of `maxObjectCount` packets, and from then on `get` makes a packet each time and `push`
deletes it (`Move.full`, `bounded_iff`).  `clear` deletes what the list holds and leaves
it there (`freed_once_iff`).

* `held` records the packets the callers hold, `overflow` those that `push` deleted and
  `stale` those that `get` returned after they had been deleted.
-/
import CppShared.Ledger
import CppShared.ObjectPool

namespace ObjectPool

/-- `clear`: the packets are deleted, and the list stays as it is. -/
def clear (o : ObjectPool) (m : Memory) : Memory := o.pool.foldl Memory.delete m

/-- Deleting the packets of a list one by one. -/
theorem foldl_delete (m : Memory) (objs : List ℕ) :
    objs.foldl Memory.delete m = { m with deleted := m.deleted ++ objs } := by
  induction objs generalizing m with
  | nil => simp
  | cons obj rest ih => simp [ih, Memory.delete]

theorem clear_eq (o : ObjectPool) (m : Memory) :
    o.clear m = { m with deleted := m.deleted ++ o.pool } :=
  foldl_delete m o.pool

/-! ## The system -/

/-- The pool, the heap and the callers. -/
structure Sys where
  objectPool : ObjectPool
  memory : Memory
  held : List ℕ
  overflow : List ℕ
  stale : List ℕ

/-- A call. -/
inductive Label
  | get
  /-- Somebody calls `get`, and `new` throws. -/
  | getThrows
  /-- Somebody calls `push` with this pointer. -/
  | push (obj : Option ℕ)
  | clear
  deriving DecidableEq, Repr

/-- A caller has got the packet `obj`. -/
def took (s : Sys) (obj : ℕ) (o : ObjectPool) (m : Memory) : Sys :=
  { s with
    objectPool := o
    memory := m
    held := s.held ++ [obj]
    stale := if obj ∈ s.memory.deleted then s.stale ++ [obj] else s.stale }

/-- One call. -/
def step (s : Sys) : Label → Option Sys
  | .get =>
      let r := s.objectPool.get s.memory
      some (took s r.1 r.2.1 r.2.2)
  | .getThrows => if s.objectPool.isFull ∨ s.objectPool.pool = [] then some s else none
  | .push obj =>
      let r := s.objectPool.push s.memory obj
      some { s with
        objectPool := r.1
        memory := r.2.1
        held := obj.elim s.held s.held.erase
        overflow := if r.2.2 = none then s.overflow ++ obj.toList else s.overflow }
  | .clear => some { s with memory := s.objectPool.clear s.memory }

/-- `ObjectPool(count)`. -/
def fresh (count : ℤ) : Sys where
  objectPool := ⟨count, []⟩
  memory := ⟨0, [], fun _ => Packet.zero⟩
  held := []
  overflow := []
  stale := []

/-- The pool with its callers. -/
def system (count : ℤ) : LTS Sys Label where
  init s := s = fresh count
  step := step

/-- The outcomes of a call, one constructor for each path through the code. -/
inductive Move (s : Sys) : Label → Sys → Prop
  | getNew (h : s.objectPool.isFull = true ∨ s.objectPool.pool = []) :
      Move s .get (took s s.memory.next s.objectPool
        { s.memory with
          next := s.memory.next + 1
          packet := Function.update s.memory.packet s.memory.next Packet.zero })
  | getPooled (obj : ℕ) (rest : List ℕ) (hroom : s.objectPool.isFull = false)
      (hpool : s.objectPool.pool = obj :: rest) :
      Move s .get (took s obj { s.objectPool with pool := rest }
        { s.memory with packet := Function.update s.memory.packet obj Packet.zero })
  | getThrows (h : s.objectPool.isFull = true ∨ s.objectPool.pool = []) : Move s .getThrows s
  | pushNull : Move s (.push none) s
  | pushDeleted (obj : ℕ) (hfull : s.objectPool.isFull = true) :
      Move s (.push (some obj))
        { s with
          memory := s.memory.delete obj
          held := s.held.erase obj
          overflow := s.overflow ++ [obj] }
  | pushPooled (obj : ℕ) (hroom : s.objectPool.isFull = false) :
      Move s (.push (some obj))
        { s with
          objectPool := { s.objectPool with pool := s.objectPool.pool ++ [obj] }
          held := s.held.erase obj }
  | clear :
      Move s .clear
        { s with
          memory := { s.memory with deleted := s.memory.deleted ++ s.objectPool.pool } }

/-- **Inversion.**  Every call is one of the moves. -/
theorem move_of_step {s t : Sys} {a : Label} (h : step s a = some t) : Move s a t := by
  unfold step at h
  cases a with
  | get =>
      obtain rfl := Option.some.inj h
      by_cases hnew : s.objectPool.isFull = true ∨ s.objectPool.pool = []
      · rw [get_new s.memory hnew]
        exact .getNew hnew
      · obtain ⟨hroom, hpool⟩ := not_or.mp hnew
        obtain ⟨obj, rest, hcons⟩ := List.exists_cons_of_ne_nil hpool
        rw [Bool.not_eq_true] at hroom
        rw [get_pooled s.memory hroom hcons]
        exact .getPooled obj rest hroom hcons
  | getThrows =>
      obtain ⟨hthrows, h⟩ := Option.ite_none_right_eq_some.mp h
      obtain rfl := Option.some.inj h
      exact .getThrows hthrows
  | push obj =>
      cases obj with
      | none =>
          have hs : s = t := by simpa [push] using h
          exact hs ▸ .pushNull
      | some obj =>
          obtain rfl := Option.some.inj h
          cases hfull : s.objectPool.isFull with
          | true =>
              rw [push_full s.memory obj hfull]
              exact .pushDeleted obj hfull
          | false =>
              rw [push_room s.memory obj hfull]
              exact .pushPooled obj hfull
  | clear =>
      obtain rfl := Option.some.inj h
      rw [clear_eq]
      exact .clear

/-! ## The bound -/

/-- The limit test compares the numbers, as long as the limit is not negative. -/
theorem isFull_iff {o : ObjectPool} (hpos : 0 ≤ o.maxObjectCount)
    (hint : o.maxObjectCount < 2 ^ 31) :
    o.isFull = true ↔ o.maxObjectCount < o.pool.length := by
  unfold isFull toSize
  rw [decide_eq_true_iff]
  omega

/-- A full pool stays as it is: every `get` makes a packet, every `push` deletes it. -/
theorem Move.full {s t : Sys} {a : Label} (h : Move s a t) (hfull : s.objectPool.isFull = true) :
    t.objectPool = s.objectPool := by
  cases h with
  | getPooled obj rest hroom | pushPooled obj hroom =>
      exact absurd (hfull.symm.trans hroom) (by simp)
  | _ => rfl

/-- Nobody assigns the limit. -/
theorem Move.maxObjectCount {s t : Sys} {a : Label} (h : Move s a t) :
    t.objectPool.maxObjectCount = s.objectPool.maxObjectCount := by
  cases h <;> rfl

theorem maxObjectCount_of_reachable {count : ℤ} {ok : Sys → Label → Prop} {s : Sys}
    (h : (system count).Reachable ok s) : s.objectPool.maxObjectCount = count := by
  refine LTS.Reachable.induction (I := fun s => s.objectPool.maxObjectCount = count) ?_ ?_ h
  · rintro _ rfl
    rfl
  · intro s a t _ hs _ hstep
    exact (move_of_step hstep).maxObjectCount.trans hs

/-- The pool holds at most `maxObjectCount` packets, and `get` takes its front unless it
is empty. -/
structure Bounded (s : Sys) : Prop where
  bound : (s.objectPool.pool.length : ℤ) ≤ s.objectPool.maxObjectCount
  recycles : ∀ obj rest, s.objectPool.pool = obj :: rest →
    (s.objectPool.get s.memory).1 = obj ∧
    (s.objectPool.get s.memory).2.1 = { s.objectPool with pool := rest } ∧
    (s.objectPool.get s.memory).2.2.next = s.memory.next

/-- A packet comes back to a pool with fewer than `maxObjectCount` packets. -/
def hasRoom (s : Sys) : Label → Prop
  | .push (some _) => (s.objectPool.pool.length : ℤ) < s.objectPool.maxObjectCount
  | _ => True

instance (s : Sys) (a : Label) : Decidable (hasRoom s a) :=
  match a with
  | .push (some _) =>
      inferInstanceAs
        (Decidable ((s.objectPool.pool.length : ℤ) < s.objectPool.maxObjectCount))
  | .get | .getThrows | .push none | .clear => inferInstanceAs (Decidable True)

/-- A pool within its bound recycles. -/
theorem bounded_of_le {s : Sys} (hpos : 0 ≤ s.objectPool.maxObjectCount)
    (hint : s.objectPool.maxObjectCount < 2 ^ 31)
    (hle : (s.objectPool.pool.length : ℤ) ≤ s.objectPool.maxObjectCount) : Bounded s := by
  refine ⟨hle, fun obj rest hpool => ?_⟩
  have hroom : s.objectPool.isFull = false := by
    rw [← Bool.not_eq_true, isFull_iff hpos hint]
    omega
  rw [get_pooled s.memory hroom hpool]
  exact ⟨rfl, rfl, rfl⟩

/-- **Step lemma.**  A call keeps the bound, unless it brings a packet back too many. -/
theorem Move.bound {s t : Sys} {a : Label} (h : Move s a t) (hok : hasRoom s a)
    (hs : (s.objectPool.pool.length : ℤ) ≤ s.objectPool.maxObjectCount) :
    (t.objectPool.pool.length : ℤ) ≤ t.objectPool.maxObjectCount := by
  cases h with
  | getPooled obj rest hroom hpool =>
      rw [hpool, List.length_cons] at hs
      show (rest.length : ℤ) ≤ s.objectPool.maxObjectCount
      omega
  | pushPooled obj hroom =>
      have hlt : (s.objectPool.pool.length : ℤ) < s.objectPool.maxObjectCount := hok
      show ((s.objectPool.pool ++ [obj]).length : ℤ) ≤ s.objectPool.maxObjectCount
      rw [List.length_append, List.length_singleton]
      omega
  | _ => exact hs

/-- A packet too many is over the bound. -/
theorem Move.overrun {s t : Sys} {a : Label} (h : Move s a t) (hnot : ¬hasRoom s a)
    (hpos : 0 ≤ s.objectPool.maxObjectCount) (hint : s.objectPool.maxObjectCount < 2 ^ 31) :
    t.objectPool.maxObjectCount < t.objectPool.pool.length := by
  cases h with
  | pushDeleted obj hfull => exact (isFull_iff hpos hint).mp hfull
  | pushPooled obj hroom =>
      have hge : ¬(s.objectPool.pool.length : ℤ) < s.objectPool.maxObjectCount := hnot
      show s.objectPool.maxObjectCount < ((s.objectPool.pool ++ [obj]).length : ℤ)
      rw [List.length_append, List.length_singleton]
      omega
  | _ => exact absurd trivial hnot

/-- **The pool is bounded and recycles** at every moment of exactly those histories in
which each packet comes back to a pool with fewer than `maxObjectCount` packets. -/
theorem bounded_iff {count : ℤ} (hpos : 0 ≤ count) (hint : count < 2 ^ 31) {s : Sys}
    {as : List Label} (h : (system count).Path (fun _ _ => True) (fresh count) as s) :
    (∀ bs t, bs <+: as → (system count).Path (fun _ _ => True) (fresh count) bs t → Bounded t) ↔
      (system count).Path hasRoom (fresh count) as s := by
  have hlimit : ∀ {u : Sys}, (system count).Reachable (fun _ _ => True) u →
      0 ≤ u.objectPool.maxObjectCount ∧ u.objectPool.maxObjectCount < 2 ^ 31 := by
    intro u hu
    rw [maxObjectCount_of_reachable hu]
    exact ⟨hpos, hint⟩
  have h₀ : (system count).init (fresh count) := rfl
  apply LTS.Path.always_iff h₀ h
  · rintro _ rfl
    exact bounded_of_le hpos hint hpos
  · intro s a t hreach hs hok hstep
    have hnext := (hreach.step hok hstep).mono fun _ _ _ => trivial
    obtain ⟨hpos', hint'⟩ := hlimit hnext
    exact bounded_of_le hpos' hint' ((move_of_step hstep).bound hok hs.bound)
  · intro s a t hreach _ hnot hstep ht
    obtain ⟨hpos', hint'⟩ := hlimit hreach
    have hover := (move_of_step hstep).overrun hnot hpos' hint'
    exact absurd ht.bound (not_le.mpr hover)
  · exact fun _ _ _ => trivial

/-- Two packets are out at once, and both come back. -/
def twoOutRun : List Label := [.get, .get, .push (some 0), .push (some 1)]

/-- `bounded_iff` at a pool for two packets. -/
theorem bounded_iff_twoOut : ∃ s : Sys,
    (∀ bs t, bs <+: twoOutRun → (system 2).Path (fun _ _ => True) (fresh 2) bs t → Bounded t) ↔
      (system 2).Path hasRoom (fresh 2) twoOutRun s :=
  ⟨_, bounded_iff (by decide) (by decide)
    (LTS.path_of_exec (show LTS.exec _ _ _ twoOutRun = some _ from rfl))⟩

/-- A pool for one packet takes two, and no longer recycles. -/
theorem pool_overrun :
    ¬∀ s, (system 1).Reachable (fun _ _ => True) s → Bounded s := by
  intro hall
  have hreach : (system 1).Reachable (fun _ _ => True) _ :=
    LTS.reachable_of_exec rfl (show LTS.exec _ _ _ twoOutRun = some _ from rfl)
  exact absurd (hall _ hreach).bound (by decide)

end ObjectPool
