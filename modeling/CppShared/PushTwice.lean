/-
# Giving a block back twice

`ObjectPool::push` and `LazyAllocator::push` take the caller's pointer by reference.  The
branch that deletes the block sets the pointer to null, so that a second call with the
same variable does nothing; the branch that keeps the block leaves the pointer alone.  A
second call is harmless exactly when the first one has not kept the block
(`push_twice_harmless_iff`).
-/
import CppShared.LazyAllocatorReuse
import CppShared.ObjectPoolOwnership

namespace ObjectPool

/-- `push` twice in a row with the same variable. -/
def pushTwice (o : ObjectPool) (m : Memory) (obj : Option ℕ) : ObjectPool × Memory × Option ℕ :=
  let r := o.push m obj
  r.1.push r.2.1 r.2.2

/-- The second call changes nothing, no packet is pooled twice, and the next two calls of
`get` return different packets. -/
structure Harmless (s : Sys) (obj : Option ℕ) : Prop where
  same : pushTwice s.objectPool s.memory obj = s.objectPool.push s.memory obj
  once : (pushTwice s.objectPool s.memory obj).1.pool.Nodup
  apart :
    let r := pushTwice s.objectPool s.memory obj
    let first := r.1.get r.2.1
    first.1 ≠ (first.2.1.get first.2.2).1

/-- No packet is pooled twice, or held twice. -/
theorem nodup_of_reachable {count : ℤ} {s : Sys} (h : (system count).Reachable handsBack s) :
    s.objectPool.pool.Nodup ∧ s.held.Nodup := by
  have hnodup := (law_of_reachable h).nodup_add (i := .pooled) (j := .held) (by decide)
  obtain ⟨hpool, hheld, -⟩ := Multiset.nodup_add.mp hnodup
  exact ⟨Multiset.coe_nodup.mp hpool, Multiset.coe_nodup.mp hheld⟩

/-- Two calls of `get` return different packets. -/
theorem get_get_ne {count : ℤ} {s : Sys} (h : (system count).Reachable handsBack s) :
    let first := s.objectPool.get s.memory
    first.1 ≠ (first.2.1.get first.2.2).1 := by
  intro first
  have hfirst : (system count).Reachable handsBack (took s first.1 first.2.1 first.2.2) :=
    h.step (a := .get) trivial rfl
  have hsecond := hfirst.step (a := Label.get) trivial rfl
  have hheld := (nodup_of_reachable hsecond).2
  replace hheld : (s.held ++ [first.1] ++ [(first.2.1.get first.2.2).1]).Nodup := hheld
  rw [List.append_assoc] at hheld
  have hpair := (List.nodup_append.mp hheld).2.1
  simpa using hpair

/-- One call of `push` is a call of the system. -/
theorem reachable_push {count : ℤ} {s : Sys} {obj : Option ℕ}
    (h : (system count).Reachable handsBack s) (hobj : ∀ x, obj = some x → x ∈ s.held) :
    ∃ t, (system count).Reachable handsBack t ∧
      t.objectPool = (s.objectPool.push s.memory obj).1 ∧
      t.memory = (s.objectPool.push s.memory obj).2.1 := by
  have hok : handsBack s (.push obj) := by
    cases obj with
    | none => trivial
    | some x => exact hobj x rfl
  exact ⟨_, h.step hok rfl, rfl, rfl⟩

/-- The second call changes nothing exactly if there is no pointer or the pool is full. -/
theorem pushTwice_eq_iff (o : ObjectPool) (m : Memory) (obj : Option ℕ) :
    pushTwice o m obj = o.push m obj ↔ obj = none ∨ o.isFull = true := by
  unfold pushTwice
  cases obj with
  | none => exact iff_of_true rfl (Or.inl rfl)
  | some x =>
      cases hfull : o.isFull with
      | true =>
          rw [push_full m x hfull]
          exact iff_of_true rfl (Or.inr rfl)
      | false =>
          rw [push_room m x hfull]
          refine iff_of_false (fun heq => ?_) (by simp)
          -- the second call pools the packet once more, or deletes it
          rcases push_cases { o with pool := o.pool ++ [x] } m x with hdeleted | hpooled
          · rw [hdeleted] at heq
            exact absurd (congrArg (fun r => r.2.2) heq) (by simp)
          · rw [hpooled] at heq
            have hlen := congrArg (fun r => r.1.pool.length) heq
            simp at hlen

theorem harmless_iff {count : ℤ} {s : Sys} {obj : Option ℕ}
    (h : (system count).Reachable handsBack s) (hobj : ∀ x, obj = some x → x ∈ s.held) :
    Harmless s obj ↔ obj = none ∨ s.objectPool.isFull = true := by
  rw [← pushTwice_eq_iff s.objectPool s.memory obj]
  constructor
  · exact Harmless.same
  · intro hsame
    obtain ⟨t, ht, hpool, hmemory⟩ := reachable_push h hobj
    refine ⟨hsame, ?_, ?_⟩
    · rw [hsame, ← hpool]
      exact (nodup_of_reachable ht).1
    · rw [hsame]
      dsimp only
      rw [← hpool, ← hmemory]
      exact get_get_ne ht

end ObjectPool

namespace LazyAllocator

/-- `push` twice in a row with the same variable. -/
def pushTwice (container : Container) (blocks : Blocks) (size : ℕ) (ptr : Option ℕ) :
    Container × Blocks × Option ℕ :=
  let r := push container blocks size ptr
  push r.1 r.2.1 size r.2.2

/-- The second call changes nothing, no block is cached twice, and the next two calls of
`pop` return different blocks. -/
structure Harmless (s : Sys) (size : ℕ) (ptr : Option ℕ) : Prop where
  same : pushTwice s.container s.blocks size ptr = push s.container s.blocks size ptr
  once : (pushTwice s.container s.blocks size ptr).1.values.Nodup
  apart : ∀ n₁ < sizeCount, ∀ n₂ < sizeCount,
    let r := pushTwice s.container s.blocks size ptr
    let first := pop r.1 r.2.1 n₁
    first.1 ≠ (pop first.2.1 first.2.2 n₂).1

/-- Two calls of `pop` return different blocks. -/
theorem pop_pop_ne {ok : Sys → Label → Prop} {s : Sys} (h : system.Reachable ok s) {n₁ n₂ : ℕ}
    (h₁ : n₁ < sizeCount) (h₂ : n₂ < sizeCount) :
    let first := pop s.container s.blocks n₁
    first.1 ≠ (pop first.2.1 first.2.2 n₂).1 := by
  intro first
  have hall : system.Reachable (fun _ _ => True) s := h.mono fun _ _ _ => trivial
  have hfirst : system.Reachable (fun _ _ => True)
      { s with
        container := first.2.1
        blocks := first.2.2
        held := s.held ++ [(n₁, first.1)] } :=
    hall.step (a := .pop n₁) trivial (if_pos h₁)
  have hsecond := hfirst.step (a := Label.pop n₂) trivial (if_pos h₂)
  have hheld := (List.nodup_append.mp (distinct_of_reachable hsecond).1).1
  replace hheld : ((s.held ++ [(n₁, first.1)] ++
      [(n₂, (pop first.2.1 first.2.2 n₂).1)]).map Prod.snd).Nodup := hheld
  rw [List.append_assoc, List.map_append] at hheld
  have hpair := (List.nodup_append.mp hheld).2.1
  simpa using hpair

/-- One call of `push` is a call of the system, or does nothing. -/
theorem reachable_push {s : Sys} {size : ℕ} {ptr : Option ℕ}
    (h : system.Reachable (fun _ _ => True) s) (hptr : ∀ x, ptr = some x → (size, x) ∈ s.held) :
    ∃ t, system.Reachable (fun _ _ => True) t ∧
      t.container = (push s.container s.blocks size ptr).1 ∧
      t.blocks = (push s.container s.blocks size ptr).2.1 := by
  cases ptr with
  | none => exact ⟨s, h, rfl, rfl⟩
  | some x => exact ⟨_, h.step (a := .push size x) trivial (if_pos (hptr x rfl)), rfl, rfl⟩

/-- The second call changes nothing exactly if there is no pointer, the size is 0 or the
cache is full. -/
theorem pushTwice_eq_iff (container : Container) (blocks : Blocks) (size : ℕ)
    (ptr : Option ℕ) : pushTwice container blocks size ptr = push container blocks size ptr ↔
      ptr = none ∨ size = 0 ∨ ¬container.size < capacity := by
  unfold pushTwice
  cases ptr with
  | none => exact iff_of_true rfl (Or.inl rfl)
  | some x =>
      by_cases hsize : size = 0
      · subst hsize
        rw [push_zero]
        exact iff_of_true (push_zero container blocks x) (Or.inr (Or.inl rfl))
      · by_cases hroom : container.size < capacity
        · rw [push_of_lt x hsize hroom]
          refine iff_of_false (fun heq => ?_) (by simp [hsize, hroom])
          -- the second call caches the block once more, or deletes it
          set next := container.insert (totalSize size) x with hnext
          by_cases hagain : next.size < capacity
          · rw [push_of_lt x hsize hagain] at heq
            have hlen := (next.perm_insert (totalSize size) x).length_eq
            rw [show next.insert (totalSize size) x = next from congrArg Prod.fst heq,
              List.length_cons] at hlen
            omega
          · rw [push_of_not_lt x hsize hagain] at heq
            exact absurd (congrArg (fun r => r.2.2) heq) (by simp)
        · rw [push_of_not_lt x hsize hroom]
          exact iff_of_true rfl (Or.inr (Or.inr hroom))

theorem harmless_iff {s : Sys} {size : ℕ} {ptr : Option ℕ}
    (h : system.Reachable (fun _ _ => True) s) (hptr : ∀ x, ptr = some x → (size, x) ∈ s.held) :
    Harmless s size ptr ↔ ptr = none ∨ size = 0 ∨ ¬s.container.size < capacity := by
  rw [← pushTwice_eq_iff s.container s.blocks size ptr]
  constructor
  · exact Harmless.same
  · intro hsame
    obtain ⟨t, ht, hcontainer, hblocks⟩ := reachable_push h hptr
    refine ⟨hsame, ?_, fun n₁ h₁ n₂ h₂ => ?_⟩
    · rw [hsame, ← hcontainer]
      exact (List.nodup_append.mp (distinct_of_reachable ht).1).2.1
    · rw [hsame]
      dsimp only
      rw [← hcontainer, ← hblocks]
      exact pop_pop_ne ht h₁ h₂

end LazyAllocator

/-! ## Both pools -/

/-- **A second `push` is harmless** exactly if the first one has not kept the block: there
was none, the pool was full, or the size was 0.  The callers push what they hold. -/
theorem push_twice_harmless_iff {count : ℤ} {s : ObjectPool.Sys} {obj : Option ℕ}
    {t : LazyAllocator.Sys} {size : ℕ} {ptr : Option ℕ}
    (hs : (ObjectPool.system count).Reachable ObjectPool.handsBack s)
    (hobj : ∀ x, obj = some x → x ∈ s.held)
    (ht : LazyAllocator.system.Reachable (fun _ _ => True) t)
    (hptr : ∀ x, ptr = some x → (size, x) ∈ t.held) :
    (ObjectPool.Harmless s obj ↔ obj = none ∨ s.objectPool.isFull = true) ∧
      (LazyAllocator.Harmless t size ptr ↔
        ptr = none ∨ size = 0 ∨ ¬t.container.size < LazyAllocator.capacity) :=
  ⟨ObjectPool.harmless_iff hs hobj, LazyAllocator.harmless_iff ht hptr⟩

/-- `push_twice_harmless_iff` where each caller holds one block. -/
theorem push_twice_harmless_oneHeld : ∃ s t,
    (ObjectPool.Harmless s (some 0) ↔ some 0 = none ∨ s.objectPool.isFull = true) ∧
      (LazyAllocator.Harmless t 32 (some 0) ↔
        some 0 = none ∨ 32 = 0 ∨ ¬t.container.size < LazyAllocator.capacity) := by
  have hs : (ObjectPool.system 1024).Reachable ObjectPool.handsBack _ :=
    LTS.reachable_of_exec rfl (show LTS.exec _ _ _ [.get] = some _ from rfl)
  have ht : LazyAllocator.system.Reachable (fun _ _ => True) _ :=
    LTS.reachable_of_exec rfl (show LTS.exec _ _ _ [.pop 32] = some _ from rfl)
  refine ⟨_, _, push_twice_harmless_iff hs (fun x hx => ?_) ht fun x hx => ?_⟩
  · obtain rfl := Option.some.inj hx
    decide
  · obtain rfl := Option.some.inj hx
    decide

/-- The packet is pooled twice, and the next two calls of `get` return it. -/
theorem push_twice_harms : ∃ s, (ObjectPool.system 1024).Reachable ObjectPool.handsBack s ∧
    0 ∈ s.held ∧ ¬ObjectPool.Harmless s (some 0) := by
  have hs : (ObjectPool.system 1024).Reachable ObjectPool.handsBack _ :=
    LTS.reachable_of_exec rfl (show LTS.exec _ _ _ [.get] = some _ from rfl)
  refine ⟨_, hs, by decide, fun h => ?_⟩
  exact absurd h.once (by decide)
