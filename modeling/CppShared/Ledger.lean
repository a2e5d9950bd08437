/-
# Who holds which object

Objects are made one after another and handed around between the places of a
finite type: lists, queues, the hands of the threads, the graveyard of the deleted
ones.  A `Ledger` records how many objects were made and what every place holds,
as a multiset, so that holding an object twice can be expressed.

The law is that the places together hold exactly the objects made, each once.  It
gives the two facts a program with manual ownership needs: no object is in two
places or twice in one (`ledger_nodup`, `ledger_disjoint`), and no object is
nowhere (`ledger_mem_iff`).
-/
import CppShared.Transition
import Mathlib.Algebra.BigOperators.Group.Finset.Piecewise
import Mathlib.Algebra.Order.BigOperators.Group.Finset
import Mathlib.Algebra.Order.Group.Multiset
import Mathlib.Data.Multiset.Range
import Mathlib.Data.Multiset.UnionInter

variable {ι σ β : Type*}

/-- The number of objects made and the objects in each place. -/
structure Ledger (ι : Type*) where
  next : ℕ
  held : ι → Multiset ℕ

/-- What can happen to the objects. -/
inductive LedgerMove (ι : Type*)
  /-- The next object is made, in place `i`. -/
  | issue (i : ι)
  /-- Object `x` goes from place `i` to place `j`. -/
  | transfer (i j : ι) (x : ℕ)

namespace Ledger

/-- The places hold the objects made, each once. -/
def Law [Fintype ι] (l : Ledger ι) : Prop := ∑ i, l.held i = Multiset.range l.next

/-! ## The moves -/

section Moves

variable [DecidableEq ι]

/-- Object `x` is put into place `i`. -/
def put (held : ι → Multiset ℕ) (i : ι) (x : ℕ) : ι → Multiset ℕ :=
  Function.update held i (x ::ₘ held i)

/-- Object `x` is taken out of place `i`. -/
def take (held : ι → Multiset ℕ) (i : ι) (x : ℕ) : ι → Multiset ℕ :=
  Function.update held i ((held i).erase x)

/-- The effect of a move; an object can only go from where it is. -/
def step (l : Ledger ι) : LedgerMove ι → Option (Ledger ι)
  | .issue i => some ⟨l.next + 1, put l.held i l.next⟩
  | .transfer i j x =>
      if x ∈ l.held i then some ⟨l.next, put (take l.held i x) j x⟩ else none

variable [Fintype ι]

/-- Putting an object into a place adds it to the sum. -/
theorem sum_put (held : ι → Multiset ℕ) (i : ι) (x : ℕ) :
    ∑ k, put held i x k = x ::ₘ ∑ k, held k := by
  unfold put
  rw [Finset.sum_update_of_mem (Finset.mem_univ i), Multiset.cons_add,
    ← Finset.sum_eq_add_sum_sdiff_singleton_of_mem (Finset.mem_univ i)]

/-- Taking an object out of its place removes it from the sum. -/
theorem cons_sum_take {held : ι → Multiset ℕ} {i : ι} {x : ℕ} (hx : x ∈ held i) :
    x ::ₘ ∑ k, take held i x k = ∑ k, held k := by
  have hback : put (take held i x) i x = held := by
    unfold put take
    rw [Function.update_idem, Function.update_self, Multiset.cons_erase hx,
      Function.update_eq_self]
  rw [← sum_put, hback]

/-- Every move keeps the law. -/
theorem law_step {l m : Ledger ι} {a : LedgerMove ι} (h : l.Law) (hstep : l.step a = some m) :
    m.Law := by
  unfold Law at h ⊢
  cases a with
  | issue i =>
      obtain rfl := Option.some.inj hstep
      rw [sum_put, h, Multiset.range_succ]
  | transfer i j x =>
      obtain ⟨hx, heq⟩ := Option.ite_none_right_eq_some.mp hstep
      obtain rfl := Option.some.inj heq
      rw [sum_put, cons_sum_take hx, h]

end Moves

/-! ## What the law says -/

section Law

variable [Fintype ι]

/-- Two places hold every object at most once between them. -/
theorem Law.nodup_add [DecidableEq ι] {l : Ledger ι} (h : l.Law) {i j : ι} (hij : i ≠ j) :
    (l.held i + l.held j).Nodup := by
  have hle : l.held i + l.held j ≤ ∑ k, l.held k := by
    rw [← Finset.sum_pair hij]
    exact Finset.sum_le_sum_of_subset (Finset.subset_univ _)
  rw [h] at hle
  exact Multiset.nodup_of_le hle (Multiset.nodup_range l.next)

/-- No two places hold the same object. -/
theorem Law.disjoint [DecidableEq ι] {l : Ledger ι} (h : l.Law) {i j : ι} (hij : i ≠ j) {x : ℕ}
    (hi : x ∈ l.held i) : x ∉ l.held j :=
  Multiset.disjoint_left.mp (Multiset.nodup_add.mp (h.nodup_add hij)).2.2 hi

/-- An object is held somewhere exactly when it was made. -/
theorem Law.mem_iff {l : Ledger ι} (h : l.Law) (x : ℕ) : (∃ i, x ∈ l.held i) ↔ x < l.next := by
  rw [← Multiset.mem_range, ← h, Multiset.mem_sum]
  simp

end Law

end Ledger

/-- The ledger as a transition system, empty at the start. -/
def ledger (ι : Type*) [DecidableEq ι] : LTS (Ledger ι) (LedgerMove ι) where
  init l := l = ⟨0, fun _ => 0⟩
  step := Ledger.step

section Refinement

variable [DecidableEq ι]

/-- **The law of the ledger** holds in every reachable state. -/
theorem ledger_law [Fintype ι] {l : Ledger ι} (h : (ledger ι).Reachable (fun _ _ => True) l) :
    l.Law := by
  refine LTS.Reachable.induction (I := Ledger.Law) ?_ ?_ h
  · rintro _ rfl
    unfold Ledger.Law
    rw [Finset.sum_const_zero, Multiset.range_zero]
  · intro l a m _ hlaw _ hstep
    exact Ledger.law_step hlaw hstep

/-- A system that refines the ledger obeys its law. -/
theorem ledger_law_of_refines [Fintype ι] {M : LTS σ β} {ok : σ → β → Prop} {f : σ → Ledger ι}
    (hf : LTS.Refines M ok (ledger ι) f) {s : σ} (h : M.Reachable ok s) : (f s).Law :=
  ledger_law (hf.reachable h)

/-- The next object is made in place `i`, as a path of the ledger. -/
theorem ledger_issue {l m : Ledger ι} (i : ι) (hnext : m.next = l.next + 1)
    (hto : m.held i = l.next ::ₘ l.held i) (hrest : ∀ k, k ≠ i → m.held k = l.held k) :
    ∃ bs, (ledger ι).Path (fun _ _ => True) l bs m := by
  have hm : m = ⟨l.next + 1, Ledger.put l.held i l.next⟩ := by
    obtain ⟨next, held⟩ := m
    simp only [Ledger.mk.injEq] at hnext hto hrest ⊢
    refine ⟨hnext, funext fun k => ?_⟩
    by_cases hk : k = i
    · subst hk
      rw [hto, Ledger.put, Function.update_self]
    · rw [hrest k hk, Ledger.put, Function.update_of_ne hk]
  exact ⟨[.issue i], LTS.Path.single trivial (congrArg some hm.symm)⟩

/-- Nothing is made or moved, as a path of the ledger. -/
theorem ledger_idle {l m : Ledger ι} (hnext : m.next = l.next)
    (hheld : ∀ k, m.held k = l.held k) : ∃ bs, (ledger ι).Path (fun _ _ => True) l bs m := by
  have hm : m = l := by
    obtain ⟨next, held⟩ := m
    obtain ⟨next', held'⟩ := l
    simp only [Ledger.mk.injEq] at hnext hheld ⊢
    exact ⟨hnext, funext hheld⟩
  rw [hm]
  exact ⟨[], LTS.Path.nil l⟩

/-- The objects of a list go from place `i` to place `j` one by one, as a path of the
ledger. -/
theorem ledger_transferAll {l m : Ledger ι} (i j : ι) (xs : List ℕ) (hij : i ≠ j)
    (hnext : m.next = l.next) (hfrom : l.held i = xs + m.held i)
    (hto : m.held j = xs + l.held j) (hrest : ∀ k, k ≠ i → k ≠ j → m.held k = l.held k) :
    ∃ bs, (ledger ι).Path (fun _ _ => True) l bs m := by
  induction xs generalizing l with
  | nil =>
      refine ledger_idle hnext fun k => ?_
      by_cases hki : k = i
      · subst hki
        simpa using hfrom.symm
      · by_cases hkj : k = j
        · subst hkj
          simpa using hto
        · exact hrest k hki hkj
  | cons x xs ih =>
      rw [← Multiset.cons_coe, Multiset.cons_add] at hfrom hto
      have hx : x ∈ l.held i := hfrom ▸ Multiset.mem_cons_self x _
      have hstep : (ledger ι).step l (.transfer i j x) =
          some ⟨l.next, Ledger.put (Ledger.take l.held i x) j x⟩ := if_pos hx
      obtain ⟨bs, hpath⟩ := ih (l := ⟨l.next, Ledger.put (Ledger.take l.held i x) j x⟩) hnext
        (by
          show Ledger.put _ _ _ i = _
          rw [Ledger.put, Function.update_of_ne hij, Ledger.take, Function.update_self, hfrom,
            Multiset.erase_cons_head])
        (by
          show _ = _ + Ledger.put _ _ _ j
          rw [Ledger.put, Function.update_self, Ledger.take, Function.update_of_ne hij.symm,
            hto, Multiset.add_cons])
        (by
          intro k hki hkj
          show _ = Ledger.put _ _ _ k
          rw [Ledger.put, Function.update_of_ne hkj, Ledger.take, Function.update_of_ne hki]
          exact hrest k hki hkj)
      exact ⟨_, (LTS.Path.single trivial hstep).append hpath⟩

/-- Object `x` goes from place `i` to place `j`, as a path of the ledger. -/
theorem ledger_transfer {l m : Ledger ι} (i j : ι) (x : ℕ) (hij : i ≠ j) (hnext : m.next = l.next)
    (hfrom : l.held i = x ::ₘ m.held i) (hto : m.held j = x ::ₘ l.held j)
    (hrest : ∀ k, k ≠ i → k ≠ j → m.held k = l.held k) :
    ∃ bs, (ledger ι).Path (fun _ _ => True) l bs m :=
  ledger_transferAll i j [x] hij hnext (by simpa using hfrom) (by simpa using hto) hrest

end Refinement
