/-
# What the block cache hands out again

Seen as a ledger, the blocks of a `LazyAllocator` are held by callers, cached,
deleted or lost, and the calls move them between these places.  With the lengths of
the blocks kept beside it this gives the two results: a cached block is reused for
exactly the requests of its class (`reuse_sound`), and a block is large enough unless
the rounding wraps around (`pop_large_enough_iff`).
-/
import CppShared.LazyAllocator

namespace LazyAllocator

/-! ## Rounding -/

/-- A size rounded up to a multiple of 1024, modulo the number of sizes. -/
def classOf (size : ℕ) : ℕ := (size + 1023) / 1024 * 1024 % sizeCount

/-- The masks and shifts of the source round up. -/
theorem totalSize_eq {size : ℕ} (h : size < sizeCount) : totalSize size = classOf size := by
  have hmask : size &&& 0x3ff = size % 1024 := Nat.and_two_pow_sub_one_eq_mod size 10
  have hshift : ((size >>> 10) + 1) <<< 10 = (size / 1024 + 1) * 1024 := by
    simp [Nat.shiftLeft_eq, Nat.shiftRight_eq_div_pow]
  have hcount : sizeCount = 2 ^ 64 := rfl
  rw [totalSize, hmask, hshift, classOf]
  split_ifs with hmod
  · have hnext : size / 1024 + 1 = (size + 1023) / 1024 := by omega
    rw [hnext]
  · rw [Nat.mod_eq_of_lt] <;> omega

/-- Rounding reaches the size unless it passes the largest multiple of 1024. -/
theorem le_classOf_iff {size : ℕ} (h : size < sizeCount) :
    size ≤ classOf size ↔ size ≤ 2 ^ 64 - 1024 := by
  unfold classOf sizeCount at *
  omega

/-! ## Places -/

/-- Where a block can be. -/
inductive Place
  | held
  | cached
  | deleted
  | lost
  deriving DecidableEq

instance : Fintype Place where
  elems := {.held, .cached, .deleted, .lost}
  complete := by
    intro k
    cases k <;> decide

/-- What a place holds. -/
def heldAt (s : Sys) : Place → Multiset ℕ
  | .held => (s.held.map Prod.snd : List ℕ)
  | .cached => s.container.values
  | .deleted => s.blocks.deleted
  | .lost => s.lost

/-- The allocator seen as a ledger. -/
def ledgerOf (s : Sys) : Ledger Place := ⟨s.blocks.next, heldAt s⟩

/-- A block the callers get. -/
theorem coe_held_concat (l : List (ℕ × ℕ)) (size ptr : ℕ) :
    (((l ++ [(size, ptr)]).map Prod.snd : List ℕ) : Multiset ℕ) =
      ptr ::ₘ (l.map Prod.snd : List ℕ) := by
  rw [List.map_append]
  exact Multiset.coe_eq_coe.mpr (List.perm_append_singleton ptr _)

/-- A block a caller gives back. -/
theorem coe_held_erase {l : List (ℕ × ℕ)} {size ptr : ℕ} (h : (size, ptr) ∈ l) :
    ((l.map Prod.snd : List ℕ) : Multiset ℕ) =
      ptr ::ₘ ((l.erase (size, ptr)).map Prod.snd : List ℕ) :=
  Multiset.coe_eq_coe.mpr ((List.perm_cons_erase h).map Prod.snd)

/-- Every call is a path of the ledger. -/
theorem refines_ledger (ok : Sys → Label → Prop) :
    LTS.Refines system ok (ledger Place) ledgerOf where
  init := by
    rintro _ rfl
    show ledgerOf fresh = _
    unfold ledgerOf
    congr 1
    funext k
    cases k <;> rfl
  step s a t _ _ hstep := by
    cases move_of_step hstep with
    | popNew size hsize hfind =>
        refine ledger_issue .held rfl (coe_held_concat _ _ _) fun k hk => ?_
        cases k <;> first | rfl | exact absurd rfl hk
    | popCached size ptr hsize hfind =>
        have hperm := (OrderedMultimap.perm_eraseFound hfind).map Prod.snd
        refine ledger_transfer .cached .held ptr (by decide) rfl (Multiset.coe_eq_coe.mpr hperm)
          (coe_held_concat _ _ _) fun k hk hk' => ?_
        cases k <;> first | rfl | exact absurd rfl hk | exact absurd rfl hk'
    | popThrows => exact ledger_idle rfl fun _ => rfl
    | pushZero ptr hheld =>
        refine ledger_transfer .held .lost ptr (by decide) rfl (coe_held_erase hheld)
          (Multiset.coe_eq_coe.mpr (List.perm_append_singleton ptr _)) fun k hk hk' => ?_
        cases k <;> first | rfl | exact absurd rfl hk | exact absurd rfl hk'
    | pushCached size ptr hheld hsize hroom =>
        have hperm := (s.container.perm_insert (totalSize size) ptr).map Prod.snd
        refine ledger_transfer .held .cached ptr (by decide) rfl (coe_held_erase hheld)
          (Multiset.coe_eq_coe.mpr hperm) fun k hk hk' => ?_
        cases k <;> first | rfl | exact absurd rfl hk | exact absurd rfl hk'
    | pushDeleted size ptr hheld hsize hfull =>
        refine ledger_transfer .held .deleted ptr (by decide) rfl (coe_held_erase hheld)
          (Multiset.coe_eq_coe.mpr (List.perm_append_singleton ptr _)) fun k hk hk' => ?_
        cases k <;> first | rfl | exact absurd rfl hk | exact absurd rfl hk'
    | clear =>
        refine ledger_transferAll .cached .deleted s.container.values (by decide) rfl
          (add_zero _).symm ?_ fun k hk hk' => ?_
        · exact (Multiset.coe_add _ _).symm.trans (add_comm _ _)
        · cases k <;> first | rfl | exact absurd rfl hk | exact absurd rfl hk'

/-- The law of the ledger, for the allocator. -/
theorem law_of_reachable {ok : Sys → Label → Prop} {s : Sys} (h : system.Reachable ok s) :
    (ledgerOf s).Law :=
  ledger_law_of_refines (refines_ledger ok) h

/-- A block that somebody holds or that is cached was made. -/
theorem lt_next_of_mem {ok : Sys → Label → Prop} {s : Sys} (h : system.Reachable ok s) {ptr : ℕ}
    {k : Place} (hmem : ptr ∈ heldAt s k) : ptr < s.blocks.next :=
  ((law_of_reachable h).mem_iff ptr).mp ⟨k, hmem⟩

/-! ## Lengths -/

/-- The key of a cached block is its length, a held block has the length of its class,
and the cache is not overfull. -/
structure Sized (s : Sys) : Prop where
  cached : ∀ e ∈ s.container.entries, s.blocks.length e.2 = e.1
  held : ∀ e ∈ s.held, s.blocks.length e.2 = totalSize e.1
  room : s.container.size ≤ capacity

theorem sized_step {ok : Sys → Label → Prop} {s t : Sys} {a : Label}
    (hreach : system.Reachable ok s) (hs : Sized s) (h : step s a = some t) : Sized t := by
  cases move_of_step h with
  | popNew size hsize hfind =>
      -- the new block is none of those the invariant speaks of
      have hold : ∀ ptr, ptr < s.blocks.next →
          (s.blocks.new (totalSize size)).2.length ptr = s.blocks.length ptr := fun ptr hlt =>
        Function.update_of_ne hlt.ne _ _
      refine ⟨fun e he => ?_, fun e he => ?_, hs.room⟩
      · have hmem : e.2 ∈ heldAt s .cached := List.mem_map_of_mem he
        rw [hold e.2 (lt_next_of_mem hreach hmem)]
        exact hs.cached e he
      · rcases List.mem_append.mp he with he | he
        · have hmem : e.2 ∈ heldAt s .held := List.mem_map_of_mem he
          rw [hold e.2 (lt_next_of_mem hreach hmem)]
          exact hs.held e he
        · obtain rfl := List.mem_singleton.mp he
          exact Function.update_self _ _ _
  | popCached size ptr hsize hfind =>
      have hperm := OrderedMultimap.perm_eraseFound hfind
      refine ⟨fun e he => ?_, fun e he => ?_, ?_⟩
      · exact hs.cached e (hperm.mem_iff.mpr (List.mem_cons_of_mem _ he))
      · rcases List.mem_append.mp he with he | he
        · exact hs.held e he
        · obtain rfl := List.mem_singleton.mp he
          exact hs.cached _ (hperm.mem_iff.mpr List.mem_cons_self)
      · have hlen := hperm.length_eq
        have hroom := hs.room
        simp only [List.length_cons, OrderedMultimap.size] at hlen hroom ⊢
        omega
  | popThrows => exact hs
  | pushZero ptr hheld =>
      exact ⟨hs.cached, fun e he => hs.held e (List.mem_of_mem_erase he), hs.room⟩
  | pushCached size ptr hheld hsize hroom =>
      have hperm := s.container.perm_insert (totalSize size) ptr
      refine ⟨fun e he => ?_, fun e he => hs.held e (List.mem_of_mem_erase he), ?_⟩
      · rcases List.mem_cons.mp (hperm.mem_iff.mp he) with rfl | he
        · exact hs.held _ hheld
        · exact hs.cached e he
      · have hlen := hperm.length_eq
        simp only [List.length_cons, OrderedMultimap.size] at hlen hroom ⊢
        omega
  | pushDeleted size ptr hheld hsize hfull =>
      exact ⟨hs.cached, fun e he => hs.held e (List.mem_of_mem_erase he), hs.room⟩
  | clear => exact ⟨fun e he => absurd he (by simp [OrderedMultimap.empty]), hs.held, Nat.zero_le _⟩

theorem sized_of_reachable {ok : Sys → Label → Prop} {s : Sys} (h : system.Reachable ok s) :
    Sized s := by
  refine LTS.Reachable.induction ?_ ?_ h
  · rintro _ rfl
    exact ⟨by simp [fresh, OrderedMultimap.empty], by simp [fresh], Nat.zero_le _⟩
  · intro s a t hreach hs _ hstep
    exact sized_step hreach hs hstep

/-! ## The results -/

/-- A block that is held or cached was not deleted, and no block is held or cached twice. -/
theorem distinct_of_reachable {ok : Sys → Label → Prop} {s : Sys} (h : system.Reachable ok s) :
    (s.held.map Prod.snd ++ s.container.values).Nodup ∧
      ∀ ptr ∈ s.held.map Prod.snd ++ s.container.values, ptr ∉ s.blocks.deleted := by
  have hlaw := law_of_reachable h
  constructor
  · exact Multiset.coe_nodup.mp (hlaw.nodup_add (i := .held) (j := .cached) (by decide))
  · intro ptr hptr
    rcases List.mem_append.mp hptr with hheld | hcached
    · exact hlaw.disjoint (i := .held) (j := .deleted) (by decide) hheld
    · exact hlaw.disjoint (i := .cached) (j := .deleted) (by decide) hcached

/-- **Reuse is sound and exact.**  After any history of calls the keys are the lengths,
no block is in two hands, none in use was deleted, at most 256 are cached, and `pop`
makes a block exactly when none of the class is cached and otherwise hands out one of
them. -/
theorem reuse_sound {s : Sys} (h : system.Reachable (fun _ _ => True) s) :
    (∀ e ∈ s.container.entries, e.1 = s.blocks.length e.2) ∧
    (s.held.map Prod.snd ++ s.container.values).Nodup ∧
    (∀ ptr ∈ s.held.map Prod.snd ++ s.container.values, ptr ∉ s.blocks.deleted) ∧
    s.container.size ≤ 256 ∧
    ∀ size < sizeCount,
      (classOf size ∉ s.container.keys → pop s.container s.blocks size =
        (s.blocks.next, s.container, (s.blocks.new (classOf size)).2)) ∧
      (classOf size ∈ s.container.keys → ∃ ptr rest,
        pop s.container s.blocks size = (ptr, rest, s.blocks) ∧
        s.container.entries.Perm ((classOf size, ptr) :: rest.entries)) := by
  have hsized := sized_of_reachable h
  obtain ⟨hnodup, hdeleted⟩ := distinct_of_reachable h
  refine ⟨fun e he => (hsized.cached e he).symm, hnodup, hdeleted, hsized.room, ?_⟩
  intro size hsize
  rw [← totalSize_eq hsize]
  constructor
  · intro hkey
    exact pop_of_none (OrderedMultimap.find?_eq_none_iff.mpr hkey)
  · intro hkey
    cases hfind : s.container.find? (totalSize size) with
    | none => exact absurd hkey (OrderedMultimap.find?_eq_none_iff.mp hfind)
    | some ptr =>
        exact ⟨ptr, _, pop_of_some hfind, OrderedMultimap.perm_eraseFound hfind⟩

/-- A block goes back and is reused for another size of its class. -/
def reuseRun : List Label := [.pop 32, .push 32 0, .pop 2000, .pop 16, .push 16 0]

/-- `reuse_sound` after a history. -/
theorem reuse_sound_reuse : ∃ s : Sys, s.container.entries = [(1024, 0)] ∧
    ∀ e ∈ s.container.entries, e.1 = s.blocks.length e.2 := by
  have hreach : system.Reachable (fun _ _ => True) _ :=
    LTS.reachable_of_exec rfl (show LTS.exec _ _ fresh reuseRun = some _ from rfl)
  exact ⟨_, rfl, (reuse_sound hreach).1⟩

/-- The length of the block `pop` returns. -/
theorem length_pop {ok : Sys → Label → Prop} {s : Sys} (h : system.Reachable ok s) {size : ℕ}
    (hsize : size < sizeCount) :
    (pop s.container s.blocks size).2.2.length (pop s.container s.blocks size).1 =
      classOf size := by
  rw [← totalSize_eq hsize]
  cases hfind : s.container.find? (totalSize size) with
  | none =>
      rw [pop_of_none hfind]
      exact Function.update_self _ _ _
  | some ptr =>
      rw [pop_of_some hfind]
      exact (sized_of_reachable h).cached _
        ((OrderedMultimap.perm_eraseFound hfind).mem_iff.mpr List.mem_cons_self)

/-- **A block is large enough** exactly for the sizes that can be rounded up. -/
theorem pop_large_enough_iff {s : Sys} (h : system.Reachable (fun _ _ => True) s) {size : ℕ}
    (hsize : size < sizeCount) :
    size ≤ (pop s.container s.blocks size).2.2.length (pop s.container s.blocks size).1 ↔
      size ≤ 2 ^ 64 - 1024 := by
  rw [length_pop h hsize]
  exact le_classOf_iff hsize

/-- `pop_large_enough_iff` for a block that is reused. -/
theorem pop_large_enough_reuse : ∃ s : Sys, s.container.entries = [(1024, 0)] ∧
    (1000 ≤ (pop s.container s.blocks 1000).2.2.length (pop s.container s.blocks 1000).1 ↔
      1000 ≤ 2 ^ 64 - 1024) := by
  have hreach : system.Reachable (fun _ _ => True) _ :=
    LTS.reachable_of_exec rfl (show LTS.exec _ _ fresh reuseRun = some _ from rfl)
  exact ⟨_, rfl, pop_large_enough_iff hreach (by decide)⟩

/-- The largest size is answered with a block of no elements. -/
theorem pop_largest : ∃ s : Sys, system.Reachable (fun _ _ => True) s ∧
    2 ^ 64 - 1 < sizeCount ∧
    (pop s.container s.blocks (2 ^ 64 - 1)).2.2.length
      (pop s.container s.blocks (2 ^ 64 - 1)).1 = 0 :=
  ⟨fresh, LTS.Reachable.init rfl, by decide, by decide⟩

end LazyAllocator
