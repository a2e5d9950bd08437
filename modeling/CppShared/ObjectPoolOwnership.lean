/-
# Who holds the packets of an object pool

Seen as a ledger, the packets of an `ObjectPool` are held by callers, pooled, or gone
because `push` found the pool full, as long as callers push what they hold, once.  `clear`
moves nothing: it deletes the pooled packets and leaves them in the list.  So each packet
is deleted at most once, and `get` returns none that was deleted, exactly in the histories
in which every `clear` before the destruction finds the pool empty (`freed_once_iff`).
-/
import CppShared.ObjectPoolCalls

namespace ObjectPool

/-- Callers push what they hold, once. -/
def handsBack (s : Sys) : Label → Prop
  | .push (some obj) => obj ∈ s.held
  | _ => True

instance (s : Sys) (a : Label) : Decidable (handsBack s a) :=
  match a with
  | .push (some obj) => inferInstanceAs (Decidable (obj ∈ s.held))
  | .get | .getThrows | .push none | .clear => inferInstanceAs (Decidable True)

/-! ## Places -/

/-- Where a packet can be. -/
inductive Place
  | held
  | pooled
  | overflow
  deriving DecidableEq

instance : Fintype Place where
  elems := {.held, .pooled, .overflow}
  complete := by
    intro k
    cases k <;> decide

/-- What a place holds. -/
def heldAt (s : Sys) : Place → Multiset ℕ
  | .held => s.held
  | .pooled => s.objectPool.pool
  | .overflow => s.overflow

/-- The pool seen as a ledger. -/
def ledgerOf (s : Sys) : Ledger Place := ⟨s.memory.next, heldAt s⟩

/-- Every call is a path of the ledger. -/
theorem refines_ledger (count : ℤ) :
    LTS.Refines (system count) handsBack (ledger Place) ledgerOf where
  init := by
    rintro _ rfl
    show ledgerOf (fresh count) = _
    unfold ledgerOf
    congr 1
    funext k
    cases k <;> rfl
  step s a t _ hok hstep := by
    have hconcat : ∀ (l : List ℕ) (obj : ℕ), ((l ++ [obj] : List ℕ) : Multiset ℕ) = obj ::ₘ l :=
      fun l obj => Multiset.coe_eq_coe.mpr (List.perm_append_singleton obj l)
    cases move_of_step hstep with
    | getNew h =>
        refine ledger_issue .held rfl (hconcat _ _) fun k hk => ?_
        cases k <;> first | rfl | exact absurd rfl hk
    | getPooled obj rest hroom hpool =>
        have hfrom : (s.objectPool.pool : Multiset ℕ) = obj ::ₘ rest := by
          rw [hpool]
          rfl
        refine ledger_transfer .pooled .held obj (by decide) rfl hfrom (hconcat _ _)
          fun k hk hk' => ?_
        cases k <;> first | rfl | exact absurd rfl hk | exact absurd rfl hk'
    | getThrows | pushNull => exact ledger_idle rfl fun _ => rfl
    | pushDeleted obj hfull =>
        refine ledger_transfer .held .overflow obj (by decide) rfl
          (Multiset.coe_eq_coe.mpr (List.perm_cons_erase hok)) (hconcat _ _) fun k hk hk' => ?_
        cases k <;> first | rfl | exact absurd rfl hk | exact absurd rfl hk'
    | pushPooled obj hroom =>
        refine ledger_transfer .held .pooled obj (by decide) rfl
          (Multiset.coe_eq_coe.mpr (List.perm_cons_erase hok)) (hconcat _ _) fun k hk hk' => ?_
        cases k <;> first | rfl | exact absurd rfl hk | exact absurd rfl hk'
    | clear =>
        refine ledger_idle rfl fun k => ?_
        cases k <;> rfl

/-- The law of the ledger, for the pool. -/
theorem law_of_reachable {count : ℤ} {s : Sys} (h : (system count).Reachable handsBack s) :
    (ledgerOf s).Law :=
  ledger_law_of_refines (refines_ledger count) h

/-! ## What is deleted -/

/-- The packets are deleted at most once, the destructor included, and `get` has returned
none that was deleted. -/
structure FreedOnce (s : Sys) : Prop where
  once : (s.objectPool.clear s.memory).deleted.Nodup
  live : s.stale = []

/-- Callers push what they hold, once, and `clear` finds the pool empty. -/
def clearsNothing (s : Sys) (a : Label) : Prop :=
  handsBack s a ∧ (a = .clear → s.objectPool.pool = [])

instance (s : Sys) (a : Label) : Decidable (clearsNothing s a) :=
  inferInstanceAs (Decidable (_ ∧ (_ → _)))

/-- As long as `clear` finds the pool empty only `push` deletes, and nothing is stale. -/
structure Sound (s : Sys) : Prop where
  deleted : s.memory.deleted = s.overflow
  live : s.stale = []

/-- **Step lemma.** -/
theorem Sound.move {s t : Sys} {a : Label} (h : Sound s) (hlaw : (ledgerOf s).Law)
    (hok : clearsNothing s a) (hm : Move s a t) : Sound t := by
  cases hm with
  | getNew hnew =>
      have hout : s.memory.next ∉ s.memory.deleted := by
        rw [h.deleted]
        intro hmem
        exact Nat.lt_irrefl _ ((hlaw.mem_iff _).mp ⟨.overflow, hmem⟩)
      exact ⟨h.deleted, (if_neg hout).trans h.live⟩
  | getPooled obj rest hroom hpool =>
      have hin : obj ∈ (ledgerOf s).held .pooled := by
        show obj ∈ (s.objectPool.pool : Multiset ℕ)
        rw [hpool]
        exact List.mem_cons_self
      have hout : obj ∉ s.memory.deleted := by
        rw [h.deleted]
        exact hlaw.disjoint (i := .pooled) (j := .overflow) (by decide) hin
      exact ⟨h.deleted, (if_neg hout).trans h.live⟩
  | getThrows | pushNull => exact h
  | pushDeleted obj hfull =>
      refine ⟨?_, h.live⟩
      show s.memory.deleted ++ [obj] = s.overflow ++ [obj]
      rw [h.deleted]
  | pushPooled obj hroom => exact ⟨h.deleted, h.live⟩
  | clear =>
      refine ⟨?_, h.live⟩
      show s.memory.deleted ++ s.objectPool.pool = s.overflow
      rw [hok.2 rfl, List.append_nil, h.deleted]

theorem sound_of_reachable {count : ℤ} {s : Sys}
    (h : (system count).Reachable clearsNothing s) : Sound s := by
  refine LTS.Reachable.induction (I := Sound) ?_ ?_ h
  · rintro _ rfl
    exact ⟨rfl, rfl⟩
  · intro s a t hreach hs hok hstep
    exact hs.move (law_of_reachable (hreach.mono fun _ _ => And.left)) hok (move_of_step hstep)

/-- Such a pool can be destroyed. -/
theorem freedOnce_of_reachable {count : ℤ} {s : Sys}
    (h : (system count).Reachable clearsNothing s) : FreedOnce s := by
  have hsound := sound_of_reachable h
  have hlaw := law_of_reachable (h.mono fun _ _ => And.left)
  refine ⟨?_, hsound.live⟩
  rw [clear_eq]
  show (s.memory.deleted ++ s.objectPool.pool).Nodup
  rw [hsound.deleted]
  exact Multiset.coe_nodup.mp (hlaw.nodup_add (i := .overflow) (j := .pooled) (by decide))

/-- A deleted packet is in the pool, or was returned by `get`. -/
def Spoilt (s : Sys) : Prop :=
  s.stale ≠ [] ∨ ∃ obj ∈ s.objectPool.pool, obj ∈ s.memory.deleted

/-- **Step lemma.**  The deleted packet stays in the pool until `get` returns it. -/
theorem Spoilt.move {s t : Sys} {a : Label} (h : Spoilt s) (hm : Move s a t) : Spoilt t := by
  have hstale : ∀ (obj : ℕ) (o : ObjectPool) (m : Memory), s.stale ≠ [] →
      (took s obj o m).stale ≠ [] := by
    intro obj o m hne
    unfold took
    dsimp only
    split_ifs
    · exact List.append_ne_nil_of_left_ne_nil hne _
    · exact hne
  rcases h with hne | ⟨obj, hpool, hdeleted⟩
  · cases hm with
    | getNew | getPooled => exact Or.inl (hstale _ _ _ hne)
    | _ => exact Or.inl hne
  · cases hm with
    | getPooled front rest hroom hcons =>
        rw [hcons] at hpool
        rcases List.mem_cons.mp hpool with rfl | hrest
        · left
          show (if obj ∈ s.memory.deleted then s.stale ++ [obj] else s.stale) ≠ []
          rw [if_pos hdeleted]
          exact List.concat_ne_nil obj s.stale
        · exact Or.inr ⟨obj, hrest, hdeleted⟩
    | pushPooled other hroom =>
        exact Or.inr ⟨obj, List.mem_append_left _ hpool, hdeleted⟩
    | pushDeleted other hfull => exact Or.inr ⟨obj, hpool, List.mem_append_left _ hdeleted⟩
    | clear => exact Or.inr ⟨obj, hpool, List.mem_append_left _ hdeleted⟩
    | _ => exact Or.inr ⟨obj, hpool, hdeleted⟩

/-- The destructor deletes the packet once more. -/
theorem Spoilt.not_freedOnce {s : Sys} (h : Spoilt s) : ¬FreedOnce s := by
  rintro ⟨honce, hlive⟩
  rcases h with hne | ⟨obj, hpool, hdeleted⟩
  · exact hne hlive
  · rw [clear_eq] at honce
    exact (List.nodup_append.mp honce).2.2 obj hdeleted obj hpool rfl

/-- **Packets are freed once** in exactly the histories in which every `clear` before the
destruction finds the pool empty. -/
theorem freed_once_iff {count : ℤ} {s : Sys} {as : List Label}
    (h : (system count).Path handsBack (fresh count) as s) :
    FreedOnce s ↔ (system count).Path clearsNothing (fresh count) as s := by
  have h₀ : (system count).init (fresh count) := rfl
  refine LTS.Path.exact (B := Spoilt) h₀ h ?_ ?_ ?_ ?_ ?_
  · rintro _ rfl
    exact freedOnce_of_reachable (LTS.Reachable.init rfl)
  · intro s a t hreach _ hok hstep
    exact freedOnce_of_reachable (hreach.step hok hstep)
  · intro s a t _ hhands hnot hstep
    have hclear : a = .clear ∧ s.objectPool.pool ≠ [] := by
      unfold clearsNothing at hnot
      tauto
    obtain ⟨rfl, hpool⟩ := hclear
    have hm : Move s .clear t := move_of_step hstep
    cases hm with
    | clear =>
        obtain ⟨obj, hobj⟩ := List.exists_mem_of_ne_nil _ hpool
        exact Or.inr ⟨obj, hobj, List.mem_append_right _ hobj⟩
  · intro s a t _ hs _ hstep
    exact hs.move (move_of_step hstep)
  · exact fun s hs hspoilt => hspoilt.not_freedOnce hs

/-- A packet goes out and comes back twice. -/
def reuseRun : List Label := [.get, .push (some 0), .get, .push (some 0)]

/-- `freed_once_iff` at a history without `clear`. -/
theorem freed_once_reuse : ∃ s : Sys, s.objectPool.pool = [0] ∧
    (FreedOnce s ↔ (system 1024).Path clearsNothing (fresh 1024) reuseRun s) :=
  ⟨_, rfl, freed_once_iff (LTS.path_of_exec (show LTS.exec _ _ _ reuseRun = some _ from rfl))⟩

/-- After a `clear` the destructor deletes the packet again. -/
theorem freed_twice : ¬∀ s, (system 1024).Reachable handsBack s → FreedOnce s := by
  intro hall
  have hreach : (system 1024).Reachable handsBack _ :=
    LTS.reachable_of_exec rfl
      (show LTS.exec _ _ _ [.get, .push (some 0), .clear] = some _ from rfl)
  exact absurd (hall _ hreach).once (by decide)

end ObjectPool
