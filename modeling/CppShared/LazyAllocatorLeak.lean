/-
# The blocks that a block cache loses

`LazyAllocator::pop` makes a block for the size 0 as for any other, and `push` returns at
once when it is called with the size 0: the block is neither cached nor deleted.  Every
block ever made is accounted for exactly in the histories in which no block comes back
with that size (`accounted_iff`).
-/
import CppShared.LazyAllocatorReuse

namespace LazyAllocator

/-- Every block is held, cached or deleted; if none is held, `clear` leaves none behind. -/
structure Accounted (s : Sys) : Prop where
  placed : ∀ ptr < s.blocks.next,
    ptr ∈ s.held.map Prod.snd ∨ ptr ∈ s.container.values ∨ ptr ∈ s.blocks.deleted
  freed : s.held = [] → ∀ ptr < s.blocks.next, ptr ∈ (clear s.container s.blocks).2.deleted

/-- No block comes back with the size 0. -/
def pushesSized (_ : Sys) : Label → Prop
  | .push size _ => size ≠ 0
  | _ => True

instance (s : Sys) (a : Label) : Decidable (pushesSized s a) :=
  match a with
  | .push size _ => inferInstanceAs (Decidable (size ≠ 0))
  | .pop _ | .popThrows _ | .clear => inferInstanceAs (Decidable True)

/-- Only a `push` with the size 0 loses a block. -/
theorem Move.lost {s t : Sys} {a : Label} (h : Move s a t) (hok : pushesSized s a) :
    t.lost = s.lost := by
  cases h with
  | pushZero ptr => exact absurd rfl hok
  | _ => rfl

theorem lost_of_reachable {s : Sys} (h : system.Reachable pushesSized s) : s.lost = [] := by
  refine LTS.Reachable.induction (I := fun s => s.lost = []) ?_ ?_ h
  · rintro _ rfl
    rfl
  · intro s a t _ hs hok hstep
    exact ((move_of_step hstep).lost hok).trans hs

/-- As long as no block is lost all of them are accounted for. -/
theorem accounted_of_lost {ok : Sys → Label → Prop} {s : Sys} (h : system.Reachable ok s)
    (hlost : s.lost = []) : Accounted s := by
  have hplaced : ∀ ptr < s.blocks.next,
      ptr ∈ s.held.map Prod.snd ∨ ptr ∈ s.container.values ∨ ptr ∈ s.blocks.deleted := by
    intro ptr hptr
    obtain ⟨k, hk⟩ := ((law_of_reachable h).mem_iff ptr).mpr hptr
    cases k with
    | held => exact Or.inl hk
    | cached => exact Or.inr (Or.inl hk)
    | deleted => exact Or.inr (Or.inr hk)
    | lost =>
        replace hk : ptr ∈ s.lost := hk
        rw [hlost] at hk
        exact absurd hk List.not_mem_nil
  refine ⟨hplaced, fun hheld ptr hptr => ?_⟩
  rw [clear_eq]
  rcases hplaced ptr hptr with hmem | hcached | hdeleted
  · rw [hheld] at hmem
    exact absurd hmem List.not_mem_nil
  · exact List.mem_append_right _ hcached
  · exact List.mem_append_left _ hdeleted

/-- A lost block is nowhere else. -/
theorem not_accounted_of_mem_lost {ok : Sys → Label → Prop} {s : Sys}
    (h : system.Reachable ok s) {ptr : ℕ} (hptr : ptr ∈ s.lost) : ¬Accounted s := by
  intro haccounted
  have hlaw := law_of_reachable h
  have hmem : ptr ∈ (ledgerOf s).held .lost := hptr
  have hlt : ptr < s.blocks.next := (hlaw.mem_iff ptr).mp ⟨.lost, hmem⟩
  rcases haccounted.placed ptr hlt with hheld | hcached | hdeleted
  · exact hlaw.disjoint (i := .lost) (j := .held) (by decide) hmem hheld
  · exact hlaw.disjoint (i := .lost) (j := .cached) (by decide) hmem hcached
  · exact hlaw.disjoint (i := .lost) (j := .deleted) (by decide) hmem hdeleted

/-- **No block leaks** in exactly the histories in which none comes back with the size 0. -/
theorem accounted_iff {s : Sys} {as : List Label}
    (h : system.Path (fun _ _ => True) fresh as s) :
    (∀ bs t, bs <+: as → system.Path (fun _ _ => True) fresh bs t → Accounted t) ↔
      system.Path pushesSized fresh as s := by
  have h₀ : system.init fresh := rfl
  apply LTS.Path.always_iff h₀ h
  · rintro _ rfl
    have hreach : system.Reachable pushesSized fresh := LTS.Reachable.init rfl
    exact accounted_of_lost hreach rfl
  · intro s a t hreach _ hok hstep
    have hnext := hreach.step hok hstep
    exact accounted_of_lost hnext (lost_of_reachable hnext)
  · intro s a t hreach _ hnot hstep
    have hnext := hreach.step trivial hstep
    cases move_of_step hstep with
    | pushZero ptr =>
        exact not_accounted_of_mem_lost hnext (List.mem_append_right _ (List.mem_singleton_self _))
    | pushCached _ _ _ hsize | pushDeleted _ _ _ hsize => exact absurd hsize hnot
    | _ => exact absurd trivial hnot
  · exact fun _ _ _ => trivial

/-- `accounted_iff` at a history of three requests. -/
theorem accounted_iff_reuse : ∃ s : Sys,
    (∀ bs t, bs <+: reuseRun → system.Path (fun _ _ => True) fresh bs t → Accounted t) ↔
      system.Path pushesSized fresh reuseRun s :=
  ⟨_, accounted_iff (LTS.path_of_exec (show LTS.exec _ _ fresh reuseRun = some _ from rfl))⟩

/-- A block of no elements is asked for and given back, and then it is nowhere. -/
theorem block_lost : ¬∀ s, system.Reachable (fun _ _ => True) s → Accounted s := by
  intro hall
  have hreach : system.Reachable (fun _ _ => True) _ :=
    LTS.reachable_of_exec rfl
      (show LTS.exec _ _ fresh [.pop 0, .push 0 0, .clear] = some _ from rfl)
  have hfreed := (hall _ hreach).freed rfl 0 (by decide)
  exact absurd hfreed (by decide)

end LazyAllocator
