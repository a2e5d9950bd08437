/-
# Observers (`class Subject` in `src/observer.hpp`)

A `Subject` keeps the observers in the order they were attached.  `attach` lets the same
observer in any number of times, and `detach` takes out the first place it has: one
`detach` undoes one `attach`.  `standing` counts the calls of `attach` that no `detach`
has undone, and `notify_calls` says that `notify` calls an observer that often.

The `updtae` of the observers is outside of the model; it does not change the list.
-/
import Mathlib.Data.List.Induction
import Mathlib.Data.Nat.Basic
import Mathlib.Order.Basic

namespace Observer

variable {O : Type*} [DecidableEq O]

/-! ## The class -/

/-- `Subject`; a pointer that `attach` lets in is not null. -/
structure Subject (O : Type*) where
  observerList : List O
  deriving DecidableEq, Repr

namespace Subject

/-- `Subject()`. -/
def new : Subject O := ⟨[]⟩

/-- `attach`. -/
def attach (s : Subject O) (observer : Option O) : Subject O :=
  match observer with
  | some o => ⟨s.observerList ++ [o]⟩
  | none => s

/-- `detach`: the loop ends at the first place that holds the pointer. -/
def detach (s : Subject O) (observer : Option O) : Subject O :=
  match observer with
  | some o => ⟨s.observerList.erase o⟩
  | none => s

/-- `notify`: the observers whose `updtae` it calls, in this order. -/
def notify (s : Subject O) : List O := s.observerList

end Subject

/-- A call on a `Subject`. -/
inductive Call (O : Type*)
  | attach (observer : Option O)
  | detach (observer : Option O)
  | notify
  deriving DecidableEq, Repr

/-- What a call does to the object. -/
def step (s : Subject O) : Call O → Subject O
  | .attach observer => s.attach observer
  | .detach observer => s.detach observer
  | .notify => s

/-- The object after some calls. -/
def run (calls : List (Call O)) : Subject O := calls.foldl step .new

/-! ## Attached and not detached -/

/-- The number of standing attachments of `o` after one more call. -/
def stand (o : O) (n : ℕ) : Call O → ℕ
  | .attach observer => if observer = some o then n + 1 else n
  | .detach observer => if observer = some o then n - 1 else n
  | .notify => n

/-- How many calls of `attach` with `o` no `detach` has undone. -/
def standing (o : O) (calls : List (Call O)) : ℕ := calls.foldl (stand o) 0

/-- **Step lemma.**  A call changes the number of places of an observer like the number
of its standing attachments. -/
theorem count_step (s : Subject O) (o : O) (call : Call O) :
    (step s call).observerList.count o = stand o (s.observerList.count o) call := by
  cases call with
  | attach observer =>
      cases observer with
      | none => rfl
      | some x =>
          show (s.observerList ++ [x]).count o = if some x = some o then _ else _
          rw [List.count_append, List.count_singleton]
          by_cases hx : x = o
          · simp [hx]
          · simp [hx]
  | detach observer =>
      cases observer with
      | none => rfl
      | some x =>
          show (s.observerList.erase x).count o = if some x = some o then _ else _
          rw [List.count_erase]
          by_cases hx : x = o
          · simp [hx]
          · simp [hx]
  | notify => rfl

/-- **Run lemma.**  An observer has as many places in the list as standing attachments. -/
theorem count_run (calls : List (Call O)) (o : O) :
    (run calls).observerList.count o = standing o calls := by
  induction calls using List.reverseRecOn with
  | nil => rfl
  | append_singleton calls call ih =>
      rw [run, standing, List.foldl_append, List.foldl_append, ← run, ← standing, ← ih]
      exact count_step (run calls) o call

/-- `notify` calls the observers that are attached and not detached. -/
theorem mem_notify_iff (calls : List (Call O)) (o : O) :
    o ∈ (run calls).notify ↔ 0 < standing o calls := by
  rw [← count_run, List.count_pos_iff]
  rfl

theorem standing_append (o : O) (calls later : List (Call O)) :
    standing o (calls ++ later) = later.foldl (stand o) (standing o calls) :=
  List.foldl_append

/-- Without a further `attach` the number does not grow. -/
theorem foldl_stand_le {o : O} {later : List (Call O)} (h : Call.attach (some o) ∉ later) (n : ℕ) :
    later.foldl (stand o) n ≤ n := by
  induction later generalizing n with
  | nil => exact le_refl n
  | cons call later ih =>
      obtain ⟨hcall, hlater⟩ := not_or.mp (List.mem_cons.not.mp h)
      have hstand : stand o n call ≤ n := by
        cases call with
        | attach observer =>
            have hne : observer ≠ some o := fun heq => hcall (heq ▸ rfl)
            exact (if_neg hne).le
        | detach observer =>
            show (if observer = some o then n - 1 else n) ≤ n
            split_ifs <;> omega
        | notify => exact le_refl n
      exact (ih hlater _).trans hstand

/-- Without a further `detach` the number does not shrink. -/
theorem le_foldl_stand {o : O} {later : List (Call O)} (h : Call.detach (some o) ∉ later) (n : ℕ) :
    n ≤ later.foldl (stand o) n := by
  induction later generalizing n with
  | nil => exact le_refl n
  | cons call later ih =>
      obtain ⟨hcall, hlater⟩ := not_or.mp (List.mem_cons.not.mp h)
      have hstand : n ≤ stand o n call := by
        cases call with
        | attach observer =>
            show n ≤ if observer = some o then n + 1 else n
            split_ifs <;> omega
        | detach observer =>
            have hne : observer ≠ some o := fun heq => hcall (heq ▸ rfl)
            exact (if_neg hne).ge
        | notify => exact le_refl n
      exact hstand.trans (ih hlater _)

/-! ## Main result -/

/-- **What `notify` calls.**  An observer is called once for each standing attachment.
After a `detach` it is not called before it is attached again, exactly if not more than
one attachment was standing; and it is called if its last operation was `attach`. -/
theorem notify_calls (calls : List (Call O)) (o : O) :
    (run calls).notify.count o = standing o calls ∧
      ((∀ later, Call.attach (some o) ∉ later →
          o ∉ (run (calls ++ .detach (some o) :: later)).notify) ↔ standing o calls ≤ 1) ∧
      ∀ later, Call.detach (some o) ∉ later →
        o ∈ (run (calls ++ .attach (some o) :: later)).notify := by
  refine ⟨count_run calls o, ⟨fun h => ?_, fun hone later hlater => ?_⟩, fun later hlater => ?_⟩
  · have hnot := h [] List.not_mem_nil
    rw [mem_notify_iff, standing_append] at hnot
    have hstand : stand o (standing o calls) (.detach (some o)) = standing o calls - 1 :=
      if_pos rfl
    rw [List.foldl_cons, List.foldl_nil, hstand] at hnot
    omega
  · rw [mem_notify_iff, standing_append, List.foldl_cons]
    have hstand : stand o (standing o calls) (.detach (some o)) = standing o calls - 1 :=
      if_pos rfl
    have hle := foldl_stand_le hlater (stand o (standing o calls) (.detach (some o)))
    omega
  · rw [mem_notify_iff, standing_append, List.foldl_cons]
    have hstand : stand o (standing o calls) (.attach (some o)) = standing o calls + 1 :=
      if_pos rfl
    have hle := le_foldl_stand hlater (stand o (standing o calls) (.attach (some o)))
    omega

/-- An observer that was attached twice is called after it was detached. -/
theorem detached_is_called : ¬∀ (calls later : List (Call ℕ)) (o : ℕ),
    Call.attach (some o) ∉ later → o ∉ (run (calls ++ .detach (some o) :: later)).notify := by
  intro h
  exact h [.attach (some 0), .attach (some 0)] [] 0 List.not_mem_nil (by decide)

end Observer
