/-
# Erasing while iterating

A loop visits the elements of a container in their order and erases the `dead` ones, and
its increment also advances the iterator that `erase` returned.  So the element behind a
dead one is passed unseen, and behind the last element the increment leaves the container.
Of the other elements the loop handles those that are `ready`.

* `pass_sublist`: whatever a pass handles has to be handled;
* `pass_of_spaced`, `spaced_of_pass`: a pass erases exactly the dead elements and handles
  every other one that is ready, if and only if behind every dead element there is one
  that has to be neither erased nor handled.
-/
import Mathlib.Data.List.Basic

namespace Sweep

variable {α : Type*}

/-- What a pass leaves in the container and the elements that it handles; `none` when the
increment leaves the container. -/
def pass (dead ready : α → Prop) [DecidablePred dead] [DecidablePred ready] :
    List α → Option (List α × List α)
  | [] => some ([], [])
  | a :: rest =>
      if dead a then
        match rest with
        | [] => none
        | b :: tail => (pass dead ready tail).map fun r => (b :: r.1, r.2)
      else if ready a then (pass dead ready rest).map fun r => (a :: r.1, a :: r.2)
      else (pass dead ready rest).map fun r => (a :: r.1, r.2)

/-- The elements that have to stay. -/
def alive (dead : α → Prop) [DecidablePred dead] (l : List α) : List α := l.filter fun a => ¬dead a

/-- The elements that have to be handled. -/
def due (dead ready : α → Prop) [DecidablePred dead] [DecidablePred ready] (l : List α) : List α :=
  l.filter fun a => ¬dead a ∧ ready a

/-- Behind every dead element there is one that is alive and not ready. -/
def Spaced (dead ready : α → Prop) (l : List α) : Prop :=
  ∀ i a, l[i]? = some a → dead a → ∃ b, l[i + 1]? = some b ∧ ¬dead b ∧ ¬ready b

/-- The condition, one element at a time. -/
theorem spaced_cons {dead ready : α → Prop} {a : α} {rest : List α} :
    Spaced dead ready (a :: rest) ↔
      (dead a → ∃ b, rest[0]? = some b ∧ ¬dead b ∧ ¬ready b) ∧ Spaced dead ready rest := by
  constructor
  · intro h
    refine ⟨fun ha => h 0 a rfl ha, fun i b hb hdead => ?_⟩
    exact h (i + 1) b hb hdead
  · rintro ⟨hhead, hrest⟩ i b hb hdead
    cases i with
    | zero =>
        obtain rfl : a = b := by simpa using hb
        exact hhead hdead
    | succ i => exact hrest i b hb hdead

theorem spaced_nil {dead ready : α → Prop} : Spaced dead ready [] := by
  intro i a ha
  simp at ha

variable {dead ready : α → Prop} [DecidablePred dead] [DecidablePred ready]

/-! ## One turn -/

theorem pass_nil : pass dead ready [] = some ([], []) := by
  rw [pass]

theorem pass_dead_last {a : α} (ha : dead a) : pass dead ready [a] = none := by
  simp [pass, ha]

theorem pass_dead {a b : α} {rest : List α} (ha : dead a) :
    pass dead ready (a :: b :: rest) = (pass dead ready rest).map fun r => (b :: r.1, r.2) := by
  simp [pass, ha]

theorem pass_ready {a : α} {rest : List α} (ha : ¬dead a) (hready : ready a) :
    pass dead ready (a :: rest) = (pass dead ready rest).map fun r => (a :: r.1, a :: r.2) := by
  rw [pass.eq_def]
  exact (if_neg ha).trans (if_pos hready)

theorem pass_idle {a : α} {rest : List α} (ha : ¬dead a) (hready : ¬ready a) :
    pass dead ready (a :: rest) = (pass dead ready rest).map fun r => (a :: r.1, r.2) := by
  rw [pass.eq_def]
  exact (if_neg ha).trans (if_neg hready)

theorem alive_cons (a : α) (rest : List α) :
    alive dead (a :: rest) = if dead a then alive dead rest else a :: alive dead rest := by
  unfold alive
  rw [List.filter_cons]
  by_cases ha : dead a <;> simp [ha]

theorem due_cons (a : α) (rest : List α) : due dead ready (a :: rest) =
    if ¬dead a ∧ ready a then a :: due dead ready rest else due dead ready rest := by
  unfold due
  rw [List.filter_cons]
  by_cases ha : ¬dead a ∧ ready a <;> simp [ha]

theorem not_dead_of_mem_alive {l : List α} {a : α} (h : a ∈ alive dead l) : ¬dead a := by
  simpa using (List.mem_filter.mp h).2

/-! ## The whole pass -/

/-- A pass handles nothing that it must not handle. -/
theorem pass_sublist {l kept got : List α} (h : pass dead ready l = some (kept, got)) :
    got.Sublist (due dead ready l) := by
  induction l using pass.induct dead ready generalizing kept got with
  | case1 =>
      rw [pass_nil, Option.some.injEq, Prod.mk.injEq] at h
      rw [← h.2]
      exact List.nil_sublist _
  | case2 a ha => simp [pass_dead_last ha] at h
  | case3 a ha b rest ih =>
      rw [pass_dead ha] at h
      obtain ⟨r, hr, heq⟩ := Option.map_eq_some_iff.mp h
      rw [Prod.mk.injEq] at heq
      rw [due_cons, if_neg (fun hdue => hdue.1 ha), due_cons, ← heq.2]
      split_ifs
      · exact (ih hr).cons b
      · exact ih hr
  | case4 a rest ha hready ih =>
      rw [pass_ready ha hready] at h
      obtain ⟨r, hr, heq⟩ := Option.map_eq_some_iff.mp h
      rw [Prod.mk.injEq] at heq
      rw [due_cons, if_pos ⟨ha, hready⟩, ← heq.2]
      exact (ih hr).cons_cons a
  | case5 a rest ha hready ih =>
      rw [pass_idle ha hready] at h
      obtain ⟨r, hr, heq⟩ := Option.map_eq_some_iff.mp h
      rw [Prod.mk.injEq] at heq
      rw [due_cons, if_neg (fun hdue => hready hdue.2), ← heq.2]
      exact ih hr

/-- On spaced elements a pass does what it is for. -/
theorem pass_of_spaced {l : List α} (h : Spaced dead ready l) :
    pass dead ready l = some (alive dead l, due dead ready l) := by
  induction l using pass.induct dead ready with
  | case1 => exact pass_nil
  | case2 a ha =>
      obtain ⟨b, hb, -⟩ := (spaced_cons.mp h).1 ha
      simp at hb
  | case3 a ha b rest ih =>
      obtain ⟨hhead, htail⟩ := spaced_cons.mp h
      obtain ⟨c, hc, hdead, hready⟩ := hhead ha
      obtain rfl : b = c := by simpa using hc
      rw [pass_dead ha, ih (spaced_cons.mp htail).2, alive_cons, if_pos ha, alive_cons,
        if_neg hdead, due_cons, if_neg (fun hdue => hdue.1 ha), due_cons,
        if_neg (fun hdue => hready hdue.2)]
      rfl
  | case4 a rest ha hready ih =>
      rw [pass_ready ha hready, ih (spaced_cons.mp h).2, alive_cons, if_neg ha, due_cons,
        if_pos ⟨ha, hready⟩]
      rfl
  | case5 a rest ha hready ih =>
      rw [pass_idle ha hready, ih (spaced_cons.mp h).2, alive_cons, if_neg ha, due_cons,
        if_neg (fun hdue => hready hdue.2)]
      rfl

/-- A pass that does what it is for has seen spaced elements. -/
theorem spaced_of_pass {l kept got : List α} (h : pass dead ready l = some (kept, got))
    (hkept : kept = alive dead l) (hgot : got.length = (due dead ready l).length) :
    Spaced dead ready l := by
  induction l using pass.induct dead ready generalizing kept got with
  | case1 => exact spaced_nil
  | case2 a ha => simp [pass_dead_last ha] at h
  | case3 a ha b rest ih =>
      rw [pass_dead ha] at h
      obtain ⟨r, hr, heq⟩ := Option.map_eq_some_iff.mp h
      obtain ⟨rfl, rfl⟩ := Prod.mk.inj heq
      -- what stays in front of the rest was not erased
      have hb : ¬dead b := by
        rw [alive_cons, if_pos ha] at hkept
        exact not_dead_of_mem_alive (hkept ▸ List.mem_cons_self)
      rw [alive_cons, if_pos ha, alive_cons, if_neg hb] at hkept
      rw [due_cons, if_neg (fun hdue => hdue.1 ha), due_cons] at hgot
      -- and it was not handled
      have hready : ¬ready b := by
        intro hready
        have hle := (pass_sublist hr).length_le
        rw [if_pos ⟨hb, hready⟩, List.length_cons] at hgot
        omega
      rw [if_neg (fun hdue => hready hdue.2)] at hgot
      have hrest := ih hr (List.cons.inj hkept).2 hgot
      refine spaced_cons.mpr ⟨fun _ => ⟨b, rfl, hb, hready⟩, spaced_cons.mpr ⟨?_, hrest⟩⟩
      exact fun hdead => absurd hdead hb
  | case4 a rest ha hready ih =>
      rw [pass_ready ha hready] at h
      obtain ⟨r, hr, heq⟩ := Option.map_eq_some_iff.mp h
      obtain ⟨rfl, rfl⟩ := Prod.mk.inj heq
      rw [alive_cons, if_neg ha] at hkept
      rw [due_cons, if_pos ⟨ha, hready⟩, List.length_cons, List.length_cons] at hgot
      have hrest := ih hr (List.cons.inj hkept).2 (Nat.succ.inj hgot)
      exact spaced_cons.mpr ⟨fun hdead => absurd hdead ha, hrest⟩
  | case5 a rest ha hready ih =>
      rw [pass_idle ha hready] at h
      obtain ⟨r, hr, heq⟩ := Option.map_eq_some_iff.mp h
      obtain ⟨rfl, rfl⟩ := Prod.mk.inj heq
      rw [alive_cons, if_neg ha] at hkept
      rw [due_cons, if_neg (fun hdue => hready hdue.2)] at hgot
      have hrest := ih hr (List.cons.inj hkept).2 hgot
      exact spaced_cons.mpr ⟨fun hdead => absurd hdead ha, hrest⟩

end Sweep
