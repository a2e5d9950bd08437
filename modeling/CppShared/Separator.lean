/-
# Texts around a separator

Two texts joined by a separator do not determine the two texts, because a text may
contain the separator.  When the first symbol of the separator does not come again in it
(so that it does not overlap itself), this is the only way to go wrong:

* `append_separator_eq_iff`: two pairs with the same join are equal, or the separator
  occurs in the longer first text, right behind the shorter one;
* `append_separator_inj`: pairs whose first texts are free of the separator are
  determined by the join.
-/
import Mathlib.Data.List.Infix

namespace Separator

variable {α : Type*} {c : α} {tail : List α}

/-- A first text that goes on behind a separator: the second text of the other pair
starts there. -/
theorem eq_or_of_append_separator (hc : c ∉ tail) {e x x' : List α}
    (h : c :: tail ++ x = e ++ (c :: tail ++ x')) :
    (e = [] ∧ x = x') ∨ ∃ m, e = c :: tail ++ m ∧ x = m ++ (c :: tail ++ x') := by
  rcases List.append_eq_append_iff.mp h with ⟨m, he, hx⟩ | ⟨r, hsep, hx⟩
  · exact Or.inr ⟨m, he, hx⟩
  · cases e with
    | nil =>
        obtain rfl : c :: tail = r := hsep
        exact Or.inl ⟨rfl, (List.append_cancel_left hx).symm⟩
    | cons b e =>
        obtain ⟨rfl, htail⟩ := List.cons.inj hsep
        cases r with
        | nil =>
            refine Or.inr ⟨[], ?_, hx.symm⟩
            rw [htail]
            simp
        | cons d r =>
            -- the separator would begin again inside itself
            obtain ⟨rfl, -⟩ := List.cons.inj hx
            exact absurd (htail ▸ List.mem_append_right e List.mem_cons_self) hc

/-- **Pairs with the same join.** -/
theorem append_separator_eq_iff (hc : c ∉ tail) {d x d' x' : List α} :
    d ++ (c :: tail ++ x) = d' ++ (c :: tail ++ x') ↔
      (d = d' ∧ x = x') ∨
        ∃ m, (d' = d ++ (c :: tail ++ m) ∧ x = m ++ (c :: tail ++ x')) ∨
          (d = d' ++ (c :: tail ++ m) ∧ x' = m ++ (c :: tail ++ x)) := by
  constructor
  · intro h
    rcases List.append_eq_append_iff.mp h with ⟨e, rfl, hx⟩ | ⟨e, rfl, hx⟩
    · rcases eq_or_of_append_separator hc hx with ⟨rfl, rfl⟩ | ⟨m, rfl, rfl⟩
      · exact Or.inl ⟨(List.append_nil d).symm, rfl⟩
      · exact Or.inr ⟨m, Or.inl ⟨rfl, rfl⟩⟩
    · rcases eq_or_of_append_separator hc hx with ⟨rfl, rfl⟩ | ⟨m, rfl, rfl⟩
      · exact Or.inl ⟨List.append_nil d', rfl⟩
      · exact Or.inr ⟨m, Or.inr ⟨rfl, rfl⟩⟩
  · rintro (⟨rfl, rfl⟩ | ⟨m, ⟨rfl, rfl⟩ | ⟨rfl, rfl⟩⟩)
    · rfl
    · simp [List.append_assoc]
    · simp [List.append_assoc]

/-- First texts that are free of the separator are determined by the join. -/
theorem append_separator_inj (hc : c ∉ tail) {d x d' x' : List α} (hd : ¬c :: tail <:+: d)
    (hd' : ¬c :: tail <:+: d') (h : d ++ (c :: tail ++ x) = d' ++ (c :: tail ++ x')) :
    d = d' ∧ x = x' := by
  rcases (append_separator_eq_iff hc).mp h with heq | ⟨m, ⟨rfl, -⟩ | ⟨rfl, -⟩⟩
  · exact heq
  · exact absurd ⟨d, m, List.append_assoc d _ m⟩ hd'
  · exact absurd ⟨d', m, List.append_assoc d' _ m⟩ hd

end Separator
