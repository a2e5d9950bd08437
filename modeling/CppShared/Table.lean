/-
# Tables of threads

A list read as a table: position `i` holds what is known of the `i`-th thread (or
of the `i`-th value of a history).  The lemmas say what the two operations a
transition performs on such a table do to its entries and to the number of
entries with a property: overwriting one entry and appending a new one.
-/
import Mathlib.Order.Basic
import Mathlib.Data.Nat.Basic

variable {α : Type*}

/-- The entries of a table after one of them is overwritten. -/
theorem getElem?_set_iff {l : List α} {w : ℕ} {p : α} (hw : l[w]? = some p) {q r : α} {i : ℕ} :
    (l.set w q)[i]? = some r ↔ (i = w ∧ q = r) ∨ (i ≠ w ∧ l[i]? = some r) := by
  have hlt : w < l.length := (List.getElem?_eq_some_iff.mp hw).1
  rw [List.getElem?_set]
  by_cases hi : w = i
  · subst hi
    simp [hlt]
  · simp [hi, Ne.symm hi]

/-- The entries of a table after one is appended. -/
theorem getElem?_concat_iff {l : List α} {x r : α} {i : ℕ} :
    (l ++ [x])[i]? = some r ↔ l[i]? = some r ∨ (i = l.length ∧ x = r) := by
  rcases Nat.lt_trichotomy i l.length with hlt | rfl | hgt
  · rw [List.getElem?_append_left hlt]
    simp [Nat.ne_of_lt hlt]
  · simp
  · rw [List.getElem?_eq_none (by simp; omega), List.getElem?_eq_none (by omega)]
    simp [Nat.ne_of_gt hgt]

/-- Overwriting an entry exchanges its contribution to a count. -/
theorem countP_set_add {l : List α} {w : ℕ} {p : α} (hw : l[w]? = some p) (q : α)
    (f : α → Bool) :
    (l.set w q).countP f + (if f p then 1 else 0) = l.countP f + (if f q then 1 else 0) := by
  obtain ⟨hlt, rfl⟩ := List.getElem?_eq_some_iff.mp hw
  rw [List.countP_set hlt]
  have hpos : f l[w] = true → 0 < l.countP f := fun hf =>
    List.countP_pos_iff.mpr ⟨_, List.getElem_mem hlt, hf⟩
  by_cases hf : f l[w] = true
  · have := hpos hf
    simp only [hf, if_true]
    omega
  · simp [hf]

section

variable {β : Type*} {f : α → Bool} {g : β → Bool}

theorem one_of_two {x : α} {y : β} (h : f x = false ∨ g y = false) :
    (if f x = true then 1 else 0) + (if g y = true then 1 else 0) ≤ 1 := by
  rcases h with hx | hy
  · have hnot : ¬f x = true := by
      rw [hx]
      decide
    rw [if_neg hnot]
    split_ifs <;> decide
  · have hnot : ¬g y = true := by
      rw [hy]
      decide
    rw [if_neg hnot]
    split_ifs <;> decide

/-- Two tables of the same length: where no index counts in both, no more entries count than
there are indices. -/
theorem countP_add_countP_le {l : List α} {m : List β} (hlen : m.length = l.length)
    (hone : ∀ (i : ℕ) a b, l[i]? = some a → m[i]? = some b → f a = false ∨ g b = false) :
    l.countP f + m.countP g ≤ l.length := by
  induction l generalizing m with
  | nil =>
      obtain rfl := List.eq_nil_of_length_eq_zero hlen
      exact Nat.le_refl 0
  | cons x l ih =>
      cases m with
      | nil => simp at hlen
      | cons y m =>
          have htail := ih (Nat.succ.inj hlen) fun i => hone (i + 1)
          have hhead := one_of_two (hone 0 x y rfl rfl)
          rw [List.countP_cons, List.countP_cons, List.length_cons]
          omega

/-- And fewer, where one index counts in neither. -/
theorem countP_add_countP_lt {l : List α} {m : List β} (hlen : m.length = l.length)
    (hone : ∀ (i : ℕ) a b, l[i]? = some a → m[i]? = some b → f a = false ∨ g b = false)
    {c : ℕ} {a : α} {b : β} (ha : l[c]? = some a) (hb : m[c]? = some b) (hf : f a = false)
    (hg : g b = false) : l.countP f + m.countP g < l.length := by
  induction l generalizing m c with
  | nil => simp at ha
  | cons x l ih =>
      cases m with
      | nil => simp at hlen
      | cons y m =>
          rw [List.countP_cons, List.countP_cons, List.length_cons]
          cases c with
          | zero =>
              obtain rfl : x = a := by simpa using ha
              obtain rfl : y = b := by simpa using hb
              have htail := countP_add_countP_le (Nat.succ.inj hlen) fun i => hone (i + 1)
              rw [if_neg (by rw [hf]; decide), if_neg (by rw [hg]; decide)]
              omega
          | succ c =>
              have htail := ih (Nat.succ.inj hlen) (fun i => hone (i + 1)) ha hb
              have hhead := one_of_two (hone 0 x y rfl rfl)
              omega

end
