/-
# Byte strings

`std::string` as the list of its bytes, compared as `std::string` compares them:
lexicographically, byte by byte and unsigned.  The string functions the sources
call are defined here after the standard: `find` is `std::string::find`, which
gives `npos` when the pattern does not occur, and `substr` throws when it starts
past the end.

`toInt` and `toSize` are the conversions between the 64-bit `std::size_t` and the
32-bit `int`.
-/
import Mathlib.Algebra.Group.Int.Defs
import Mathlib.Algebra.Group.Nat.Defs
import Mathlib.Data.Int.DivMod
import Mathlib.Data.List.Lex
import Mathlib.Order.Defs.LinearOrder

/-- Bytes are ordered by their unsigned value. -/
instance instLinearOrderUInt8 : LinearOrder UInt8 where
  le_refl := UInt8.le_refl
  le_trans _ _ _ := UInt8.le_trans
  lt_iff_le_not_ge a b := by
    rw [UInt8.lt_iff_toNat_lt, UInt8.le_iff_toNat_le, UInt8.le_iff_toNat_le]
    omega
  le_antisymm _ _ := UInt8.le_antisymm
  le_total := UInt8.le_total
  toDecidableLE := inferInstance
  toDecidableLT := inferInstance
  toDecidableEq := inferInstance

/-- A byte string. -/
abbrev Str := List UInt8

/-- The bytes of a literal. -/
def str (s : String) : Str := s.toList.map Char.toUInt8

/-! ## Integer conversions -/

/-- `std::string::npos`. -/
def npos : ℕ := 2 ^ 64 - 1

/-- The value of a `std::size_t` stored in an `int`. -/
def toInt (n : ℕ) : ℤ := Int.bmod n (2 ^ 32)

/-- The value of an `int` passed as a `std::size_t`. -/
def toSize (i : ℤ) : ℕ := (i % 2 ^ 64).toNat

/-- What becomes of an offset on its way through an `int`. -/
theorem toSize_toInt_eq (n : ℕ) : toSize (toInt n) =
    if n % 2 ^ 32 < 2 ^ 31 then n % 2 ^ 32 else 2 ^ 64 - 2 ^ 32 + n % 2 ^ 32 := by
  unfold toSize toInt
  rw [Int.bmod_def]
  split_ifs <;> omega

/-- An offset that fits into an `int` survives the two conversions. -/
theorem toSize_toInt {n : ℕ} (h : n < 2 ^ 31) : toSize (toInt n) = n := by
  have hmod : n % 2 ^ 32 = n := Nat.mod_eq_of_lt (by omega)
  rw [toSize_toInt_eq, hmod, if_pos h]

/-- An `int` that was stored as a `std::size_t` comes back. -/
theorem toInt_toSize {i : ℤ} (h : -2 ^ 31 ≤ i ∧ i < 2 ^ 31) : toInt (toSize i) = i := by
  unfold toInt toSize
  rw [Int.bmod_def]
  split_ifs <;> omega

/-- `npos` survives them as well, by way of `-1`. -/
theorem toSize_toInt_npos : toSize (toInt npos) = npos := by
  decide

/-! ## Texts with a zero behind them -/

/-- A C string ends at the first zero byte. -/
theorem takeWhile_append_zero {text : Str} (h : ∀ b ∈ text, b ≠ 0) (rest : Str) :
    (text ++ 0 :: rest).takeWhile (· ≠ 0) = text := by
  rw [List.takeWhile_append_of_pos (by simpa using h), List.takeWhile_cons_of_neg (by simp),
    List.append_nil]

/-! ## Comparing -/

/-- Of two texts with front parts of one length these are compared first. -/
theorem append_lt_append_iff {a b x y : Str} (h : a.length = b.length) :
    a ++ x < b ++ y ↔ a < b ∨ a = b ∧ x < y := by
  induction a generalizing b with
  | nil =>
      obtain rfl := List.length_eq_zero_iff.mp h.symm
      simp
  | cons c a ih =>
      cases b with
      | nil => exact absurd h (Nat.succ_ne_zero _)
      | cons d b =>
          have hrest := ih (Nat.succ.inj h)
          simp only [List.cons_append, List.cons_lt_cons_iff, List.cons.injEq, hrest]
          tauto

/-- What is in front of both makes no difference. -/
theorem append_lt_append_left_iff (a : Str) {x y : Str} : a ++ x < a ++ y ↔ x < y := by
  rw [append_lt_append_iff rfl]
  simp

/-! ## Searching -/

/-- `std::string::find`: the first offset at which the pattern occurs. -/
def find (pat : Str) : Str → Option ℕ
  | [] => if pat.isPrefixOf [] then some 0 else none
  | b :: rest => if pat.isPrefixOf (b :: rest) then some 0 else (find pat rest).map (· + 1)

/-- A match begins inside the text, or right behind it. -/
theorem find_le_length {pat text : Str} {k : ℕ} (h : find pat text = some k) :
    k ≤ text.length := by
  induction text generalizing k with
  | nil =>
      unfold find at h
      split_ifs at h
      obtain rfl := Option.some.inj h
      exact Nat.zero_le _
  | cons b rest ih =>
      unfold find at h
      split_ifs at h
      · obtain rfl := Option.some.inj h
        exact Nat.zero_le _
      · obtain ⟨j, hj, rfl⟩ := Option.map_eq_some_iff.mp h
        rw [List.length_cons]
        exact Nat.succ_le_succ (ih hj)

/-- A pattern at the front is found there. -/
theorem find_append (pat rest : Str) : find pat (pat ++ rest) = some 0 := by
  have hfront : pat.isPrefixOf (pat ++ rest) = true := by
    rw [List.isPrefixOf_iff_prefix]
    exact List.prefix_append pat rest
  cases hs : pat ++ rest with
  | nil => simp [find, ← hs, hfront]
  | cons b tail => simp [find, ← hs, hfront]
