/-
# The Gregorian calendar

Days are numbered from the first of January 1970 in both directions, and years are
counted as if the calendar had always been in use.  Months and the days of a month are
counted from zero.

* `ofNumber` finds the date with a number: `valid_ofNumber` and `number_ofNumber`;
* `Date.Valid.le_year_iff` tells the year of a date by its number;
* `Date.Valid.number_lt_iff`: dates are in the order of their numbers.
-/
import Mathlib.Algebra.BigOperators.Group.List.Basic
import Mathlib.Algebra.Order.Ring.Nat

namespace Calendar

/-! ## Years -/

/-- A leap year. -/
def isLeap (y : ℤ) : Bool := decide (y % 4 = 0 ∧ (y % 100 ≠ 0 ∨ y % 400 = 0))

/-- The number of days of a year. -/
def yearLength (y : ℤ) : ℤ := if isLeap y then 366 else 365

/-- The number of the first of January. -/
def yearStart (y : ℤ) : ℤ :=
  365 * (y - 1970) + ((y - 1) / 4 - (y - 1) / 100 + (y - 1) / 400 - 477)

/-- A year begins when the one before it is over. -/
theorem yearStart_succ (y : ℤ) : yearStart (y + 1) = yearStart y + yearLength y := by
  unfold yearStart yearLength isLeap
  split_ifs with hleap
  · simp only [decide_eq_true_eq] at hleap
    omega
  · simp only [decide_eq_true_eq] at hleap
    omega

/-- Later years begin later. -/
theorem yearStart_lt_iff {y z : ℤ} : yearStart y < yearStart z ↔ y < z := by
  unfold yearStart
  omega

/-- The year of a day: the mean length of a year gives it up to one year. -/
def yearOf (n : ℤ) : ℤ :=
  let y := 1970 + 400 * n / 146097
  if n < yearStart y then y - 1
  else if yearStart (y + 1) ≤ n then y + 1
  else y

theorem yearOf_spec (n : ℤ) : yearStart (yearOf n) ≤ n ∧ n < yearStart (yearOf n + 1) := by
  unfold yearOf
  dsimp only
  split_ifs with hbefore hafter
  · rw [Int.sub_add_cancel]
    refine ⟨?_, hbefore⟩
    unfold yearStart at hbefore ⊢
    omega
  · refine ⟨hafter, ?_⟩
    unfold yearStart at hafter ⊢
    omega
  · omega

/-! ## Months -/

/-- The lengths of the months. -/
def monthLengths (leap : Bool) : List ℕ :=
  [31, if leap then 29 else 28, 31, 30, 31, 30, 31, 31, 30, 31, 30, 31]

theorem sum_monthLengths (y : ℤ) : ((monthLengths (isLeap y)).sum : ℤ) = yearLength y := by
  unfold yearLength
  cases isLeap y with
  | true => rfl
  | false => rfl

/-- Where the `n`-th place is in a row of blocks: the block, and the place in it. -/
def locate : List ℕ → ℕ → ℕ × ℕ
  | [], n => (0, n)
  | l :: rest, n =>
      if n < l then (0, n)
      else ((locate rest (n - l)).1 + 1, (locate rest (n - l)).2)

theorem locate_spec {ls : List ℕ} {n : ℕ} (h : n < ls.sum) :
    (locate ls n).2 < ls.getD (locate ls n).1 0 ∧
      (ls.take (locate ls n).1).sum + (locate ls n).2 = n := by
  induction ls generalizing n with
  | nil => exact absurd h (Nat.not_lt_zero n)
  | cons l rest ih =>
      rw [List.sum_cons] at h
      unfold locate
      split_ifs with hlt
      · exact ⟨hlt, Nat.zero_add n⟩
      · obtain ⟨hinside, hsum⟩ := ih (n := n - l) (by omega)
        refine ⟨hinside, ?_⟩
        rw [List.take_succ_cons, List.sum_cons]
        omega

/-- The blocks up to one of them are no longer than all of them. -/
theorem sum_take_add_getD_le (ls : List ℕ) (i : ℕ) : (ls.take i).sum + ls.getD i 0 ≤ ls.sum := by
  induction ls generalizing i with
  | nil => simp
  | cons l rest ih =>
      cases i with
      | zero => simp
      | succ i =>
          have hrest := ih i
          rw [List.take_succ_cons, List.sum_cons, List.sum_cons, List.getD_cons_succ]
          omega

/-- One of the blocks ends before a later one begins. -/
theorem sum_take_add_getD_le_sum_take (ls : List ℕ) {i j : ℕ} (h : i < j) :
    (ls.take i).sum + ls.getD i 0 ≤ (ls.take j).sum := by
  have hle := sum_take_add_getD_le (ls.take j) i
  have hget : (ls.take j).getD i 0 = ls.getD i 0 := by
    rw [List.getD_eq_getElem?_getD, List.getElem?_take_of_lt h, ← List.getD_eq_getElem?_getD]
  rwa [List.take_take, Nat.min_eq_left (Nat.le_of_lt h), hget] at hle

/-! ## Dates -/

/-- A date.  The month and the day are counted from zero. -/
structure Date where
  year : ℤ
  month : ℕ
  day : ℕ
  deriving DecidableEq, Repr

/-- The month has that day; there are twelve months. -/
def Date.Valid (d : Date) : Prop := d.day < (monthLengths (isLeap d.year)).getD d.month 0

instance (d : Date) : Decidable d.Valid := inferInstanceAs (Decidable (_ < _))

/-- The number of a date. -/
def Date.number (d : Date) : ℤ :=
  yearStart d.year + (((monthLengths (isLeap d.year)).take d.month).sum + d.day : ℕ)

/-- The date with a number. -/
def ofNumber (n : ℤ) : Date :=
  let y := yearOf n
  let place := locate (monthLengths (isLeap y)) (n - yearStart y).toNat
  ⟨y, place.1, place.2⟩

/-- A day of the year belongs to one of its months. -/
theorem dayOfYear_lt (n : ℤ) :
    (n - yearStart (yearOf n)).toNat < (monthLengths (isLeap (yearOf n))).sum := by
  obtain ⟨hle, hlt⟩ := yearOf_spec n
  have hsum := sum_monthLengths (yearOf n)
  rw [yearStart_succ] at hlt
  omega

theorem valid_ofNumber (n : ℤ) : (ofNumber n).Valid := (locate_spec (dayOfYear_lt n)).1

theorem number_ofNumber (n : ℤ) : (ofNumber n).number = n := by
  have hle := (yearOf_spec n).1
  have hplace := (locate_spec (dayOfYear_lt n)).2
  show yearStart (yearOf n) + (_ : ℕ) = n
  rw [ofNumber, hplace]
  omega

/-- There are twelve months. -/
theorem Date.Valid.month_lt {d : Date} (h : d.Valid) : d.month < 12 := by
  by_contra hge
  have hnone : (monthLengths (isLeap d.year)).getD d.month 0 = 0 := by
    rw [List.getD_eq_getElem?_getD, List.getElem?_eq_none (not_lt.mp hge)]
    rfl
  unfold Date.Valid at h
  omega

/-- A month has at most 31 days. -/
theorem Date.Valid.day_lt {d : Date} (h : d.Valid) : d.day < 31 := by
  have hmonth : ∀ leap, ∀ i < 12, (monthLengths leap).getD i 0 ≤ 31 := by decide
  exact lt_of_lt_of_le h (hmonth _ _ h.month_lt)

/-- The number of a date lies in its year. -/
theorem Date.Valid.number_mem {d : Date} (h : d.Valid) :
    yearStart d.year ≤ d.number ∧ d.number < yearStart (d.year + 1) := by
  have hle := sum_take_add_getD_le (monthLengths (isLeap d.year)) d.month
  have hsum := sum_monthLengths d.year
  unfold Date.Valid at h
  rw [yearStart_succ]
  unfold Date.number
  omega

/-- The number of a date tells which years have begun by then. -/
theorem Date.Valid.le_year_iff {d : Date} (h : d.Valid) {y : ℤ} :
    y ≤ d.year ↔ yearStart y ≤ d.number := by
  obtain ⟨hle, hlt⟩ := h.number_mem
  constructor
  · intro hy
    have hstart : ¬yearStart d.year < yearStart y := by
      rw [yearStart_lt_iff]
      omega
    omega
  · intro hy
    have hnext : y < d.year + 1 := yearStart_lt_iff.mp (by omega)
    omega

theorem Date.Valid.year_lt_iff {d : Date} (h : d.Valid) {y : ℤ} :
    d.year < y ↔ d.number < yearStart y := by
  rw [← not_le, ← not_le, h.le_year_iff]

/-! ## The order of dates -/

/-- The earlier of two dates. -/
def Date.Before (d e : Date) : Prop :=
  d.year < e.year ∨
    d.year = e.year ∧ (d.month < e.month ∨ d.month = e.month ∧ d.day < e.day)

/-- An earlier date has a smaller number. -/
theorem Date.Before.number_lt {d e : Date} (h : d.Before e) (hd : d.Valid) (he : e.Valid) :
    d.number < e.number := by
  rcases h with hyear | ⟨hyear, hmonth⟩
  · -- the year of the one is over when that of the other begins
    exact lt_of_lt_of_le (hd.year_lt_iff.mp hyear) he.number_mem.1
  · unfold Date.Valid at hd
    unfold Date.number
    rw [hyear] at hd ⊢
    rcases hmonth with hmonth | ⟨hmonth, hday⟩
    · have hle := sum_take_add_getD_le_sum_take (monthLengths (isLeap e.year)) hmonth
      omega
    · rw [hmonth]
      omega

/-- **The order of dates** is that of their numbers. -/
theorem Date.Valid.number_lt_iff {d e : Date} (hd : d.Valid) (he : e.Valid) :
    d.number < e.number ↔ d.Before e := by
  constructor
  · intro hlt
    by_contra hnot
    have hcases : d = e ∨ e.Before d := by
      obtain ⟨y, m, k⟩ := d
      obtain ⟨y', m', k'⟩ := e
      simp only [Date.Before, Date.mk.injEq] at hnot ⊢
      omega
    rcases hcases with rfl | hafter
    · exact absurd hlt (lt_irrefl _)
    · exact absurd hlt (lt_asymm (hafter.number_lt he hd))
  · exact fun h => h.number_lt hd he

/-- A number belongs to one date. -/
theorem Date.Valid.number_inj {d e : Date} (hd : d.Valid) (he : e.Valid) :
    d.number = e.number ↔ d = e := by
  constructor
  · intro heq
    have hnot := mt (hd.number_lt_iff he).mpr (by omega)
    have hnot' := mt (he.number_lt_iff hd).mpr (by omega)
    obtain ⟨y, m, k⟩ := d
    obtain ⟨y', m', k'⟩ := e
    simp only [Date.Before, Date.mk.injEq] at hnot hnot' ⊢
    omega
  · rintro rfl
    rfl

end Calendar
