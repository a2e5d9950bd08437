/-
# The order of the times in a log (`src/logger.hpp`, `src/log.hpp`)

The time of a message begins with the year and ends with the milliseconds, every field as
wide as the others of its kind.  So two times compare as texts, byte by byte, as the clock
readings do (`timeText_lt_iff`): a log can be sorted and searched as a text.

That holds from 1970 on.  Before, the milliseconds are negative and their sign is smaller
than every digit.  The times have to have one offset from UTC, which a zone with summer time
changes twice a year, and no leap second may be inserted: `localtime` shows it with the
reading of the second behind it.
-/
import CppShared.Logger

open Calendar (Date)
open Printf (zeroPadded field_lt_iff)

namespace Logger

/-! ## The fields -/

theorem length_year {now : TimePoint} (time : LocalTime now.toTimeT) :
    (zeroPadded 0 time.date.year).length = 4 := by
  have hrange := time.year_range
  have hle : (decimal time.date.year.natAbs).length ≤ 4 :=
    Socket.length_decimal_le (by decide) (by omega)
  have hlt : 3 < (decimal time.date.year.natAbs).length :=
    Printf.lt_length_decimal (by decide) (by omega)
  rw [Printf.length_zeroPadded (by omega)]
  omega

/-- Two fields of two digits. -/
theorem two_lt_iff {u v : ℕ} {x y : Str} (hu : u < 100) (hv : v < 100) :
    zeroPadded 2 u ++ x < zeroPadded 2 v ++ y ↔ u < v ∨ u = v ∧ x < y := by
  have hlen : ∀ n : ℕ, n < 100 → (zeroPadded 2 (n : ℤ)).length = 2 := by
    intro n hn
    exact Printf.length_zeroPadded_of_lt (by decide) (Int.natCast_nonneg n) (by omega)
  rw [field_lt_iff (Int.natCast_nonneg u) (Int.natCast_nonneg v)
    ((hlen u hu).trans (hlen v hv).symm), Int.ofNat_lt, Int.natCast_inj]

/-- The last field. -/
theorem three_lt_iff {u v : ℤ} (hu : 0 ≤ u ∧ u < 1000) (hv : 0 ≤ v ∧ v < 1000) :
    zeroPadded 3 u < zeroPadded 3 v ↔ u < v := by
  have hlen : ∀ n : ℤ, 0 ≤ n ∧ n < 1000 → (zeroPadded 3 n).length = 3 := by
    intro n hn
    exact Printf.length_zeroPadded_of_lt (by decide) hn.1 (by omega)
  have hfield := field_lt_iff (x := []) (y := []) hu.1 hv.1 ((hlen u hu).trans (hlen v hv).symm)
  rw [List.append_nil, List.append_nil] at hfield
  rw [hfield]
  simp

/-- The milliseconds that are printed. -/
def TimePoint.rest (now : TimePoint) : ℤ := now.milliseconds - now.seconds * 1000

theorem TimePoint.rest_range {now : TimePoint} (h : 0 ≤ now.count) :
    0 ≤ now.rest ∧ now.rest < 1000 := by
  unfold rest milliseconds seconds
  rw [Int.tdiv_eq_ediv_of_nonneg h, Int.tdiv_eq_ediv_of_nonneg h]
  omega

/-- The time of day that is printed, and the milliseconds. -/
def LocalTime.Earlier {now now' : TimePoint} (time : LocalTime now.toTimeT)
    (time' : LocalTime now'.toTimeT) : Prop :=
  time.hour < time'.hour ∨ time.hour = time'.hour ∧
    (time.minute < time'.minute ∨ time.minute = time'.minute ∧
      (time.second < time'.second ∨ time.second = time'.second ∧ now.rest < now'.rest))

/-- **The order of the texts**, field by field. -/
theorem timeText_lt {now now' : TimePoint} (time : LocalTime now.toTimeT)
    (time' : LocalTime now'.toTimeT) (hpos : 0 ≤ now.count ∧ 0 ≤ now'.count) :
    timeText now time.tm < timeText now' time'.tm ↔
      time.date.Before time'.date ∨ time.date = time'.date ∧ time.Earlier time' := by
  have hmonth := time.valid.month_lt
  have hmonth' := time'.valid.month_lt
  have hday := time.valid.day_lt
  have hday' := time'.valid.day_lt
  have hhour := time.hour_lt
  have hhour' := time'.hour_lt
  have hminute := time.minute_lt
  have hminute' := time'.minute_lt
  have hsecond := time.second_le
  have hsecond' := time'.second_le
  have hyear := time.year_range
  have hyear' := time'.year_range
  have hlen := (length_year time).trans (length_year time').symm
  have htext : ∀ {n : TimePoint} (t : LocalTime n.toTimeT), timeText n t.tm =
      zeroPadded 0 t.date.year ++ (str "-" ++ (zeroPadded 2 (t.date.month + 1 : ℕ) ++ (str "-" ++
        (zeroPadded 2 (t.date.day + 1 : ℕ) ++ (str " " ++ (zeroPadded 2 (t.hour : ℕ) ++
          (str ":" ++ (zeroPadded 2 (t.minute : ℕ) ++ (str ":" ++ (zeroPadded 2 (t.second : ℕ) ++
            (str " " ++ zeroPadded 3 n.rest))))))))))) := by
    intro n t
    unfold timeText dateText
    rw [toInt_disMillseconds]
    simp only [LocalTime.tm, Int.sub_add_cancel, List.append_assoc]
    rfl
  have hdate : ∀ d e : Date, d = e ↔ d.year = e.year ∧ d.month = e.month ∧ d.day = e.day := by
    rintro ⟨year, month, day⟩ ⟨year', month', day'⟩
    exact Date.mk.injEq _ _ _ _ _ _ ▸ Iff.rfl
  have hsep : ∀ a : Str, ∀ {x y : Str}, a ++ x < a ++ y ↔ x < y := append_lt_append_left_iff
  -- field by field from the left: years of one length first, then fields of fixed width, with
  -- the same separators in both texts
  rw [htext, htext, field_lt_iff (by omega) (by omega) hlen, hsep,
    two_lt_iff (by omega) (by omega), hsep, two_lt_iff (by omega) (by omega), hsep,
    two_lt_iff (by omega) (by omega), hsep, two_lt_iff (by omega) (by omega), hsep,
    two_lt_iff (by omega) (by omega), hsep,
    three_lt_iff (TimePoint.rest_range hpos.1) (TimePoint.rest_range hpos.2), hdate]
  -- what is left is the order of the fields, written in two ways
  unfold Date.Before LocalTime.Earlier
  omega

/-! ## Main result -/

/-- What the time says of the clock: its reading in milliseconds, with the offset. -/
theorem LocalTime.milliseconds_eq {now : TimePoint} (time : LocalTime now.toTimeT) :
    now.milliseconds + 1000 * time.offset =
      1000 * (86400 * time.date.number + 3600 * time.hour + 60 * time.minute + time.second) +
        now.rest := by
  have hclock := time.clock
  unfold TimePoint.rest
  unfold TimePoint.toTimeT at hclock
  omega

/-- The order of the readings, field by field. -/
theorem milliseconds_lt {now now' : TimePoint} (time : LocalTime now.toTimeT)
    (time' : LocalTime now'.toTimeT) (hoffset : time.offset = time'.offset)
    (hleap : time.second < 60 ∧ time'.second < 60) (hpos : 0 ≤ now.count ∧ 0 ≤ now'.count) :
    now.milliseconds < now'.milliseconds ↔
      time.date.Before time'.date ∨ time.date = time'.date ∧ time.Earlier time' := by
  have hrest := TimePoint.rest_range hpos.1
  have hrest' := TimePoint.rest_range hpos.2
  have heq := time.milliseconds_eq
  have heq' := time'.milliseconds_eq
  have hhour := time.hour_lt
  have hhour' := time'.hour_lt
  have hminute := time.minute_lt
  have hminute' := time'.minute_lt
  rw [← time.valid.number_lt_iff time'.valid, ← time.valid.number_inj time'.valid]
  unfold LocalTime.Earlier
  omega

/-- With one offset from UTC, from 1970 on and outside of leap seconds, the texts compare as
the readings do. -/
theorem timeText_lt_iff {now now' : TimePoint} (time : LocalTime now.toTimeT)
    (time' : LocalTime now'.toTimeT) (hoffset : time.offset = time'.offset)
    (hleap : time.second < 60 ∧ time'.second < 60) (hpos : 0 ≤ now.count ∧ 0 ≤ now'.count) :
    timeText now time.tm < timeText now' time'.tm ↔ now.milliseconds < now'.milliseconds :=
  (timeText_lt time time' hpos).trans (milliseconds_lt time time' hoffset hleap hpos).symm

/-- The texts are in milliseconds, the readings in nanoseconds: of an earlier text the reading
is earlier, too. -/
theorem count_lt_of_timeText_lt {now now' : TimePoint} (time : LocalTime now.toTimeT)
    (time' : LocalTime now'.toTimeT) (hoffset : time.offset = time'.offset)
    (hleap : time.second < 60 ∧ time'.second < 60) (hpos : 0 ≤ now.count ∧ 0 ≤ now'.count)
    (h : timeText now time.tm < timeText now' time'.tm) : now.count < now'.count := by
  have hlt := (timeText_lt_iff time time' hoffset hleap hpos).mp h
  unfold TimePoint.milliseconds at hlt
  by_contra hge
  have hback := Int.tdiv_le_tdiv (c := 1000000) (by decide) (not_lt.mp hge)
  omega

/-- Two texts tell which reading was the earlier one, to the millisecond. -/
structure InOrder (now now' : TimePoint) (text text' : Str) : Prop where
  earlier : text < text' ↔ now.milliseconds < now'.milliseconds
  same : text = text' ↔ now.milliseconds = now'.milliseconds

/-- **Times are in the order of their texts**, with one offset from UTC, from 1970 on and
outside of leap seconds. -/
theorem timestamp_order {now now' : TimePoint} (time : LocalTime now.toTimeT)
    (time' : LocalTime now'.toTimeT) (hoffset : time.offset = time'.offset)
    (hleap : time.second < 60 ∧ time'.second < 60) (hpos : 0 ≤ now.count ∧ 0 ≤ now'.count) :
    InOrder now now' (LogWriter.strTime now time) (LogWriter.strTime now' time') ∧
      InOrder now now' (Log.strTime now time) (Log.strTime now' time') := by
  have hlt := timeText_lt_iff time time' hoffset hleap hpos
  have hgt := timeText_lt_iff time' time hoffset.symm hleap.symm hpos.symm
  have horder : InOrder now now' (timeText now time.tm) (timeText now' time'.tm) := by
    refine ⟨hlt, fun heq => ?_, fun heq => ?_⟩
    · have hnot := hlt.not.mp (by rw [heq]; exact lt_irrefl _)
      have hnot' := hgt.not.mp (by rw [heq]; exact lt_irrefl _)
      omega
    · have hnot := hlt.not.mpr (by omega)
      have hnot' := hgt.not.mpr (by omega)
      exact ((lt_trichotomy _ _).resolve_left hnot).resolve_right hnot'
  exact ⟨horder, horder⟩

/-- The last millisecond of a day in February. -/
def lateFebruary : TimePoint := ⟨951782399999000000, by decide⟩

/-- The next one. -/
def leapDay : TimePoint := ⟨951782400000000000, by decide⟩

/-- `timestamp_order` at these times. -/
theorem timestamp_order_leapDay :
    let time := localtime lateFebruary.toTimeT 0 (by decide)
    let time' := localtime leapDay.toTimeT 0 (by decide)
    LogWriter.strTime lateFebruary time = str "2000-02-28 23:59:59 999" ∧
      LogWriter.strTime leapDay time' = str "2000-02-29 00:00:00 000" ∧
      InOrder lateFebruary leapDay (LogWriter.strTime lateFebruary time)
        (LogWriter.strTime leapDay time') := by
  refine ⟨by decide, by decide, ?_⟩
  exact (@timestamp_order lateFebruary leapDay (localtime _ 0 (by decide))
    (localtime _ 0 (by decide)) rfl (by decide) (by decide)).1

end Logger
