/-
# The loggers (`src/logger.hpp`, `src/log.hpp`)

`LogWriter::merge` and `Log::write` print the time of a message into an array of 25 bytes:
the date and the time of day from `localtime`, and the milliseconds.  Seconds and
milliseconds are truncated towards zero, so that before 1970 the milliseconds are negative
and may take four characters.

* `length_timeText`: the text has 24 characters then, and 23 otherwise;
* `timestamp_fits`: it always fits with its zero, and the milliseconds are the right ones.
-/
import CppShared.Calendar
import CppShared.Printf

open Calendar (Date)
open Printf (zeroPadded readInt)

namespace Logger

/-! ## The time -/

/-- A time point of `std::chrono::system_clock`, in nanoseconds since 1970. -/
structure TimePoint where
  count : ℤ
  range : -2 ^ 63 ≤ count ∧ count < 2 ^ 63

/-- `duration_cast<milliseconds>`. -/
def TimePoint.milliseconds (now : TimePoint) : ℤ := now.count.tdiv 1000000

/-- `duration_cast<seconds>`. -/
def TimePoint.seconds (now : TimePoint) : ℤ := now.count.tdiv 1000000000

/-- `system_clock::to_time_t`. -/
def TimePoint.toTimeT (now : TimePoint) : ℤ := now.seconds

/-- `dis_millseconds`, a `uint64_t`. -/
def disMillseconds (now : TimePoint) : ℕ := toSize (now.milliseconds - now.seconds * 1000)

/-- The fields of `std::tm` that are printed. -/
structure Tm where
  tmYear : ℤ
  tmMon : ℤ
  tmMday : ℤ
  tmHour : ℤ
  tmMin : ℤ
  tmSec : ℤ
  deriving DecidableEq, Repr

/-- A date and a time of day at the time `tt`, in a zone with this offset at that time. -/
structure LocalTime (tt : ℤ) where
  date : Date
  hour : ℕ
  minute : ℕ
  second : ℕ
  offset : ℤ
  valid : date.Valid
  hour_lt : hour < 24
  minute_lt : minute < 60
  /-- A minute may have a leap second. -/
  second_le : second ≤ 60
  /-- A zone file has four bytes for an offset. -/
  offset_range : -2 ^ 31 ≤ offset ∧ offset < 2 ^ 31
  clock : 86400 * date.number + 3600 * hour + 60 * minute + second = tt + offset

/-- The fields as `localtime` fills them in. -/
def LocalTime.tm {tt : ℤ} (time : LocalTime tt) : Tm where
  tmYear := time.date.year - 1900
  tmMon := time.date.month
  tmMday := time.date.day + 1
  tmHour := time.hour
  tmMin := time.minute
  tmSec := time.second

/-- `localtime` where the offset is known and no leap second is inserted. -/
def localtime (tt offset : ℤ) (h : -2 ^ 31 ≤ offset ∧ offset < 2 ^ 31) : LocalTime tt where
  date := Calendar.ofNumber ((tt + offset) / 86400)
  hour := ((tt + offset) % 86400 / 3600).toNat
  minute := ((tt + offset) % 3600 / 60).toNat
  second := ((tt + offset) % 60).toNat
  offset := offset
  valid := Calendar.valid_ofNumber _
  hour_lt := by omega
  minute_lt := by omega
  second_le := by omega
  offset_range := h
  clock := by
    rw [Calendar.number_ofNumber]
    omega

/-! ## The line of a message -/

/-- The first part of the text: `%d-%02d-%02d %02d:%02d:%02d` and a blank. -/
def dateText (tm : Tm) : Str :=
  zeroPadded 0 (tm.tmYear + 1900) ++ str "-" ++ zeroPadded 2 (tm.tmMon + 1) ++ str "-" ++
    zeroPadded 2 tm.tmMday ++ str " " ++ zeroPadded 2 tm.tmHour ++ str ":" ++
    zeroPadded 2 tm.tmMin ++ str ":" ++ zeroPadded 2 tm.tmSec ++ str " "

/-- The whole of it: `%03d` of the milliseconds, as an `int`. -/
def timeText (now : TimePoint) (tm : Tm) : Str :=
  dateText tm ++ zeroPadded 3 (toInt (disMillseconds now))

/-- `sprintf` into an array of `size` zeros; there is no array if it would be overrun. -/
def sprintf (size : ℕ) (text : Str) : Option Str :=
  if text.length < size then some (text ++ List.replicate (size - text.length) 0) else none

/-- `std::string datetime(strTime)`. -/
def datetime (strTime : Str) : Str := strTime.takeWhile (· ≠ 0)

/-- The line of a message. -/
def content (time level : Str) (lineNo : ℤ) (fileName function info : Str) : Str :=
  str "[" ++ time ++ str "]" ++ str "[" ++ level ++ str "]" ++
    str "[FILE:" ++ fileName ++ str "]" ++ str "[LINE:" ++ zeroPadded 0 lineNo ++ str "]" ++
    str "[FUNC:" ++ function ++ str "]" ++ str "[MESSAGE:" ++ info ++ str "]\n"

namespace LogWriter

/-- `levelString`. -/
def levelString : List Str :=
  [str "ALL", str "TRACE", str "DEBUG", str "INFO", str "WARN", str "ERROR", str "FATAL"]

/-- What `merge` prints into `strTime`. -/
def strTime (now : TimePoint) (time : LocalTime now.toTimeT) : Str := timeText now time.tm

/-- `merge`; there is no result if `strTime` is overrun or `level` is past the last name. -/
def merge (now : TimePoint) (time : LocalTime now.toTimeT) (level lineNo : ℤ)
    (fileName function info : Str) : Option Str := do
  let strTime ← sprintf 25 (strTime now time)
  let level ← levelString[toSize level]?
  return content (datetime strTime) level lineNo fileName function info

/-- `write`: what is in the file afterwards.  `file` is what was in it, if it can be opened,
and it takes `room` bytes more: nobody looks whether `file.write` and `file.close()` fail. -/
def write (on : Bool) (file : Option Str) (room : ℕ) (now : TimePoint)
    (time : LocalTime now.toTimeT) (level lineNo : ℤ) (fileName function info : Str) :
    Option (Option Str) :=
  if on = false then some file
  else
    match file with
    | none => some none
    | some text => (merge now time level lineNo fileName function info).map fun content =>
        some (text ++ content.take room)

end LogWriter

namespace Log

/-- What `write` prints into `strTime`. -/
def strTime (now : TimePoint) (time : LocalTime now.toTimeT) : Str := timeText now time.tm

/-- `write`: it makes the line before it opens the file. -/
def write (on : Bool) (file : Option Str) (room : ℕ) (now : TimePoint)
    (time : LocalTime now.toTimeT) (level : Str) (lineNo : ℤ) (fileName function info : Str) :
    Option (Option Str) :=
  if on = false then some file
  else
    (sprintf 25 (strTime now time)).map fun strTime =>
      file.map (· ++ (content (datetime strTime) level lineNo fileName function info).take room)

end Log

/-! ## The milliseconds -/

/-- A division in C++ truncates towards zero. -/
theorem tdiv_of_neg {a : ℤ} (h : a < 0) (k : ℤ) : a.tdiv k = -(-a / k) := by
  rw [← Int.tdiv_eq_ediv_of_nonneg (by omega), Int.neg_tdiv, Int.neg_neg]

theorem TimePoint.seconds_range (now : TimePoint) :
    -9223372036 ≤ now.seconds ∧ now.seconds ≤ 9223372036 := by
  have hrange := now.range
  unfold TimePoint.seconds
  rcases le_or_gt 0 now.count with hpos | hneg
  · rw [Int.tdiv_eq_ediv_of_nonneg hpos]
    omega
  · rw [tdiv_of_neg hneg]
    omega

/-- The milliseconds within a second. -/
theorem TimePoint.milliseconds_range (now : TimePoint) :
    -1000 < now.milliseconds - now.seconds * 1000 ∧
      now.milliseconds - now.seconds * 1000 < 1000 := by
  unfold TimePoint.milliseconds TimePoint.seconds
  rcases le_or_gt 0 now.count with hpos | hneg
  · rw [Int.tdiv_eq_ediv_of_nonneg hpos, Int.tdiv_eq_ediv_of_nonneg hpos]
    omega
  · rw [tdiv_of_neg hneg, tdiv_of_neg hneg]
    omega

/-- No operation on a count overflows. -/
theorem TimePoint.no_overflow (now : TimePoint) :
    (-2 ^ 63 ≤ now.seconds * 1000 ∧ now.seconds * 1000 < 2 ^ 63) ∧
      -2 ^ 63 ≤ now.milliseconds - now.seconds * 1000 ∧
        now.milliseconds - now.seconds * 1000 < 2 ^ 63 := by
  have hseconds := now.seconds_range
  have hmilliseconds := now.milliseconds_range
  omega

/-- The difference survives the way through a `uint64_t` and an `int`. -/
theorem toInt_disMillseconds (now : TimePoint) :
    toInt (disMillseconds now) = now.milliseconds - now.seconds * 1000 := by
  have hrange := now.milliseconds_range
  apply toInt_toSize
  omega

/-! ## The length of the text -/

/-- The clock runs from 1677 to 2262, and an offset is less than seventy years. -/
theorem LocalTime.year_range {now : TimePoint} (time : LocalTime now.toTimeT) :
    1000 ≤ time.date.year ∧ time.date.year < 10000 := by
  have hfirst : Calendar.yearStart 1000 = -354285 := by decide
  have hlast : Calendar.yearStart 10000 = 2932897 := by decide
  have hseconds : -9223372036 ≤ now.toTimeT ∧ now.toTimeT ≤ 9223372036 := now.seconds_range
  have hoffset := time.offset_range
  have hclock := time.clock
  have hhour := time.hour_lt
  have hminute := time.minute_lt
  have hsecond := time.second_le
  rw [time.valid.le_year_iff, time.valid.year_lt_iff, hfirst, hlast]
  omega

/-- The date and the time of day take twenty characters. -/
theorem length_dateText {now : TimePoint} (time : LocalTime now.toTimeT) :
    (dateText time.tm).length = 20 := by
  have hyear : (zeroPadded 0 (time.tm.tmYear + 1900)).length = 4 := by
    have hrange := time.year_range
    have heq : time.tm.tmYear + 1900 = time.date.year := Int.sub_add_cancel _ _
    have hle : (decimal time.date.year.natAbs).length ≤ 4 :=
      Socket.length_decimal_le (by decide) (by omega)
    have hlt : 3 < (decimal time.date.year.natAbs).length :=
      Printf.lt_length_decimal (by decide) (by omega)
    rw [heq, Printf.length_zeroPadded (by omega)]
    omega
  have htwo : ∀ v : ℤ, 0 ≤ v → v < 100 → (zeroPadded 2 v).length = 2 := by
    intro v hv hlt
    exact Printf.length_zeroPadded_of_lt (by decide) hv (by omega)
  have hmon : (zeroPadded 2 (time.tm.tmMon + 1)).length = 2 := by
    have hlt := time.valid.month_lt
    apply htwo
    · show 0 ≤ (time.date.month : ℤ) + 1
      omega
    · show (time.date.month : ℤ) + 1 < 100
      omega
  have hmday : (zeroPadded 2 time.tm.tmMday).length = 2 := by
    have hlt := time.valid.day_lt
    apply htwo
    · show 0 ≤ (time.date.day : ℤ) + 1
      omega
    · show (time.date.day : ℤ) + 1 < 100
      omega
  have hhour : (zeroPadded 2 time.tm.tmHour).length = 2 := by
    have hlt := time.hour_lt
    exact htwo time.hour (by omega) (by omega)
  have hmin : (zeroPadded 2 time.tm.tmMin).length = 2 := by
    have hlt := time.minute_lt
    exact htwo time.minute (by omega) (by omega)
  have hsec : (zeroPadded 2 time.tm.tmSec).length = 2 := by
    have hle := time.second_le
    exact htwo time.second (by omega) (by omega)
  have hdash : (str "-").length = 1 := by decide
  have hblank : (str " ").length = 1 := by decide
  have hcolon : (str ":").length = 1 := by decide
  simp only [dateText, List.length_append, hyear, hmon, hmday, hhour, hmin, hsec, hdash, hblank,
    hcolon]

/-- Three digits and a sign are one character more than `%03d` asks for. -/
theorem length_zeroPadded_three {v : ℤ} (h : -1000 < v ∧ v < 1000) :
    (zeroPadded 3 v).length = if v ≤ -100 then 4 else 3 := by
  rcases le_or_gt 0 v with hpos | hneg
  · rw [if_neg (by omega)]
    exact Printf.length_zeroPadded_of_lt (by decide) hpos (by omega)
  · rw [Printf.length_zeroPadded_of_neg hneg]
    split_ifs with hlong
    · have hlt : 2 < (decimal v.natAbs).length :=
        Printf.lt_length_decimal (by decide) (by omega)
      have hle : (decimal v.natAbs).length ≤ 3 :=
        Socket.length_decimal_le (by decide) (by omega)
      omega
    · have hle : (decimal v.natAbs).length ≤ 2 :=
        Socket.length_decimal_le (by decide) (by omega)
      omega

/-- **How long the text is**: three digits behind a sign take it to the last place that
`strTime` has in front of the zero. -/
theorem length_timeText {now : TimePoint} (time : LocalTime now.toTimeT) :
    (timeText now time.tm).length =
      if now.milliseconds - now.seconds * 1000 ≤ -100 then 24 else 23 := by
  rw [timeText, List.length_append, length_dateText, toInt_disMillseconds,
    length_zeroPadded_three now.milliseconds_range]
  split_ifs <;> rfl

example : timeText ⟨-999000000, by decide⟩ (localtime 0 0 (by decide)).tm =
    str "1970-01-01 00:00:00 -999" := by decide

/-- What stands behind the date and the time of day. -/
theorem drop_timeText {now : TimePoint} (time : LocalTime now.toTimeT) :
    (timeText now time.tm).drop 20 = zeroPadded 3 (now.milliseconds - now.seconds * 1000) := by
  rw [timeText, toInt_disMillseconds, ← length_dateText time]
  exact List.drop_left

/-! ## The line -/

/-- A text without zeros is what the array holds. -/
theorem datetime_sprintf {size : ℕ} {text : Str} (hlt : text.length < size)
    (hzero : ∀ b ∈ text, b ≠ 0) : (sprintf size text).map datetime = some text := by
  obtain ⟨k, hk⟩ : ∃ k, size - text.length = k + 1 := ⟨size - text.length - 1, by omega⟩
  rw [sprintf, if_pos hlt, hk, List.replicate_succ, Option.map_some, datetime,
    takeWhile_append_zero hzero]

/-- The text has no zeros. -/
theorem ne_zero_of_mem_timeText {now : TimePoint} {tm : Tm} {b : UInt8}
    (h : b ∈ timeText now tm) : b ≠ 0 := by
  have hdash : (0 : UInt8) ∉ str "-" := by decide
  have hblank : (0 : UInt8) ∉ str " " := by decide
  have hcolon : (0 : UInt8) ∉ str ":" := by decide
  rintro rfl
  simp only [timeText, dateText, List.mem_append, hdash, hblank, hcolon, or_false,
    Printf.zero_notMem_zeroPadded] at h

/-- The array takes the text. -/
theorem sprintf_timeText {now : TimePoint} (time : LocalTime now.toTimeT) :
    ∃ strTime, sprintf 25 (timeText now time.tm) = some strTime ∧
      datetime strTime = timeText now time.tm := by
  apply Option.map_eq_some_iff.mp
  apply datetime_sprintf
  · rw [length_timeText]
    split_ifs <;> decide
  · intro b
    exact ne_zero_of_mem_timeText

/-- `merge` makes a line for every level that has a name. -/
theorem LogWriter.merge_eq {now : TimePoint} (time : LocalTime now.toTimeT) (level lineNo : ℤ)
    (fileName function info : Str) :
    merge now time level lineNo fileName function info =
      (levelString[toSize level]?).map fun level =>
        content (timeText now time.tm) level lineNo fileName function info := by
  obtain ⟨array, harray, hdatetime⟩ := sprintf_timeText time
  rw [merge, strTime, harray, ← hdatetime]
  cases levelString[toSize level]? with
  | none => rfl
  | some name => rfl

/-- `write` appends that line to a file that can be opened, as far as the file takes it. -/
theorem LogWriter.write_eq {now : TimePoint} (time : LocalTime now.toTimeT) (text : Str)
    (room : ℕ) (level lineNo : ℤ) (fileName function info : Str) :
    write true (some text) room now time level lineNo fileName function info =
      (levelString[toSize level]?).map fun level => some (text ++
        (content (timeText now time.tm) level lineNo fileName function info).take room) := by
  rw [write, if_neg (by decide), merge_eq, Option.map_map]
  rfl

/-- The other `write` appends a line for every text of a level. -/
theorem Log.write_eq {now : TimePoint} (time : LocalTime now.toTimeT) (file : Option Str)
    (room : ℕ) (level : Str) (lineNo : ℤ) (fileName function info : Str) :
    write true file room now time level lineNo fileName function info =
      some (file.map (· ++
        (content (timeText now time.tm) level lineNo fileName function info).take room)) := by
  obtain ⟨array, harray, hdatetime⟩ := sprintf_timeText time
  rw [write, if_neg (by decide), strTime, harray, ← hdatetime]
  rfl

/-! ## Main result -/

/-- The text leaves room for its zero, and the milliseconds in it are what the seconds
lack. -/
structure Fits (now : TimePoint) (text : Str) : Prop where
  length_le : text.length ≤ 24
  milliseconds : now.seconds * 1000 + readInt (text.drop 20) = now.milliseconds

/-- **The time of a message always fits**, whatever the zone. -/
theorem timestamp_fits (now : TimePoint) (time : LocalTime now.toTimeT) :
    Fits now (LogWriter.strTime now time) ∧ Fits now (Log.strTime now time) := by
  have hfits : Fits now (timeText now time.tm) := by
    constructor
    · rw [length_timeText]
      split_ifs <;> decide
    · rw [drop_timeText, Printf.readInt_zeroPadded]
      omega
  exact ⟨hfits, hfits⟩

/-- The first time point there is. -/
def firstTimePoint : TimePoint := ⟨-2 ^ 63, by decide⟩

/-- `timestamp_fits` at that time, five hours west of Greenwich. -/
theorem timestamp_fits_first :
    let time := localtime firstTimePoint.toTimeT (-18000) (by decide)
    LogWriter.strTime firstTimePoint time = str "1677-09-20 19:12:44 -854" ∧
      Fits firstTimePoint (LogWriter.strTime firstTimePoint time) :=
  ⟨by decide, (timestamp_fits firstTimePoint _).1⟩

end Logger
