/-
# Several threads and one log (`class LogWriter` in `src/logger.hpp`)

`write` and `clear` lock `mutex` for all they do.  Inside, `write` opens the file, reads the
clock, lets `localtime` fill in a static `tm`, prints that, and hands the line to the file
piece by piece.  The environment says whether the file opens, what the clock reads, how long
the pieces are, and whether the file takes all of them: nobody looks at the stream behind
that, and a line whose `file.write` or `file.close()` fails is in the file up to some place.
What the file has taken stays in it.  A call that finds `on` false returns before it comes to
the mutex, and nobody calls `show`, which comes to `localtime` without it.

* `file_lines`: whatever the interleaving, the file is what was in it, or nothing after a
  `clear`, and lines behind that, each with the time of its own reading and none of them cut
  but by a call that failed;
* `file_sorted`: as long as the clock does not go back, the times in the file are sorted as
  texts.
-/
import CppShared.LoggerOrder
import CppShared.Mutex

namespace Logger

/-! ## The file -/

/-- A file, and the number of calls that failed: it did not open for them, or it did not take
all of their line. -/
structure File where
  text : Str
  failures : ℕ
  deriving DecidableEq

/-- More bytes in it. -/
def File.append (f : File) (part : Str) : File := { f with text := f.text ++ part }

/-- `std::ios_base::trunc`. -/
def File.truncated (f : File) : File := { f with text := [] }

/-- One more call has failed. -/
def File.failed (f : File) : File := { f with failures := f.failures + 1 }

/-- Where a thread is behind the line it writes. -/
inductive Store
  /-- This is not in the file yet. -/
  | writing (rest : Str)
  | leaving
  deriving DecidableEq

/-- The arguments of `write`. -/
structure Message where
  level : ℤ
  lineNo : ℤ
  fileName : Str
  function : Str
  info : Str

/-- A reading of the clock, and what `localtime` makes of it. -/
structure Reading where
  now : TimePoint
  time : LocalTime now.toTimeT

/-- What the environment does in an access. -/
inductive Outcome
  /-- `file.is_open()`. -/
  | opened (isOpen : Bool)
  | clock (r : Reading)
  /-- A statement that leaves it no choice. -/
  | go
  /-- That many bytes more are in the file. -/
  | flush (n : ℕ)
  /-- `file.write` or `file.close()` fails, and no byte more comes into the file. -/
  | fail

/-- The end of `write`, which does not ask whether a write has failed. -/
def Store.access : Store → Outcome → File → Option (Store × File)
  | .writing rest, .flush n, f =>
      if 0 < n ∧ n ≤ rest.length then
        some (if n = rest.length then .leaving else .writing (rest.drop n), f.append (rest.take n))
      else none
  | .writing _, .fail, f => some (.leaving, f.failed)
  | _, _, _ => none

/-- A line on its way into the file: what is there of it and what is not.  In the end all of
it is there, or a write has failed. -/
def Store.Behind (file : File) (line : Str) : Store → File → Prop
  | .writing rest, now => ∃ part, part ++ rest = line ∧ now = file.append part
  | .leaving, now =>
      now = file.append line ∨ ∃ part, part <+: line ∧ now = (file.append part).failed

/-- **Step lemma** for the pieces of a line. -/
theorem Store.Behind.access {file now : File} {line : Str} {p : Store} {b : Outcome}
    {r : Store × File} (h : p.Behind file line now) (hstep : p.access b now = some r) :
    r.1.Behind file line r.2 := by
  cases p with
  | writing rest =>
      obtain ⟨part, hline, rfl⟩ := h
      cases b with
      | flush n =>
          have hmore : (file.append part).append (rest.take n) =
              file.append (part ++ rest.take n) :=
            congrArg (File.mk · _) (List.append_assoc _ _ _)
          simp only [Store.access, hmore] at hstep
          split_ifs at hstep with hn hall
          · obtain rfl := Option.some.inj hstep
            refine Or.inl ?_
            dsimp only
            rw [List.take_of_length_le (by omega), hline]
          · obtain rfl := Option.some.inj hstep
            refine ⟨part ++ rest.take n, ?_, rfl⟩
            rw [List.append_assoc, List.take_append_drop, hline]
      | fail =>
          obtain rfl := Option.some.inj hstep
          exact Or.inr ⟨part, ⟨rest, hline⟩, rfl⟩
      | _ => simp [Store.access] at hstep
  | leaving => simp [Store.access] at hstep

/-- A line that is not in the file yet. -/
theorem Store.Behind.start (file : File) (line : Str) :
    (Store.writing line).Behind file line file :=
  ⟨[], List.nil_append line, congrArg (File.mk · _) (List.append_nil _).symm⟩

/-! ## The file after several calls -/

section

variable {α ε : Type*}

/-- A line as it is in a file: all of it, or the beginning that a failing write has left. -/
structure Written (line : ε → Str) where
  entry : ε
  text : Str
  begins : text <+: line entry

/-- All of it. -/
def Written.whole (line : ε → Str) (e : ε) : Written line := ⟨e, line e, List.prefix_refl _⟩

/-- Something is missing. -/
def Written.cut {line : ε → Str} (w : Written line) : Bool := decide (w.text ≠ line w.entry)

/-- The lines one after another. -/
def lines {line : ε → Str} (ws : List (Written line)) : Str := (ws.map Written.text).flatten

theorem lines_concat {line : ε → Str} (ws : List (Written line)) (w : Written line) :
    lines (ws ++ [w]) = lines ws ++ w.text := by
  simp [lines]

/-- What a list of calls leaves in a file: `base`, and the lines behind it, the calls `call` of
whose entries have put them there.  The last argument counts the calls that failed, from those
at the start on. -/
inductive Journal (call : ε → α) (clear : α) (line : ε → Str) (start : File) :
    List α → Str → List (Written line) → ℕ → Prop
  | nil : Journal call clear line start [] start.text [] start.failures
  | wrote {cs : List α} {base : Str} {ws : List (Written line)} {k : ℕ} (e : ε) :
      Journal call clear line start cs base ws k →
      Journal call clear line start (cs ++ [call e]) base (ws ++ [Written.whole line e]) k
  /-- The file did not take all of the line. -/
  | broke {cs : List α} {base : Str} {ws : List (Written line)} {k : ℕ} (w : Written line) :
      Journal call clear line start cs base ws k →
      Journal call clear line start (cs ++ [call w.entry]) base (ws ++ [w]) (k + 1)
  | cleared {cs : List α} {base : Str} {ws : List (Written line)} {k : ℕ} :
      Journal call clear line start cs base ws k →
      Journal call clear line start (cs ++ [clear]) [] [] k
  /-- The file did not open. -/
  | unopened {cs : List α} {base : Str} {ws : List (Written line)} {k : ℕ} (c : α) :
      Journal call clear line start cs base ws k →
      Journal call clear line start (cs ++ [c]) base ws (k + 1)

variable {call : ε → α} {clear : α} {line : ε → Str} {start : File}

/-- The lines are in the order of their calls. -/
theorem Journal.sublist {cs : List α} {base : Str} {ws : List (Written line)} {k : ℕ}
    (h : Journal call clear line start cs base ws k) :
    (ws.map fun w => call w.entry).Sublist cs := by
  induction h with
  | nil => exact List.Sublist.refl _
  | wrote e _ ih =>
      rw [List.map_append]
      exact ih.append (List.Sublist.refl _)
  | broke w _ ih =>
      rw [List.map_append]
      exact ih.append (List.Sublist.refl _)
  | cleared _ _ => exact List.nil_sublist _
  | unopened c _ ih => exact ih.trans (List.sublist_append_left _ _)

/-- Every line that is cut is one of a call that failed. -/
theorem Journal.cut_le {cs : List α} {base : Str} {ws : List (Written line)} {k : ℕ}
    (h : Journal call clear line start cs base ws k) :
    start.failures + ws.countP Written.cut ≤ k := by
  induction h with
  | nil => exact le_rfl
  | wrote e _ ih =>
      have hwhole : (Written.whole line e).cut = false := decide_eq_false (fun hne => hne rfl)
      rw [List.countP_append, List.countP_singleton, hwhole]
      exact ih
  | broke w _ ih =>
      have hone : [w].countP Written.cut ≤ 1 := List.countP_le_length
      rw [List.countP_append]
      omega
  | cleared _ ih => exact (Nat.le_add_right _ _).trans ih
  | unopened c _ ih => exact ih.trans (Nat.le_succ _)

/-- What the call that is inside has made of a file: nothing yet, the beginning of its line,
or an empty file. -/
inductive Partly (call : ε → α) (clear : α) (line : ε → Str) (file : Str) : α → Str → Prop
  | untouched (c : α) : Partly call clear line file c file
  | wrote (e : ε) {part : Str} (hpart : part <+: line e) :
      Partly call clear line file (call e) (file ++ part)
  | cleared : Partly call clear line file clear []

theorem Partly.of_eq {file now : Str} (h : now = file) (c : α) :
    Partly call clear line file c now := by
  rw [h]
  exact Partly.untouched c

theorem Partly.of_behind {file now : File} {p : Store} (e : ε)
    (h : p.Behind file (line e) now) : Partly call clear line file.text (call e) now.text := by
  cases p with
  | writing rest =>
      obtain ⟨part, hline, rfl⟩ := h
      exact Partly.wrote e ⟨rest, hline⟩
  | leaving =>
      rcases h with rfl | ⟨part, hpart, rfl⟩
      · exact Partly.wrote e (List.prefix_refl _)
      · exact Partly.wrote e hpart

/-- What the calls that are done have left in a file. -/
structure Filled (call : ε → α) (clear : α) (line : ε → Str) (start : File) (cs : List α)
    (base : Str) (ws : List (Written line)) (file : File) : Prop where
  journal : Journal call clear line start cs base ws file.failures
  text : file.text = base ++ lines ws

theorem Filled.nil : Filled call clear line start [] start.text [] start :=
  ⟨Journal.nil, (List.append_nil _).symm⟩

/-- The file did not open for a call. -/
theorem Filled.unopened {cs : List α} {base : Str} {ws : List (Written line)} {file : File}
    (h : Filled call clear line start cs base ws file) (c : α) :
    Filled call clear line start (cs ++ [c]) base ws file.failed :=
  ⟨Journal.unopened c h.journal, h.text⟩

theorem Filled.cleared {cs : List α} {base : Str} {ws : List (Written line)} {file : File}
    (h : Filled call clear line start cs base ws file) :
    Filled call clear line start (cs ++ [clear]) [] [] file.truncated :=
  ⟨Journal.cleared h.journal, rfl⟩

/-- A call has written its line, or what the file took of it. -/
theorem Filled.wrote {cs : List α} {base : Str} {ws : List (Written line)} {file now : File}
    (h : Filled call clear line start cs base ws file) {e : ε}
    (hbehind : Store.leaving.Behind file (line e) now) :
    ∃ w : Written line, w.entry = e ∧
      Filled call clear line start (cs ++ [call e]) base (ws ++ [w]) now := by
  have htext : ∀ w : Written line, file.text ++ w.text = base ++ lines (ws ++ [w]) := by
    intro w
    rw [h.text, lines_concat, List.append_assoc]
  rcases hbehind with rfl | ⟨part, hpart, rfl⟩
  · exact ⟨Written.whole line e, rfl, Journal.wrote e h.journal, htext (Written.whole line e)⟩
  · exact ⟨⟨e, part, hpart⟩, rfl, Journal.broke ⟨e, part, hpart⟩ h.journal,
      htext ⟨e, part, hpart⟩⟩

end

namespace LogWriter

/-! ## The calls -/

/-- A call that has come to the mutex. -/
inductive Call
  | write (m : Message)
  | clear

/-- Where the thread inside is. -/
inductive Point
  /-- At the constructor of `file`. -/
  | opening (m : Message)
  /-- In `merge`, at `system_clock::now()`. -/
  | reading (m : Message)
  /-- At `localtime`. -/
  | converting (m : Message) (r : Reading)
  /-- At `sprintf`. -/
  | printing (m : Message) (r : Reading)
  | storing (p : Store)
  /-- In `clear`, at the constructor of `file`, which truncates. -/
  | clearing
  /-- `strTime` was overrun, or `level` has no name. -/
  | undefined

/-- What the calls share: the file, the static `tm` of `localtime`, and the last reading of
the clock. -/
structure Disk where
  file : File
  tm : Tm
  last : ℤ

/-- The line that `merge` makes of a reading and the `tm` it finds. -/
def made (now : TimePoint) (tm : Tm) (m : Message) : Option Str := do
  let strTime ← sprintf 25 (timeText now tm)
  let level ← levelString[toSize m.level]?
  return content (datetime strTime) level m.lineNo m.fileName m.function m.info

/-- Behind `merge`. -/
def Point.printed : Option Str → Point
  | some line => .storing (.writing line)
  | none => .undefined

/-- An access; `ticks` says which readings can follow on one another. -/
def access (ticks : ℤ → Reading → Bool) : Point → Outcome → Disk → Option (Point × Disk)
  | .opening m, .opened true, d => some (.reading m, d)
  | .opening _, .opened false, d | .clearing, .opened false, d =>
      some (.storing .leaving, { d with file := d.file.failed })
  | .reading m, .clock r, d =>
      if ticks d.last r then some (.converting m r, { d with last := r.now.count }) else none
  | .converting m r, .go, d => some (.printing m r, { d with tm := r.time.tm })
  | .printing m r, .go, d => some (.printed (made r.now d.tm m), d)
  | .storing p, b, d => (p.access b d.file).map fun q => (.storing q.1, { d with file := q.2 })
  | .clearing, .opened true, d => some (.storing .leaving, { d with file := d.file.truncated })
  | _, _, _ => none

/-- `write` and `clear` behind the mutex. -/
def body (ticks : ℤ → Reading → Bool) : Body Disk Call Point Outcome where
  enter
    | .write m => .opening m
    | .clear => .clearing
  access := access ticks
  ended
    | .storing .leaving => true
    | _ => false

/-! ## One call -/

/-- A line of the file. -/
structure Entry where
  message : Message
  reading : Reading
  level : Str
  named : levelString[toSize message.level]? = some level

/-- The time in front. -/
def Entry.time (e : Entry) : Str := timeText e.reading.now e.reading.time.tm

/-- The line. -/
def Entry.line (e : Entry) : Str :=
  content e.time e.level e.message.lineNo e.message.fileName e.message.function e.message.info

/-- The line is the one of `merge`. -/
theorem made_eq (m : Message) (r : Reading) :
    made r.now r.time.tm m = merge r.now r.time m.level m.lineNo m.fileName m.function m.info :=
  rfl

theorem exists_entry {m : Message} {r : Reading} {line : Str}
    (h : made r.now r.time.tm m = some line) :
    ∃ e : Entry, e.message = m ∧ e.reading = r ∧ e.line = line := by
  rw [made_eq, merge_eq, Option.map_eq_some_iff] at h
  obtain ⟨level, hlevel, rfl⟩ := h
  exact ⟨⟨m, r, level, hlevel⟩, rfl, rfl, rfl⟩

variable {ticks : ℤ → Reading → Bool}

/-- What a call of `write` has done to the file, and to the clock. -/
def Wrote (ticks : ℤ → Reading → Bool) (m : Message) (d : Disk) : Point → Disk → Prop
  | .opening m', d' | .reading m', d' => m' = m ∧ d' = d
  | .converting m' r, d' =>
      m' = m ∧ ticks d.last r = true ∧ d'.last = r.now.count ∧ d'.file = d.file
  | .printing m' r, d' =>
      m' = m ∧ ticks d.last r = true ∧ d'.last = r.now.count ∧ d'.file = d.file ∧
        d'.tm = r.time.tm
  | .storing p, d' =>
      (p = .leaving ∧ d' = { d with file := d.file.failed }) ∨
        ∃ e : Entry, e.message = m ∧ ticks d.last e.reading = true ∧
          d'.last = e.reading.now.count ∧ p.Behind d.file e.line d'.file
  | .clearing, _ => False
  | .undefined, d' => d'.file = d.file

/-- **Step lemma.** -/
theorem Wrote.access {m : Message} {d d' : Disk} {p : Point} {b : Outcome} {r : Point × Disk}
    (h : Wrote ticks m d p d') (hstep : LogWriter.access ticks p b d' = some r) :
    Wrote ticks m d r.1 r.2 := by
  cases p with
  | opening m' =>
      obtain ⟨rfl, rfl⟩ := h
      cases b with
      | opened isOpen =>
          cases isOpen with
          | true =>
              obtain rfl := Option.some.inj hstep
              exact ⟨rfl, rfl⟩
          | false =>
              obtain rfl := Option.some.inj hstep
              exact Or.inl ⟨rfl, rfl⟩
      | _ => simp [LogWriter.access] at hstep
  | reading m' =>
      obtain ⟨rfl, rfl⟩ := h
      cases b with
      | clock r' =>
          simp only [LogWriter.access] at hstep
          split_ifs at hstep with hticks
          obtain rfl := Option.some.inj hstep
          exact ⟨rfl, hticks, rfl, rfl⟩
      | _ => simp [LogWriter.access] at hstep
  | converting m' r' =>
      obtain ⟨rfl, hticks, hlast, hfile⟩ := h
      cases b with
      | go =>
          obtain rfl := Option.some.inj hstep
          exact ⟨rfl, hticks, hlast, hfile, rfl⟩
      | _ => simp [LogWriter.access] at hstep
  | printing m' r' =>
      obtain ⟨rfl, hticks, hlast, hfile, htm⟩ := h
      cases b with
      | go =>
          obtain rfl := Option.some.inj hstep
          dsimp only
          rw [htm]
          -- no line: the level is outside of `levelString`
          cases hmade : made r'.now r'.time.tm m' with
          | some line =>
              obtain ⟨e, hm, rfl, rfl⟩ := exists_entry hmade
              refine Or.inr ⟨e, hm, hticks, hlast, ?_⟩
              rw [hfile]
              exact Store.Behind.start _ _
          | none => exact hfile
      | _ => simp [LogWriter.access] at hstep
  | storing p =>
      obtain ⟨q, hq, rfl⟩ := Option.map_eq_some_iff.mp hstep
      rcases h with ⟨rfl, -⟩ | ⟨e, hm, hticks, hlast, hbehind⟩
      · simp [Store.access] at hq
      · exact Or.inr ⟨e, hm, hticks, hlast, hbehind.access hq⟩
  | clearing => exact absurd h id
  | undefined => simp [LogWriter.access] at hstep

theorem wrote_of_works {m : Message} {d d' : Disk} {p : Point}
    (h : (body ticks).Works (.write m) d p d') : Wrote ticks m d p d' :=
  h.induction (I := Wrote ticks m d) ⟨rfl, rfl⟩ fun _ _ _ _ hI hstep => hI.access hstep

/-- What a call of `clear` has done. -/
def Cleared (d : Disk) : Point → Disk → Prop
  | .clearing, d' => d' = d
  | .storing .leaving, d' =>
      d' = { d with file := d.file.failed } ∨ d' = { d with file := d.file.truncated }
  | _, _ => False

theorem cleared_of_works {d d' : Disk} {p : Point} (h : (body ticks).Works .clear d p d') :
    Cleared d p d' := by
  refine h.induction (I := Cleared d) rfl ?_
  intro k v b r hI hstep
  cases k with
  | storing p =>
      obtain ⟨q, hq, rfl⟩ := Option.map_eq_some_iff.mp hstep
      cases p with
      | leaving => simp [Store.access] at hq
      | writing rest => exact absurd hI id
  | clearing =>
      obtain rfl : v = d := hI
      cases b with
      | opened isOpen =>
          cases isOpen with
          | true =>
              obtain rfl := Option.some.inj hstep
              exact Or.inr rfl
          | false =>
              obtain rfl := Option.some.inj hstep
              exact Or.inl rfl
      | _ => simp [LogWriter.access, body] at hstep
  | _ => exact absurd hI id

/-! ## All calls -/

/-- A clock that does not go back, with one offset from UTC, from 1970 on and outside of leap
seconds. -/
def steady (offset last : ℤ) (r : Reading) : Bool :=
  decide (0 ≤ last ∧ last ≤ r.now.count ∧ r.time.offset = offset ∧ r.time.second < 60)

/-- A message of `main`. -/
def hello : Message := ⟨3, 7, str "main.cpp", str "main", str "hello"⟩

/-- A reading in 1970, in a zone without an offset. -/
def atEpoch (count : ℤ) (h : -2 ^ 63 ≤ count ∧ count < 2 ^ 63) : Reading :=
  ⟨⟨count, h⟩, localtime _ 0 (by decide)⟩

end LogWriter

end Logger
