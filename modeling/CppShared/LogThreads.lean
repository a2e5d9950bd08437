/-
# Several threads and one log (`class Log` in `src/log.hpp`)

This `write` makes its line first and locks `mutex` for the file only: between its reading of
the clock and its place in the file other threads run.  All of them share the static `tm` of
`localtime`.  A call of it stores in there what it likes on its way, and its own result with
the last store; the C library lets one call in after another.  Then the thread loads the
members one by one, in an order that is the compiler's, and prints what it has found.

* `own_lines`: as long as no store changes a member that a thread behind its `localtime` has
  not loaded yet, the lines in the file are in the order in which the calls had the mutex,
  each with the time of its own reading, and none of them is cut but by a call that failed;
* `disorder_lt`: these times need not be sorted, but with a steady clock and `n` threads a line
  has fewer than `n` earlier ones behind it.
-/
import CppShared.LoggerThreads

namespace Logger

namespace Log

/-! ## Behind the mutex -/

/-- The arguments of `write`. -/
structure Note where
  level : Str
  lineNo : ℤ
  fileName : Str
  function : Str
  info : Str

/-- A call with its line: `datetime` is what `sprintf` printed, and `reading` what the clock
said. -/
structure Entry where
  note : Note
  reading : Reading
  datetime : Str

/-- `content`. -/
def Entry.line (e : Entry) : Str :=
  content e.datetime e.note.level e.note.lineNo e.note.fileName e.note.function e.note.info

/-- The time is that of the reading. -/
def Entry.Own (e : Entry) : Prop := e.datetime = timeText e.reading.now e.reading.time.tm

/-- A call at the mutex. -/
inductive Call
  | write (e : Entry)
  | clear

/-- Where the thread inside is. -/
inductive Point
  /-- At the constructor of `file`. -/
  | opening (e : Entry)
  | storing (p : Store)
  /-- In `clear`, at the constructor of `file`, which truncates. -/
  | clearing

/-- An access. -/
def access : Point → Outcome → File → Option (Point × File)
  | .opening e, .opened true, f => some (.storing (.writing e.line), f)
  | .clearing, .opened true, f => some (.storing .leaving, f.truncated)
  | .opening _, .opened false, f | .clearing, .opened false, f =>
      some (.storing .leaving, f.failed)
  | .storing p, b, f => (p.access b f).map fun q => (.storing q.1, q.2)
  | _, _, _ => none

/-- `write` and `clear` behind the mutex. -/
def body : Body File Call Point Outcome where
  enter
    | .write e => .opening e
    | .clear => .clearing
  access := access
  ended
    | .storing .leaving => true
    | _ => false

/-! ## The threads -/

/-- A member of `std::tm` that is printed. -/
inductive Member
  | tmYear
  | tmMon
  | tmMday
  | tmHour
  | tmMin
  | tmSec
  deriving DecidableEq

/-- All of them. -/
def members : List Member := [.tmYear, .tmMon, .tmMday, .tmHour, .tmMin, .tmSec]

theorem mem_members (m : Member) : m ∈ members := by cases m <;> decide

/-- A load. -/
def load (tm : Tm) : Member → ℤ
  | .tmYear => tm.tmYear
  | .tmMon => tm.tmMon
  | .tmMday => tm.tmMday
  | .tmHour => tm.tmHour
  | .tmMin => tm.tmMin
  | .tmSec => tm.tmSec

/-- The arguments of `sprintf`, once all of them are loaded. -/
def arguments (loaded : Member → Option ℤ) : Option Tm := do
  return {
    tmYear := ← loaded .tmYear
    tmMon := ← loaded .tmMon
    tmMday := ← loaded .tmMday
    tmHour := ← loaded .tmHour
    tmMin := ← loaded .tmMin
    tmSec := ← loaded .tmSec }

/-- Where a thread is in front of the mutex. -/
inductive Pen
  | idle
  /-- At `system_clock::now()`. -/
  | reading (x : Note)
  /-- In `localtime`. -/
  | converting (x : Note) (r : Reading)
  /-- At `sprintf`, with the arguments that are loaded. -/
  | printing (x : Note) (r : Reading) (loaded : Member → Option ℤ)
  /-- `strTime` was overrun. -/
  | undefined

/-- The static `tm`, the last reading, the threads in front of the mutex, and the mutex. -/
structure Sys where
  tm : Tm
  last : ℤ
  pens : List Pen
  mutex : Mutex.Sys File Call Point

/-- What happens next. -/
inductive Label
  /-- A thread calls `write`. -/
  | write (c : ℕ) (x : Note)
  | clock (c : ℕ) (r : Reading)
  /-- A store in `localtime` that is not the last one. -/
  | store (c : ℕ) (tm : Tm)
  /-- The last one. -/
  | localtime (c : ℕ)
  | load (c : ℕ) (m : Member)
  | sprintf (c : ℕ)
  /-- A step of `clear`, or one behind the mutex. -/
  | guarded (l : Mutex.Label Call Outcome)

/-- A thread comes to the mutex from `sprintf` or with a call of `clear`. -/
def Sys.admits (s : Sys) : Mutex.Label Call Outcome → Bool
  | .call _ (.write _) => false
  | .call c .clear =>
      match s.pens[c]? with
      | some .idle => true
      | _ => false
  | _ => true

/-- The step function; `ticks` says which readings can follow on one another. -/
def step (ticks : ℤ → Reading → Bool) (s : Sys) : Label → Option Sys
  | .write c x =>
      match s.pens[c]?, s.mutex.callers[c]? with
      | some .idle, some .outside => some { s with pens := s.pens.set c (.reading x) }
      | _, _ => none
  | .clock c r =>
      match s.pens[c]? with
      | some (.reading x) =>
          if ticks s.last r then
            some { s with pens := s.pens.set c (.converting x r), last := r.now.count }
          else none
      | _ => none
  | .store c tm =>
      match s.pens[c]? with
      | some (.converting _ _) => some { s with tm := tm }
      | _ => none
  | .localtime c =>
      match s.pens[c]? with
      | some (.converting x r) =>
          some { s with pens := s.pens.set c (.printing x r fun _ => none), tm := r.time.tm }
      | _ => none
  | .load c m =>
      match s.pens[c]? with
      | some (.printing x r loaded) =>
          if loaded m = none then
            some { s with
              pens := s.pens.set c
                (.printing x r (Function.update loaded m (some (load s.tm m)))) }
          else none
      | _ => none
  | .sprintf c =>
      match s.pens[c]? with
      | some (.printing x r loaded) =>
          match arguments loaded with
          | some tm =>
              match Logger.sprintf 25 (timeText r.now tm) with
              | some strTime =>
                  (Mutex.step body s.mutex (.call c (.write ⟨x, r, datetime strTime⟩))).map
                    fun m => { s with pens := s.pens.set c .idle, mutex := m }
              | none => some { s with pens := s.pens.set c .undefined }
          | none => none
      | _ => none
  | .guarded l =>
      if s.admits l then (Mutex.step body s.mutex l).map fun m => { s with mutex := m } else none

/-- `n` threads outside. -/
def fresh (tm : Tm) (last : ℤ) (f : File) (n : ℕ) : Sys :=
  ⟨tm, last, List.replicate n .idle, Mutex.fresh f n⟩

/-- The threads and the log. -/
def system (ticks : ℤ → Reading → Bool) (tm : Tm) (last : ℤ) (f : File) (n : ℕ) :
    LTS Sys Label where
  init s := s = fresh tm last f n
  step := step ticks

/-! ## What a step does -/

variable {ticks : ℤ → Reading → Bool}

/-- The effect of a step, case by case. -/
inductive Move (ticks : ℤ → Reading → Bool) (s : Sys) : Label → Sys → Prop
  | write (c x) (hpen : s.pens[c]? = some .idle) (hout : s.mutex.callers[c]? = some .outside) :
      Move ticks s (.write c x) { s with pens := s.pens.set c (.reading x) }
  | clock (c x r) (hpen : s.pens[c]? = some (.reading x)) (hticks : ticks s.last r = true) :
      Move ticks s (.clock c r)
        { s with pens := s.pens.set c (.converting x r), last := r.now.count }
  | store (c x r tm) (hpen : s.pens[c]? = some (.converting x r)) :
      Move ticks s (.store c tm) { s with tm := tm }
  | localtime (c x r) (hpen : s.pens[c]? = some (.converting x r)) :
      Move ticks s (.localtime c)
        { s with pens := s.pens.set c (.printing x r fun _ => none), tm := r.time.tm }
  | load (c x r loaded m) (hpen : s.pens[c]? = some (.printing x r loaded))
      (hnew : loaded m = none) :
      Move ticks s (.load c m) { s with
        pens := s.pens.set c (.printing x r (Function.update loaded m (some (load s.tm m)))) }
  | sprintf (c x r loaded tm strTime m) (hpen : s.pens[c]? = some (.printing x r loaded))
      (htm : arguments loaded = some tm)
      (htext : Logger.sprintf 25 (timeText r.now tm) = some strTime)
      (hm : Mutex.step body s.mutex (.call c (.write ⟨x, r, datetime strTime⟩)) = some m) :
      Move ticks s (.sprintf c) { s with pens := s.pens.set c .idle, mutex := m }
  | overrun (c x r loaded tm) (hpen : s.pens[c]? = some (.printing x r loaded))
      (htm : arguments loaded = some tm)
      (htext : Logger.sprintf 25 (timeText r.now tm) = none) :
      Move ticks s (.sprintf c) { s with pens := s.pens.set c .undefined }
  | guarded (l m) (hadmits : s.admits l = true) (hm : Mutex.step body s.mutex l = some m) :
      Move ticks s (.guarded l) { s with mutex := m }

/-- **Step inversion.** -/
theorem move_of_step {s t : Sys} {l : Label} (h : step ticks s l = some t) :
    Move ticks s l t := by
  cases l with
  | write c x =>
      simp only [step] at h
      split at h
      · next hpen hout =>
          obtain rfl := Option.some.inj h
          exact Move.write c x hpen hout
      · exact absurd h (by simp)
  | clock c r =>
      simp only [step] at h
      split at h
      · next x hpen =>
          split_ifs at h with hticks
          obtain rfl := Option.some.inj h
          exact Move.clock c x r hpen hticks
      · exact absurd h (by simp)
  | store c tm =>
      simp only [step] at h
      split at h
      · next x r hpen =>
          obtain rfl := Option.some.inj h
          exact Move.store c x r tm hpen
      · exact absurd h (by simp)
  | localtime c =>
      simp only [step] at h
      split at h
      · next x r hpen =>
          obtain rfl := Option.some.inj h
          exact Move.localtime c x r hpen
      · exact absurd h (by simp)
  | load c m =>
      simp only [step] at h
      split at h
      · next x r loaded hpen =>
          split_ifs at h with hnew
          obtain rfl := Option.some.inj h
          exact Move.load c x r loaded m hpen hnew
      · exact absurd h (by simp)
  | sprintf c =>
      simp only [step] at h
      split at h
      · next x r loaded hpen =>
          split at h
          · next tm htm =>
              split at h
              · next strTime htext =>
                  obtain ⟨m, hm, rfl⟩ := Option.map_eq_some_iff.mp h
                  exact Move.sprintf c x r loaded tm strTime m hpen htm htext hm
              · next htext =>
                  obtain rfl := Option.some.inj h
                  exact Move.overrun c x r loaded tm hpen htm htext
          · exact absurd h (by simp)
      · exact absurd h (by simp)
  | guarded l =>
      simp only [step] at h
      split_ifs at h with hadmits
      obtain ⟨m, hm, rfl⟩ := Option.map_eq_some_iff.mp h
      exact Move.guarded l m hadmits hm

/-- Seen from the mutex, the threads are threads around it. -/
theorem refines_mutex (ticks : ℤ → Reading → Bool) {ok : Sys → Label → Prop} (tm : Tm)
    (last : ℤ) (f : File) (n : ℕ) :
    LTS.Refines (system ticks tm last f n) ok (Mutex.system body f n) Sys.mutex where
  init := by
    rintro _ rfl
    rfl
  step s l t _ _ hstep := by
    cases move_of_step (show step ticks s l = some t from hstep) with
    | sprintf c x r loaded tm strTime m hpen htm htext hm =>
        exact ⟨[.call c (.write ⟨x, r, datetime strTime⟩)], LTS.Path.single trivial hm⟩
    | guarded l m hadmits hm => exact ⟨[l], LTS.Path.single trivial hm⟩
    | _ => exact ⟨[], LTS.Path.nil _⟩

/-! ## One call -/

/-- What a call of `write` has done behind the mutex. -/
def Wrote (e : Entry) (f : File) : Point → File → Prop
  | .opening e', f' => e' = e ∧ f' = f
  | .storing p, f' => (p = .leaving ∧ f' = f.failed) ∨ p.Behind f e.line f'
  | .clearing, _ => False

/-- What a call of `clear` has done. -/
def Cleared (f : File) : Point → File → Prop
  | .clearing, f' => f' = f
  | .storing p, f' => p = .leaving ∧ (f' = f.failed ∨ f' = f.truncated)
  | .opening _, _ => False

theorem wrote_of_works {e : Entry} {f f' : File} {p : Point}
    (h : body.Works (.write e) f p f') : Wrote e f p f' := by
  refine h.induction (I := Wrote e f) ⟨rfl, rfl⟩ ?_
  intro p v b r hI hstep
  cases p with
  | opening e' =>
      obtain ⟨rfl, rfl⟩ := hI
      cases b with
      | opened isOpen =>
          cases isOpen with
          | true =>
              obtain rfl := Option.some.inj hstep
              exact Or.inr (Store.Behind.start _ _)
          | false =>
              obtain rfl := Option.some.inj hstep
              exact Or.inl ⟨rfl, rfl⟩
      | _ => simp [body, access] at hstep
  | storing p =>
      obtain ⟨q, hq, rfl⟩ := Option.map_eq_some_iff.mp hstep
      rcases hI with ⟨rfl, -⟩ | hbehind
      · simp [Store.access] at hq
      · exact Or.inr (hbehind.access hq)
  | clearing => exact absurd hI id

theorem cleared_of_works {f f' : File} {p : Point} (h : body.Works .clear f p f') :
    Cleared f p f' := by
  refine h.induction (I := Cleared f) rfl ?_
  intro p v b r hI hstep
  cases p with
  | opening e => exact absurd hI id
  | storing p =>
      obtain ⟨q, hq, rfl⟩ := Option.map_eq_some_iff.mp hstep
      obtain ⟨rfl, -⟩ := hI
      simp [Store.access] at hq
  | clearing =>
      obtain rfl : v = f := hI
      cases b with
      | opened isOpen =>
          cases isOpen with
          | true =>
              obtain rfl := Option.some.inj hstep
              exact ⟨rfl, Or.inr rfl⟩
          | false =>
              obtain rfl := Option.some.inj hstep
              exact ⟨rfl, Or.inl rfl⟩
      | _ => simp [body, access] at hstep

/-! ## All calls -/

/-- **Run lemma.** -/
theorem filled_of_series {start f : File} {cs : List Call} (h : body.Series start cs f) :
    ∃ base ws, Filled Call.write .clear Entry.line start cs base ws f := by
  refine h.induction (I := fun cs f =>
    ∃ base ws, Filled Call.write .clear Entry.line start cs base ws f) ?_ ?_
  · exact ⟨start.text, [], Filled.nil⟩
  · rintro cs call u w _ ⟨base, ws, hfilled⟩ ⟨k, hworks, hended⟩
    obtain rfl : k = .storing .leaving := by
      cases k with
      | storing p =>
          cases p with
          | leaving => rfl
          | _ => simp [body] at hended
      | _ => simp [body] at hended
    cases call with
    | write e =>
        rcases wrote_of_works hworks with ⟨-, rfl⟩ | hbehind
        · exact ⟨base, ws, hfilled.unopened _⟩
        · obtain ⟨line, rfl, hmore⟩ := hfilled.wrote hbehind
          exact ⟨base, ws ++ [line], hmore⟩
    | clear =>
        rcases (cleared_of_works hworks).2 with rfl | rfl
        · exact ⟨base, ws, hfilled.unopened _⟩
        · exact ⟨[], [], hfilled.cleared⟩

/-- The file of a thread that is inside. -/
theorem partly_of_works {call : Call} {f f' : File} {p : Point} (h : body.Works call f p f') :
    Partly Call.write .clear Entry.line f.text call f'.text := by
  cases call with
  | write e =>
      have hwrote := wrote_of_works h
      cases p with
      | opening e' => exact Partly.of_eq (congrArg File.text hwrote.2) _
      | storing q =>
          rcases hwrote with ⟨-, rfl⟩ | hbehind
          · exact Partly.untouched _
          · exact Partly.of_behind e hbehind
      | clearing => exact absurd hwrote id
  | clear =>
      have hcleared := cleared_of_works h
      cases p with
      | opening e => exact absurd hcleared id
      | storing q =>
          obtain ⟨-, rfl | rfl⟩ := hcleared
          · exact Partly.untouched _
          · exact Partly.cleared
      | clearing =>
          obtain rfl : f' = f := hcleared
          exact Partly.untouched _

/-- What the file of a state is. -/
structure Filed (start : File) (s : Sys) (base : Str) (ws : List (Written Entry.line))
    (failures : ℕ) : Prop where
  journal : Journal Call.write .clear Entry.line start s.mutex.done base ws failures
  cut_le : start.failures + ws.countP Written.cut ≤ failures
  free : s.mutex.holder = none → s.mutex.value = ⟨base ++ lines ws, failures⟩
  inside : ∀ (c : ℕ) call p, s.mutex.callers[c]? = some (.inside call p) →
    Partly Call.write .clear Entry.line (base ++ lines ws) call s.mutex.value.text

/-- Every reachable state has such a file. -/
theorem filed_of_reachable {ok : Sys → Label → Prop} {tm : Tm} {last : ℤ} {f : File} {n : ℕ}
    {s : Sys} (h : (system ticks tm last f n).Reachable ok s) :
    ∃ base ws failures, Filed f s base ws failures := by
  have hmutex := (refines_mutex ticks tm last f n).reachable h
  obtain ⟨u, hseries, hinside⟩ := Mutex.serial_law hmutex
  obtain ⟨base, ws, hfilled⟩ := filled_of_series hseries
  refine ⟨base, ws, u.failures, hfilled.journal, hfilled.journal.cut_le, fun hfree => ?_,
    fun c call p hc => ?_⟩
  · rw [Mutex.serialOf_free hfree] at hinside
    rw [show s.mutex.value = u from hinside, ← hfilled.text]
  · rw [Mutex.serialOf_inside (Mutex.held_of_reachable hmutex) hc] at hinside
    rw [← hfilled.text]
    exact partly_of_works hinside

/-! ## The time of a line -/

/-- A thread behind its `localtime` has not loaded this member yet. -/
def Pen.awaits (m : Member) : Pen → Bool
  | .printing _ _ loaded => (loaded m).isNone
  | _ => false

/-- A store of `tm` changes no member that is awaited. -/
def spares (s : Sys) (tm : Tm) : Bool :=
  decide (∀ m ∈ members, load tm m = load s.tm m ∨ ∀ p ∈ s.pens, p.awaits m = false)

/-- No store of `localtime` changes what a thread has asked for and not loaded yet. -/
def undisturbed (s : Sys) : Label → Bool
  | .store _ tm => spares s tm
  | .localtime c =>
      match s.pens[c]? with
      | some (.converting _ r) => spares s r.time.tm
      | _ => true
  | _ => true

/-- What a thread at `sprintf` has loaded, and what it finds in `tm` for the rest, is what it
has asked for. -/
def Pen.Finds (tm : Tm) : Pen → Prop
  | .printing _ r loaded => ∀ m, (loaded m).getD (load tm m) = load r.time.tm m
  | .undefined => False
  | _ => True

/-- Such a store is not noticed. -/
theorem Pen.Finds.spared {s : Sys} {tm : Tm} {p : Pen} (h : p.Finds s.tm)
    (hspares : spares s tm = true) (hp : p ∈ s.pens) : p.Finds tm := by
  cases p with
  | printing x r loaded =>
      intro m
      rcases of_decide_eq_true hspares m (mem_members m) with hsame | hnone
      · rw [hsame]
        exact h m
      · have hloaded : (loaded m).isNone = false := hnone _ hp
        obtain ⟨v, hv⟩ := Option.isSome_iff_exists.mp (Option.isNone_eq_false_iff.mp hloaded)
        have hv' := h m
        rw [hv] at hv' ⊢
        exact hv'
  | undefined => exact h
  | _ => trivial

/-- A load finds it. -/
theorem Pen.Finds.load {tm : Tm} {x : Note} {r : Reading} {loaded : Member → Option ℤ}
    (h : (Pen.printing x r loaded).Finds tm) {m : Member} (hnew : loaded m = none) :
    (Pen.printing x r (Function.update loaded m (some (Log.load tm m)))).Finds tm := by
  intro m'
  rcases eq_or_ne m' m with rfl | hne
  · have hm := h m'
    rw [hnew] at hm
    rw [Function.update_self]
    exact hm
  · rw [Function.update_of_ne hne]
    exact h m'

/-- The arguments in the end. -/
theorem Pen.Finds.arguments_eq {tm tm' : Tm} {x : Note} {r : Reading}
    {loaded : Member → Option ℤ} (h : (Pen.printing x r loaded).Finds tm)
    (hall : arguments loaded = some tm') : tm' = r.time.tm := by
  simp only [arguments, Option.bind_eq_bind, Option.bind_eq_some_iff, Option.pure_def,
    Option.some.injEq] at hall
  obtain ⟨year, hyear, mon, hmon, mday, hmday, hour, hhour, min, hmin, sec, hsec, rfl⟩ := hall
  have hvalue : ∀ {m : Member} {v : ℤ}, loaded m = some v → v = Log.load r.time.tm m := by
    intro m v hv
    have hm := h m
    rw [hv] at hm
    exact hm
  rw [hvalue hyear, hvalue hmon, hvalue hmday, hvalue hhour, hvalue hmin, hvalue hsec]
  rfl

/-- The line of a call has the time of its reading. -/
def Call.Own : Call → Prop
  | .write e => e.Own
  | .clear => True

/-- Every thread at `sprintf` finds its own `tm`, so that no array is overrun, and every line
has its own time. -/
structure Timed (s : Sys) : Prop where
  printing : ∀ p ∈ s.pens, p.Finds s.tm
  calls : Mutex.Calls Call.Own s.mutex

theorem Timed.set {s : Sys} (h : Timed s) (c : ℕ) {p : Pen} (hp : p.Finds s.tm) :
    ∀ q ∈ s.pens.set c p, q.Finds s.tm := by
  intro q hq
  rcases List.mem_or_eq_of_mem_set hq with hq | rfl
  · exact h.printing q hq
  · exact hp

/-- **Step lemma.** -/
theorem Timed.move {s t : Sys} {l : Label} (h : Timed s) (hok : undisturbed s l = true)
    (hm : Move ticks s l t) : Timed t := by
  cases hm with
  | write c x hpen hout => exact ⟨h.set c trivial, h.calls⟩
  | clock c x r hpen hticks => exact ⟨h.set c trivial, h.calls⟩
  | store c x r tm hpen =>
      -- there is one `tm` for all threads: this is where the run has to be undisturbed
      exact ⟨fun p hp => (h.printing p hp).spared hok hp, h.calls⟩
  | localtime c x r hpen =>
      refine ⟨fun q hq => ?_, h.calls⟩
      rcases List.mem_or_eq_of_mem_set hq with hq | rfl
      · rw [undisturbed, hpen] at hok
        exact (h.printing q hq).spared hok hq
      · intro m
        rfl
  | load c x r loaded m hpen hnew =>
      exact ⟨h.set c ((h.printing _ (List.mem_of_getElem? hpen)).load hnew), h.calls⟩
  | sprintf c x r loaded tm strTime m hpen htm htext hm =>
      refine ⟨h.set c trivial, h.calls.move (Mutex.move_of_step hm) ?_⟩
      rintro _ _ ⟨⟩
      obtain rfl := (h.printing _ (List.mem_of_getElem? hpen)).arguments_eq htm
      obtain ⟨array, harray, hdatetime⟩ := sprintf_timeText r.time
      rw [harray] at htext
      obtain rfl := Option.some.inj htext
      exact hdatetime
  | overrun c x r loaded tm hpen htm htext =>
      obtain rfl := (h.printing _ (List.mem_of_getElem? hpen)).arguments_eq htm
      obtain ⟨array, harray, -⟩ := sprintf_timeText r.time
      rw [harray] at htext
      exact absurd htext (by simp)
  | guarded l m hadmits hm =>
      refine ⟨h.printing, h.calls.move (Mutex.move_of_step hm) ?_⟩
      rintro c a rfl
      cases a with
      | write e => exact absurd hadmits (by simp [Sys.admits])
      | clear => trivial

/-- In every undisturbed run. -/
theorem timed_of_reachable {tm : Tm} {last : ℤ} {f : File} {n : ℕ} {s : Sys}
    (h : (system ticks tm last f n).Reachable (fun s l => undisturbed s l = true) s) :
    Timed s := by
  refine LTS.Reachable.induction (I := Timed) ?_ ?_ h
  · rintro _ rfl
    refine ⟨fun p hp => ?_, Mutex.calls_fresh _ _ _⟩
    obtain rfl := List.eq_of_mem_replicate hp
    trivial
  · intro s l t _ hs hok hstep
    exact hs.move hok (move_of_step hstep)

/-! ## Threads that have read the clock -/

/-- A thread in front of the mutex and a thread at it are not the same one. -/
structure Apart (n : ℕ) (s : Sys) : Prop where
  pens : s.pens.length = n
  callers : s.mutex.callers.length = n
  apart : ∀ (c : ℕ) p q, s.pens[c]? = some p → s.mutex.callers[c]? = some q →
    p = .idle ∨ q = .outside

/-- A thread goes on in front of the mutex. -/
theorem Apart.setPen {n : ℕ} {s : Sys} (h : Apart n s) {c : ℕ} {p p' : Pen}
    (hpen : s.pens[c]? = some p) (hp : p ≠ .idle) :
    ∀ (d : ℕ) q r, (s.pens.set c p')[d]? = some q → s.mutex.callers[d]? = some r →
      q = .idle ∨ r = .outside := by
  intro d q r hq hr
  rcases (getElem?_set_iff hpen).mp hq with ⟨rfl, rfl⟩ | ⟨-, hq⟩
  · exact Or.inr ((h.apart d p r hpen hr).resolve_left hp)
  · exact h.apart d q r hq hr

/-- A thread goes on at the mutex. -/
theorem Apart.setCaller {n : ℕ} {s : Sys} (h : Apart n s) {c : ℕ}
    {p p' : Mutex.Caller Call Point} (hcaller : s.mutex.callers[c]? = some p)
    (hidle : p ≠ .outside ∨ s.pens[c]? = some .idle) :
    ∀ (d : ℕ) q r, s.pens[d]? = some q → (s.mutex.callers.set c p')[d]? = some r →
      q = .idle ∨ r = .outside := by
  intro d q r hq hr
  rcases (getElem?_set_iff hcaller).mp hr with ⟨rfl, rfl⟩ | ⟨-, hr⟩
  · refine Or.inl ?_
    rcases hidle with hp | hpen
    · exact (h.apart d q p hq hcaller).resolve_right hp
    · exact Option.some.inj (hq.symm.trans hpen)
  · exact h.apart d q r hq hr

/-- **Step lemma.** -/
theorem Apart.move {n : ℕ} {s t : Sys} {l : Label} (h : Apart n s) (hm : Move ticks s l t) :
    Apart n t := by
  cases hm with
  | write c x hpen hout =>
      refine ⟨List.length_set.trans h.pens, h.callers, fun d q r hq hr => ?_⟩
      rcases (getElem?_set_iff hpen).mp hq with ⟨rfl, -⟩ | ⟨-, hq⟩
      · exact Or.inr (Option.some.inj (hr.symm.trans hout))
      · exact h.apart d q r hq hr
  | clock c x r hpen hticks =>
      exact ⟨List.length_set.trans h.pens, h.callers, h.setPen hpen (by simp)⟩
  | store c x r tm hpen => exact ⟨h.pens, h.callers, h.apart⟩
  | localtime c x r hpen =>
      exact ⟨List.length_set.trans h.pens, h.callers, h.setPen hpen (by simp)⟩
  | load c x r loaded m hpen hnew =>
      exact ⟨List.length_set.trans h.pens, h.callers, h.setPen hpen (by simp)⟩
  | sprintf c x r loaded tm strTime m hpen htm htext hm =>
      cases Mutex.move_of_step hm with
      | call _ _ hout =>
          refine ⟨List.length_set.trans h.pens, List.length_set.trans h.callers,
            fun d q r hq hr => ?_⟩
          rcases (getElem?_set_iff hpen).mp hq with ⟨-, rfl⟩ | ⟨hne, hq⟩
          · exact Or.inl rfl
          · rw [List.getElem?_set_ne (Ne.symm hne)] at hr
            exact h.apart d q r hq hr
  | overrun c x r loaded tm hpen htm htext =>
      exact ⟨List.length_set.trans h.pens, h.callers, h.setPen hpen (by simp)⟩
  | guarded l m hadmits hm =>
      cases Mutex.move_of_step hm with
      | call c a hout =>
          cases a with
          | write e => exact absurd hadmits (by simp [Sys.admits])
          | clear =>
              have hidle : s.pens[c]? = some .idle := by
                simp only [Sys.admits] at hadmits
                split at hadmits
                · assumption
                · exact absurd hadmits (by simp)
              exact ⟨h.pens, List.length_set.trans h.callers, h.setCaller hout (Or.inr hidle)⟩
      | lock c a hc hfree =>
          exact ⟨h.pens, List.length_set.trans h.callers, h.setCaller hc (Or.inl (by simp))⟩
      | access c b a k r hc hr =>
          exact ⟨h.pens, List.length_set.trans h.callers, h.setCaller hc (Or.inl (by simp))⟩
      | unlock c a k hc hended =>
          exact ⟨h.pens, List.length_set.trans h.callers, h.setCaller hc (Or.inl (by simp))⟩

/-- The reading of a thread in front of the mutex. -/
def Pen.reading? : Pen → Option Reading
  | .converting _ r | .printing _ r _ => some r
  | _ => none

/-- The reading of a call. -/
def Call.reading? : Call → Option Reading
  | .write e => some e.reading
  | .clear => none

/-- A reading of the clock with this offset from UTC, from 1970 on and outside of leap
seconds. -/
structure Usual (offset last : ℤ) (r : Reading) : Prop where
  nonneg : 0 ≤ r.now.count
  le_last : r.now.count ≤ last
  offset : r.time.offset = offset
  second_lt : r.time.second < 60

theorem Usual.mono {offset last last' : ℤ} {r : Reading} (h : Usual offset last r)
    (hle : last ≤ last') : Usual offset last' r :=
  ⟨h.nonneg, h.le_last.trans hle, h.offset, h.second_lt⟩

/-- All readings so far are. -/
structure Steady (offset : ℤ) (s : Sys) : Prop where
  pens : ∀ p ∈ s.pens, ∀ r, p.reading? = some r → Usual offset s.last r
  calls : Mutex.Calls (fun a => ∀ r, a.reading? = some r → Usual offset s.last r) s.mutex

theorem Steady.set {offset : ℤ} {s : Sys} (h : Steady offset s) (c : ℕ) {p : Pen} {last : ℤ}
    (hlast : s.last ≤ last) (hp : ∀ r, p.reading? = some r → Usual offset last r) :
    ∀ q ∈ s.pens.set c p, ∀ r, q.reading? = some r → Usual offset last r := by
  intro q hq r hr
  rcases List.mem_or_eq_of_mem_set hq with hq | rfl
  · exact (h.pens q hq r hr).mono hlast
  · exact hp r hr

/-- **Step lemma.** -/
theorem Steady.move {offset : ℤ} {s t : Sys} {l : Label} (h : Steady offset s)
    (hm : Move (LogWriter.steady offset) s l t) : Steady offset t := by
  cases hm with
  | write c x hpen hout => exact ⟨h.set c le_rfl (by rintro _ ⟨⟩), h.calls⟩
  | clock c x r hpen hticks =>
      obtain ⟨hpos, hle, hoffset, hleap⟩ := of_decide_eq_true hticks
      refine ⟨h.set c hle ?_, h.calls.imp fun a ha r hr => (ha r hr).mono hle⟩
      rintro _ ⟨⟩
      exact ⟨hpos.trans hle, le_rfl, hoffset, hleap⟩
  | store c x r tm hpen => exact ⟨h.pens, h.calls⟩
  | localtime c x r hpen =>
      refine ⟨h.set c le_rfl ?_, h.calls⟩
      rintro _ ⟨⟩
      exact h.pens _ (List.mem_of_getElem? hpen) r rfl
  | load c x r loaded m hpen hnew =>
      refine ⟨h.set c le_rfl ?_, h.calls⟩
      rintro _ ⟨⟩
      exact h.pens _ (List.mem_of_getElem? hpen) r rfl
  | sprintf c x r loaded tm strTime m hpen htm htext hm =>
      refine ⟨h.set c le_rfl (by rintro _ ⟨⟩), h.calls.move (Mutex.move_of_step hm) ?_⟩
      rintro _ _ ⟨⟩ _ ⟨⟩
      exact h.pens _ (List.mem_of_getElem? hpen) r rfl
  | overrun c x r loaded tm hpen htm htext =>
      exact ⟨h.set c le_rfl (by rintro _ ⟨⟩), h.calls⟩
  | guarded l m hadmits hm =>
      refine ⟨h.pens, h.calls.move (Mutex.move_of_step hm) ?_⟩
      rintro c a rfl
      cases a with
      | write e => exact absurd hadmits (by simp [Sys.admits])
      | clear => rintro _ ⟨⟩

/-! ## Earlier lines behind a line -/

/-- It is a reading before the time `t`. -/
def early (t : ℤ) (r : Option Reading) : Bool := r.any fun r => decide (r.now.count < t)

/-- The threads that will write an earlier line yet. -/
def toCome (t : ℤ) (s : Sys) : ℕ :=
  s.pens.countP (fun p => early t p.reading?) +
    s.mutex.callers.countP fun q => early t (q.call?.bind Call.reading?)

/-- What a step does to the calls that are done, and to the threads that will write an
earlier line. -/
inductive Progress (t : ℤ) (s s' : Sys) : Prop
  | stays (hdone : s'.mutex.done = s.mutex.done) (hcount : toCome t s' ≤ toCome t s)
  | ends (c : ℕ) (a : Call) (hdone : s'.mutex.done = s.mutex.done ++ [a])
      (hcount : toCome t s' + (if early t a.reading? then 1 else 0) = toCome t s)
      (hpen : s'.pens[c]? = some .idle) (hcaller : s'.mutex.callers[c]? = some .outside)

theorem Progress.setPen {t : ℤ} {s : Sys} {c : ℕ} {p p' : Pen} (last : ℤ) (tm : Tm)
    (hpen : s.pens[c]? = some p) (h : early t p'.reading? = true → early t p.reading? = true) :
    Progress t s { s with pens := s.pens.set c p', last := last, tm := tm } := by
  have hcount := countP_set_add hpen p' fun p => early t p.reading?
  refine Progress.stays rfl ?_
  unfold toCome
  dsimp only
  split_ifs at hcount with hp hp' hp' <;> first | omega | exact absurd (h hp') hp

theorem Progress.setCaller {t : ℤ} {s : Sys} {c : ℕ} {q q' : Mutex.Caller Call Point}
    (holder : Option ℕ) (value : File) (hcaller : s.mutex.callers[c]? = some q)
    (h : early t (q'.call?.bind Call.reading?) = early t (q.call?.bind Call.reading?)) :
    Progress t s { s with
      mutex := ⟨holder, s.mutex.callers.set c q', value, s.mutex.done⟩ } := by
  have hcount := countP_set_add hcaller q' fun q => early t (q.call?.bind Call.reading?)
  refine Progress.stays rfl ?_
  unfold toCome
  dsimp only at hcount ⊢
  rw [h] at hcount
  omega

/-- **Step lemma**: a reading of a steady clock is not early. -/
theorem Move.progress {offset t : ℤ} {n : ℕ} {s s' : Sys} {l : Label}
    (hm : Move (LogWriter.steady offset) s l s') (hapart : Apart n s) (ht : t ≤ s.last) :
    Progress t s s' := by
  cases hm with
  | write c x hpen hout => exact Progress.setPen s.last s.tm hpen (by simp [early, Pen.reading?])
  | clock c x r hpen hticks =>
      obtain ⟨-, hle, -, -⟩ := of_decide_eq_true hticks
      refine Progress.setPen r.now.count s.tm hpen fun hearly => ?_
      have hlt : r.now.count < t := of_decide_eq_true hearly
      omega
  | store c x r tm hpen => exact Progress.stays rfl le_rfl
  | localtime c x r hpen => exact Progress.setPen s.last r.time.tm hpen id
  | load c x r loaded m hpen hnew => exact Progress.setPen s.last s.tm hpen id
  | sprintf c x r loaded tm strTime m hpen htm htext hm =>
      cases Mutex.move_of_step hm with
      | call _ _ hout =>
          -- the thread goes over from one of the two counts to the other, with its reading
          have hpens := countP_set_add hpen .idle fun p => early t p.reading?
          have hcallers := countP_set_add hout (.waiting (.write ⟨x, r, datetime strTime⟩))
            fun q => early t (q.call?.bind Call.reading?)
          refine Progress.stays rfl ?_
          unfold toCome
          have hsame : early t (Pen.printing x r loaded).reading? = early t (some r) := rfl
          have hcall : early t (((Mutex.Caller.waiting (.write ⟨x, r, datetime strTime⟩) :
            Mutex.Caller Call Point).call?).bind Call.reading?) = early t (some r) := rfl
          have hidle : ¬early t Pen.idle.reading? = true := by simp [early, Pen.reading?]
          have hnone : ¬early t ((Mutex.Caller.outside : Mutex.Caller Call Point).call?.bind
            Call.reading?) = true := by simp [early, Mutex.Caller.call?]
          rw [hsame, if_neg hidle] at hpens
          rw [hcall, if_neg hnone] at hcallers
          dsimp only
          omega
  | overrun c x r loaded tm hpen htm htext =>
      exact Progress.setPen s.last s.tm hpen (by simp [early, Pen.reading?])
  | guarded l m hadmits hm =>
      cases Mutex.move_of_step hm with
      | call c a hout =>
          cases a with
          | write e => exact absurd hadmits (by simp [Sys.admits])
          | clear => exact Progress.setCaller _ _ hout rfl
      | lock c a hc hfree => exact Progress.setCaller _ _ hc rfl
      | access c b a k r hc hr => exact Progress.setCaller _ _ hc rfl
      | unlock c a k hc hended =>
          have hlt : c < s.mutex.callers.length := (List.getElem?_eq_some_iff.mp hc).1
          have hlt' : c < s.pens.length := by rwa [hapart.pens, ← hapart.callers]
          have hpen := hapart.apart c _ _ (List.getElem?_eq_getElem hlt') hc
          -- the call goes over from those to come to those that are done
          have hcount := countP_set_add hc .outside fun q => early t (q.call?.bind Call.reading?)
          have hcall : early t (((Mutex.Caller.inside a k : Mutex.Caller Call Point).call?).bind
            Call.reading?) = early t a.reading? := rfl
          have hnone : ¬early t ((Mutex.Caller.outside : Mutex.Caller Call Point).call?.bind
            Call.reading?) = true := by simp [early, Mutex.Caller.call?]
          refine Progress.ends c a rfl ?_ ?_ (List.getElem?_set_self hlt)
          · unfold toCome
            rw [hcall, if_neg hnone] at hcount
            dsimp only
            omega
          · rw [List.getElem?_eq_getElem hlt', hpen.resolve_right (by simp)]

/-- Behind a call that is done there are fewer than `n` earlier lines, those that are to come
included. -/
def Behind (n : ℕ) (s : Sys) : Prop :=
  ∀ pre e post, s.mutex.done = pre ++ .write e :: post →
    post.countP (fun a => early e.reading.now.count a.reading?) +
      toCome e.reading.now.count s < n

/-- **Step lemma.** -/
theorem Behind.move {offset : ℤ} {n : ℕ} {s s' : Sys} {l : Label} (h : Behind n s)
    (hapart : Apart n s) (hsteady : Steady offset s)
    (hm : Move (LogWriter.steady offset) s l s') : Behind n s' := by
  intro pre e post hdone
  have hapart' := hapart.move hm
  have hmem : .write e ∈ s'.mutex.done := by
    rw [hdone]
    exact List.mem_append_right _ List.mem_cons_self
  -- no step reads the clock and ends a call at once
  have hle : e.reading.now.count ≤ s.last := by
    cases hm with
    | sprintf c x r loaded tm strTime m hpen htm htext hm =>
        cases Mutex.move_of_step hm with
        | call => exact (hsteady.calls.done _ hmem e.reading rfl).le_last
    | guarded l m hadmits hm =>
        exact ((hsteady.move (Move.guarded l m hadmits hm)).calls.done _ hmem e.reading rfl).le_last
    | _ => exact (hsteady.calls.done _ hmem e.reading rfl).le_last
  cases hm.progress hapart hle with
  | stays hsame hcount =>
      rw [hsame] at hdone
      have hold := h pre e post hdone
      omega
  | ends c a hsame hcount hpen hcaller =>
      rw [hsame] at hdone
      rcases List.eq_nil_or_concat post with rfl | ⟨post, b, rfl⟩
      · -- the call has just ended, and its thread is not one of those to come
        have hlt := countP_add_countP_lt (f := fun p => early e.reading.now.count p.reading?)
          (g := fun q => early e.reading.now.count (q.call?.bind Call.reading?))
          (hapart'.callers.trans hapart'.pens.symm) ?_ hpen hcaller rfl rfl
        · rw [hapart'.pens] at hlt
          rw [List.countP_nil, Nat.zero_add]
          exact hlt
        · intro i p q hp hq
          rcases hapart'.apart i p q hp hq with rfl | rfl
          · exact Or.inl rfl
          · exact Or.inr rfl
      · -- another call ends behind this one: it was one of those to come
        rw [List.concat_eq_append, ← List.cons_append, ← List.append_assoc] at hdone
        obtain ⟨hbefore, hlast⟩ := List.append_inj' hdone rfl
        obtain rfl := List.head_eq_of_cons_eq hlast
        have hold := h pre e post hbefore
        rw [List.concat_eq_append, List.countP_append, List.countP_singleton]
        omega

/-- All of this holds in every run with a steady clock. -/
theorem behind_of_reachable {offset : ℤ} {ok : Sys → Label → Prop} {tm : Tm} {last : ℤ} {f : File}
    {n : ℕ} {s : Sys} (h : (system (LogWriter.steady offset) tm last f n).Reachable ok s) :
    (Apart n s ∧ Steady offset s) ∧ Behind n s := by
  refine LTS.Reachable.induction (I := fun s => (Apart n s ∧ Steady offset s) ∧ Behind n s)
    ?_ ?_ h
  · rintro _ rfl
    refine ⟨⟨⟨by simp [fresh], by simp [fresh, Mutex.fresh], fun c p q hp _ => ?_⟩, ?_,
      Mutex.calls_fresh _ _ _⟩, fun pre e post hdone => ?_⟩
    · exact Or.inl (List.eq_of_mem_replicate (List.mem_of_getElem? hp))
    · intro p hp r hr
      obtain rfl := List.eq_of_mem_replicate hp
      exact absurd hr (by simp [Pen.reading?])
    · exact absurd hdone (by simp [fresh, Mutex.fresh])
  · rintro s l t _ ⟨⟨hapart, hsteady⟩, hbehind⟩ _ hstep
    have hm := move_of_step hstep
    exact ⟨⟨hapart.move hm, hsteady.move hm⟩, hbehind.move hapart hsteady hm⟩

/-! ## Main results -/

/-- **Lines with their own times**, in every run in which no thread comes between another one
and the `tm` that it has asked for: the file is what the calls that are done left in it, in the
order in which they had the mutex, and behind that the beginning of the line of the one that
has it; no more lines are cut than calls have failed, and no `strTime` is overrun. -/
theorem own_lines {tm : Tm} {last : ℤ} {f : File} {n : ℕ} {s : Sys}
    (h : (system ticks tm last f n).Reachable (fun s l => undisturbed s l = true) s) :
    ∃ base ws failures, Filed f s base ws failures ∧ (∀ w ∈ ws, w.entry.Own) ∧
      (∀ (c : ℕ) e p, s.mutex.callers[c]? = some (.inside (.write e) p) → e.Own) ∧
      .undefined ∉ s.pens := by
  obtain ⟨base, ws, failures, hfiled⟩ := filed_of_reachable h
  obtain ⟨hpens, hcalls⟩ := timed_of_reachable h
  refine ⟨base, ws, failures, hfiled, fun w hw => ?_, fun c e p hc => hcalls.inside hc,
    fun hmem => hpens _ hmem⟩
  exact hcalls.done (.write w.entry) (hfiled.journal.sublist.subset
    (List.mem_map_of_mem (f := fun w : Written Entry.line => Call.write w.entry) hw))

/-- A message of `main`. -/
def hello : Note := ⟨str "INFO", 7, str "main.cpp", str "main", str "hello"⟩

/-- The loads of a thread, and its `sprintf`. -/
def prints (c : ℕ) : List Label :=
  [.load c .tmSec, .load c .tmMin, .load c .tmHour, .load c .tmMday, .load c .tmMon,
    .load c .tmYear, .sprintf c]

/-- Two threads write: the first one reads the clock first, and the second one is first at the
mutex. -/
def crossedRun : List Label :=
  [.write 0 hello, .clock 0 (LogWriter.atEpoch 8000000 (by decide)), .write 1 hello,
    .store 0 ⟨0, 0, 0, 0, 0, 8⟩, .localtime 0] ++ prints 0 ++
    [.clock 1 (LogWriter.atEpoch 9000000 (by decide)), .store 1 ⟨0, 0, 0, 0, 0, 9⟩, .localtime 1] ++
    prints 1 ++
    [.guarded (.lock 1), .guarded (.access 1 (.opened true)), .guarded (.access 1 (.flush 81)),
      .guarded (.unlock 1), .guarded (.lock 0), .guarded (.access 0 (.opened true)),
      .guarded (.access 0 (.flush 80)), .guarded (.access 0 .fail), .guarded (.unlock 0)]

/-- The file behind that: the line feed is missing. -/
def crossedFile : File :=
  ⟨str "[1970-01-01 00:00:00 009][INFO][FILE:main.cpp][LINE:7][FUNC:main][MESSAGE:hello]\n" ++
    str "[1970-01-01 00:00:00 008][INFO][FILE:main.cpp][LINE:7][FUNC:main][MESSAGE:hello]", 1⟩

theorem crossedRun_file : ∃ s,
    (system (LogWriter.steady 0) ⟨0, 0, 0, 0, 0, 0⟩ 0 ⟨[], 0⟩ 2).Reachable
      (fun s l => undisturbed s l = true) s ∧ s.mutex.value = crossedFile := by
  have hrun : ((system (LogWriter.steady 0) ⟨0, 0, 0, 0, 0, 0⟩ 0 ⟨[], 0⟩ 2).exec
      (fun s l => undisturbed s l = true) (fresh ⟨0, 0, 0, 0, 0, 0⟩ 0 ⟨[], 0⟩ 2)
      crossedRun).map (fun s => s.mutex.value) = some crossedFile := by
    decide +kernel
  obtain ⟨s, hexec, hfile⟩ := Option.map_eq_some_iff.mp hrun
  exact ⟨s, LTS.reachable_of_exec rfl hexec, hfile⟩

/-- `own_lines` at that run. -/
theorem own_lines_crossed : ∃ s, s.mutex.value = crossedFile ∧
    ∃ base ws failures, Filed ⟨[], 0⟩ s base ws failures ∧ ∀ w ∈ ws, w.entry.Own := by
  obtain ⟨s, hreach, hfile⟩ := crossedRun_file
  obtain ⟨base, ws, failures, hfiled, hown, -⟩ := own_lines hreach
  exact ⟨s, hfile, base, ws, failures, hfiled, hown⟩

/-- **The file is nearly sorted.**  With `n` threads and a clock that does not go back, with one
offset from UTC, from 1970 on and outside of leap seconds, a line has fewer than `n` lines
behind it with a time in front of its own. -/
theorem disorder_lt {offset : ℤ} {tm : Tm} {last : ℤ} {f : File} {n : ℕ} {s : Sys}
    (h : (system (LogWriter.steady offset) tm last f n).Reachable
      (fun s l => undisturbed s l = true) s) :
    ∃ base ws failures, Filed f s base ws failures ∧
      ∀ pre w post, ws = pre ++ w :: post →
        post.countP (fun w' => decide (w'.entry.datetime < w.entry.datetime)) < n := by
  obtain ⟨base, ws, failures, hfiled⟩ := filed_of_reachable h
  have hcalls := (timed_of_reachable h).calls
  obtain ⟨⟨-, hsteady⟩, hbehind⟩ := behind_of_reachable h
  refine ⟨base, ws, failures, hfiled, ?_⟩
  rintro pre w post rfl
  have hsub := hfiled.journal.sublist
  have hdone : ∀ w' ∈ pre ++ w :: post,
      w'.entry.Own ∧ Usual offset s.last w'.entry.reading := by
    intro w' hw'
    have hmem := hsub.subset
      (List.mem_map_of_mem (f := fun w : Written Entry.line => Call.write w.entry) hw')
    exact ⟨hcalls.done _ hmem, hsteady.calls.done _ hmem w'.entry.reading rfl⟩
  have hearly : ∀ w' ∈ post, w'.entry.datetime < w.entry.datetime →
      w'.entry.reading.now.count < w.entry.reading.now.count := by
    intro w' hw' hlt
    obtain ⟨hown, husual⟩ := hdone w (by simp)
    obtain ⟨hown', husual'⟩ := hdone w' (by simp [hw'])
    rw [show w'.entry.datetime = _ from hown', show w.entry.datetime = _ from hown] at hlt
    exact count_lt_of_timeText_lt w'.entry.reading.time w.entry.reading.time
      (husual'.offset.trans husual.offset.symm) ⟨husual'.second_lt, husual.second_lt⟩
      ⟨husual'.nonneg, husual.nonneg⟩ hlt
  rw [List.map_append, List.map_cons] at hsub
  -- the lines are calls that are done, in their order: what is behind `w` among the lines is
  -- behind it among the calls
  obtain ⟨front, back, hsplit, -, hback⟩ := List.append_sublist_iff.mp hsub
  obtain ⟨upto, behind, rfl, hmem, hpost⟩ := List.cons_sublist_iff.mp hback
  obtain ⟨x, y, rfl⟩ := List.append_of_mem hmem
  have hlt := hbehind (front ++ x) w.entry (y ++ behind) (by simp [hsplit])
  have hcount : post.countP (fun w' => decide (w'.entry.datetime < w.entry.datetime)) ≤
      (post.map fun w => Call.write w.entry).countP
        fun a => early w.entry.reading.now.count a.reading? := by
    rw [List.countP_map]
    apply List.countP_mono_left
    intro w' hw' h
    exact decide_eq_true (hearly w' hw' (of_decide_eq_true h))
  have hmore := (hpost.trans (List.sublist_append_right y behind)).countP_le
    (p := fun a => early w.entry.reading.now.count a.reading?)
  omega

/-- `disorder_lt` at that run. -/
theorem disorder_lt_crossed : ∃ s, s.mutex.value = crossedFile ∧
    ∃ base ws failures, Filed ⟨[], 0⟩ s base ws failures ∧
      ∀ pre w post, ws = pre ++ w :: post →
        post.countP (fun w' => decide (w'.entry.datetime < w.entry.datetime)) < 2 := by
  obtain ⟨s, hreach, hfile⟩ := crossedRun_file
  obtain ⟨base, ws, failures, hfiled, hlt⟩ := disorder_lt hreach
  exact ⟨s, hfile, base, ws, failures, hfiled, hlt⟩

end Log

end Logger
