/-
# Receivers that change the table (`class Sender` in `test/observer.cpp`)

`Sender::notify` runs a range-`for` loop over a `std::map`, and the `update` of the receiver at
hand may call `attach`, `dettach` and `notify` itself.  An iterator of a map stays valid until
its own element is erased, and the loop goes on with the next name that is there by then.
Every call of `notify` that is under way has a frame; only the innermost one moves.

The elements of the map are numbered, so that a name that is erased and attached again is told
from the old one.

* `valid_iff`: no iterator of a loop dangles exactly in the runs in which nobody dettaches a
  name that a loop is at;
* `notify_once`: in such a run each call of `notify` that is over has called the receivers in
  the order of their names, none of them twice, and every one that was attached all the time;
  one that is attached meanwhile is called if its name is not behind the loop.
-/
import CppShared.Bytes
import CppShared.OrderedMap
import CppShared.Transition

namespace Sender

variable {R : Type*}

/-! ## The loop -/

/-- An element of `receivers`, with its number. -/
structure Node (R : Type*) where
  id : ℕ
  receiver : R
  deriving DecidableEq, Repr

/-- `receivers`. -/
abbrev Receivers (R : Type*) := OrderedMap Str (Node R)

/-- Where a call of `notify` is. -/
inductive Point (R : Type*)
  /-- At the test of the loop, with its iterator. -/
  | testing (it : Option (Str × Node R))
  /-- In the `update` of the receiver at its iterator. -/
  | calling (it : Str × Node R)
  /-- An iterator that dangles was advanced: there is no saying what the loop does now. -/
  | undefined

/-- A call of `notify` that is under way.  `seen` are the elements whose receivers it has
called, `missed` the numbers of those that were attached behind it, `since` is the first
number that was not given out when it began, and `started` what `receivers` was then. -/
structure Frame (R : Type*) where
  message : Str
  point : Point R
  seen : List (Str × Node R)
  missed : List ℕ
  since : ℕ
  started : Receivers R

/-- A call of `notify` that is over. -/
structure Finished (R : Type*) where
  frame : Frame R
  ended : Receivers R

/-- The object, the next number, the calls under way with the innermost one first, and those
that are over. -/
structure Sys (R : Type*) where
  receivers : Receivers R
  next : ℕ
  frames : List (Frame R)
  finished : List (Finished R)

/-- What happens next. -/
inductive Label (R : Type*)
  | attach (name : Str) (receiver : R)
  | dettach (name : Str)
  | notify (message : Str)
  /-- The test of the innermost loop and, if it goes on, the call of `update`. -/
  | test
  /-- `update` returns and the innermost loop advances its iterator. -/
  | ret
  deriving DecidableEq, Repr

/-- The program runs: no loop does, or the innermost one has called `update`. -/
def Sys.runs (s : Sys R) : Bool :=
  match s.frames with
  | [] => true
  | f :: _ =>
      match f.point with
      | .calling _ => true
      | _ => false

/-- The element of an iterator is still there. -/
def present (m : Receivers R) (it : Str × Node R) : Bool :=
  match m.find? it.1 with
  | some node => node.id = it.2.id
  | none => false

/-- A name is attached: loops that are further take no notice of it. -/
def Frame.attached (f : Frame R) (name : Str) (id : ℕ) : Frame R :=
  match f.point with
  | .calling it => if name < it.1 then { f with missed := f.missed ++ [id] } else f
  | _ => f

/-- The step function. -/
def step (s : Sys R) : Label R → Option (Sys R)
  | .attach name receiver =>
      if s.runs then
        if name ∈ s.receivers.keys then some s
        else
          some { s with
            receivers := s.receivers.insert name ⟨s.next, receiver⟩
            next := s.next + 1
            frames := s.frames.map fun f => f.attached name s.next }
      else none
  | .dettach name =>
      if s.runs then some { s with receivers := s.receivers.eraseFound name } else none
  | .notify message =>
      if s.runs then
        some { s with
          frames :=
            ⟨message, .testing s.receivers.first?, [], [], s.next, s.receivers⟩ :: s.frames }
      else none
  | .test =>
      match s.frames with
      | [] => none
      | f :: rest =>
          match f.point with
          | .testing none =>
              some { s with frames := rest, finished := s.finished ++ [⟨f, s.receivers⟩] }
          | .testing (some it) =>
              some { s with
                frames := { f with point := .calling it, seen := f.seen ++ [it] } :: rest }
          | _ => none
  | .ret =>
      match s.frames with
      | [] => none
      | f :: rest =>
          match f.point with
          | .calling it =>
              if present s.receivers it then
                some { s with
                  frames := { f with point := .testing (s.receivers.next? it.1) } :: rest }
              else some { s with frames := { f with point := .undefined } :: rest }
          | _ => none

/-- A `Sender` without receivers. -/
def fresh : Sys R := ⟨OrderedMap.empty, 0, [], []⟩

/-- The `Sender` and the program around it. -/
def system (R : Type*) : LTS (Sys R) (Label R) where
  init s := s = fresh
  step := step

/-! ## What a step does -/

/-- The effect of a step, case by case. -/
inductive Move (s : Sys R) : Label R → Sys R → Prop
  | attachedAgain (name receiver) (hruns : s.runs = true) (hkey : name ∈ s.receivers.keys) :
      Move s (.attach name receiver) s
  | attached (name receiver) (hruns : s.runs = true) (hkey : name ∉ s.receivers.keys) :
      Move s (.attach name receiver)
        { s with
          receivers := s.receivers.insert name ⟨s.next, receiver⟩
          next := s.next + 1
          frames := s.frames.map fun f => f.attached name s.next }
  | dettached (name) (hruns : s.runs = true) :
      Move s (.dettach name) { s with receivers := s.receivers.eraseFound name }
  | notified (message) (hruns : s.runs = true) :
      Move s (.notify message)
        { s with
          frames :=
            ⟨message, .testing s.receivers.first?, [], [], s.next, s.receivers⟩ :: s.frames }
  | ended (f rest) (hf : s.frames = f :: rest) (hp : f.point = .testing none) :
      Move s .test { s with frames := rest, finished := s.finished ++ [⟨f, s.receivers⟩] }
  | called (f rest it) (hf : s.frames = f :: rest) (hp : f.point = .testing (some it)) :
      Move s .test
        { s with frames := { f with point := .calling it, seen := f.seen ++ [it] } :: rest }
  | advanced (f rest it) (hf : s.frames = f :: rest) (hp : f.point = .calling it)
      (hpresent : present s.receivers it = true) :
      Move s .ret
        { s with frames := { f with point := .testing (s.receivers.next? it.1) } :: rest }
  | dangled (f rest it) (hf : s.frames = f :: rest) (hp : f.point = .calling it)
      (hgone : present s.receivers it = false) :
      Move s .ret { s with frames := { f with point := .undefined } :: rest }

/-- **Step inversion.** -/
theorem move_of_step {s t : Sys R} {a : Label R} (h : step s a = some t) : Move s a t := by
  cases a with
  | attach name receiver =>
      simp only [step] at h
      split_ifs at h with hruns hkey
      · obtain rfl := Option.some.inj h
        exact Move.attachedAgain name receiver hruns hkey
      · obtain rfl := Option.some.inj h
        exact Move.attached name receiver hruns hkey
  | dettach name =>
      simp only [step] at h
      split_ifs at h with hruns
      obtain rfl := Option.some.inj h
      exact Move.dettached name hruns
  | notify message =>
      simp only [step] at h
      split_ifs at h with hruns
      obtain rfl := Option.some.inj h
      exact Move.notified message hruns
  | test =>
      simp only [step] at h
      split at h
      · exact absurd h (by simp)
      · next f rest hf =>
          split at h
          · next hp =>
              obtain rfl := Option.some.inj h
              exact Move.ended f rest hf hp
          · next it hp =>
              obtain rfl := Option.some.inj h
              exact Move.called f rest it hf hp
          · exact absurd h (by simp)
  | ret =>
      simp only [step] at h
      split at h
      · exact absurd h (by simp)
      · next f rest hf =>
          split at h
          · next it hp =>
              split_ifs at h with hpresent
              · obtain rfl := Option.some.inj h
                exact Move.advanced f rest it hf hp hpresent
              · obtain rfl := Option.some.inj h
                exact Move.dangled f rest it hf hp (by simpa using hpresent)
          · exact absurd h (by simp)

/-! ## Iterators -/

/-- The iterator of a loop does not dangle. -/
def Point.Valid (m : Receivers R) : Point R → Prop
  | .testing none => True
  | .testing (some it) => it ∈ m.entries
  | .calling it => present m it = true
  | .undefined => False

/-- No iterator of a loop dangles. -/
def Valid (s : Sys R) : Prop := ∀ f ∈ s.frames, f.point.Valid s.receivers

/-- The name that a loop is at. -/
def Point.name? : Point R → Option Str
  | .testing (some it) | .calling it => some it.1
  | _ => none

/-- Nobody dettaches a name that a loop is at. -/
def keepsVisited (s : Sys R) : Label R → Prop
  | .dettach name => ∀ f ∈ s.frames, f.point.name? ≠ some name
  | _ => True

instance (s : Sys R) (a : Label R) : Decidable (keepsVisited s a) :=
  match a with
  | .dettach name => inferInstanceAs (Decidable (∀ f ∈ s.frames, f.point.name? ≠ some name))
  | .attach _ _ | .notify _ | .test | .ret => inferInstanceAs (Decidable True)

theorem present_of_mem {m : Receivers R} {it : Str × Node R} (h : it ∈ m.entries) :
    present m it = true := by
  rw [present, OrderedMap.find?_of_mem h]
  exact decide_eq_true rfl

theorem mem_keys_of_present {m : Receivers R} {it : Str × Node R} (h : present m it = true) :
    it.1 ∈ m.keys := by
  rw [present] at h
  split at h
  · next node hfind => exact OrderedMap.mem_keys_iff.mpr ⟨node, hfind⟩
  · exact absurd h (by simp)

theorem Frame.attached_point (f : Frame R) (name : Str) (id : ℕ) :
    (f.attached name id).point = f.point := by
  unfold Frame.attached
  split
  · split_ifs <;> rfl
  · rfl

/-- Iterators survive an insertion. -/
theorem Point.Valid.insert {m : Receivers R} {p : Point R} (h : p.Valid m) (name : Str)
    (node : Node R) : p.Valid (m.insert name node) := by
  cases p with
  | testing it =>
      cases it with
      | none => trivial
      | some it =>
          have hfind := OrderedMap.find?_insert_of_find? (k := name) (v := node)
            (OrderedMap.find?_of_mem h)
          exact OrderedMap.mem_of_find? hfind
  | calling it =>
      obtain ⟨v, hv⟩ := OrderedMap.mem_keys_iff.mp (mem_keys_of_present h)
      show present _ _ = true
      rw [present, OrderedMap.find?_insert_of_find? hv, ← hv]
      exact h
  | undefined => exact h

/-- And the erasure of another name. -/
theorem Point.Valid.erase {m : Receivers R} {p : Point R} (h : p.Valid m) {name : Str}
    (hname : p.name? ≠ some name) : p.Valid (m.eraseFound name) := by
  have hfind : ∀ it : Str × Node R, it.1 ≠ name →
      (m.eraseFound name).find? it.1 = m.find? it.1 := by
    intro it hne
    rw [OrderedMap.find?_eraseFound, if_neg hne]
  cases p with
  | testing it =>
      cases it with
      | none => trivial
      | some it =>
          have hne : it.1 ≠ name := fun heq => hname (congrArg some heq)
          exact OrderedMap.mem_of_find? ((hfind it hne).trans (OrderedMap.find?_of_mem h))
  | calling it =>
      have hne : it.1 ≠ name := fun heq => hname (congrArg some heq)
      show present _ _ = true
      rw [present, hfind it hne]
      exact h
  | undefined => exact h

/-- Not that of their own. -/
theorem Point.not_valid_erase {m : Receivers R} {p : Point R} {name : Str}
    (hname : p.name? = some name) : ¬p.Valid (m.eraseFound name) := by
  have hgone : name ∉ (m.eraseFound name).keys := by
    rw [OrderedMap.mem_keys_eraseFound]
    exact fun h => h.1 rfl
  intro h
  cases p with
  | testing it =>
      cases it with
      | none => exact absurd hname (by simp [Point.name?])
      | some it =>
          obtain rfl := Option.some.inj hname
          exact hgone (List.mem_map_of_mem h)
  | calling it =>
      obtain rfl := Option.some.inj hname
      exact hgone (mem_keys_of_present h)
  | undefined => exact absurd hname (by simp [Point.name?])

/-- The innermost loop moves. -/
theorem Valid.head {s : Sys R} (h : Valid s) {f : Frame R} {rest : List (Frame R)}
    (hf : s.frames = f :: rest) :
    f.point.Valid s.receivers ∧ ∀ g ∈ rest, g.point.Valid s.receivers := by
  unfold Valid at h
  rw [hf] at h
  exact List.forall_mem_cons.mp h

/-- **Step lemma.** -/
theorem Valid.move {s t : Sys R} {a : Label R} (h : Valid s) (hok : keepsVisited s a)
    (hm : Move s a t) : Valid t := by
  cases hm with
  | attachedAgain name receiver hruns hkey => exact h
  | attached name receiver hruns hkey =>
      intro f hf
      obtain ⟨g, hg, rfl⟩ := List.mem_map.mp hf
      rw [Frame.attached_point]
      exact (h g hg).insert name _
  | dettached name hruns => exact fun f hf => (h f hf).erase (hok f hf)
  | notified message hruns =>
      refine List.forall_mem_cons.mpr ⟨?_, h⟩
      show Point.Valid s.receivers (.testing s.receivers.first?)
      cases hfirst : s.receivers.first? with
      | none => trivial
      | some e => exact List.mem_of_head? hfirst
  | ended f rest hf hp => exact (h.head hf).2
  | called f rest it hf hp =>
      obtain ⟨hhead, hrest⟩ := h.head hf
      rw [hp] at hhead
      exact List.forall_mem_cons.mpr ⟨present_of_mem hhead, hrest⟩
  | advanced f rest it hf hp hpresent =>
      refine List.forall_mem_cons.mpr ⟨?_, (h.head hf).2⟩
      show Point.Valid s.receivers (.testing (s.receivers.next? it.1))
      cases hnext : s.receivers.next? it.1 with
      | none => trivial
      | some e => exact List.mem_of_find?_eq_some hnext
  | dangled f rest it hf hp hgone =>
      have hhead := (h.head hf).1
      rw [hp] at hhead
      exact absurd (hhead.symm.trans hgone) (by simp)

/-- **When iterators stay valid**: all along a run, exactly if nobody dettaches a name that a
loop is at. -/
theorem valid_iff {s : Sys R} {as : List (Label R)}
    (h : (system R).Path (fun _ _ => True) fresh as s) :
    (∀ bs t, bs <+: as → (system R).Path (fun _ _ => True) fresh bs t → Valid t) ↔
      (system R).Path keepsVisited fresh as s := by
  refine LTS.Path.always_iff_first rfl h ?_ ?_ ?_
  · rintro _ rfl f hf
    exact absurd hf List.not_mem_nil
  · intro s a t _ hs hok hstep
    exact hs.move hok (move_of_step hstep)
  · intro s a t _ _ hnot hstep hvalid
    -- only a `dettach` is held back, and the name that it erases is one that a loop is at
    cases move_of_step hstep with
    | dettached name hruns =>
        obtain ⟨f, hf, hname⟩ : ∃ f ∈ s.frames, f.point.name? = some name := by
          by_contra hnone
          exact hnot fun f hf hname => hnone ⟨f, hf, hname⟩
        exact Point.not_valid_erase hname (hvalid f hf)
    | _ => exact hnot trivial

/-- Three receivers.  The second one dettaches the first one, attaches one in front of itself
and one behind, and notifies all of them in between. -/
def reentrantRun : List (Label ℕ) :=
  [.attach (str "object1") 1, .attach (str "object2") 2, .attach (str "object3") 3,
    .notify (str "hello"), .test, .ret, .test,
    .dettach (str "object1"), .attach (str "object0") 4, .attach (str "object4") 5,
    .notify (str "again"), .test, .ret, .test, .ret, .test, .ret, .test, .ret, .test,
    .ret, .test, .ret, .test, .ret, .test]

theorem reentrantRun_path : ∃ s, (system ℕ).Path keepsVisited fresh reentrantRun s ∧
    s.finished.map (fun d => d.frame.seen.map fun e => e.2.receiver) =
      [[4, 2, 3, 5], [1, 2, 3, 5]] := by
  have hpath : (system ℕ).Path keepsVisited fresh reentrantRun _ :=
    LTS.path_of_exec (show LTS.exec _ _ _ reentrantRun = some _ from rfl)
  exact ⟨_, hpath, rfl⟩

/-- `valid_iff` at that run. -/
theorem valid_iff_reentrant : ∃ s,
    (∀ bs t, bs <+: reentrantRun → (system ℕ).Path (fun _ _ => True) fresh bs t → Valid t) ↔
      (system ℕ).Path keepsVisited fresh reentrantRun s := by
  obtain ⟨s, hpath, -⟩ := reentrantRun_path
  exact ⟨s, valid_iff (hpath.mono fun _ _ _ => trivial)⟩

/-! ## Frames and numbers -/

/-- `update` has been called. -/
def Point.InCall (p : Point R) : Prop := ∃ it, p = .calling it

/-- The numbers that are given out, and the frames: only the innermost loop is at its test. -/
structure Tidy (s : Sys R) : Prop where
  entries : ∀ e ∈ s.receivers.entries, e.2.id < s.next
  deep : ∀ f ∈ s.frames.tail, f.point.InCall

/-- While the program runs every loop is in a call. -/
theorem Tidy.inCall {s : Sys R} (h : Tidy s) (hruns : s.runs = true) :
    ∀ f ∈ s.frames, f.point.InCall := by
  intro f hf
  have hdeep := h.deep
  rw [Sys.runs] at hruns
  cases hs : s.frames with
  | nil =>
      rw [hs] at hf
      exact absurd hf List.not_mem_nil
  | cons g rest =>
      rw [hs] at hf hruns hdeep
      rcases List.mem_cons.mp hf with rfl | hf
      · dsimp only at hruns
        split at hruns
        · next it hp => exact ⟨it, hp⟩
        · exact absurd hruns (by simp)
      · exact hdeep f hf

/-- The innermost loop moves to another point. -/
theorem Tidy.setHead {s : Sys R} (h : Tidy s) {f : Frame R} {rest : List (Frame R)}
    (hf : s.frames = f :: rest) (g : Frame R) : Tidy { s with frames := g :: rest } := by
  have hdeep := h.deep
  rw [hf] at hdeep
  exact ⟨h.entries, hdeep⟩

/-- **Step lemma.** -/
theorem Tidy.move {s t : Sys R} {a : Label R} (h : Tidy s) (hm : Move s a t) : Tidy t := by
  cases hm with
  | attachedAgain name receiver hruns hkey => exact h
  | attached name receiver hruns hkey =>
      refine ⟨fun e he => ?_, fun f hf => ?_⟩
      · rcases OrderedMap.mem_of_mem_insertEntry he with rfl | he
        · exact Nat.lt_succ_self _
        · exact Nat.lt_succ_of_lt (h.entries e he)
      · obtain ⟨g, hg, rfl⟩ := List.mem_map.mp (List.mem_of_mem_tail hf)
        rw [Frame.attached_point]
        exact h.inCall hruns g hg
  | dettached name hruns => exact ⟨fun e he => h.entries e (List.mem_of_mem_filter he), h.deep⟩
  | notified message hruns => exact ⟨h.entries, h.inCall hruns⟩
  | ended f rest hf hp =>
      have hdeep := h.deep
      rw [hf] at hdeep
      exact ⟨h.entries, fun g hg => hdeep g (List.mem_of_mem_tail hg)⟩
  | called f rest it hf hp => exact h.setHead hf _
  | advanced f rest it hf hp hpresent => exact h.setHead hf _
  | dangled f rest it hf hp hgone => exact h.setHead hf _

theorem tidy_of_reachable {ok : Sys R → Label R → Prop} {s : Sys R}
    (h : (system R).Reachable ok s) : Tidy s := by
  refine LTS.Reachable.induction (I := Tidy) ?_ ?_ h
  · rintro _ rfl
    exact ⟨fun e he => absurd he List.not_mem_nil, fun f hf => absurd hf List.not_mem_nil⟩
  · intro s a t _ hs _ hstep
    exact hs.move (move_of_step hstep)

/-! ## What a loop has called -/

/-- A loop has come past a name. -/
def Point.Passed (k : Str) : Point R → Prop
  | .testing none => True
  | .testing (some it) => k < it.1
  | .calling it => k ≤ it.1
  | .undefined => True

/-- A loop has called the elements that it has come past, but for those that were attached
behind it. -/
structure Swept (m : Receivers R) (next : ℕ) (f : Frame R) : Prop where
  ordered : f.seen.Pairwise fun a b => a.1 < b.1
  behind : ∀ e ∈ f.seen, f.point.Passed e.1
  covers : ∀ e ∈ m.entries, f.point.Passed e.1 ↔ e ∈ f.seen ∨ e.2.id ∈ f.missed
  apart : ∀ e ∈ f.seen, e.2.id ∉ f.missed
  seen_lt : ∀ e ∈ f.seen, e.2.id < next
  since_le : f.since ≤ next
  missed : ∀ id ∈ f.missed, f.since ≤ id ∧ id < next
  started : ∀ e ∈ f.started.entries, e.2.id < f.since

/-- A name is attached. -/
theorem Swept.attached {m : Receivers R} {next : ℕ} {f : Frame R} (h : Swept m next f)
    (hvalid : f.point.Valid m) (hcall : f.point.InCall) (hentries : ∀ e ∈ m.entries, e.2.id < next)
    {name : Str} (receiver : R) (hkey : name ∉ m.keys) :
    Swept (m.insert name ⟨next, receiver⟩) (next + 1) (f.attached name next) := by
  obtain ⟨it, hp⟩ := hcall
  rw [hp] at hvalid
  have hne : name ≠ it.1 := by
    rintro rfl
    exact hkey (mem_keys_of_present hvalid)
  have hnew : ∀ e ∈ (m.insert name ⟨next, receiver⟩).entries,
      e = (name, ⟨next, receiver⟩) ∨ e ∈ m.entries := fun e he =>
    OrderedMap.mem_of_mem_insertEntry he
  have hfresh : (name, (⟨next, receiver⟩ : Node R)) ∉ f.seen := fun hmem =>
    absurd (h.seen_lt _ hmem) (Nat.lt_irrefl next)
  by_cases hlt : name < it.1
  · have hf : f.attached name next = { f with missed := f.missed ++ [next] } := by
      rw [Frame.attached, hp]
      exact if_pos hlt
    rw [hf]
    refine ⟨h.ordered, h.behind, fun e he => ?_, fun e he hmem => ?_, fun e he => ?_,
      h.since_le.trans (Nat.le_succ next), fun id hid => ?_, h.started⟩
    · rcases hnew e he with rfl | he
      · refine iff_of_true ?_ (Or.inr (List.mem_append_right _ (List.mem_singleton_self _)))
        show Point.Passed name f.point
        rw [hp]
        exact le_of_lt hlt
      · have hid := Nat.ne_of_lt (hentries e he)
        show f.point.Passed e.1 ↔ e ∈ f.seen ∨ e.2.id ∈ f.missed ++ [next]
        rw [h.covers e he, List.mem_append, List.mem_singleton]
        simp [hid]
    · rcases List.mem_append.mp hmem with hmem | hmem
      · exact h.apart e he hmem
      · exact absurd (List.mem_singleton.mp hmem) (Nat.ne_of_lt (h.seen_lt e he))
    · exact Nat.lt_succ_of_lt (h.seen_lt e he)
    · rcases List.mem_append.mp hid with hid | hid
      · exact ⟨(h.missed id hid).1, Nat.lt_succ_of_lt (h.missed id hid).2⟩
      · obtain rfl := List.mem_singleton.mp hid
        exact ⟨h.since_le, Nat.lt_succ_self _⟩
  · have hf : f.attached name next = f := by
      rw [Frame.attached, hp]
      exact if_neg hlt
    rw [hf]
    refine ⟨h.ordered, h.behind, fun e he => ?_, h.apart,
      fun e he => Nat.lt_succ_of_lt (h.seen_lt e he), h.since_le.trans (Nat.le_succ next),
      fun id hid => ⟨(h.missed id hid).1, Nat.lt_succ_of_lt (h.missed id hid).2⟩, h.started⟩
    rcases hnew e he with rfl | he
    · refine iff_of_false ?_ ?_
      · rw [hp]
        exact fun hle => hne (le_antisymm hle (not_lt.mp hlt))
      · rintro (hmem | hmem)
        · exact hfresh hmem
        · exact absurd (h.missed _ hmem).2 (Nat.lt_irrefl next)
    · exact h.covers e he

/-- The loop calls the receiver at its iterator. -/
theorem Swept.called {m : Receivers R} {next : ℕ} {f : Frame R} (h : Swept m next f)
    {it : Str × Node R} (hp : f.point = .testing (some it)) (hit : it ∈ m.entries)
    (hid : it.2.id < next) :
    Swept m next { f with point := .calling it, seen := f.seen ++ [it] } := by
  have hbehind : ∀ e ∈ f.seen, e.1 < it.1 := by
    intro e he
    have hpassed := h.behind e he
    rw [hp] at hpassed
    exact hpassed
  have hcovers : ∀ e ∈ m.entries, e.1 < it.1 ↔ e ∈ f.seen ∨ e.2.id ∈ f.missed := by
    intro e he
    rw [← h.covers e he, hp]
    exact Iff.rfl
  have hfresh : it ∉ f.seen ∧ it.2.id ∉ f.missed :=
    not_or.mp fun hor => lt_irrefl _ ((hcovers it hit).mpr hor)
  refine ⟨List.pairwise_append.mpr ⟨h.ordered, List.pairwise_singleton _ _, ?_⟩, ?_, ?_, ?_, ?_,
    h.since_le, h.missed, h.started⟩
  · intro a ha b hb
    obtain rfl := List.mem_singleton.mp hb
    exact hbehind a ha
  · intro e he
    rcases List.mem_append.mp he with he | he
    · exact le_of_lt (hbehind e he)
    · obtain rfl := List.mem_singleton.mp he
      exact le_refl e.1
  · intro e he
    show e.1 ≤ it.1 ↔ e ∈ f.seen ++ [it] ∨ e.2.id ∈ f.missed
    rw [le_iff_lt_or_eq, hcovers e he, List.mem_append, List.mem_singleton]
    have heq : e.1 = it.1 ↔ e = it := by
      refine ⟨fun hkey => ?_, fun heq => by rw [heq]⟩
      have hfind := OrderedMap.find?_of_mem he
      rw [hkey, OrderedMap.find?_of_mem hit] at hfind
      exact Prod.ext hkey (Option.some.inj hfind).symm
    rw [heq]
    exact or_right_comm
  · intro e he
    rcases List.mem_append.mp he with he | he
    · exact h.apart e he
    · obtain rfl := List.mem_singleton.mp he
      exact hfresh.2
  · intro e he
    rcases List.mem_append.mp he with he | he
    · exact h.seen_lt e he
    · obtain rfl := List.mem_singleton.mp he
      exact hid

/-- The loop advances its iterator. -/
theorem Swept.advanced {m : Receivers R} {next : ℕ} {f : Frame R} (h : Swept m next f)
    {it : Str × Node R} (hp : f.point = .calling it) :
    Swept m next { f with point := .testing (m.next? it.1) } := by
  have hbehind : ∀ e ∈ f.seen, e.1 ≤ it.1 := by
    intro e he
    have hpassed := h.behind e he
    rw [hp] at hpassed
    exact hpassed
  have hpassed : ∀ k, k ≤ it.1 → Point.Passed k (.testing (m.next? it.1) : Point R) := by
    intro k hk
    cases hnext : m.next? it.1 with
    | none => trivial
    | some e => exact lt_of_le_of_lt hk (OrderedMap.find?_of_next? hnext).2
  refine ⟨h.ordered, fun e he => hpassed e.1 (hbehind e he), fun e he => ?_, h.apart, h.seen_lt,
    h.since_le, h.missed, h.started⟩
  rw [← h.covers e he, hp]
  refine ⟨fun hpass => ?_, hpassed e.1⟩
  cases hnext : m.next? it.1 with
  | none => exact OrderedMap.le_of_next?_eq_none hnext he
  | some e' =>
      rw [hnext] at hpass
      exact OrderedMap.le_of_next? hnext he hpass

/-- A loop that begins. -/
theorem Swept.begin {m : Receivers R} {next : ℕ} (hentries : ∀ e ∈ m.entries, e.2.id < next)
    (message : Str) : Swept m next ⟨message, .testing m.first?, [], [], next, m⟩ := by
  refine ⟨List.Pairwise.nil, by simp, fun e he => ?_, by simp, by simp, Nat.le_refl next, by simp,
    hentries⟩
  refine iff_of_false (fun hpass => ?_) (by simp)
  cases hfirst : m.first? with
  | none =>
      have hnil : m.entries = [] := List.head?_eq_none_iff.mp hfirst
      rw [hnil] at he
      exact absurd he List.not_mem_nil
  | some e' =>
      rw [hfirst] at hpass
      exact absurd (OrderedMap.le_of_first? hfirst he) (not_le.mpr hpass)

/-! ## Main result -/

/-- What a call of `notify` has done when it is over. -/
structure Notified (d : Finished R) : Prop where
  /-- It has called the receivers in the order of their names, none of them twice. -/
  ordered : d.frame.seen.Pairwise fun a b => a.1 < b.1
  /-- And each one that was attached all the time. -/
  throughout : ∀ e ∈ d.frame.started.entries, e ∈ d.ended.entries → e ∈ d.frame.seen
  /-- One that was attached meanwhile is called unless it was attached behind the loop. -/
  meanwhile : ∀ e ∈ d.ended.entries, e ∈ d.frame.seen ↔ e.2.id ∉ d.frame.missed

/-- The loops under way, and the calls that are over. -/
structure Law (s : Sys R) : Prop where
  frames : ∀ f ∈ s.frames, Swept s.receivers s.next f
  finished : ∀ d ∈ s.finished, Notified d

/-- A loop at its end. -/
theorem Swept.ended {m : Receivers R} {next : ℕ} {f : Frame R} (h : Swept m next f)
    (hp : f.point = .testing none) : Notified ⟨f, m⟩ := by
  have hall : ∀ e ∈ m.entries, e ∈ f.seen ∨ e.2.id ∈ f.missed := by
    intro e he
    rw [← h.covers e he, hp]
    trivial
  refine ⟨h.ordered, fun e hstarted he => ?_, fun e he => ?_⟩
  · refine (hall e he).resolve_right fun hmem => ?_
    exact absurd (h.started e hstarted) (not_lt.mpr (h.missed _ hmem).1)
  · exact ⟨h.apart e, (hall e he).resolve_right⟩

/-- **Step lemma.** -/
theorem Law.move {s t : Sys R} {a : Label R} (h : Law s) (hvalid : Valid s) (htidy : Tidy s)
    (hm : Move s a t) : Law t := by
  -- the innermost loop moves
  have hhead : ∀ {f g : Frame R} {rest : List (Frame R)}, s.frames = f :: rest →
      (Swept s.receivers s.next f → Swept s.receivers s.next g) →
      ∀ f ∈ g :: rest, Swept s.receivers s.next f := by
    intro f g rest hs himp
    have hframes := h.frames
    rw [hs] at hframes
    obtain ⟨hf, hrest⟩ := List.forall_mem_cons.mp hframes
    exact List.forall_mem_cons.mpr ⟨himp hf, hrest⟩
  cases hm with
  | attachedAgain name receiver hruns hkey => exact h
  | attached name receiver hruns hkey =>
      refine ⟨fun f hf => ?_, h.finished⟩
      obtain ⟨g, hg, rfl⟩ := List.mem_map.mp hf
      exact (h.frames g hg).attached (hvalid g hg) (htidy.inCall hruns g hg) htidy.entries
        receiver hkey
  | dettached name hruns =>
      refine ⟨fun f hf => ?_, h.finished⟩
      obtain ⟨hordered, hbehind, hcovers, hrest⟩ := h.frames f hf
      exact ⟨hordered, hbehind, fun e he => hcovers e (List.mem_of_mem_filter he), hrest,
        (h.frames f hf).seen_lt, (h.frames f hf).since_le, (h.frames f hf).missed,
        (h.frames f hf).started⟩
  | notified message hruns =>
      exact ⟨List.forall_mem_cons.mpr ⟨Swept.begin htidy.entries message, h.frames⟩, h.finished⟩
  | ended f rest hf hp =>
      have hframes := h.frames
      rw [hf] at hframes
      obtain ⟨hswept, hrest⟩ := List.forall_mem_cons.mp hframes
      refine ⟨hrest, fun d hd => ?_⟩
      rcases List.mem_append.mp hd with hd | hd
      · exact h.finished d hd
      · obtain rfl := List.mem_singleton.mp hd
        exact hswept.ended hp
  | called f rest it hf hp =>
      refine ⟨hhead hf fun hswept => ?_, h.finished⟩
      have hit := (hvalid.head hf).1
      rw [hp] at hit
      exact hswept.called hp hit (htidy.entries it hit)
  | advanced f rest it hf hp hpresent =>
      exact ⟨hhead hf fun hswept => hswept.advanced hp, h.finished⟩
  | dangled f rest it hf hp hgone =>
      have hpresent := (hvalid.head hf).1
      rw [hp] at hpresent
      exact absurd (hpresent.symm.trans hgone) (by simp)

/-- **`notify` calls every receiver once.**  In every run in which nobody dettaches a name that
a loop is at, whatever the receivers do otherwise: each call that is over has called the
receivers in the order of their names, none of them twice, and every one that was attached all
the time. -/
theorem notify_once {s : Sys R} (h : (system R).Reachable keepsVisited s) :
    ∀ d ∈ s.finished, Notified d := by
  have hinv : Valid s ∧ Law s := by
    refine LTS.Reachable.induction (I := fun s => Valid s ∧ Law s) ?_ ?_ h
    · rintro _ rfl
      exact ⟨fun f hf => absurd hf List.not_mem_nil,
        ⟨fun f hf => absurd hf List.not_mem_nil, fun d hd => absurd hd List.not_mem_nil⟩⟩
    · rintro s a t hreach ⟨hvalid, hlaw⟩ hok hstep
      have hm := move_of_step hstep
      exact ⟨hvalid.move hok hm, hlaw.move hvalid (tidy_of_reachable hreach) hm⟩
  exact hinv.2.finished

/-- `notify_once` at that run. -/
theorem notify_once_reentrant : ∃ s : Sys ℕ,
    s.finished.map (fun d => d.frame.seen.map fun e => e.2.receiver) =
      [[4, 2, 3, 5], [1, 2, 3, 5]] ∧ ∀ d ∈ s.finished, Notified d := by
  obtain ⟨s, hpath, hcalled⟩ := reentrantRun_path
  exact ⟨s, hcalled, notify_once ⟨reentrantRun, fresh, rfl, hpath⟩⟩

end Sender
