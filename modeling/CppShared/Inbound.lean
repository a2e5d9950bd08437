/-
# The receiving end of a connection

A reliable stream as its receiver sees it: what the other side has sent arrives in order, and
waits until it is taken, a piece at a time.  The other side can send, finish and reset the
connection at any time.  That nothing is lost or doubled on the way is a field of the structure.

A receiver with many connections keeps a log of the pieces that it takes, each with the number of
its connection (`Logged`).
-/
import CppShared.Table
import Mathlib.Data.List.Infix

/-- How far the other side is with its end. -/
inductive Peer
  | sending
  | finished
  | reset
  deriving DecidableEq, Repr

/-- What was sent, in the two parts that were taken and wait. -/
structure Inbound (α : Type*) where
  sent : List α
  taken : List α
  waiting : List α
  peer : Peer
  whole : taken ++ waiting = sent
  deriving DecidableEq

/-- What the other side does. -/
inductive Deed (α : Type*)
  | send (items : List α)
  | finish
  | reset
  deriving DecidableEq, Repr

namespace Inbound

variable {α : Type*}

/-- A new connection. -/
def new : Inbound α := ⟨[], [], [], .sending, rfl⟩

/-- A receive would return. -/
def Readable (l : Inbound α) : Prop := l.waiting ≠ [] ∨ l.peer ≠ .sending

/-- A receive may return with nothing: at the end of the stream, and with an error. -/
def Ended (l : Inbound α) : Prop := l.peer = .reset ∨ l.peer = .finished ∧ l.waiting = []

/-- What a receive of at most `n` items may return. -/
def Gives (l : Inbound α) (n : ℕ) (content : List α) : Prop :=
  content <+: l.waiting ∧ content.length ≤ n ∧ (content = [] → l.Ended)

instance [DecidableEq α] (l : Inbound α) : Decidable l.Readable :=
  inferInstanceAs (Decidable (_ ∨ _))

instance [DecidableEq α] (l : Inbound α) : Decidable l.Ended :=
  inferInstanceAs (Decidable (_ ∨ _))

instance [DecidableEq α] (l : Inbound α) (n : ℕ) (content : List α) :
    Decidable (l.Gives n content) :=
  inferInstanceAs (Decidable (_ ∧ _))

/-- After a receive. -/
def take (l : Inbound α) (content : List α) (h : content <+: l.waiting) : Inbound α :=
  { l with
    taken := l.taken ++ content
    waiting := l.waiting.drop content.length
    whole := by
      obtain ⟨rest, hrest⟩ := h
      rw [← hrest, List.drop_left, List.append_assoc, hrest]
      exact l.whole }

/-- After a deed of the other side. -/
def after (l : Inbound α) : Deed α → Option (Inbound α)
  | .send items =>
      if l.peer = .sending then
        some { l with
          sent := l.sent ++ items
          waiting := l.waiting ++ items
          whole := by rw [← List.append_assoc, l.whole] }
      else none
  | .finish => if l.peer = .sending then some { l with peer := .finished } else none
  | .reset => some { l with peer := .reset }

/-- The other side takes nothing, and what could be received still can. -/
structure Grows (l l' : Inbound α) : Prop where
  taken : l'.taken = l.taken
  readable : l.Readable → l'.Readable
  ended : l.Ended → l'.Ended

theorem not_ended_of_sending {l : Inbound α} (h : l.peer = .sending) : ¬l.Ended := by
  rintro (hreset | ⟨hfinished, -⟩)
  · rw [h] at hreset
    cases hreset
  · rw [h] at hfinished
    cases hfinished

theorem grows_of_after {l l' : Inbound α} {d : Deed α} (h : l.after d = some l') :
    l.Grows l' := by
  cases d with
  | send items =>
      obtain ⟨hsending, h⟩ := Option.ite_none_right_eq_some.mp h
      obtain rfl := Option.some.inj h
      refine ⟨rfl, ?_, fun hended => absurd hended (not_ended_of_sending hsending)⟩
      rintro (hwaiting | hpeer)
      · exact Or.inl fun hnil => hwaiting (List.append_eq_nil_iff.mp hnil).1
      · exact absurd hsending hpeer
  | finish =>
      obtain ⟨hsending, h⟩ := Option.ite_none_right_eq_some.mp h
      obtain rfl := Option.some.inj h
      exact ⟨rfl, fun _ => Or.inr (by simp),
        fun hended => absurd hended (not_ended_of_sending hsending)⟩
  | reset =>
      obtain rfl := Option.some.inj h
      exact ⟨rfl, fun _ => Or.inr (by simp), fun _ => Or.inl rfl⟩

/-- A receive from a readable connection returns. -/
theorem Readable.exists_gives {l : Inbound α} (h : l.Readable) {n : ℕ} (hn : 0 < n) :
    ∃ content, l.Gives n content := by
  by_cases hwaiting : l.waiting = []
  · refine ⟨[], List.nil_prefix, Nat.zero_le n, fun _ => ?_⟩
    cases hpeer : l.peer with
    | sending => exact absurd hpeer (h.resolve_left fun hne => hne hwaiting)
    | finished => exact Or.inr ⟨hpeer, hwaiting⟩
    | reset => exact Or.inl hpeer
  · refine ⟨l.waiting.take n, List.take_prefix _ _, List.length_take_le _ _, fun hnil => ?_⟩
    rcases List.take_eq_nil_iff.mp hnil with hzero | hnil
    · exact absurd hzero hn.ne'
    · exact absurd hnil hwaiting

/-- And from one that is not readable it does not. -/
theorem Gives.readable {l : Inbound α} {n : ℕ} {content : List α} (h : l.Gives n content) :
    l.Readable := by
  obtain ⟨hfront, -, hended⟩ := h
  by_cases hnil : content = []
  · refine Or.inr fun hsending => not_ended_of_sending hsending (hended hnil)
  · refine Or.inl fun hwaiting => hnil ?_
    rw [hwaiting] at hfront
    exact List.prefix_nil.mp hfront

/-- Where nothing waits everything was taken. -/
theorem taken_eq_sent {l : Inbound α} (h : l.waiting = []) : l.taken = l.sent := by
  have hwhole := l.whole
  rwa [h, List.append_nil] at hwhole

/-! ## Many connections -/

/-- What a log has of a connection: its pieces, one behind the other. -/
def joined (log : List (ℕ × List α)) (i : ℕ) : List α :=
  (log.filterMap fun p => if p.1 = i then some p.2 else none).flatten

theorem joined_concat (log : List (ℕ × List α)) (i j : ℕ) (piece : List α) :
    joined (log ++ [(i, piece)]) j = joined log j ++ if i = j then piece else [] := by
  unfold joined
  rw [List.filterMap_append, List.flatten_append]
  congr 1
  by_cases hij : i = j
  · simp [hij]
  · simp [hij]

theorem joined_eq_nil {log : List (ℕ × List α)} {i : ℕ} (h : ∀ p ∈ log, p.1 ≠ i) :
    joined log i = [] := by
  rw [joined, List.filterMap_eq_nil_iff.mpr fun p hp => if_neg (h p hp)]
  rfl

/-- The log has what was taken, connection by connection. -/
structure Logged (lines : List (Inbound α)) (log : List (ℕ × List α)) : Prop where
  taken : ∀ (i : ℕ) l, lines[i]? = some l → joined log i = l.taken
  bound : ∀ p ∈ log, p.1 < lines.length

theorem Logged.nil : Logged ([] : List (Inbound α)) [] := ⟨by simp, by simp⟩

/-- A new connection. -/
theorem Logged.snoc {lines : List (Inbound α)} {log : List (ℕ × List α)} (h : Logged lines log) :
    Logged (lines ++ [.new]) log := by
  refine ⟨fun j l hl => ?_, fun p hp => ?_⟩
  · rcases getElem?_concat_iff.mp hl with hl | ⟨rfl, rfl⟩
    · exact h.taken j l hl
    · exact joined_eq_nil fun p hp => Nat.ne_of_lt (h.bound p hp)
  · rw [List.length_append]
    exact Nat.lt_of_lt_of_le (h.bound p hp) (Nat.le_add_right _ _)

/-- A connection from which nothing is taken. -/
theorem Logged.set {lines : List (Inbound α)} {log : List (ℕ × List α)} (h : Logged lines log)
    {i : ℕ} {l l' : Inbound α} (hi : lines[i]? = some l) (htaken : l'.taken = l.taken) :
    Logged (lines.set i l') log := by
  refine ⟨fun j e he => ?_, fun p hp => (h.bound p hp).trans_eq List.length_set.symm⟩
  rcases (getElem?_set_iff hi).mp he with ⟨rfl, rfl⟩ | ⟨-, he⟩
  · exact (h.taken j l hi).trans htaken.symm
  · exact h.taken j e he

/-- A piece is taken. -/
theorem Logged.take {lines : List (Inbound α)} {log : List (ℕ × List α)} (h : Logged lines log)
    {i : ℕ} {l : Inbound α} (hi : lines[i]? = some l) {content : List α}
    (hfront : content <+: l.waiting) :
    Logged (lines.set i (l.take content hfront)) (log ++ [(i, content)]) := by
  refine ⟨fun j e he => ?_, fun p hp => ?_⟩
  · rw [joined_concat]
    rcases (getElem?_set_iff hi).mp he with ⟨rfl, rfl⟩ | ⟨hij, he⟩
    · rw [if_pos rfl, h.taken j l hi]
      rfl
    · rw [if_neg (Ne.symm hij), List.append_nil]
      exact h.taken j e he
  · rw [List.length_set]
    rcases List.mem_append.mp hp with hp | hp
    · exact h.bound p hp
    · obtain rfl := List.mem_singleton.mp hp
      exact (List.getElem?_eq_some_iff.mp hi).1

/-- What is in the log and what waits is what was sent. -/
theorem Logged.whole {lines : List (Inbound α)} {log : List (ℕ × List α)} (h : Logged lines log)
    {i : ℕ} {l : Inbound α} (hi : lines[i]? = some l) : joined log i ++ l.waiting = l.sent := by
  rw [h.taken i l hi]
  exact l.whole

/-- Where nothing waits everything is in the log. -/
theorem Logged.eq_sent {lines : List (Inbound α)} {log : List (ℕ × List α)} (h : Logged lines log)
    {i : ℕ} {l : Inbound α} (hi : lines[i]? = some l) (hnil : l.waiting = []) :
    joined log i = l.sent := (h.taken i l hi).trans (taken_eq_sent hnil)

end Inbound
