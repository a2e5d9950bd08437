/-
# The FIFO queue with history

What a first-in first-out channel is for, stated without any thread: values are
pushed at one end and popped at the other, and the state remembers every value
ever pushed (`accepted`) and popped (`taken`).  The law of the queue
(`fifo_law`) is that the accepted values are the taken ones followed by the
content: nothing is lost, duplicated or reordered.

A concrete queue obeys the law once its runs refine this machine
(`fifo_law_of_refines`).
-/
import CppShared.Transition

variable {α σ β : Type*}

/-- A queue together with everything that went in and came out. -/
structure FifoState (α : Type*) where
  accepted : List α
  taken : List α
  content : List α

/-- The two operations of the queue. -/
inductive FifoOp (α : Type*)
  | push (x : α)
  | pop

namespace FifoState

/-- The queue before the first operation. -/
def empty : FifoState α := ⟨[], [], []⟩

/-- One operation; `pop` is disabled on the empty queue. -/
def step (q : FifoState α) : FifoOp α → Option (FifoState α)
  | .push x => some ⟨q.accepted ++ [x], q.taken, q.content ++ [x]⟩
  | .pop =>
      match q.content with
      | [] => none
      | x :: rest => some ⟨q.accepted, q.taken ++ [x], rest⟩

/-- The law of the queue. -/
def Law (q : FifoState α) : Prop := q.accepted = q.taken ++ q.content

/-- An operation keeps the law. -/
theorem law_step {q r : FifoState α} {op : FifoOp α} (h : q.Law)
    (hstep : q.step op = some r) : r.Law := by
  unfold Law at h ⊢
  cases op with
  | push x =>
      obtain rfl := Option.some.inj hstep
      simp [h]
  | pop =>
      cases hc : q.content with
      | nil => simp [step, hc] at hstep
      | cons x rest =>
          obtain rfl : _ = r := by simpa [step, hc] using hstep
          simp [h, hc]

end FifoState

/-- The queue as a transition system. -/
def fifo (α : Type*) : LTS (FifoState α) (FifoOp α) where
  init q := q = FifoState.empty
  step := FifoState.step

/-- **The FIFO law** holds in every reachable state of the queue. -/
theorem fifo_law {q : FifoState α} (h : (fifo α).Reachable (fun _ _ => True) q) :
    q.accepted = q.taken ++ q.content := by
  refine LTS.Reachable.induction (I := FifoState.Law) ?_ ?_ h
  · rintro _ rfl
    rfl
  · intro q op r _ hlaw _ hstep
    exact FifoState.law_step hlaw hstep

/-- A system that refines the queue obeys its law. -/
theorem fifo_law_of_refines {M : LTS σ β} {ok : σ → β → Prop} {f : σ → FifoState α}
    (hf : LTS.Refines M ok (fifo α) f) {s : σ} (h : M.Reachable ok s) :
    (f s).accepted = (f s).taken ++ (f s).content :=
  fifo_law (hf.reachable h)

/-- One push, as a path of the queue. -/
theorem fifo_push (q : FifoState α) (x : α) :
    ∃ bs, (fifo α).Path (fun _ _ => True) q bs
      ⟨q.accepted ++ [x], q.taken, q.content ++ [x]⟩ :=
  ⟨[.push x], LTS.Path.single trivial rfl⟩

/-- One pop of a non-empty queue, as a path of the queue. -/
theorem fifo_pop (accepted taken rest : List α) (x : α) :
    ∃ bs, (fifo α).Path (fun _ _ => True) ⟨accepted, taken, x :: rest⟩ bs
      ⟨accepted, taken ++ [x], rest⟩ :=
  ⟨[.pop], LTS.Path.single trivial rfl⟩

/-- A step that leaves the queue alone, as a path of the queue. -/
theorem fifo_idle (q : FifoState α) : ∃ bs, (fifo α).Path (fun _ _ => True) q bs q :=
  ⟨[], LTS.Path.nil q⟩
