/-
# Critical sections, one after another

What mutual exclusion is for, stated without any lock.  A critical section is a small
program: it starts with an argument, accesses a shared value step by step, and at some
point it is at its end.  The environment takes part in an access, and a section may have
more than one outcome.

* `Body.Series` says that a shared value is the result of whole sections, one after
  another;
* `serial` is the machine that lets one section in at a time, and `serial_law` its law: the
  value is the result of the sections that are done, and of the beginning of the one that
  is inside.

A system with threads and a lock obeys the law once it refines the machine
(`serial_law_of_refines`).
-/
import CppShared.Transition

variable {σ ι κ β τ γ : Type*}

/-- A critical section: where it starts for an argument, what an access does to its local
state and to the shared value, and when it is at its end. -/
structure Body (σ ι κ β : Type*) where
  enter : ι → κ
  access : κ → β → σ → Option (κ × σ)
  ended : κ → Bool

namespace Body

variable (B : Body σ ι κ β)

/-- A section without a lock around it: its local state and the shared value. -/
def program : LTS (κ × σ) β where
  init _ := True
  step p b := B.access p.1 b p.2

/-- A section that started with the argument `a` at the value `v` has come to the local
state `k`, and the value to `w`. -/
def Works (a : ι) (v : σ) (k : κ) (w : σ) : Prop :=
  ∃ bs, B.program.Path (fun _ _ => True) (B.enter a, v) bs (k, w)

/-- A whole section. -/
def Effect (a : ι) (v w : σ) : Prop := ∃ k, B.Works a v k w ∧ B.ended k = true

/-- Whole sections, one after another, take the value `v` to `w`. -/
inductive Series (v : σ) : List ι → σ → Prop
  | nil : Series v [] v
  | snoc {as : List ι} {a : ι} {u w : σ} :
      Series v as u → B.Effect a u w → Series v (as ++ [a]) w

variable {B}

theorem Works.start (a : ι) (v : σ) : B.Works a v (B.enter a) v := ⟨[], LTS.Path.nil _⟩

/-- One more access. -/
theorem Works.access {a : ι} {v w : σ} {k : κ} {b : β} {r : κ × σ} (h : B.Works a v k w)
    (hstep : B.access k b w = some r) : B.Works a v r.1 r.2 := by
  obtain ⟨bs, hp⟩ := h
  exact ⟨bs ++ [b], LTS.Path.snoc hp trivial hstep⟩

/-- What holds at the start of a section and is kept by its accesses holds as long as it
works. -/
theorem Works.induction {I : κ → σ → Prop} {a : ι} {v w : σ} {k : κ} (h : B.Works a v k w)
    (hstart : I (B.enter a) v)
    (hstep : ∀ k v b r, I k v → B.access k b v = some r → I r.1 r.2) : I k w := by
  obtain ⟨bs, hp⟩ := h
  exact hp.preserves (I := fun p => I p.1 p.2) hstart
    fun p b q hI _ haccess => hstep p.1 p.2 b q hI haccess

/-- What every whole section keeps holds after a series of them. -/
theorem Series.induction {I : List ι → σ → Prop} {v w : σ} {as : List ι} (h : B.Series v as w)
    (hstart : I [] v)
    (hstep : ∀ as a u w, B.Series v as u → I as u → B.Effect a u w → I (as ++ [a]) w) :
    I as w := by
  induction h with
  | nil => exact hstart
  | snoc hseries heffect ih => exact hstep _ _ _ _ hseries ih heffect

end Body

/-! ## The serial machine -/

/-- The shared value, the section that is inside, and the arguments of those that are
done. -/
structure SerialState (σ ι κ : Type*) where
  value : σ
  inside : Option (ι × κ)
  done : List ι

/-- What happens next. -/
inductive SerialMove (ι β : Type*)
  | enter (a : ι)
  | access (b : β)
  | leave

namespace SerialState

variable (B : Body σ ι κ β)

/-- One section at a time. -/
def step (s : SerialState σ ι κ) : SerialMove ι β → Option (SerialState σ ι κ)
  | .enter a =>
      match s.inside with
      | none => some { s with inside := some (a, B.enter a) }
      | some _ => none
  | .access b =>
      match s.inside with
      | none => none
      | some (a, k) => (B.access k b s.value).map fun r =>
          { s with value := r.2, inside := some (a, r.1) }
  | .leave =>
      match s.inside with
      | none => none
      | some (a, k) =>
          if B.ended k then some { s with inside := none, done := s.done ++ [a] } else none

/-- The value is the result of the sections that are done, and of the beginning of the one
that is inside. -/
def Law (v : σ) (s : SerialState σ ι κ) : Prop :=
  ∃ u, B.Series v s.done u ∧
    match s.inside with
    | none => s.value = u
    | some (a, k) => B.Works a u k s.value

variable {B}

/-- Every move keeps the law. -/
theorem Law.step {v : σ} {s t : SerialState σ ι κ} {m : SerialMove ι β} (h : Law B v s)
    (hstep : step B s m = some t) : Law B v t := by
  obtain ⟨u, hseries, hinside⟩ := h
  cases m with
  | enter a =>
      cases hs : s.inside with
      | none =>
          rw [hs] at hinside
          obtain rfl : _ = t := by simpa [SerialState.step, hs] using hstep
          refine ⟨u, hseries, ?_⟩
          show B.Works a u (B.enter a) s.value
          rw [show s.value = u from hinside]
          exact Body.Works.start a u
      | some p => simp [SerialState.step, hs] at hstep
  | access b =>
      cases hs : s.inside with
      | none => simp [SerialState.step, hs] at hstep
      | some p =>
          rw [hs] at hinside
          simp only [SerialState.step, hs, Option.map_eq_some_iff] at hstep
          obtain ⟨r, haccess, rfl⟩ := hstep
          exact ⟨u, hseries, Body.Works.access hinside haccess⟩
  | leave =>
      cases hs : s.inside with
      | none => simp [SerialState.step, hs] at hstep
      | some p =>
          rw [hs] at hinside
          simp only [SerialState.step, hs] at hstep
          split_ifs at hstep with hended
          obtain rfl := Option.some.inj hstep
          exact ⟨s.value, Body.Series.snoc hseries ⟨p.2, hinside, hended⟩, rfl⟩

end SerialState

/-- The machine, from a shared value on. -/
def serial (B : Body σ ι κ β) (v : σ) : LTS (SerialState σ ι κ) (SerialMove ι β) where
  init s := s = ⟨v, none, []⟩
  step := SerialState.step B

variable {B : Body σ ι κ β} {v : σ}

/-- **The law of the machine.** -/
theorem serial_law {s : SerialState σ ι κ} (h : (serial B v).Reachable (fun _ _ => True) s) :
    SerialState.Law B v s := by
  refine LTS.Reachable.induction (I := SerialState.Law B v) ?_ ?_ h
  · rintro _ rfl
    exact ⟨v, Body.Series.nil, rfl⟩
  · intro s m t _ hs _ hstep
    exact hs.step hstep

/-- A system that refines the machine obeys its law. -/
theorem serial_law_of_refines {M : LTS τ γ} {ok : τ → γ → Prop} {f : τ → SerialState σ ι κ}
    (hf : LTS.Refines M ok (serial B v) f) {s : τ} (h : M.Reachable ok s) :
    SerialState.Law B v (f s) :=
  serial_law (hf.reachable h)
