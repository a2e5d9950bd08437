/-
# The factory and its registrations (`src/factory.hpp`)

A `FactoryRegister` enters its own address into the process-wide `instanceMap` when it is
constructed, and leaves it there when it is destroyed.  `Factory::get` calls `instance()`
through whatever `operator[]` gives, also through the null pointer that `operator[]` has
just stored under a name nobody registered.

A `FactoryRegister` is known by the number of its construction and by the address where it
lives, which a later one can take over.  `sound_iff` says that `get` is sound exactly as
long as it is called with names whose last registration is alive.
-/
import CppShared.Bytes
import CppShared.OrderedMap
import CppShared.Transition
import Mathlib.Logic.Function.Basic

open OrderedMap (latest)

namespace Factory

/-- A constructed `FactoryRegister`. -/
structure Registration where
  id : ℕ
  addr : ℕ
  deriving DecidableEq, Repr

/-- `std::map<std::string, AbstractFactory<BasicType>*>`. -/
abbrev InstanceMap := OrderedMap Str (Option ℕ)

/-- `registerType`. -/
def registerType (instanceMap : InstanceMap) (typeInstance : Option ℕ) (name : Str) :
    InstanceMap :=
  instanceMap.assign name typeInstance

/-- The pointer that `get` goes through; the map afterwards comes first. -/
def lookup (instanceMap : InstanceMap) (name : Str) : InstanceMap × Option ℕ :=
  instanceMap.index name none

/-- What the last step was. -/
inductive Outcome
  | quiet
  /-- `get` with this name has called `instance()` on the object with this number. -/
  | called (name : Str) (id : ℕ)
  /-- `get` has gone through a null pointer, or through one to a destroyed object. -/
  | undefined
  deriving DecidableEq, Repr

/-- The factory and the objects: `objects a` is the number of the object that lives at the
address `a`.  `history` records the registrations. -/
structure Sys where
  instanceMap : InstanceMap
  objects : ℕ → Option ℕ
  history : List (Str × Registration)
  outcome : Outcome

/-- A step of the program. -/
inductive Label
  /-- A `FactoryRegister` is constructed at a free address. -/
  | construct (name : Str) (addr : ℕ)
  /-- The `FactoryRegister` at this address is destroyed. -/
  | destroy (addr : ℕ)
  | get (name : Str)
  deriving DecidableEq, Repr

/-- `FactoryRegister(name)` at the address `addr`. -/
def construct (s : Sys) (name : Str) (addr : ℕ) : Sys where
  instanceMap := registerType s.instanceMap (some addr) name
  objects := Function.update s.objects addr (some s.history.length)
  history := s.history ++ [(name, ⟨s.history.length, addr⟩)]
  outcome := .quiet

/-- `get`. -/
def get (s : Sys) (name : Str) : Sys :=
  let r := lookup s.instanceMap name
  { s with
    instanceMap := r.1
    outcome := (r.2.bind s.objects).elim .undefined (.called name) }

/-- One step; after undefined behaviour there is none. -/
def step (s : Sys) (a : Label) : Option Sys :=
  if s.outcome = .undefined then none
  else
    match a with
    | .construct name addr =>
        if s.objects addr = none then some (construct s name addr) else none
    | .destroy addr =>
        if s.objects addr = none then none
        else
          some { s with objects := Function.update s.objects addr none, outcome := .quiet }
    | .get name => some (get s name)

/-- The factory before the first registration. -/
def fresh : Sys where
  instanceMap := .empty
  objects _ := none
  history := []
  outcome := .quiet

/-- The program that uses the factory. -/
def system : LTS Sys Label where
  init s := s = fresh
  step := step

/-- The steps. -/
inductive Move (s : Sys) : Label → Sys → Prop
  | constructed (name : Str) (addr : ℕ) : Move s (.construct name addr) (construct s name addr)
  | destroyed (addr : ℕ) :
      Move s (.destroy addr)
        { s with objects := Function.update s.objects addr none, outcome := .quiet }
  | got (name : Str) : Move s (.get name) (get s name)

/-- **Inversion.**  Every step is one of the moves, out of a defined state. -/
theorem move_of_step {s t : Sys} {a : Label} (h : step s a = some t) :
    s.outcome ≠ .undefined ∧ Move s a t := by
  obtain ⟨hdefined, h⟩ := Option.ite_none_left_eq_some.mp h
  refine ⟨hdefined, ?_⟩
  cases a with
  | construct name addr =>
      obtain ⟨-, h⟩ := Option.ite_none_right_eq_some.mp h
      obtain rfl := Option.some.inj h
      exact .constructed name addr
  | destroy addr =>
      obtain ⟨-, h⟩ := Option.ite_none_left_eq_some.mp h
      obtain rfl := Option.some.inj h
      exact .destroyed addr
  | get name =>
      obtain rfl := Option.some.inj h
      exact .got name

/-! ## What the map holds -/

/-- The object of a registration has not been destroyed. -/
def Alive (s : Sys) (r : Registration) : Prop := s.objects r.addr = some r.id

/-- The map holds the address of the last registration under each name. -/
def Tracks (s : Sys) : Prop :=
  ∀ name, s.instanceMap.find? name = (latest name s.history).map fun r => some r.addr

/-- A `get` of a registered name leaves the map alone. -/
theorem get_of_latest {s : Sys} (hs : Tracks s) {name : Str} {r : Registration}
    (hr : latest name s.history = some r) :
    get s name = { s with outcome := (s.objects r.addr).elim .undefined (.called name) } := by
  have hfind : s.instanceMap.find? name = some (some r.addr) := by
    rw [hs name, hr]
    rfl
  simp only [get, lookup, OrderedMap.index_of_find? hfind, Option.bind_some]

/-- A `get` of any other name goes through a null pointer. -/
theorem get_of_none {s : Sys} (hs : Tracks s) {name : Str} (hr : latest name s.history = none) :
    (get s name).outcome = .undefined := by
  have hfind : s.instanceMap.find? name = none := by
    rw [hs name, hr]
    rfl
  simp only [get, lookup, OrderedMap.index_of_none hfind, Option.bind_none, Option.elim_none]

/-- **Step lemma.**  The map follows the registrations, until `get` goes through a null
pointer. -/
theorem Move.tracks {s t : Sys} {a : Label} (h : Move s a t) (hs : Tracks s)
    (ht : t.outcome ≠ .undefined) : Tracks t := by
  cases h with
  | constructed name addr =>
      exact OrderedMap.find?_assign_latest (f := fun r : Registration => some r.addr) hs name
        ⟨s.history.length, addr⟩
  | destroyed addr => exact hs
  | got name =>
      cases hr : latest name s.history with
      | none => exact absurd (get_of_none hs hr) ht
      | some r =>
          rw [get_of_latest hs hr]
          exact hs

theorem tracks_of_reachable {ok : Sys → Label → Prop} {s : Sys} (h : system.Reachable ok s)
    (hs : s.outcome ≠ .undefined) : Tracks s := by
  revert hs
  refine LTS.Reachable.induction (I := fun s => s.outcome ≠ .undefined → Tracks s) ?_ ?_ h
  · rintro _ rfl _ name
    rfl
  · intro s a t _ ih _ hstep ht
    obtain ⟨hdefined, hmove⟩ := move_of_step hstep
    exact hmove.tracks (ih hdefined) ht

/-! ## Soundness -/

/-- No invalid pointer was used, `instance()` was called on the last object registered
under the name, which is alive, and the names of the map are the registered ones. -/
structure Sound (s : Sys) : Prop where
  defined : s.outcome ≠ .undefined
  callee : ∀ name id, s.outcome = .called name id →
    ∃ r, latest name s.history = some r ∧ r.id = id ∧ Alive s r
  names : ∀ name, name ∈ s.instanceMap.keys ↔ name ∈ s.history.map Prod.fst

/-- `get` is called with a name whose last registration is alive. -/
def getsLive (s : Sys) : Label → Prop
  | .get name => ∃ r ∈ latest name s.history, s.objects r.addr = some r.id
  | _ => True

instance (s : Sys) (a : Label) : Decidable (getsLive s a) :=
  match a with
  | .get name =>
      inferInstanceAs (Decidable (∃ r ∈ latest name s.history, s.objects r.addr = some r.id))
  | .construct _ _ | .destroy _ => inferInstanceAs (Decidable True)

/-- **Step lemma.**  Every step but a `get` without a live registration is sound. -/
theorem Move.sound {s t : Sys} {a : Label} (h : Move s a t) (hs : Tracks s)
    (hok : getsLive s a) : Sound t := by
  have hnames : Tracks t → ∀ name, name ∈ t.instanceMap.keys ↔ name ∈ t.history.map Prod.fst :=
    fun ht => OrderedMap.mem_keys_iff_mem_history (f := fun r : Registration => some r.addr) ht
  have htracks := h.tracks hs
  cases h with
  | constructed name addr | destroyed addr =>
      have hquiet : ∀ name id, Outcome.quiet ≠ .called name id := fun _ _ => by simp
      exact ⟨by simp [construct], fun name id hcall => absurd hcall (hquiet name id),
        hnames (htracks (by simp [construct]))⟩
  | got name =>
      obtain ⟨r, hr, halive⟩ := hok
      have hget : get s name = { s with outcome := .called name r.id } := by
        rw [get_of_latest hs hr, halive]
        rfl
      rw [hget] at htracks hnames ⊢
      refine ⟨by simp, fun name' id hcall => ?_, hnames (htracks (by simp))⟩
      obtain ⟨rfl, rfl⟩ := Outcome.called.inj hcall
      exact ⟨r, hr, rfl, halive⟩

/-- A `get` without a live registration is not: the pointer is null, or what it points to
is not there any more. -/
theorem not_sound_get {s : Sys} (hs : Tracks s) {name : Str} (hnot : ¬getsLive s (.get name)) :
    ¬Sound (get s name) := by
  intro hsound
  cases hr : latest name s.history with
  | none => exact hsound.defined (get_of_none hs hr)
  | some r =>
      rw [get_of_latest hs hr] at hsound
      cases hobject : s.objects r.addr with
      | none =>
          rw [hobject] at hsound
          exact hsound.defined rfl
      | some id =>
          -- another object lives at the address now
          rw [hobject] at hsound
          obtain ⟨r', hr', -, halive⟩ := hsound.callee name id rfl
          obtain rfl := Option.some.inj (hr.symm.trans hr')
          exact hnot ⟨r, hr, halive⟩

/-- **The factory uses no missing or dead registration** in exactly the runs in which every
name that `get` is called with has a last registration that is alive. -/
theorem sound_iff {s : Sys} {as : List Label}
    (h : system.Path (fun _ _ => True) fresh as s) :
    (∀ bs t, bs <+: as → system.Path (fun _ _ => True) fresh bs t → Sound t) ↔
      system.Path getsLive fresh as s := by
  have h₀ : system.init fresh := rfl
  apply LTS.Path.always_iff h₀ h
  · rintro _ rfl
    exact ⟨by simp [fresh], by simp [fresh], by simp [fresh, OrderedMap.keys, OrderedMap.empty]⟩
  · intro s a t hreach hs hok hstep
    exact (move_of_step hstep).2.sound (tracks_of_reachable hreach hs.defined) hok
  · intro s a t hreach _ hnot hstep
    obtain ⟨hdefined, hmove⟩ := move_of_step hstep
    cases hmove with
    | got name => exact not_sound_get (tracks_of_reachable hreach hdefined) hnot
    | _ => exact absurd trivial hnot
  · exact fun _ _ _ => trivial

/-- Two registrations under one name; the later one goes first. -/
def twoCatsRun : List Label :=
  [.construct (str "cat") 0, .get (str "cat"), .construct (str "cat") 1, .get (str "cat"),
    .destroy 1]

/-- `sound_iff` at that run. -/
theorem sound_iff_twoCats : ∃ s,
    (∀ bs t, bs <+: twoCatsRun → system.Path (fun _ _ => True) fresh bs t → Sound t) ↔
      system.Path getsLive fresh twoCatsRun s :=
  ⟨_, sound_iff (LTS.path_of_exec (show LTS.exec _ _ _ twoCatsRun = some _ from rfl))⟩

/-- A name that nobody has registered is asked for. -/
theorem get_unregistered : ¬∀ s, system.Reachable (fun _ _ => True) s → Sound s := by
  intro hall
  have hreach : system.Reachable (fun _ _ => True) _ :=
    LTS.reachable_of_exec rfl
      (show LTS.exec _ _ fresh
        [.construct (str "cat") 0, .get (str "cow")] = some _ from rfl)
  exact (hall _ hreach).defined (by decide)

end Factory
