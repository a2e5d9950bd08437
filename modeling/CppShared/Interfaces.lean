/-
# Methods by name (`src/interface.hpp`)

`Interfaces` keeps a `std::shared_ptr<Method>` under each name.  `registerMethod` forgets
the signature of the function it is given; `invoke<TR, TArgs...>` casts the pointer it
finds to `MethodImpl<TR, TArgs...>`, whatever the object is, and calls its `func`.  It
looks the name up with `methods[name]`, which stores a null pointer under a name that is
not registered.  `operator[]` of `Interfaces` tests for that.

`safe_iff` says that `invoke` is safe exactly as long as each call asks for the very
signature that was registered last under the name.
-/
import CppShared.Bytes
import CppShared.OrderedMap
import CppShared.Transition

open OrderedMap (latest)

namespace Interfaces

/-- The types `TR(TArgs...)`. -/
structure Signature (Ty : Type*) where
  ret : Ty
  args : List Ty
  deriving DecidableEq

/-- An object of a class derived from `Method`: a `MethodImpl` of some signature with its
`func`, or an object of another class. -/
inductive Method (Ty F : Type*)
  | impl (signature : Signature Ty) (func : F)
  | other
  deriving DecidableEq

/-- What the last step was; `V` are the values of the arguments. -/
inductive Outcome (Ty F V : Type*)
  | quiet
  /-- `invoke` of this name, with this signature and these arguments, has called `func`. -/
  | called (name : Str) (signature : Signature Ty) (args : List V) (func : F)
  /-- `invoke` has gone through a null pointer, or through one to an object that is not of
  the class it was cast to. -/
  | undefined
  deriving DecidableEq

variable {Ty F V : Type*}

/-- The registry; `history` records what was registered. -/
structure Sys (Ty F V : Type*) where
  methods : OrderedMap Str (Option (Method Ty F))
  history : List (Str × Option (Method Ty F))
  outcome : Outcome Ty F V

/-- A call of a member function. -/
inductive Label (Ty F V : Type*)
  /-- `registerMethod` with a `std::function` of the signature. -/
  | registerFunction (name : Str) (signature : Signature Ty) (func : F)
  /-- `registerMethod` with a pointer to a method. -/
  | registerMethod (name : Str) (method : Option (Method Ty F))
  /-- `operator[]`. -/
  | lookup (name : Str)
  /-- `invoke<TR, TArgs...>`. -/
  | invoke (name : Str) (signature : Signature Ty) (args : List V)

/-- `registerMethod` with a pointer to a method. -/
def registerMethod (s : Sys Ty F V) (name : Str) (method : Option (Method Ty F)) :
    Sys Ty F V where
  methods := s.methods.assign name method
  history := s.history ++ [(name, method)]
  outcome := .quiet

/-- `registerMethod` with a function, for which it makes a `MethodImpl`. -/
def registerFunction (s : Sys Ty F V) (name : Str) (signature : Signature Ty) (func : F) :
    Sys Ty F V :=
  registerMethod s name (some (.impl signature func))

/-- `operator[]`. -/
def lookup (methods : OrderedMap Str (Option (Method Ty F))) (name : Str) :
    OrderedMap Str (Option (Method Ty F)) × Option (Method Ty F) :=
  if methods.find? name = none then (methods, none) else methods.index name none

/-- `operator[]` never changes the registry. -/
theorem lookup_methods (methods : OrderedMap Str (Option (Method Ty F))) (name : Str) :
    (lookup methods name).1 = methods := by
  unfold lookup
  cases hfind : methods.find? name with
  | none => rfl
  | some method => exact congrArg Prod.fst (OrderedMap.index_of_find? hfind none)

/-- The outcome is undefined behaviour. -/
def Outcome.isUndefined : Outcome Ty F V → Bool
  | .undefined => true
  | _ => false

/-- The registry holds what was registered last under each name. -/
def Tracks (s : Sys Ty F V) : Prop :=
  ∀ name, s.methods.find? name = latest name s.history

/-- A registration overwrites the one before it. -/
theorem Tracks.registerMethod {s : Sys Ty F V} (hs : Tracks s) (name : Str)
    (method : Option (Method Ty F)) : Tracks (Interfaces.registerMethod s name method) := by
  intro k
  have hmap : ∀ k, s.methods.find? k = (latest k s.history).map id := by
    intro k
    rw [hs k, Option.map_id, id]
  have hk := OrderedMap.find?_assign_latest hmap name method k
  rw [Option.map_id] at hk
  exact hk

variable [DecidableEq Ty]

/-- The call through the pointer that was cast to `MethodImpl<TR, TArgs...>*`. -/
def call (name : Str) (signature : Signature Ty) (args : List V) :
    Option (Method Ty F) → Outcome Ty F V
  | some (.impl registered func) =>
      if registered = signature then .called name signature args func else .undefined
  | some .other | none => .undefined

/-- `invoke`. -/
def invoke (s : Sys Ty F V) (name : Str) (signature : Signature Ty) (args : List V) :
    Sys Ty F V :=
  let r := s.methods.index name none
  { s with methods := r.1, outcome := call name signature args r.2 }

/-- One call; after undefined behaviour there is none. -/
def step (s : Sys Ty F V) (a : Label Ty F V) : Option (Sys Ty F V) :=
  if s.outcome.isUndefined then none
  else
    match a with
    | .registerFunction name signature func => some (registerFunction s name signature func)
    | .registerMethod name method => some (registerMethod s name method)
    | .lookup name =>
        some { s with methods := (lookup s.methods name).1, outcome := .quiet }
    | .invoke name signature args => some (invoke s name signature args)

/-- `Interfaces()`. -/
def fresh : Sys Ty F V where
  methods := .empty
  history := []
  outcome := .quiet

/-- The registry and its callers. -/
def system (Ty F V : Type*) [DecidableEq Ty] : LTS (Sys Ty F V) (Label Ty F V) where
  init s := s = fresh
  step := step

/-- The steps. -/
inductive Move (s : Sys Ty F V) : Label Ty F V → Sys Ty F V → Prop
  | registeredFunction (name : Str) (signature : Signature Ty) (func : F) :
      Move s (.registerFunction name signature func)
        (registerMethod s name (some (.impl signature func)))
  | registered (name : Str) (method : Option (Method Ty F)) :
      Move s (.registerMethod name method) (registerMethod s name method)
  | lookedUp (name : Str) : Move s (.lookup name) { s with outcome := .quiet }
  | invoked (name : Str) (signature : Signature Ty) (args : List V) :
      Move s (.invoke name signature args) (invoke s name signature args)

/-- **Inversion.**  Every step is one of the moves, out of a defined state. -/
theorem move_of_step {s t : Sys Ty F V} {a : Label Ty F V} (h : step s a = some t) :
    s.outcome.isUndefined = false ∧ Move s a t := by
  obtain ⟨hdefined, h⟩ := Option.ite_none_left_eq_some.mp h
  refine ⟨by simpa using hdefined, ?_⟩
  cases a with
  | registerFunction name signature func =>
      obtain rfl := Option.some.inj h
      exact .registeredFunction name signature func
  | registerMethod name method =>
      obtain rfl := Option.some.inj h
      exact .registered name method
  | lookup name =>
      obtain rfl := Option.some.inj h
      rw [lookup_methods]
      exact .lookedUp name
  | invoke name signature args =>
      obtain rfl := Option.some.inj h
      exact .invoked name signature args

/-! ## What `invoke` finds -/

/-- An `invoke` of a registered name leaves the registry alone. -/
theorem invoke_of_latest {s : Sys Ty F V} (hs : Tracks s) {name : Str}
    {method : Option (Method Ty F)} (hm : latest name s.history = some method)
    (signature : Signature Ty) (args : List V) :
    invoke s name signature args = { s with outcome := call name signature args method } := by
  have hfind : s.methods.find? name = some method := by
    rw [hs name, hm]
  simp only [invoke, OrderedMap.index_of_find? hfind]

/-- An `invoke` of any other name goes through a null pointer. -/
theorem invoke_of_none {s : Sys Ty F V} (hs : Tracks s) {name : Str}
    (hm : latest name s.history = none) (signature : Signature Ty) (args : List V) :
    (invoke s name signature args).outcome = .undefined := by
  have hfind : s.methods.find? name = none := by
    rw [hs name, hm]
  simp only [invoke, OrderedMap.index_of_none hfind, call]

/-- **Step lemma.**  The registry follows the registrations, until `invoke` goes through
the null pointer under a new name. -/
theorem Move.tracks {s t : Sys Ty F V} {a : Label Ty F V} (h : Move s a t) (hs : Tracks s)
    (ht : t.outcome.isUndefined = false) : Tracks t := by
  cases h with
  | registeredFunction name signature func =>
      exact hs.registerMethod name (some (.impl signature func))
  | registered name method => exact hs.registerMethod name method
  | lookedUp name => exact hs
  | invoked name signature args =>
      cases hm : latest name s.history with
      | none =>
          rw [invoke_of_none hs hm] at ht
          exact absurd ht Bool.noConfusion
      | some method =>
          rw [invoke_of_latest hs hm]
          exact hs

theorem tracks_of_reachable {ok : Sys Ty F V → Label Ty F V → Prop} {s : Sys Ty F V}
    (h : (system Ty F V).Reachable ok s) (hs : s.outcome.isUndefined = false) : Tracks s := by
  revert hs
  refine LTS.Reachable.induction
    (I := fun s : Sys Ty F V => s.outcome.isUndefined = false → Tracks s) ?_ ?_ h
  · rintro _ rfl _ name
    rfl
  · intro s a t _ ih _ hstep ht
    obtain ⟨hdefined, hmove⟩ := move_of_step hstep
    exact hmove.tracks (ih hdefined) ht

/-! ## Safety -/

/-- Every `invoke` was defined and called, with its arguments, the function registered last
under the name, of the very signature it asked for; and the registry holds what was
registered. -/
structure Safe (s : Sys Ty F V) : Prop where
  defined : s.outcome ≠ .undefined
  callee : ∀ name signature args func, s.outcome = .called name signature args func →
    latest name s.history = some (some (.impl signature func))
  registry : ∀ name, s.methods.find? name = latest name s.history

/-- `invoke` asks for the signature that was registered last under the name. -/
def asksRegistered (s : Sys Ty F V) : Label Ty F V → Prop
  | .invoke name signature _ => ∃ func, latest name s.history = some (some (.impl signature func))
  | _ => True

/-- What the cast pointer is good for. -/
theorem call_eq_called {name : Str} {signature : Signature Ty} {args : List V}
    {method : Option (Method Ty F)} (h : call name signature args method ≠ .undefined) :
    ∃ func, method = some (.impl signature func) ∧
      call name signature args method = .called name signature args func := by
  cases method with
  | none => exact absurd rfl h
  | some method =>
      cases method with
      | other => exact absurd rfl h
      | impl registered func =>
          by_cases heq : registered = signature
          · subst heq
            exact ⟨func, rfl, if_pos rfl⟩
          · exact absurd (if_neg heq) h

/-- **Step lemma.**  Every step but an `invoke` with another signature is safe. -/
theorem Move.safe {s t : Sys Ty F V} {a : Label Ty F V} (h : Move s a t) (hs : Tracks s)
    (hok : asksRegistered s a) : Safe t := by
  have htracks := h.tracks hs
  cases h with
  | registeredFunction | registered | lookedUp =>
      exact ⟨by simp [registerMethod], by simp [registerMethod], htracks rfl⟩
  | invoked name signature args =>
      obtain ⟨func, hm⟩ := hok
      have hinvoke : invoke s name signature args =
          { s with outcome := .called name signature args func } := by
        rw [invoke_of_latest hs hm, call, if_pos rfl]
      rw [hinvoke] at htracks ⊢
      refine ⟨by simp, fun name' signature' args' func' hcall => ?_, htracks rfl⟩
      obtain ⟨rfl, rfl, rfl, rfl⟩ := Outcome.called.inj hcall
      exact hm

/-- An `invoke` with another signature, or of a name without a function, is not. -/
theorem not_safe_invoke {s : Sys Ty F V} (hs : Tracks s) {name : Str} {signature : Signature Ty}
    {args : List V} (hnot : ¬asksRegistered s (.invoke name signature args)) :
    ¬Safe (invoke s name signature args) := by
  intro hsafe
  cases hm : latest name s.history with
  | none => exact hsafe.defined (invoke_of_none hs hm signature args)
  | some method =>
      rw [invoke_of_latest hs hm] at hsafe
      obtain ⟨func, rfl, -⟩ := call_eq_called hsafe.defined
      exact hnot ⟨func, hm⟩

/-- **`invoke` is type-safe** in exactly the runs in which every call asks for the
signature that was registered last under the name. -/
theorem safe_iff {s : Sys Ty F V} {as : List (Label Ty F V)}
    (h : (system Ty F V).Path (fun _ _ => True) fresh as s) :
    (∀ bs t, bs <+: as → (system Ty F V).Path (fun _ _ => True) fresh bs t → Safe t) ↔
      (system Ty F V).Path asksRegistered fresh as s := by
  have h₀ : (system Ty F V).init fresh := rfl
  have hundefined : ∀ {s : Sys Ty F V}, Safe s → s.outcome.isUndefined = false := by
    intro s hs
    have hdefined := hs.defined
    cases hout : s.outcome with
    | undefined => exact absurd hout hdefined
    | quiet | called => rfl
  apply LTS.Path.always_iff h₀ h
  · rintro _ rfl
    exact ⟨by simp [fresh], by simp [fresh], fun _ => rfl⟩
  · intro s a t hreach hs hok hstep
    exact (move_of_step hstep).2.safe (tracks_of_reachable hreach (hundefined hs)) hok
  · intro s a t hreach _ hnot hstep
    obtain ⟨hdefined, hmove⟩ := move_of_step hstep
    cases hmove with
    | invoked name signature args =>
        exact not_safe_invoke (tracks_of_reachable hreach hdefined) hnot
    | _ => exact absurd trivial hnot
  · exact fun _ _ _ => trivial

/-- A function of a class `A` and one that is not a member, both of a text. -/
def showRun : List (Label String String String) :=
  [.registerFunction (str "A-Show") ⟨"void", ["A", "const std::string&"]⟩ "A::show",
    .registerFunction (str "show") ⟨"void", ["const std::string&"]⟩ "show",
    .invoke (str "show") ⟨"void", ["const std::string&"]⟩ ["hello"]]

/-- `safe_iff` at a call of the second one. -/
theorem safe_iff_show : ∃ s,
    (∀ bs t, bs <+: showRun →
      (system String String String).Path (fun _ _ => True) fresh bs t → Safe t) ↔
      (system String String String).Path asksRegistered fresh showRun s :=
  ⟨_, safe_iff (LTS.path_of_exec (show LTS.exec _ _ _ showRun = some _ from rfl))⟩

/-- The first one is called with the text only. -/
theorem invoke_member :
    ¬∀ s, (system String String String).Reachable (fun _ _ => True) s → Safe s := by
  intro hall
  have hreach : (system String String String).Reachable (fun _ _ => True) _ :=
    LTS.reachable_of_exec rfl
      (show LTS.exec _ _ fresh
        [.registerFunction (str "A-Show") ⟨"void", ["A", "const std::string&"]⟩ "A::show",
          .invoke (str "A-Show") ⟨"void", ["const std::string&"]⟩ ["hello"]] = some _ from rfl)
  exact (hall _ hreach).defined (by decide)

end Interfaces
