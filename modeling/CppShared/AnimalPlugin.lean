/-
# Animals of one library (`testplugin/main.cpp` and `testplugin/lib`)

Every `Animal` opens `libanimal.so` for itself and calls it through pointers of its own; the
library is there once, with one static `impl` for all of them.  The dynamic linker counts the
references: the library is unmapped with the last one, and mapped again, with a new `impl`,
by the next `dlopen`.  A pointer is known here by the mapping that it points into.  Whether
`dlopen` and `dlclose` succeed, and which functions `dlsym` finds, is the environment.

* `calls_found_iff`: no call goes through a null pointer or into a library that is gone exactly in
  the runs in which every `Animal` has found the functions that are called on it; its
  destructor calls one without a test;
* `one_voice`: all of them speak with one voice, the last text that was given to any of them,
  and one that is destroyed silences the others;
* `nothing_left`: as many `AnimalImpl`s are deleted as were made, but for the one behind `impl`,
  and with the last `Animal` the references are given back.
-/
import CppShared.PluginLoader
import CppShared.Table

namespace AnimalPlugin

open PluginLoader (Loader)

/-! ## The library -/

/-- `AnimalImpl`. -/
structure AnimalImpl where
  text : Str
  deriving DecidableEq, Repr

/-- The library in the process: `mapping` is the number of the last mapping, and `impl` is the
static pointer in it. -/
structure Library where
  refs : ℕ
  mapping : ℕ
  impl : Option AnimalImpl
  deriving DecidableEq, Repr

/-- The process with its library, the number of `AnimalImpl`s that were made and deleted, and
the lines that `animal_speak` has put on `std::cout`; the messages of the loader are not among
them. -/
structure Process where
  library : Library
  made : ℕ
  deleted : ℕ
  printed : List Str
  deriving DecidableEq, Repr

namespace Process

/-- `animal_init`. -/
def animalInit (p : Process) : Process :=
  if p.library.impl ≠ none then p
  else { p with library := { p.library with impl := some ⟨[]⟩ }, made := p.made + 1 }

/-- `animal_deinit`. -/
def animalDeinit (p : Process) : Process :=
  if p.library.impl = none then p
  else { p with library := { p.library with impl := none }, deleted := p.deleted + 1 }

/-- `animal_setText`, with a C string. -/
def animalSetText (text : Str) (p : Process) : Process :=
  match p.library.impl with
  | none => p
  | some _ => { p with library := { p.library with impl := some ⟨text⟩ } }

/-- `animal_speak`. -/
def animalSpeak (p : Process) : Process :=
  match p.library.impl with
  | none => p
  | some impl => { p with printed := p.printed ++ [impl.text ++ str "\n"] }

/-- A call through a pointer; `none` is a null pointer, or one into a mapping that is gone. -/
def call (p : Process) (func : Option ℕ) (body : Process → Process) : Option Process :=
  match func with
  | none => none
  | some mapping =>
      if p.library.mapping = mapping ∧ 0 < p.library.refs then some (body p) else none

end Process

/-- A `dlopen` that succeeds. -/
def Library.dlopen (l : Library) : Library :=
  if l.refs = 0 then ⟨1, l.mapping + 1, none⟩ else { l with refs := l.refs + 1 }

/-- A `dlclose` that succeeds. -/
def Library.dlclose (l : Library) : Library := { l with refs := l.refs - 1 }

/-- `PluginLoader::parse`, with the value of `func` in front of the assignment, and what the
library has. -/
def parse (l : Loader) (func : Option ℕ) (symbols : List Str) (funcName : Str) : Option ℕ :=
  if funcName.isEmpty then func
  else if symbols.contains funcName then l.handle
  else none

/-! ## The objects -/

/-- `Animal`. -/
structure Animal where
  loader : Loader
  pCreate : Option ℕ
  pDestroy : Option ℕ
  pSpeak : Option ℕ
  pSetText : Option ℕ
  deriving DecidableEq, Repr

/-- The constructor; `opened` says that `dlopen` succeeds. -/
def construct (p : Process) (opened : Bool) (symbols : List Str) : Animal × Option Process :=
  let library := if opened then p.library.dlopen else p.library
  let result := if opened then some library.mapping else none
  let r := PluginLoader.Dlfcn.openLibrary .new (str "./lib/libanimal.so") result
  if r.2 = false then (⟨r.1, none, none, none, none⟩, some { p with library := library })
  else
    let animal : Animal :=
      { loader := r.1
        pCreate := parse r.1 none symbols (str "animal_init")
        pDestroy := parse r.1 none symbols (str "animal_deinit")
        pSetText := parse r.1 none symbols (str "animal_setText")
        pSpeak := parse r.1 none symbols (str "animal_speak") }
    let p : Process := { p with library := library }
    (animal, if animal.pCreate ≠ none then p.call animal.pCreate Process.animalInit else some p)

/-- `PluginLoader::close`. -/
def close (p : Process) (l : Loader) (success : Bool) : Process :=
  if l.handle = none then p
  else if success then { p with library := p.library.dlclose }
  else p

/-- The destructor. -/
def destroy (p : Process) (animal : Animal) (success : Bool) : Option Process :=
  (p.call animal.pDestroy Process.animalDeinit).map fun p => close p animal.loader success

/-! ## The system -/

/-- The process and its objects, in the order of their constructors; `faulted` says that a call
has gone wrong, and `kept` counts the references that `dlclose` failed to give back. -/
structure Sys where
  process : Process
  animals : List (Option Animal)
  kept : ℕ
  faulted : Bool
  deriving DecidableEq, Repr

/-- What the program does. -/
inductive Label
  | construct (opened : Bool) (symbols : List Str)
  | setText (i : ℕ) (text : Str)
  | speak (i : ℕ)
  | destroy (i : ℕ) (success : Bool)
  deriving DecidableEq, Repr

/-- The process behind a call. -/
def Sys.after (s : Sys) : Option Process → Sys
  | none => { s with faulted := true }
  | some p => { s with process := p }

/-- An object that was not destroyed. -/
def Sys.animal (s : Sys) (i : ℕ) : Option Animal := s.animals[i]?.join

theorem of_animal {s : Sys} {i : ℕ} {a : Animal} (h : s.animal i = some a) :
    s.animals[i]? = some (some a) := Option.join_eq_some_iff.mp h

/-- One step. -/
def step (s : Sys) (l : Label) : Option Sys :=
  if s.faulted then none
  else
    match l with
    | .construct opened symbols =>
        let r := AnimalPlugin.construct s.process opened symbols
        some ({ s with animals := s.animals ++ [some r.1] }.after r.2)
    | .setText i text =>
        match s.animal i with
        | none => none
        | some a =>
            -- `c_str`, and a `std::string` of it in the library
            let text := text.takeWhile (· ≠ 0)
            some (s.after (s.process.call a.pSetText (Process.animalSetText text)))
    | .speak i =>
        match s.animal i with
        | none => none
        | some a => some (s.after (s.process.call a.pSpeak Process.animalSpeak))
    | .destroy i success =>
        match s.animal i with
        | none => none
        | some a =>
            let kept := if a.loader.handle ≠ none ∧ success = false then s.kept + 1 else s.kept
            some ({ s with animals := s.animals.set i none, kept := kept }.after
              (AnimalPlugin.destroy s.process a success))

/-- A process with `linked` references of its own to the library, as when it is linked with
it. -/
def fresh (linked : ℕ) : Sys := ⟨⟨⟨linked, 0, none⟩, 0, 0, []⟩, [], 0, false⟩

/-- The program. -/
def system (linked : ℕ) : LTS Sys Label where
  init s := s = fresh linked
  step := step

/-- The function that is called on an object was found. -/
def parsed (s : Sys) : Label → Prop
  | .construct _ _ => True
  | .setText i _ => ∀ a ∈ s.animal i, a.pSetText ≠ none
  | .speak i => ∀ a ∈ s.animal i, a.pSpeak ≠ none
  | .destroy i _ => ∀ a ∈ s.animal i, a.pDestroy ≠ none

instance (s : Sys) (l : Label) : Decidable (parsed s l) :=
  match l with
  | .construct _ _ => inferInstanceAs (Decidable True)
  | .setText i _ => inferInstanceAs (Decidable (∀ a ∈ s.animal i, a.pSetText ≠ none))
  | .speak i => inferInstanceAs (Decidable (∀ a ∈ s.animal i, a.pSpeak ≠ none))
  | .destroy i _ => inferInstanceAs (Decidable (∀ a ∈ s.animal i, a.pDestroy ≠ none))

/-! ## What holds in every run -/

/-- The pointers of an object lead into the library that is there. -/
structure Animal.Bound (a : Animal) (l : Library) : Prop where
  handle : a.loader.handle = none ∨ a.loader.handle = some l.mapping
  pDestroy : a.pDestroy = none ∨ a.pDestroy = a.loader.handle
  pSpeak : a.pSpeak = none ∨ a.pSpeak = a.loader.handle
  pSetText : a.pSetText = none ∨ a.pSetText = a.loader.handle

/-- An object that has a reference to the library. -/
def refers (o : Option Animal) : Bool := o.any fun a => decide (a.loader.handle ≠ none)

/-- The references are those of the objects, and `impl` is the one `AnimalImpl` that is left;
it goes with the library. -/
structure Sound (linked : ℕ) (s : Sys) : Prop where
  bound : ∀ (i : ℕ) a, s.animals[i]? = some (some a) → a.Bound s.process.library
  refs : s.process.library.refs = linked + s.animals.countP refers + s.kept
  heap : s.process.made = s.process.deleted + if s.process.library.impl = none then 0 else 1
  held : s.process.library.impl ≠ none → 0 < s.animals.countP refers
  calls : s.faulted = false

theorem sound_fresh (linked : ℕ) : Sound linked (fresh linked) where
  bound i a h := by simp [fresh] at h
  refs := rfl
  heap := rfl
  held h := absurd rfl h
  calls := rfl

/-- A function that was found is there. -/
theorem Sound.call {linked : ℕ} {s : Sys} (h : Sound linked s) {i : ℕ} {a : Animal}
    (hi : s.animals[i]? = some (some a)) {func : Option ℕ}
    (hfunc : func = none ∨ func = a.loader.handle) (hne : func ≠ none)
    (body : Process → Process) : s.process.call func body = some (body s.process) := by
  have hhandle : func = a.loader.handle := hfunc.resolve_left hne
  have hmapping : func = some s.process.library.mapping :=
    ((h.bound i a hi).handle.resolve_left (hhandle ▸ hne)) ▸ hhandle
  have hpos : 0 < s.animals.countP refers := by
    refine List.countP_pos_iff.mpr ⟨some a, List.mem_of_getElem? hi, ?_⟩
    simpa [refers] using (hhandle ▸ hne : a.loader.handle ≠ none)
  have hrefs := h.refs
  rw [hmapping, Process.call, if_pos ⟨rfl, by omega⟩]

/-! ## What a step does -/

/-- The object that found its library, in the mapping `m`. -/
def loaded (m : ℕ) (symbols : List Str) : Animal :=
  let found (funcName : Str) := if symbols.contains funcName then some m else none
  { loader := ⟨some m, 1, []⟩
    pCreate := found (str "animal_init")
    pDestroy := found (str "animal_deinit")
    pSetText := found (str "animal_setText")
    pSpeak := found (str "animal_speak") }

/-- The object that did not. -/
def deaf : Animal := ⟨Loader.new, none, none, none, none⟩

/-- The process with one more reference. -/
def Process.opened (p : Process) : Process := { p with library := p.library.dlopen }

theorem construct_failed (p : Process) (symbols : List Str) :
    construct p false symbols = (deaf, some p) := rfl

theorem dlopen_refs (l : Library) : l.dlopen.refs = l.refs + 1 := by
  unfold Library.dlopen
  split_ifs with h
  · rw [h]
  · rfl

/-- A constructor that opens the library. -/
theorem construct_opened (p : Process) (symbols : List Str) :
    construct p true symbols = (loaded p.library.dlopen.mapping symbols,
      some (if symbols.contains (str "animal_init") then p.opened.animalInit else p.opened)) := by
  have hcall : p.opened.call (some p.library.dlopen.mapping) Process.animalInit =
      some p.opened.animalInit := by
    rw [Process.call]
    refine if_pos ⟨rfl, ?_⟩
    show 0 < p.library.dlopen.refs
    rw [dlopen_refs]
    exact Nat.succ_pos _
  have hshape : construct p true symbols =
      (loaded p.library.dlopen.mapping symbols,
        if (loaded p.library.dlopen.mapping symbols).pCreate ≠ none then
          p.opened.call (loaded p.library.dlopen.mapping symbols).pCreate Process.animalInit
        else some p.opened) := rfl
  have hcreate : (loaded p.library.dlopen.mapping symbols).pCreate =
      if symbols.contains (str "animal_init") then some p.library.dlopen.mapping else none := rfl
  rw [hshape, hcreate]
  by_cases hinit : symbols.contains (str "animal_init") = true
  · rw [if_pos hinit, if_pos (Option.some_ne_none _), hcall, if_pos hinit]
  · rw [if_neg hinit, if_neg (not_not.mpr rfl), if_neg hinit]

/-- The effect of a step whose call finds its function. -/
inductive Move (s : Sys) : Label → Sys → Prop
  | failed (symbols) :
      Move s (.construct false symbols) { s with animals := s.animals ++ [some deaf] }
  | opened (symbols) :
      Move s (.construct true symbols)
        { s with
          process :=
            if symbols.contains (str "animal_init") then s.process.opened.animalInit
            else s.process.opened
          animals := s.animals ++ [some (loaded s.process.library.dlopen.mapping symbols)] }
  | setText (i text a) (hi : s.animals[i]? = some (some a)) :
      Move s (.setText i text)
        { s with process := s.process.animalSetText (text.takeWhile (· ≠ 0)) }
  | speak (i a) (hi : s.animals[i]? = some (some a)) :
      Move s (.speak i) { s with process := s.process.animalSpeak }
  | destroyed (i success a) (hi : s.animals[i]? = some (some a)) (hfound : a.pDestroy ≠ none) :
      Move s (.destroy i success)
        { s with
          process := close s.process.animalDeinit a.loader success
          animals := s.animals.set i none
          kept := if a.loader.handle ≠ none ∧ success = false then s.kept + 1 else s.kept }

/-- **Step inversion.** -/
theorem Sound.move {linked : ℕ} {s t : Sys} {l : Label} (h : Sound linked s) (hok : parsed s l)
    (hstep : step s l = some t) : Move s l t := by
  unfold step at hstep
  rw [if_neg (by simp [h.calls])] at hstep
  cases l with
  | construct opened symbols =>
      obtain rfl := Option.some.inj hstep
      cases opened with
      | false =>
          rw [construct_failed]
          exact Move.failed symbols
      | true =>
          rw [construct_opened]
          exact Move.opened symbols
  | setText i text =>
      dsimp only at hstep
      cases ha : s.animal i with
      | none => simp [ha] at hstep
      | some a =>
          have hi := of_animal ha
          rw [ha] at hstep
          dsimp only at hstep
          rw [h.call hi (h.bound i a hi).pSetText (hok a ha)] at hstep
          obtain rfl := Option.some.inj hstep
          exact Move.setText i text a hi
  | speak i =>
      dsimp only at hstep
      cases ha : s.animal i with
      | none => simp [ha] at hstep
      | some a =>
          have hi := of_animal ha
          rw [ha] at hstep
          dsimp only at hstep
          rw [h.call hi (h.bound i a hi).pSpeak (hok a ha)] at hstep
          obtain rfl := Option.some.inj hstep
          exact Move.speak i a hi
  | destroy i success =>
      dsimp only at hstep
      cases ha : s.animal i with
      | none => simp [ha] at hstep
      | some a =>
          have hi := of_animal ha
          rw [ha] at hstep
          dsimp only at hstep
          rw [destroy, h.call hi (h.bound i a hi).pDestroy (hok a ha)] at hstep
          obtain rfl := Option.some.inj hstep
          exact Move.destroyed i success a hi (hok a ha)

/-! ## The functions of the library -/

/-- The number of `AnimalImpl`s behind the static pointer. -/
def Process.live (p : Process) : ℕ := if p.library.impl = none then 0 else 1

/-- A function of the library leaves the references alone, and accounts for what it makes. -/
structure Process.Inside (p q : Process) : Prop where
  refs : q.library.refs = p.library.refs
  mapping : q.library.mapping = p.library.mapping
  heap : p.made = p.deleted + p.live → q.made = q.deleted + q.live

theorem inside_animalInit (p : Process) : p.Inside p.animalInit := by
  unfold Process.animalInit
  by_cases himpl : p.library.impl = none
  · rw [if_neg (not_not.mpr himpl)]
    refine ⟨rfl, rfl, fun h => ?_⟩
    rw [Process.live, if_pos himpl] at h
    exact congrArg (· + 1) h
  · rw [if_pos himpl]
    exact ⟨rfl, rfl, id⟩

theorem inside_animalDeinit (p : Process) : p.Inside p.animalDeinit := by
  unfold Process.animalDeinit
  by_cases himpl : p.library.impl = none
  · rw [if_pos himpl]
    exact ⟨rfl, rfl, id⟩
  · rw [if_neg himpl]
    refine ⟨rfl, rfl, fun h => ?_⟩
    rw [Process.live, if_neg himpl] at h
    exact h

theorem inside_animalSetText (p : Process) (text : Str) : p.Inside (p.animalSetText text) := by
  unfold Process.animalSetText
  cases himpl : p.library.impl with
  | none => exact ⟨rfl, rfl, id⟩
  | some impl =>
      refine ⟨rfl, rfl, fun h => ?_⟩
      rw [Process.live, himpl] at h
      exact h

theorem library_animalSpeak (p : Process) :
    p.animalSpeak.library = p.library ∧ p.animalSpeak.made = p.made ∧
      p.animalSpeak.deleted = p.deleted := by
  unfold Process.animalSpeak
  cases p.library.impl with
  | none => exact ⟨rfl, rfl, rfl⟩
  | some impl => exact ⟨rfl, rfl, rfl⟩

theorem inside_animalSpeak (p : Process) : p.Inside p.animalSpeak := by
  obtain ⟨hlibrary, hmade, hdeleted⟩ := library_animalSpeak p
  refine ⟨by rw [hlibrary], by rw [hlibrary], fun h => ?_⟩
  rw [hmade, hdeleted, Process.live, hlibrary]
  exact h

theorem impl_animalDeinit (p : Process) : p.animalDeinit.library.impl = none := by
  unfold Process.animalDeinit
  split_ifs with himpl
  · exact himpl
  · rfl

/-! ## The step lemma -/

/-- A new library has no `impl`, and neither had the one that is gone. -/
theorem Sound.dlopen_impl {linked : ℕ} {s : Sys} (h : Sound linked s) :
    s.process.library.dlopen.impl = s.process.library.impl := by
  unfold Library.dlopen
  split_ifs with hzero
  · by_contra hne
    have hheld := h.held fun hnone => hne hnone.symm
    have hrefs := h.refs
    omega
  · rfl

/-- An object with pointers stays bound when another one opens the library. -/
theorem Sound.bound_dlopen {linked : ℕ} {s : Sys} (h : Sound linked s) {i : ℕ} {a : Animal}
    (hi : s.animals[i]? = some (some a)) : a.Bound s.process.library.dlopen := by
  have ha := h.bound i a hi
  refine { ha with handle := ?_ }
  unfold Library.dlopen
  split_ifs with hzero
  · -- nobody has a reference to a library that is not there
    left
    by_contra hne
    have hpos : 0 < s.animals.countP refers := by
      refine List.countP_pos_iff.mpr ⟨some a, List.mem_of_getElem? hi, ?_⟩
      simpa [refers] using hne
    have hrefs := h.refs
    omega
  · exact ha.handle

theorem Animal.Bound.congr {a : Animal} {l l' : Library} (h : a.Bound l)
    (hmapping : l'.mapping = l.mapping) : a.Bound l' :=
  { h with handle := by rw [hmapping]; exact h.handle }

theorem bound_deaf (l : Library) : deaf.Bound l := by
  constructor <;> exact Or.inl rfl

theorem bound_loaded (l : Library) (symbols : List Str) : (loaded l.mapping symbols).Bound l := by
  have hfound : ∀ funcName : Str,
      (if symbols.contains funcName then some l.mapping else none) = none ∨
        (if symbols.contains funcName then some l.mapping else none) = some l.mapping := by
    intro funcName
    split_ifs
    · exact Or.inr rfl
    · exact Or.inl rfl
  exact ⟨Or.inr rfl, hfound _, hfound _, hfound _⟩

/-- A step inside the library. -/
theorem Sound.inside {linked : ℕ} {s : Sys} (h : Sound linked s) {p : Process}
    (hinside : s.process.Inside p)
    (himpl : p.library.impl ≠ none → s.process.library.impl ≠ none) :
    Sound linked { s with process := p } where
  bound i a hi := (h.bound i a hi).congr hinside.mapping
  refs := hinside.refs.trans h.refs
  heap := hinside.heap h.heap
  held hne := h.held (himpl hne)
  calls := h.calls

/-- **Step lemma.** -/
theorem Sound.step {linked : ℕ} {s t : Sys} {l : Label} (h : Sound linked s) (hm : Move s l t) :
    Sound linked t := by
  cases hm with
  | failed symbols =>
      refine { h with bound := fun i a hi => ?_, refs := ?_, held := fun hne => ?_ }
      · rcases getElem?_concat_iff.mp hi with hi | ⟨-, heq⟩
        · exact h.bound i a hi
        · obtain rfl := Option.some.inj heq
          exact bound_deaf _
      · rw [List.countP_append]
        exact h.refs
      · rw [List.countP_append]
        exact Nat.lt_of_lt_of_le (h.held hne) (Nat.le_add_right _ _)
  | opened symbols =>
      have hcount : (s.animals ++ [some (loaded s.process.library.dlopen.mapping symbols)]).countP
          refers = s.animals.countP refers + 1 := by
        rw [List.countP_append]
        rfl
      have hrefs : s.process.opened.library.refs = s.process.library.refs + 1 := dlopen_refs _
      have hheap : s.process.opened.made = s.process.opened.deleted + s.process.opened.live := by
        have hlive : s.process.opened.live = s.process.live := by
          rw [Process.live, Process.live, Process.opened, h.dlopen_impl]
        rw [hlive]
        exact h.heap
      have hinside : s.process.opened.Inside (if symbols.contains (str "animal_init")
          then s.process.opened.animalInit else s.process.opened) := by
        split_ifs
        · exact inside_animalInit _
        · exact ⟨rfl, rfl, id⟩
      refine ⟨fun i a hi => ?_, ?_, hinside.heap hheap, fun _ => ?_, h.calls⟩
      · apply Animal.Bound.congr (l := s.process.opened.library) _ hinside.mapping
        rcases getElem?_concat_iff.mp hi with hi | ⟨-, heq⟩
        · exact h.bound_dlopen hi
        · obtain rfl := Option.some.inj heq
          exact bound_loaded _ _
      · rw [hcount, hinside.refs, hrefs, h.refs]
        dsimp only
        omega
      · rw [hcount]
        exact Nat.succ_pos _
  | setText i text a hi =>
      apply h.inside (inside_animalSetText _ _)
      unfold Process.animalSetText
      cases himpl : s.process.library.impl with
      | none => simp [himpl]
      | some impl => simp
  | speak i a hi =>
      apply h.inside (inside_animalSpeak _)
      rw [(library_animalSpeak _).1]
      exact id
  | destroyed i success a hi hfound =>
      have hhandle : a.loader.handle ≠ none := by
        rcases (h.bound i a hi).pDestroy with hnone | heq
        · exact absurd hnone hfound
        · exact heq ▸ hfound
      have hinside := inside_animalDeinit s.process
      -- an object that found `animal_deinit` has a handle, so one reference goes with it
      have hcount := countP_set_add hi none refers
      have hrefers : refers (some a) = true := by simpa [refers] using hhandle
      rw [if_pos hrefers] at hcount
      have hnone : refers none = false := rfl
      rw [hnone, if_neg Bool.false_ne_true] at hcount
      have hbound : ∀ (j : ℕ) b, (s.animals.set i none)[j]? = some (some b) →
          b.Bound s.process.animalDeinit.library := by
        intro j b hj
        rcases (getElem?_set_iff hi).mp hj with ⟨-, heq⟩ | ⟨-, hj⟩
        · cases heq
        · exact (h.bound j b hj).congr hinside.mapping
      have himpl := impl_animalDeinit s.process
      have hrefs := hinside.refs.trans h.refs
      rw [close, if_neg hhandle]
      cases success with
      | true =>
          refine ⟨fun j b hj => (hbound j b hj).congr rfl, ?_, hinside.heap h.heap,
            fun hne => absurd himpl hne, h.calls⟩
          show s.process.animalDeinit.library.refs - 1 =
            linked + (s.animals.set i none).countP refers +
              if a.loader.handle ≠ none ∧ true = false then s.kept + 1 else s.kept
          rw [hrefs, if_neg fun hboth => Bool.noConfusion hboth.2]
          omega
      | false =>
          refine ⟨hbound, ?_, hinside.heap h.heap, fun hne => absurd himpl hne, h.calls⟩
          show s.process.animalDeinit.library.refs =
            linked + (s.animals.set i none).countP refers +
              if a.loader.handle ≠ none ∧ false = false then s.kept + 1 else s.kept
          rw [hrefs, if_pos ⟨hhandle, rfl⟩]
          omega

theorem sound_of_path {linked : ℕ} {s : Sys} {as : List Label}
    (h : (system linked).Path parsed (fresh linked) as s) : Sound linked s := by
  refine LTS.Path.preserves (I := Sound linked) h (sound_fresh linked) ?_
  intro s l t hs hok hstep
  exact hs.step (hs.move hok hstep)

/-! ## No call goes wrong -/

/-- **Every call finds its function** all along a run, exactly if the objects that are used and
destroyed in it have found the functions that this calls. -/
theorem calls_found_iff {linked : ℕ} {s : Sys} {as : List Label}
    (h : (system linked).Path (fun _ _ => True) (fresh linked) as s) :
    (∀ bs t, bs <+: as → (system linked).Path (fun _ _ => True) (fresh linked) bs t →
        t.faulted = false) ↔
      (system linked).Path parsed (fresh linked) as s := by
  refine LTS.Path.always_iff_first rfl h ?_ ?_ ?_
  · rintro _ rfl
    rfl
  · intro s l t hreach _ hok hstep
    obtain ⟨bs, _, rfl, hpath⟩ := hreach
    have hs := sound_of_path hpath
    exact (hs.step (hs.move hok hstep)).calls
  · intro s l t hreach _ hnot hstep hcalls
    obtain ⟨bs, _, rfl, hpath⟩ := hreach
    have hs := sound_of_path hpath
    change step s l = some t at hstep
    unfold step at hstep
    rw [if_neg (by simp [hs.calls])] at hstep
    -- the object at hand has a null pointer
    cases l with
    | construct opened symbols => exact hnot trivial
    | setText i text =>
        obtain ⟨a, ha⟩ := not_forall.mp hnot
        obtain ⟨hi, hnull⟩ := Classical.not_imp.mp ha
        simp only [Option.mem_def.mp hi, not_not.mp hnull, Process.call] at hstep
        obtain rfl := Option.some.inj hstep
        exact Bool.noConfusion hcalls
    | speak i =>
        obtain ⟨a, ha⟩ := not_forall.mp hnot
        obtain ⟨hi, hnull⟩ := Classical.not_imp.mp ha
        simp only [Option.mem_def.mp hi, not_not.mp hnull, Process.call] at hstep
        obtain rfl := Option.some.inj hstep
        exact Bool.noConfusion hcalls
    | destroy i success =>
        obtain ⟨a, ha⟩ := not_forall.mp hnot
        obtain ⟨hi, hnull⟩ := Classical.not_imp.mp ha
        simp only [Option.mem_def.mp hi, destroy, not_not.mp hnull, Process.call] at hstep
        obtain rfl := Option.some.inj hstep
        exact Bool.noConfusion hcalls

/-- The functions of the library. -/
def exports : List Str :=
  [str "animal_init", str "animal_deinit", str "animal_setText", str "animal_speak"]

/-- Two objects; what the one is given the other one says, until the first one is destroyed, and
a third one comes. -/
def choirRun : List Label :=
  [.construct true exports, .construct true exports, .setText 0 (str "hi"), .speak 1,
    .destroy 0 true, .speak 1, .construct true exports, .speak 1, .destroy 1 true,
    .destroy 2 true]

/-- `calls_found_iff` at that run. -/
theorem calls_found_iff_choir : ∃ s,
    (∀ bs t, bs <+: choirRun → (system 0).Path (fun _ _ => True) (fresh 0) bs t →
        t.faulted = false) ↔
      (system 0).Path parsed (fresh 0) choirRun s := by
  have hexec : ((system 0).exec (fun _ _ => True) (fresh 0) choirRun).isSome = true := by
    decide +kernel
  obtain ⟨s, hs⟩ := Option.isSome_iff_exists.mp hexec
  exact ⟨s, calls_found_iff (LTS.path_of_exec hs)⟩

/-! ## What is said -/

namespace Label

/-- A constructor that calls `animal_init`. -/
def begins : Label → Bool
  | .construct opened symbols => opened && symbols.contains (str "animal_init")
  | _ => false

/-- A destructor. -/
def ends : Label → Bool
  | .destroy _ _ => true
  | _ => false

/-- The text that an object is given. -/
def text? : Label → Option Str
  | .setText _ text => some (text.takeWhile (· ≠ 0))
  | _ => none

/-- A call of `speak`. -/
def speaks : Label → Bool
  | .speak _ => true
  | _ => false

end Label

/-- The part of a history behind its last destructor. -/
def sinceEnd (as : List Label) : List Label := (as.reverse.takeWhile fun l => !l.ends).reverse

/-- And of that the part from the first constructor on. -/
def talk (as : List Label) : List Label := (sinceEnd as).dropWhile fun l => !l.begins

/-- The text that any object has after a history, if there is one. -/
def voice (as : List Label) : Option Str :=
  if talk as = [] then none else some (((talk as).filterMap Label.text?).getLastD [])

/-- What is said in a history: for each `speak` the voice in front of it. -/
def spoken (as : List Label) : List Str :=
  (List.range as.length).filterMap fun n =>
    if as[n]?.any Label.speaks then (voice (as.take n)).map (· ++ str "\n") else none

theorem sinceEnd_concat (as : List Label) (l : Label) :
    sinceEnd (as ++ [l]) = if l.ends then [] else sinceEnd as ++ [l] := by
  unfold sinceEnd
  rw [List.reverse_append, List.reverse_singleton, List.singleton_append, List.takeWhile_cons]
  cases l.ends with
  | true => rfl
  | false => exact List.reverse_cons

theorem talk_concat (as : List Label) (l : Label) :
    talk (as ++ [l]) =
      if l.ends then []
      else if talk as = [] then if l.begins then [l] else []
      else talk as ++ [l] := by
  unfold talk
  rw [sinceEnd_concat]
  cases l.ends with
  | true => rfl
  | false =>
      simp only [Bool.false_eq_true, if_false, List.dropWhile_append, List.isEmpty_iff]
      split_ifs with hnil hbegins
      · simp [hbegins]
      · simp [hbegins]
      · rfl

/-- The voice after one more step. -/
theorem voice_concat (as : List Label) {l : Label} (hends : l.ends = false) :
    voice (as ++ [l]) =
      match voice as with
      | none => if l.begins then some ((l.text?).getD []) else none
      | some text => some ((l.text?).getD text) := by
  unfold voice
  rw [talk_concat, hends]
  simp only [Bool.false_eq_true, if_false]
  by_cases hnil : talk as = []
  · rw [if_pos hnil, if_pos hnil]
    cases hbegins : l.begins with
    | true =>
        cases htext : l.text? with
        | none => simp [htext]
        | some text => simp [htext]
    | false => simp
  · rw [if_neg hnil, if_neg hnil]
    cases htext : l.text? with
    | none => simp [htext]
    | some text => simp [htext]

theorem voice_ends (as : List Label) {l : Label} (hends : l.ends = true) :
    voice (as ++ [l]) = none := by
  rw [voice, talk_concat, hends]
  rfl

/-- What is said after one more step. -/
theorem spoken_concat (as : List Label) (l : Label) :
    spoken (as ++ [l]) =
      spoken as ++ if l.speaks then ((voice as).map (· ++ str "\n")).toList else [] := by
  unfold spoken
  rw [List.length_append, List.length_singleton, List.range_succ, List.filterMap_append]
  congr 1
  · apply List.filterMap_congr
    intro n hn
    have hlt : n < as.length := List.mem_range.mp hn
    rw [List.getElem?_append_left hlt, List.take_append_of_le_length hlt.le]
  · rw [List.filterMap_cons, List.filterMap_nil, List.getElem?_concat_length, List.take_left]
    cases hspeaks : l.speaks with
    | false => simp [hspeaks]
    | true =>
        cases voice as with
        | none => simp [hspeaks]
        | some text => simp [hspeaks]

/-- A step that nobody hears of. -/
theorem voice_quiet (as : List Label) {l : Label} (hends : l.ends = false)
    (hbegins : l.begins = false) (htext : l.text? = none) : voice (as ++ [l]) = voice as := by
  rw [voice_concat as hends, hbegins, htext]
  cases voice as with
  | none => rfl
  | some text => rfl

/-- The history tells what `impl` has and what was printed. -/
structure Told (s : Sys) (as : List Label) : Prop where
  impl : s.process.library.impl.map AnimalImpl.text = voice as
  printed : s.process.printed = spoken as

theorem told_fresh (linked : ℕ) : Told (fresh linked) [] := ⟨rfl, rfl⟩

/-- A step without `speak` prints nothing. -/
theorem Told.silent {s t : Sys} {as : List Label} {l : Label} (h : Told s as)
    (hspeaks : l.speaks = false) (hprinted : t.process.printed = s.process.printed)
    (himpl : t.process.library.impl.map AnimalImpl.text = voice (as ++ [l])) :
    Told t (as ++ [l]) := by
  refine ⟨himpl, ?_⟩
  rw [spoken_concat, hspeaks, hprinted, h.printed, if_neg Bool.false_ne_true, List.append_nil]

/-- **Step lemma.** -/
theorem Told.step {linked : ℕ} {s t : Sys} {as : List Label} {l : Label} (h : Told s as)
    (hs : Sound linked s) (hm : Move s l t) : Told t (as ++ [l]) := by
  cases hm with
  | failed symbols =>
      refine h.silent rfl rfl ?_
      rw [voice_quiet as rfl rfl rfl]
      exact h.impl
  | opened symbols =>
      have hopened : s.process.opened.library.impl.map AnimalImpl.text = voice as := by
        rw [Process.opened, hs.dlopen_impl]
        exact h.impl
      by_cases hinit : symbols.contains (str "animal_init") = true
      · have hbegins : (Label.construct true symbols).begins = true := by
          simpa [Label.begins] using hinit
        rw [if_pos hinit]
        unfold Process.animalInit
        by_cases himpl : s.process.opened.library.impl = none
        · rw [if_neg (not_not.mpr himpl)]
          refine h.silent rfl rfl ?_
          rw [himpl] at hopened
          rw [voice_concat as rfl, ← hopened, hbegins]
          rfl
        · rw [if_pos himpl]
          refine h.silent rfl rfl ?_
          obtain ⟨impl, hsome⟩ := Option.ne_none_iff_exists'.mp himpl
          rw [hsome] at hopened
          rw [voice_concat as rfl, ← hopened]
          show s.process.opened.library.impl.map AnimalImpl.text = _
          rw [hsome]
          rfl
      · have hbegins : (Label.construct true symbols).begins = false := by
          simpa [Label.begins] using hinit
        rw [if_neg hinit]
        refine h.silent rfl rfl ?_
        rw [voice_quiet as rfl hbegins rfl]
        exact hopened
  | setText i text a hi =>
      unfold Process.animalSetText
      cases himpl : s.process.library.impl with
      | none =>
          refine h.silent rfl rfl ?_
          have hvoice := h.impl
          rw [himpl] at hvoice
          rw [voice_concat as rfl, ← hvoice]
          show s.process.library.impl.map AnimalImpl.text = _
          rw [himpl]
          rfl
      | some impl =>
          refine h.silent rfl rfl ?_
          have hvoice := h.impl
          rw [himpl] at hvoice
          rw [voice_concat as rfl, ← hvoice]
          rfl
  | speak i a hi =>
      refine ⟨?_, ?_⟩
      · rw [voice_quiet as rfl rfl rfl, (library_animalSpeak _).1]
        exact h.impl
      · rw [spoken_concat, ← h.impl, ← h.printed]
        unfold Process.animalSpeak
        cases s.process.library.impl with
        | none => exact (List.append_nil _).symm
        | some impl => rfl
  | destroyed i success a hi hfound =>
      have hclose : (close s.process.animalDeinit a.loader success).printed = s.process.printed ∧
          (close s.process.animalDeinit a.loader success).library.impl = none := by
        have hprinted : s.process.animalDeinit.printed = s.process.printed := by
          unfold Process.animalDeinit
          split_ifs
          · rfl
          · rfl
        unfold close
        split_ifs
        · exact ⟨hprinted, impl_animalDeinit _⟩
        · exact ⟨hprinted, impl_animalDeinit _⟩
        · exact ⟨hprinted, impl_animalDeinit _⟩
      refine h.silent rfl hclose.1 ?_
      rw [voice_ends as rfl, hclose.2]
      rfl

/-- **All objects speak with one voice.**  In every run in which the functions were found,
each `speak` prints the last text that any object was given since the first constructor behind
the last destructor, and nothing if there is no such constructor. -/
theorem one_voice {linked : ℕ} {s : Sys} {as : List Label}
    (h : (system linked).Path parsed (fresh linked) as s) :
    s.process.library.impl.map AnimalImpl.text = voice as ∧ s.process.printed = spoken as := by
  suffices hboth : Told s as from ⟨hboth.impl, hboth.printed⟩
  generalize hstart : fresh linked = s₀ at h
  induction h with
  | nil =>
      subst hstart
      exact told_fresh linked
  | snoc hpath hok hstep ih =>
      have hs := sound_of_path (hstart ▸ hpath)
      exact ih.step hs (hs.move hok hstep)

theorem choirRun_path : ∃ s, (system 0).Path parsed (fresh 0) choirRun s ∧
    s.process.printed = [str "hi\n", str "\n"] ∧ s.animals = [none, none, none] := by
  have hrun : ((system 0).exec parsed (fresh 0) choirRun).map
      (fun s => (s.process.printed, s.animals)) =
        some ([str "hi\n", str "\n"], [none, none, none]) := by
    decide +kernel
  obtain ⟨s, hexec, hend⟩ := Option.map_eq_some_iff.mp hrun
  exact ⟨s, LTS.path_of_exec hexec, Prod.mk.inj hend⟩

/-- `one_voice` at that run. -/
theorem one_voice_choir : ∃ s : Sys,
    s.process.printed = [str "hi\n", str "\n"] ∧ s.process.printed = spoken choirRun := by
  obtain ⟨s, hpath, hprinted, -⟩ := choirRun_path
  exact ⟨s, hprinted, (one_voice hpath).2⟩

/-- **Nothing is left behind.**  In every run in which the functions were found the library has
the references of its objects, and those that `dlclose` failed to give back; there were as many
deletions as `AnimalImpl`s were made, less the one that may be behind `impl`, and without objects
just as many. -/
theorem nothing_left {linked : ℕ} {s : Sys} {as : List Label}
    (h : (system linked).Path parsed (fresh linked) as s) :
    s.process.library.refs = linked + s.animals.countP refers + s.kept ∧
      s.process.made = s.process.deleted + s.process.live ∧
      ((∀ o ∈ s.animals, o = none) →
        s.process.library.refs = linked + s.kept ∧ s.process.made = s.process.deleted) := by
  have hs := sound_of_path h
  refine ⟨hs.refs, hs.heap, fun hgone => ?_⟩
  have hzero : s.animals.countP refers = 0 := by
    refine List.countP_eq_zero.mpr fun o ho => ?_
    rw [hgone o ho]
    exact Bool.false_ne_true
  have himpl : s.process.library.impl = none := by
    by_contra hne
    exact absurd (hs.held hne) (by omega)
  have hrefs := hs.refs
  have hheap := hs.heap
  rw [if_pos himpl] at hheap
  exact ⟨by omega, hheap⟩

/-- `nothing_left` at that run. -/
theorem nothing_left_choir : ∃ s : Sys,
    s.process.library.refs = s.kept ∧ s.process.made = s.process.deleted := by
  obtain ⟨s, hpath, -, hgone⟩ := choirRun_path
  have hnone : ∀ o ∈ s.animals, o = none := by
    rw [hgone]
    simp
  obtain ⟨hrefs, hheap⟩ := (nothing_left hpath).2.2 hnone
  exact ⟨s, hrefs.trans (Nat.zero_add _), hheap⟩

end AnimalPlugin
