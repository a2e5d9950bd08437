/-
# The two plugin loaders (`src/pluginloader.h`)

`PluginLoader` has one body for WIN32 and one for `dlfcn.h`.  Here both receive the same
calls, and when both ask the system in a call they get the same answer.  A load is known by
its number, since the system may return one handle for several loads of a file.

`FreeLibrary` returns 0 when it fails and `dlclose` when it succeeds, but both versions of
`close` take 0 for success: the WIN32 one keeps the handle of a library that was released
and forgets the handle of one that was not.  An `open` while a library is open returns
`true` in the one version and `false` in the other.

`agree_iff` says that up to the first such call the loaders agree and are sound; the
`dlfcn.h` loader is sound in every run (`dlfcn_sound`).
-/
import CppShared.Bytes
import CppShared.Transition
import Mathlib.Data.List.Range

namespace PluginLoader

/-- A loader, with the number of loads so far and a record of those that were released. -/
structure Loader where
  handle : Option ℕ
  loaded : ℕ
  released : List ℕ
  deriving DecidableEq, Repr

namespace Loader

/-- The handle takes what `LoadLibraryA` or `dlopen` has returned. -/
def load (l : Loader) (result : Option ℕ) : Loader :=
  { l with handle := result, loaded := if result = none then l.loaded else l.loaded + 1 }

/-- `FreeLibrary` or `dlclose` with the handle, which belongs to the last load. -/
def free (l : Loader) (success : Bool) : Loader :=
  { l with
    released :=
      if success = true ∧ l.handle ≠ none then l.released ++ [l.loaded - 1] else l.released }

/-- A loader that has just been constructed. -/
def new : Loader := ⟨none, 0, []⟩

end Loader

/-! ## The two versions -/

namespace Win32

/-- `open`; `result` is what `LoadLibraryA` returns. -/
def openLibrary (l : Loader) (fileName : Str) (result : Option ℕ) : Loader × Bool :=
  if fileName.isEmpty then (l, false)
  else if l.handle ≠ none then (l, true)
  else (l.load result, if (l.load result).handle = none then false else true)

/-- `close`; `FreeLibrary` returns 0 exactly if it fails. -/
def close (l : Loader) (success : Bool) : Loader :=
  let ret := if success then 1 else 0
  if ret ≠ 0 then l.free success else { l.free success with handle := none }

end Win32

namespace Dlfcn

/-- `open`; `result` is what `dlopen` returns. -/
def openLibrary (l : Loader) (fileName : Str) (result : Option ℕ) : Loader × Bool :=
  if fileName.isEmpty then (l, false)
  else if l.handle ≠ none then (l, false)
  else (l.load result, if (l.load result).handle = none then false else true)

/-- `close`; `dlclose` returns 0 exactly if it succeeds. -/
def close (l : Loader) (success : Bool) : Loader :=
  if l.handle = none then l
  else
    let ret := if success then 0 else 1
    if ret ≠ 0 then l.free success else { l.free success with handle := none }

end Dlfcn

/-! ## The system -/

/-- Both loaders, with a record of what their `open` has returned. -/
structure Sys where
  win : Loader
  dl : Loader
  opened : List (Bool × Bool)
  deriving DecidableEq, Repr

/-- A call of both loaders, and what the system answers. -/
inductive Label
  | openLibrary (fileName : Str) (result : Option ℕ)
  | close (success : Bool)
  deriving DecidableEq, Repr

/-- One call. -/
def step (s : Sys) : Label → Option Sys
  | .openLibrary fileName result =>
      let w := Win32.openLibrary s.win fileName result
      let d := Dlfcn.openLibrary s.dl fileName result
      some ⟨w.1, d.1, s.opened ++ [(w.2, d.2)]⟩
  | .close success =>
      some { s with win := Win32.close s.win success, dl := Dlfcn.close s.dl success }

/-- Two new loaders. -/
def fresh : Sys := ⟨.new, .new, []⟩

/-- The loaders and their caller. -/
def system : LTS Sys Label where
  init s := s = fresh
  step := step

/-! ## The loader of `dlfcn.h` -/

/-- The handle is non-null exactly if some load was not released, and none was released
twice. -/
structure Sound (l : Loader) : Prop where
  handle_iff : l.handle ≠ none ↔ ∃ n < l.loaded, n ∉ l.released
  nodup : l.released.Nodup

/-- All loads were released in their order, except the one of the handle. -/
def Paired (l : Loader) : Prop :=
  match l.handle with
  | none => l.released = List.range l.loaded
  | some _ => ∃ n, l.loaded = n + 1 ∧ l.released = List.range n

theorem Paired.sound {l : Loader} (h : Paired l) : Sound l := by
  unfold Paired at h
  split at h
  · next hnone =>
      refine ⟨iff_of_false (fun hne => hne hnone) ?_, h ▸ List.nodup_range⟩
      rintro ⟨n, hn, hnot⟩
      rw [h] at hnot
      exact hnot (List.mem_range.mpr hn)
  · next x hsome =>
      obtain ⟨n, hloaded, hreleased⟩ := h
      refine ⟨iff_of_true (by simp [hsome]) ⟨n, by omega, ?_⟩, hreleased ▸ List.nodup_range⟩
      rw [hreleased]
      exact List.not_mem_range_self

/-- `open` keeps the loads and the releases in step. -/
theorem Paired.openLibrary {l : Loader} (h : Paired l) (fileName : Str) (result : Option ℕ) :
    Paired (Dlfcn.openLibrary l fileName result).1 := by
  unfold Dlfcn.openLibrary
  by_cases hempty : fileName.isEmpty = true
  · rw [if_pos hempty]
    exact h
  · rw [if_neg hempty]
    by_cases hopen : l.handle ≠ none
    · rw [if_pos hopen]
      exact h
    · rw [if_neg hopen]
      unfold Paired at h
      rw [not_not.mp hopen] at h
      cases result with
      | none => exact h
      | some x => exact ⟨l.loaded, rfl, h⟩

/-- So does `close`. -/
theorem Paired.close {l : Loader} (h : Paired l) (success : Bool) :
    Paired (Dlfcn.close l success) := by
  unfold Dlfcn.close
  cases hhandle : l.handle with
  | none =>
      rw [if_pos rfl]
      exact h
  | some x =>
      have h' := h
      unfold Paired at h'
      rw [hhandle] at h'
      obtain ⟨n, hloaded, hreleased⟩ := h'
      cases success with
      | true => simp [Paired, Loader.free, hhandle, hloaded, hreleased, List.range_succ]
      | false => simp [Paired, Loader.free, hhandle, hloaded, hreleased]

theorem paired_of_reachable {ok : Sys → Label → Prop} {s : Sys}
    (h : system.Reachable ok s) : Paired s.dl := by
  refine LTS.Reachable.induction (I := fun s : Sys => Paired s.dl) ?_ ?_ h
  · rintro _ rfl
    rfl
  · intro s a t _ hs _ hstep
    cases a with
    | openLibrary fileName result =>
        obtain rfl := Option.some.inj hstep
        exact hs.openLibrary fileName result
    | close success =>
        obtain rfl := Option.some.inj hstep
        exact hs.close success

/-- The loader of `dlfcn.h` is sound in every run. -/
theorem dlfcn_sound {ok : Sys → Label → Prop} {s : Sys} (h : system.Reachable ok s) :
    Sound s.dl :=
  (paired_of_reachable h).sound

/-! ## Main result -/

/-- Both loaders are sound, and their `open` has always returned the same. -/
structure Agree (s : Sys) : Prop where
  win : Sound s.win
  dl : Sound s.dl
  results : ∀ r ∈ s.opened, r.1 = r.2

/-- No call finds a library open, unless it is an `open` without a file name. -/
def findsNoneOpen (s : Sys) : Label → Prop
  | .openLibrary fileName _ => fileName = [] ∨ s.win.handle = none
  | .close _ => s.win.handle = none

instance (s : Sys) (a : Label) : Decidable (findsNoneOpen s a) :=
  match a with
  | .openLibrary fileName _ =>
      inferInstanceAs (Decidable (fileName = [] ∨ s.win.handle = none))
  | .close _ => inferInstanceAs (Decidable (s.win.handle = none))

/-- The versions of `open` do the same where no library is open. -/
theorem openLibrary_eq {l : Loader} {fileName : Str} (result : Option ℕ)
    (h : fileName = [] ∨ l.handle = none) :
    Win32.openLibrary l fileName result = Dlfcn.openLibrary l fileName result := by
  unfold Win32.openLibrary Dlfcn.openLibrary
  rcases h with rfl | hnone
  · rfl
  · simp only [hnone, ne_eq, not_true, if_false]

/-- Where one is open, they return different values for a file name. -/
theorem openLibrary_ne {l : Loader} {fileName : Str} (result : Option ℕ)
    (hname : fileName ≠ []) (hopen : l.handle ≠ none) :
    (Win32.openLibrary l fileName result).2 ≠ (Dlfcn.openLibrary l fileName result).2 := by
  have hne : ¬fileName.isEmpty = true := by simpa using hname
  unfold Win32.openLibrary Dlfcn.openLibrary
  rw [if_neg hne, if_neg hne, if_pos hopen, if_pos hopen]
  exact Bool.noConfusion

/-- The versions of `close` do nothing where no library is open. -/
theorem close_eq {l : Loader} (success : Bool) (h : l.handle = none) :
    Win32.close l success = l ∧ Dlfcn.close l success = l := by
  obtain ⟨handle, loaded, released⟩ := l
  obtain rfl : handle = none := h
  constructor
  · cases success with
    | true => rfl
    | false => rfl
  · rfl

/-- A `close` of the WIN32 version leaves an open library either released under a handle
or loaded without one. -/
theorem not_sound_close {l : Loader} (h : Paired l) (hopen : l.handle ≠ none)
    (success : Bool) : ¬Sound (Win32.close l success) := by
  intro hsound
  obtain ⟨handle, loaded, released⟩ := l
  cases handle with
  | none => exact hopen rfl
  | some x =>
      obtain ⟨n, rfl, rfl⟩ : ∃ n, loaded = n + 1 ∧ released = List.range n := h
      have hiff := hsound.handle_iff
      cases success with
      | true =>
          have hclose : Win32.close ⟨some x, n + 1, List.range n⟩ true =
              ⟨some x, n + 1, List.range (n + 1)⟩ := by
            simp [Win32.close, Loader.free, List.range_succ]
          rw [hclose] at hiff
          obtain ⟨m, hm, hnot⟩ := hiff.mp (by simp)
          exact hnot (List.mem_range.mpr hm)
      | false =>
          have hclose : Win32.close ⟨some x, n + 1, List.range n⟩ false =
              ⟨none, n + 1, List.range n⟩ := by
            simp [Win32.close, Loader.free]
          rw [hclose] at hiff
          exact hiff.mpr ⟨n, Nat.lt_succ_self n, List.not_mem_range_self⟩ rfl

/-- As long as no call finds a library open the loaders are in the same state. -/
theorem win_eq_dl {s : Sys} (h : system.Reachable findsNoneOpen s) : s.win = s.dl := by
  refine LTS.Reachable.induction (I := fun s : Sys => s.win = s.dl) ?_ ?_ h
  · rintro _ rfl
    rfl
  · intro s a t _ hs hok hstep
    cases a with
    | openLibrary fileName result =>
        obtain rfl := Option.some.inj hstep
        show (Win32.openLibrary s.win fileName result).1 =
          (Dlfcn.openLibrary s.dl fileName result).1
        rw [openLibrary_eq result hok, hs]
    | close success =>
        obtain rfl := Option.some.inj hstep
        replace hok : s.win.handle = none := hok
        show Win32.close s.win success = Dlfcn.close s.dl success
        rw [(close_eq success hok).1, ← hs, (close_eq success hok).2]

/-- **The loaders implement the same machine** in exactly the runs in which no `close`, and
no `open` with a file name, finds a library open. -/
theorem agree_iff {s : Sys} {as : List Label}
    (h : system.Path (fun _ _ => True) fresh as s) :
    (∀ bs t, bs <+: as → system.Path (fun _ _ => True) fresh bs t → Agree t) ↔
      system.Path findsNoneOpen fresh as s := by
  have h₀ : system.init fresh := rfl
  have hnew : Sound Loader.new := Paired.sound (show Paired Loader.new from rfl)
  apply LTS.Path.always_iff_first h₀ h
  · rintro _ rfl
    exact ⟨hnew, hnew, fun r hr => absurd hr List.not_mem_nil⟩
  · intro s a t hreach hs hok hstep
    have hnext := hreach.step hok hstep
    refine ⟨win_eq_dl hnext ▸ dlfcn_sound hnext, dlfcn_sound hnext, ?_⟩
    cases a with
    | openLibrary fileName result =>
        obtain rfl := Option.some.inj hstep
        intro r hr
        rcases List.mem_append.mp hr with hold | hlast
        · exact hs.results r hold
        · obtain rfl := List.mem_singleton.mp hlast
          show (Win32.openLibrary s.win fileName result).2 =
            (Dlfcn.openLibrary s.dl fileName result).2
          rw [openLibrary_eq result hok, win_eq_dl hreach]
    | close success =>
        obtain rfl := Option.some.inj hstep
        exact hs.results
  · intro s a t hreach _ hnot hstep ht
    have heq := win_eq_dl hreach
    cases a with
    | openLibrary fileName result =>
        obtain rfl := Option.some.inj hstep
        obtain ⟨hname, hopen⟩ := not_or.mp hnot
        have hresult := ht.results _ (List.mem_append_right _ (List.mem_singleton_self _))
        rw [← heq] at hresult
        exact openLibrary_ne result hname hopen hresult
    | close success =>
        obtain rfl := Option.some.inj hstep
        exact not_sound_close (heq ▸ paired_of_reachable hreach) hnot success ht.win

/-- A library is opened after one attempt has failed. -/
def reopenRun : List Label :=
  [.openLibrary (str "a.dll") none, .close true, .openLibrary (str "b.dll") (some 1),
    .openLibrary [] none]

/-- `agree_iff` at that run. -/
theorem agree_iff_reopen : ∃ s,
    (∀ bs t, bs <+: reopenRun → system.Path (fun _ _ => True) fresh bs t → Agree t) ↔
      system.Path findsNoneOpen fresh reopenRun s :=
  ⟨_, agree_iff (LTS.path_of_exec (show LTS.exec _ _ _ reopenRun = some _ from rfl))⟩

/-- A library is opened and closed. -/
theorem win32_keeps_handle : ¬∀ s, system.Reachable (fun _ _ => True) s → Agree s := by
  intro hall
  have hreach : system.Reachable (fun _ _ => True) _ :=
    LTS.reachable_of_exec rfl
      (show LTS.exec _ _ fresh [.openLibrary (str "a.dll") (some 1), .close true] = some _
        from rfl)
  obtain ⟨n, hlt, hnot⟩ := (hall _ hreach).win.handle_iff.mp (by decide)
  obtain rfl : n = 0 := Nat.lt_one_iff.mp hlt
  exact hnot (by decide)

end PluginLoader
