/-
# Ordered maps with repeated keys

`OrderedMultimap κ ν` is the container the C++ sources call `std::multimap`: any
number of entries for a key, visited in increasing order of the keys.  A new entry
goes behind the entries with its key, and `find` designates the first of them.
-/
import Mathlib.Order.Lattice
import Mathlib.Data.List.Perm.Basic

/-- A finite multimap whose entries are kept sorted by key. -/
structure OrderedMultimap (κ ν : Type*) [LinearOrder κ] where
  entries : List (κ × ν)
  sorted : entries.Pairwise (fun a b => a.1 ≤ b.1)

namespace OrderedMultimap

variable {κ ν : Type*} [LinearOrder κ]

/-- The multimap without entries. -/
def empty : OrderedMultimap κ ν := ⟨[], List.Pairwise.nil⟩

/-- The keys, repeated as often as they have entries. -/
def keys (m : OrderedMultimap κ ν) : List κ := m.entries.map Prod.fst

/-- The values in the order of their keys. -/
def values (m : OrderedMultimap κ ν) : List ν := m.entries.map Prod.snd

/-- `size()`. -/
def size (m : OrderedMultimap κ ν) : ℕ := m.entries.length

/-! ## Insertion -/

/-- Insert an entry behind the entries of a sorted list with the same or a smaller key. -/
def insertEntry (k : κ) (v : ν) : List (κ × ν) → List (κ × ν)
  | [] => [(k, v)]
  | e :: rest => if k < e.1 then (k, v) :: e :: rest else e :: insertEntry k v rest

theorem perm_insertEntry (k : κ) (v : ν) (l : List (κ × ν)) :
    (insertEntry k v l).Perm ((k, v) :: l) := by
  induction l with
  | nil => exact List.Perm.refl _
  | cons e rest ih =>
      rw [insertEntry]
      split_ifs
      · exact List.Perm.refl _
      · exact (ih.cons e).trans (List.Perm.swap (k, v) e rest)

/-- Insertion keeps an entry list sorted. -/
theorem pairwise_insertEntry (k : κ) (v : ν) {l : List (κ × ν)}
    (h : l.Pairwise (fun a b => a.1 ≤ b.1)) :
    (insertEntry k v l).Pairwise (fun a b => a.1 ≤ b.1) := by
  induction l with
  | nil => exact List.pairwise_singleton _ _
  | cons e rest ih =>
      obtain ⟨hhead, hrest⟩ := List.pairwise_cons.mp h
      rw [insertEntry]
      split_ifs with hlt
      · refine List.pairwise_cons.mpr ⟨fun d hd => ?_, h⟩
        rcases List.mem_cons.mp hd with rfl | hd
        · exact hlt.le
        · exact hlt.le.trans (hhead d hd)
      · refine List.pairwise_cons.mpr ⟨fun d hd => ?_, ih hrest⟩
        rcases List.mem_cons.mp ((perm_insertEntry k v rest).mem_iff.mp hd) with rfl | hd
        · exact not_lt.mp hlt
        · exact hhead d hd

/-- `std::multimap::insert`. -/
def insert (m : OrderedMultimap κ ν) (k : κ) (v : ν) : OrderedMultimap κ ν :=
  ⟨insertEntry k v m.entries, pairwise_insertEntry k v m.sorted⟩

/-- Insertion adds one entry. -/
theorem perm_insert (m : OrderedMultimap κ ν) (k : κ) (v : ν) :
    (m.insert k v).entries.Perm ((k, v) :: m.entries) :=
  perm_insertEntry k v m.entries

/-! ## Lookup and erasure -/

/-- The value of the entry `find` designates. -/
def find? (m : OrderedMultimap κ ν) (k : κ) : Option ν :=
  (m.entries.find? (fun e => e.1 = k)).map Prod.snd

/-- `erase` of the iterator `find` returned. -/
def eraseFound (m : OrderedMultimap κ ν) (k : κ) : OrderedMultimap κ ν :=
  ⟨m.entries.eraseP (fun e => e.1 = k), m.sorted.sublist List.eraseP_sublist⟩

/-- Nothing is found exactly under the keys that have no entry. -/
theorem find?_eq_none_iff {m : OrderedMultimap κ ν} {k : κ} : m.find? k = none ↔ k ∉ m.keys := by
  rw [find?, Option.map_eq_none_iff, List.find?_eq_none, keys, List.mem_map, not_exists]
  constructor
  · rintro h e ⟨he, rfl⟩
    exact h e he (by simp)
  · intro h e he heq
    exact h e ⟨he, by simpa using heq⟩

/-- Erasing what was found takes one entry with that key out. -/
theorem perm_eraseFound {m : OrderedMultimap κ ν} {k : κ} {v : ν} (h : m.find? k = some v) :
    m.entries.Perm ((k, v) :: (m.eraseFound k).entries) := by
  obtain ⟨l, hl⟩ := m
  show l.Perm ((k, v) :: l.eraseP (fun e => e.1 = k))
  replace h : (l.find? (fun e => e.1 = k)).map Prod.snd = some v := h
  clear hl
  induction l with
  | nil => simp at h
  | cons e rest ih =>
      by_cases hk : e.1 = k
      · obtain ⟨j, w⟩ := e
        rw [List.find?_cons_of_pos (by simpa using hk)] at h
        obtain rfl : w = v := Option.some.inj h
        obtain rfl : j = k := hk
        rw [List.eraseP_cons_of_pos (by simp)]
      · rw [List.find?_cons_of_neg (by simpa using hk)] at h
        rw [List.eraseP_cons_of_neg (by simpa using hk)]
        exact ((ih h).cons e).trans (List.Perm.swap (k, v) e _)

end OrderedMultimap
