/-
# Ordered maps as strictly sorted entry lists

`OrderedMap κ ν` is the associative container the C++ sources call `std::map`:
at most one entry for a key, entries visited in increasing key order.  The entry
list carries the proof that it is strictly sorted, so two entries with one key
cannot be built.

An iterator is a position in the entry list, and `end()` is its length.  When others
change the map meanwhile, positions move; then an iterator is the entry it designates
(`none` for `end()`), with `first?` for `begin()` and `next?` for the increment.

* `insert` follows `std::map::insert`: it leaves an existing entry alone;
* `assign` follows `operator[]` on the left of an assignment: it overwrites;
* `index` follows `operator[]` elsewhere: it stores a default value under an absent key;
* `eraseAt` follows `erase(iterator)`: the iterator it returns designates the
  entry that followed, which is the entry now at the same position;
* `eraseFound` is the same for the iterator that `find` gives.
-/
import Mathlib.Order.Lattice
import Mathlib.Data.List.Induction
import Mathlib.Data.List.Perm.Basic

/-- A finite map whose entries are kept strictly sorted by key. -/
structure OrderedMap (κ ν : Type*) [LinearOrder κ] where
  entries : List (κ × ν)
  sorted : entries.Pairwise (fun a b => a.1 < b.1)

namespace OrderedMap

variable {κ ν : Type*} [LinearOrder κ]

/-- The map without entries. -/
def empty : OrderedMap κ ν := ⟨[], List.Pairwise.nil⟩

/-- The value stored under a key. -/
def find? (m : OrderedMap κ ν) (k : κ) : Option ν :=
  (m.entries.find? (fun e => e.1 = k)).map Prod.snd

/-- The keys in increasing order. -/
def keys (m : OrderedMap κ ν) : List κ := m.entries.map Prod.fst

/-- The values in the order of their keys. -/
def values (m : OrderedMap κ ν) : List ν := m.entries.map Prod.snd

/-! ## Lookup -/

/-- An entry is what is found under its key. -/
theorem find?_of_mem {m : OrderedMap κ ν} {e : κ × ν} (he : e ∈ m.entries) :
    m.find? e.1 = some e.2 := by
  obtain ⟨l, hl⟩ := m
  show (l.find? (fun d => d.1 = e.1)).map Prod.snd = some e.2
  induction l with
  | nil => simp at he
  | cons d rest ih =>
      obtain ⟨hhead, hrest⟩ := List.pairwise_cons.mp hl
      rcases List.mem_cons.mp he with rfl | he
      · simp
      · have hne : d.1 ≠ e.1 := ne_of_lt (hhead e he)
        rw [List.find?_cons_of_neg (by simpa using hne)]
        exact ih hrest he

/-- What is found under a key is an entry. -/
theorem mem_of_find? {m : OrderedMap κ ν} {k : κ} {v : ν} (h : m.find? k = some v) :
    (k, v) ∈ m.entries := by
  obtain ⟨e, he, rfl⟩ := Option.map_eq_some_iff.mp h
  have hk : e.1 = k := by simpa using List.find?_some he
  exact hk ▸ List.mem_of_find?_eq_some he

/-- Something is found exactly under the keys. -/
theorem mem_keys_iff {m : OrderedMap κ ν} {k : κ} : k ∈ m.keys ↔ ∃ v, m.find? k = some v := by
  constructor
  · intro hk
    obtain ⟨e, he, rfl⟩ := List.mem_map.mp hk
    exact ⟨e.2, find?_of_mem he⟩
  · rintro ⟨v, hv⟩
    exact List.mem_map.mpr ⟨(k, v), mem_of_find? hv, rfl⟩

/-- The values are what is found under the keys. -/
theorem mem_values_iff {m : OrderedMap κ ν} {v : ν} : v ∈ m.values ↔ ∃ k, m.find? k = some v := by
  constructor
  · intro hv
    obtain ⟨e, he, rfl⟩ := List.mem_map.mp hv
    exact ⟨e.1, find?_of_mem he⟩
  · rintro ⟨k, hk⟩
    exact List.mem_map.mpr ⟨(k, v), mem_of_find? hk, rfl⟩

/-- Nothing is found under an absent key. -/
theorem find?_eq_none {m : OrderedMap κ ν} {k : κ} (hk : k ∉ m.keys) : m.find? k = none := by
  rw [Option.eq_none_iff_forall_ne_some]
  exact fun v hv => hk (mem_keys_iff.mpr ⟨v, hv⟩)

/-! ## Insertion -/

/-- Insert an entry into a sorted entry list unless its key is present. -/
def insertEntry (k : κ) (v : ν) : List (κ × ν) → List (κ × ν)
  | [] => [(k, v)]
  | e :: rest =>
      if k < e.1 then (k, v) :: e :: rest
      else if k = e.1 then e :: rest
      else e :: insertEntry k v rest

/-- An entry of the result is the new one or was there before. -/
theorem mem_of_mem_insertEntry {k : κ} {v : ν} {l : List (κ × ν)} {e : κ × ν}
    (h : e ∈ insertEntry k v l) : e = (k, v) ∨ e ∈ l := by
  induction l with
  | nil => exact Or.inl (by simpa [insertEntry] using h)
  | cons d rest ih =>
      rw [insertEntry] at h
      split_ifs at h with hlt heq
      · simpa using h
      · exact Or.inr h
      · rcases List.mem_cons.mp h with rfl | hrest
        · exact Or.inr List.mem_cons_self
        · exact (ih hrest).imp_right (List.mem_cons_of_mem d)

/-- A smaller key may stand in front of a sorted list. -/
theorem pairwise_cons_of_lt {k : κ} (v : ν) {e : κ × ν} {l : List (κ × ν)} (hlt : k < e.1)
    (h : (e :: l).Pairwise (fun a b => a.1 < b.1)) :
    ((k, v) :: e :: l).Pairwise (fun a b => a.1 < b.1) := by
  refine List.pairwise_cons.mpr ⟨fun d hd => ?_, h⟩
  rcases List.mem_cons.mp hd with rfl | hd
  · exact hlt
  · exact hlt.trans (List.rel_of_pairwise_cons h hd)

/-- A greater key may come into the rest of a sorted list. -/
theorem pairwise_cons_of_gt {k : κ} {v : ν} {e : κ × ν} {l m : List (κ × ν)} (hlt : e.1 < k)
    (hhead : ∀ d ∈ l, e.1 < d.1) (hmem : ∀ d ∈ m, d = (k, v) ∨ d ∈ l)
    (h : m.Pairwise (fun a b => a.1 < b.1)) : (e :: m).Pairwise (fun a b => a.1 < b.1) := by
  refine List.pairwise_cons.mpr ⟨fun d hd => ?_, h⟩
  rcases hmem d hd with rfl | hd
  · exact hlt
  · exact hhead d hd

/-- Insertion keeps an entry list sorted. -/
theorem pairwise_insertEntry (k : κ) (v : ν) {l : List (κ × ν)}
    (h : l.Pairwise (fun a b => a.1 < b.1)) :
    (insertEntry k v l).Pairwise (fun a b => a.1 < b.1) := by
  induction l with
  | nil => simp [insertEntry]
  | cons e rest ih =>
      obtain ⟨hhead, hrest⟩ := List.pairwise_cons.mp h
      rw [insertEntry]
      split_ifs with hlt heq
      · exact pairwise_cons_of_lt v hlt h
      · exact h
      · have hgt : e.1 < k := lt_of_le_of_ne (not_lt.mp hlt) (Ne.symm heq)
        exact pairwise_cons_of_gt hgt hhead (fun d => mem_of_mem_insertEntry) (ih hrest)

/-- A key that is present makes insertion a no-op. -/
theorem insertEntry_of_mem {k : κ} {v : ν} {l : List (κ × ν)}
    (h : l.Pairwise (fun a b => a.1 < b.1)) (hk : k ∈ l.map Prod.fst) :
    insertEntry k v l = l := by
  induction l with
  | nil => simp at hk
  | cons e rest ih =>
      obtain ⟨hhead, hrest⟩ := List.pairwise_cons.mp h
      rw [insertEntry]
      rcases List.mem_cons.mp (List.map_cons ▸ hk) with heq | htail
      · rw [if_neg (heq ▸ lt_irrefl _), if_pos heq]
      · obtain ⟨d, hd, rfl⟩ := List.mem_map.mp htail
        have hlt : e.1 < d.1 := hhead d hd
        rw [if_neg (not_lt.mpr hlt.le), if_neg (ne_of_gt hlt), ih hrest htail]

/-- A key that is absent is added as one new entry. -/
theorem perm_insertEntry {k : κ} {v : ν} {l : List (κ × ν)} (hk : k ∉ l.map Prod.fst) :
    (insertEntry k v l).Perm ((k, v) :: l) := by
  induction l with
  | nil => exact List.Perm.refl _
  | cons e rest ih =>
      rw [insertEntry]
      have hne : k ≠ e.1 := fun heq => hk (by simp [heq])
      have hrest : k ∉ rest.map Prod.fst := fun hmem => hk (by simp [hmem])
      split_ifs with hlt
      · exact List.Perm.refl _
      · exact ((ih hrest).cons e).trans (List.Perm.swap (k, v) e rest)

/-- `std::map::insert`. -/
def insert (m : OrderedMap κ ν) (k : κ) (v : ν) : OrderedMap κ ν :=
  ⟨insertEntry k v m.entries, pairwise_insertEntry k v m.sorted⟩

/-- Inserting under a key that is present changes nothing. -/
theorem insert_of_mem {m : OrderedMap κ ν} {k : κ} {v : ν} (hk : k ∈ m.keys) :
    m.insert k v = m := by
  obtain ⟨l, hl⟩ := m
  simp only [insert, mk.injEq]
  exact insertEntry_of_mem hl hk

/-- Inserting under an absent key adds the value to the values. -/
theorem perm_values_insert {m : OrderedMap κ ν} {k : κ} {v : ν} (hk : k ∉ m.keys) :
    (m.insert k v).values.Perm (v :: m.values) :=
  (perm_insertEntry hk).map Prod.snd

/-- What is stored under a key after an insertion. -/
theorem find?_insert (m : OrderedMap κ ν) (k : κ) (v : ν) (j : κ) :
    (m.insert k v).find? j = if j = k then some ((m.find? k).getD v) else m.find? j := by
  by_cases hk : k ∈ m.keys
  · obtain ⟨w, hw⟩ := mem_keys_iff.mp hk
    rw [insert_of_mem hk, hw]
    split_ifs with hjk
    · rw [hjk, hw]
      rfl
    · rfl
  · have hperm : (m.insert k v).entries.Perm ((k, v) :: m.entries) := perm_insertEntry hk
    have hnone := find?_eq_none hk
    split_ifs with hjk
    · rw [hjk, hnone]
      exact find?_of_mem (hperm.mem_iff.mpr List.mem_cons_self)
    · apply Option.ext
      intro w
      constructor
      · intro h
        rcases List.mem_cons.mp (hperm.mem_iff.mp (mem_of_find? h)) with heq | hmem
        · exact absurd (congrArg Prod.fst heq) hjk
        · exact find?_of_mem hmem
      · intro h
        exact find?_of_mem (hperm.mem_iff.mpr (List.mem_cons_of_mem _ (mem_of_find? h)))

/-- An insertion leaves what is stored. -/
theorem find?_insert_of_find? {m : OrderedMap κ ν} {k j : κ} {v w : ν} (h : m.find? j = some w) :
    (m.insert k v).find? j = some w := by
  rw [find?_insert]
  split_ifs with hjk
  · rw [← hjk, h]
    rfl
  · exact h

/-- What is stored after an insertion is new or was stored before. -/
theorem of_find?_insert {m : OrderedMap κ ν} {k j : κ} {v w : ν}
    (h : (m.insert k v).find? j = some w) : m.find? j = some w ∨ (j = k ∧ w = v) := by
  rw [find?_insert] at h
  split_ifs at h with hjk
  · rw [hjk]
    cases hfind : m.find? k with
    | none =>
        rw [hfind] at h
        exact Or.inr ⟨rfl, (Option.some.inj h).symm⟩
    | some u =>
        rw [hfind] at h
        exact Or.inl h
  · exact Or.inl h

/-- The keys after an insertion. -/
theorem mem_keys_insert {m : OrderedMap κ ν} {k j : κ} {v : ν} :
    j ∈ (m.insert k v).keys ↔ j = k ∨ j ∈ m.keys := by
  rw [mem_keys_iff, mem_keys_iff, find?_insert]
  split_ifs with hjk
  · exact iff_of_true ⟨_, rfl⟩ (Or.inl hjk)
  · exact (or_iff_right hjk).symm

/-- The values after an insertion. -/
theorem mem_values_insert {m : OrderedMap κ ν} {k : κ} {v w : ν} :
    w ∈ (m.insert k v).values ↔ w ∈ m.values ∨ k ∉ m.keys ∧ w = v := by
  by_cases hk : k ∈ m.keys
  · rw [insert_of_mem hk]
    tauto
  · rw [(perm_values_insert hk).mem_iff, List.mem_cons]
    tauto

/-! ## Assignment through the index operator -/

/-- Store a value under a key of a sorted entry list, over the entry that is there. -/
def assignEntry (k : κ) (v : ν) : List (κ × ν) → List (κ × ν)
  | [] => [(k, v)]
  | e :: rest =>
      if k < e.1 then (k, v) :: e :: rest
      else if k = e.1 then (k, v) :: rest
      else e :: assignEntry k v rest

/-- A key of the result is the new one or was there before. -/
theorem mem_of_mem_assignEntry {k : κ} {v : ν} {l : List (κ × ν)} {e : κ × ν}
    (h : e ∈ assignEntry k v l) : e = (k, v) ∨ e ∈ l := by
  induction l with
  | nil => exact Or.inl (by simpa [assignEntry] using h)
  | cons d rest ih =>
      rw [assignEntry] at h
      split_ifs at h with hlt heq
      · simpa using h
      · exact (List.mem_cons.mp h).imp_right (List.mem_cons_of_mem d)
      · rcases List.mem_cons.mp h with rfl | hrest
        · exact Or.inr List.mem_cons_self
        · exact (ih hrest).imp_right (List.mem_cons_of_mem d)

/-- Assignment keeps an entry list sorted. -/
theorem pairwise_assignEntry (k : κ) (v : ν) {l : List (κ × ν)}
    (h : l.Pairwise (fun a b => a.1 < b.1)) :
    (assignEntry k v l).Pairwise (fun a b => a.1 < b.1) := by
  induction l with
  | nil => simp [assignEntry]
  | cons e rest ih =>
      obtain ⟨hhead, hrest⟩ := List.pairwise_cons.mp h
      rw [assignEntry]
      split_ifs with hlt heq
      · exact pairwise_cons_of_lt v hlt h
      · exact List.pairwise_cons.mpr ⟨fun d hd => heq ▸ hhead d hd, hrest⟩
      · have hgt : e.1 < k := lt_of_le_of_ne (not_lt.mp hlt) (Ne.symm heq)
        exact pairwise_cons_of_gt hgt hhead (fun d => mem_of_mem_assignEntry) (ih hrest)

/-- `m[k] = v`. -/
def assign (m : OrderedMap κ ν) (k : κ) (v : ν) : OrderedMap κ ν :=
  ⟨assignEntry k v m.entries, pairwise_assignEntry k v m.sorted⟩

/-- What is stored under a key after an assignment. -/
theorem find?_assign (m : OrderedMap κ ν) (k : κ) (v : ν) (j : κ) :
    (m.assign k v).find? j = if j = k then some v else m.find? j := by
  obtain ⟨l, hl⟩ := m
  show ((assignEntry k v l).find? (fun e => e.1 = j)).map Prod.snd = _
  induction l with
  | nil =>
      by_cases hjk : j = k
      · simp [assignEntry, hjk]
      · simp [assignEntry, find?, hjk, Ne.symm hjk]
  | cons e rest ih =>
      obtain ⟨hhead, hrest⟩ := List.pairwise_cons.mp hl
      have ih' := ih hrest
      rw [assignEntry]
      by_cases hjk : j = k
      · rw [if_pos hjk] at ih' ⊢
        subst hjk
        by_cases hlt : j < e.1
        · simp [hlt]
        · by_cases heq : j = e.1
          · simp [← heq]
          · simpa [hlt, heq, Ne.symm heq] using ih'
      · rw [if_neg hjk] at ih' ⊢
        split_ifs with hlt heq
        · simp [find?, Ne.symm hjk]
        · have hej : e.1 ≠ j := fun h => hjk (h.symm.trans heq.symm)
          simp [find?, Ne.symm hjk, hej]
        · by_cases hej : e.1 = j
          · simp [find?, hej]
          · simpa [find?, hej] using ih'

/-! ## The index operator -/

/-- `m[k]`: the map afterwards, and the value.  Under an absent key the value `d` is stored
first. -/
def index (m : OrderedMap κ ν) (k : κ) (d : ν) : OrderedMap κ ν × ν :=
  (m.insert k d, (m.find? k).getD d)

/-- A key that is present makes the index operator a lookup. -/
theorem index_of_find? {m : OrderedMap κ ν} {k : κ} {v : ν} (h : m.find? k = some v) (d : ν) :
    m.index k d = (m, v) := by
  rw [index, insert_of_mem (mem_keys_iff.mpr ⟨v, h⟩), h]
  rfl

/-- An absent key gives the default value. -/
theorem index_of_none {m : OrderedMap κ ν} {k : κ} (h : m.find? k = none) (d : ν) :
    m.index k d = (m.insert k d, d) := by
  rw [index, h]
  rfl

/-! ## Histories of assignments -/

/-- The value assigned last under a key. -/
def latest (k : κ) (history : List (κ × ν)) : Option ν :=
  history.foldl (fun v e => if e.1 = k then some e.2 else v) none

/-- The value assigned last, after one more assignment. -/
theorem latest_concat (k : κ) (history : List (κ × ν)) (j : κ) (v : ν) :
    latest k (history ++ [(j, v)]) = if j = k then some v else latest k history :=
  List.foldl_concat _ _ _ _

/-- Some value was assigned under the keys of the history. -/
theorem mem_keys_history {k : κ} {history : List (κ × ν)} :
    k ∈ history.map Prod.fst ↔ ∃ v, latest k history = some v := by
  induction history using List.reverseRecOn with
  | nil => simp [latest]
  | append_singleton history e ih =>
      obtain ⟨j, v⟩ := e
      rw [latest_concat, List.map_append, List.mem_append, ih]
      by_cases hjk : j = k
      · simp [hjk]
      · simp [hjk, Ne.symm hjk]

/-- What is stored follows the history of the assignments, with `f` for the value that an
assignment of the history stores. -/
theorem find?_assign_latest {μ : Type*} {m : OrderedMap κ ν} {history : List (κ × μ)} {f : μ → ν}
    (h : ∀ k, m.find? k = (latest k history).map f) (j : κ) (v : μ) (k : κ) :
    (m.assign j (f v)).find? k = (latest k (history ++ [(j, v)])).map f := by
  rw [find?_assign, latest_concat, h]
  by_cases hjk : j = k
  · rw [if_pos hjk.symm, if_pos hjk]
    rfl
  · rw [if_neg (Ne.symm hjk), if_neg hjk]

/-- Then the keys are those of the history. -/
theorem mem_keys_iff_mem_history {μ : Type*} {m : OrderedMap κ ν} {history : List (κ × μ)}
    {f : μ → ν} (h : ∀ k, m.find? k = (latest k history).map f) (k : κ) :
    k ∈ m.keys ↔ k ∈ history.map Prod.fst := by
  rw [mem_keys_iff, mem_keys_history, h]
  simp

/-! ## Erasure at an iterator -/

/-- `std::map::erase(iterator)`; the position of the returned iterator is the
position of the erased entry. -/
def eraseAt (m : OrderedMap κ ν) (i : ℕ) : OrderedMap κ ν :=
  ⟨m.entries.eraseIdx i, m.sorted.sublist (List.eraseIdx_sublist m.entries i)⟩

/-- What is found after an erasure was there before. -/
theorem find?_of_find?_eraseAt {m : OrderedMap κ ν} {i : ℕ} {k : κ} {v : ν}
    (h : (m.eraseAt i).find? k = some v) : m.find? k = some v :=
  find?_of_mem ((List.eraseIdx_sublist m.entries i).subset (mem_of_find? h))

/-- Erasing an entry takes its value out of the values. -/
theorem perm_values_eraseAt {m : OrderedMap κ ν} {i : ℕ} {e : κ × ν}
    (he : m.entries[i]? = some e) : m.values.Perm (e.2 :: (m.eraseAt i).values) := by
  obtain ⟨hi, rfl⟩ := List.getElem?_eq_some_iff.mp he
  simpa [values, eraseAt] using
    ((List.getElem_cons_eraseIdx_perm hi).symm.map Prod.snd)

/-- `erase` of the iterator that `find` returned. -/
def eraseFound (m : OrderedMap κ ν) (k : κ) : OrderedMap κ ν :=
  ⟨m.entries.filter (fun e => e.1 ≠ k), m.sorted.sublist List.filter_sublist⟩

/-- What is stored under a key after an erasure. -/
theorem find?_eraseFound (m : OrderedMap κ ν) (k j : κ) :
    (m.eraseFound k).find? j = if j = k then none else m.find? j := by
  have hmem : ∀ v, (j, v) ∈ (m.eraseFound k).entries ↔ (j, v) ∈ m.entries ∧ j ≠ k := by
    intro v
    simp [eraseFound, List.mem_filter]
  split_ifs with hjk
  · rw [Option.eq_none_iff_forall_ne_some]
    exact fun v hv => ((hmem v).mp (mem_of_find? hv)).2 hjk
  · apply Option.ext
    intro v
    constructor
    · intro h
      exact find?_of_mem ((hmem v).mp (mem_of_find? h)).1
    · intro h
      exact find?_of_mem ((hmem v).mpr ⟨mem_of_find? h, hjk⟩)

/-- The keys after an erasure. -/
theorem mem_keys_eraseFound {m : OrderedMap κ ν} {k j : κ} :
    j ∈ (m.eraseFound k).keys ↔ j ≠ k ∧ j ∈ m.keys := by
  rw [mem_keys_iff, mem_keys_iff, find?_eraseFound]
  split_ifs with hjk
  · simp [hjk]
  · exact (and_iff_right hjk).symm

/-! ## Iterators of a map that changes -/

/-- `begin()`. -/
def first? (m : OrderedMap κ ν) : Option (κ × ν) := m.entries.head?

/-- The increment of an iterator at the entry with the key `k`. -/
def next? (m : OrderedMap κ ν) (k : κ) : Option (κ × ν) := m.entries.find? fun e => k < e.1

/-- The first entry is stored. -/
theorem find?_of_first? {m : OrderedMap κ ν} {e : κ × ν} (h : m.first? = some e) :
    m.find? e.1 = some e.2 :=
  find?_of_mem (List.mem_of_head? h)

/-- The increment gives an entry, and one behind `k`. -/
theorem find?_of_next? {m : OrderedMap κ ν} {k : κ} {e : κ × ν} (h : m.next? k = some e) :
    m.find? e.1 = some e.2 ∧ k < e.1 :=
  ⟨find?_of_mem (List.mem_of_find?_eq_some h), by simpa using List.find?_some h⟩

/-- No entry stands in front of the first one. -/
theorem le_of_first? {m : OrderedMap κ ν} {e d : κ × ν} (h : m.first? = some e)
    (hd : d ∈ m.entries) : e.1 ≤ d.1 := by
  obtain ⟨l, hl⟩ := m
  obtain ⟨rest, rfl⟩ := List.head?_eq_some_iff.mp h
  rcases List.mem_cons.mp hd with rfl | hrest
  · exact le_refl d.1
  · exact ((List.pairwise_cons.mp hl).1 d hrest).le

/-- A search from the front meets the smallest key first. -/
theorem le_of_find?_entries {m : OrderedMap κ ν} {p : κ × ν → Bool} {e d : κ × ν}
    (h : m.entries.find? p = some e) (hd : d ∈ m.entries) (hp : p d = true) : e.1 ≤ d.1 := by
  obtain ⟨-, front, back, hsplit, hfront⟩ := List.find?_eq_some_iff_append.mp h
  have hsorted := m.sorted
  rw [hsplit] at hd hsorted
  rcases List.mem_append.mp hd with hfront' | htail
  · have hnot := hfront d hfront'
    rw [hp] at hnot
    exact absurd hnot Bool.noConfusion
  · rcases List.mem_cons.mp htail with rfl | hback
    · exact le_refl d.1
    · exact ((List.pairwise_cons.mp (List.pairwise_append.mp hsorted).2.1).1 d hback).le

/-- The increment passes no entry. -/
theorem le_of_next? {m : OrderedMap κ ν} {k : κ} {e d : κ × ν} (h : m.next? k = some e)
    (hd : d ∈ m.entries) (hlt : d.1 < e.1) : d.1 ≤ k := by
  by_contra hk
  have hle : e.1 ≤ d.1 := le_of_find?_entries h hd (decide_eq_true (not_le.mp hk))
  exact absurd hlt (not_lt.mpr hle)

/-- At the last entry the increment gives `end()`. -/
theorem le_of_next?_eq_none {m : OrderedMap κ ν} {k : κ} {d : κ × ν} (h : m.next? k = none)
    (hd : d ∈ m.entries) : d.1 ≤ k := by
  have hnot : ¬k < d.1 := by simpa using List.find?_eq_none.mp h d hd
  exact not_lt.mp hnot

end OrderedMap
