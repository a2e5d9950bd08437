/-
# Which messages the decoder reads

`parse` checks neither the number of tokens nor the results of its searches: a token
that is not there is read past the end of the vector, and a prefix that is not found
makes `substr` start at `npos`.  `parse_safe_iff`: the messages it reads are those whose
first three fields carry their prefixes (`WellFormed`), with the prefix `content:` in the
third field as well, which is where `parse` looks for it.

An offset goes through an `int`; what counts is its remainder modulo `2 ^ 32`.
-/
import CppShared.Protocol

namespace Protocol

/-! ## One entry -/

/-- The pattern occurs, at an offset that an `int` holds as a non-negative number. -/
def Found (pat token : Str) : Prop := ∃ k, find pat token = some k ∧ k % 2 ^ 32 < 2 ^ 31

/-- `substr` accepts the offset exactly of a prefix that was found. -/
theorem start_le_iff {pat token : Str} (hlen : token.length < 2 ^ 63) :
    start token pat ≤ token.length ↔ Found pat token := by
  unfold start Found
  cases hfind : find pat token with
  | none =>
      rw [Option.getD_none, toSize_toInt_npos]
      refine iff_of_false ?_ (by simp)
      unfold npos
      omega
  | some k =>
      rw [Option.getD_some, toSize_toInt_eq]
      have hk := find_le_length hfind
      split_ifs with hint
      · exact iff_of_true (by omega) ⟨k, rfl, hint⟩
      · refine iff_of_false (by omega) ?_
        rintro ⟨j, hj, hj'⟩
        obtain rfl := Option.some.inj hj
        exact hint hj'

/-- An entry is read exactly if its token is there and carries the prefix. -/
theorem field_ok_iff {dataVec : List Str} {i : ℕ} {pat : Str}
    (hlen : ∀ token ∈ dataVec, token.length < 2 ^ 63) :
    (∃ value, field dataVec i pat = .ok value) ↔
      ∃ token, dataVec[i]? = some token ∧ Found pat token := by
  cases htoken : dataVec[i]? with
  | none =>
      have hindex : field dataVec i pat = .error .index := by
        simp only [field, index, htoken, bind, Except.bind]
      rw [hindex]
      exact iff_of_false (by simp) (by simp)
  | some token =>
      have hstart : start token pat ≤ token.length ↔ Found pat token :=
        start_le_iff (hlen token (List.mem_of_getElem? htoken))
      rw [field_eq pat htoken, substr]
      by_cases hle : start token pat ≤ token.length
      · rw [if_neg (not_lt.mpr hle)]
        exact iff_of_true ⟨_, rfl⟩ ⟨token, rfl, hstart.mp hle⟩
      · rw [if_pos (not_le.mp hle)]
        refine iff_of_false (by simp) ?_
        rintro ⟨token', htoken', hfound⟩
        obtain rfl := Option.some.inj htoken'
        exact hle (hstart.mpr hfound)

/-- A computation succeeds exactly if its first part does and the rest goes on from there. -/
theorem bind_ok_iff {α β : Type} {x : Except Fault α} {f : α → Except Fault β} {b : β} :
    (x >>= f) = .ok b ↔ ∃ a, x = .ok a ∧ f a = .ok b := by
  cases x with
  | error fault => simp [bind, Except.bind]
  | ok a => simp [ok_bind]

/-- The decoder succeeds exactly if its four lookups do. -/
theorem parse_ok_iff {message : Str} : (∃ data, parse message = .ok data) ↔
    (∃ value, field (tokens message) 0 (str "service:") = .ok value) ∧
      (∃ value, field (tokens message) 1 (str "from:") = .ok value) ∧
      (∃ value, field (tokens message) 2 (str "to:") = .ok value) ∧
      ∃ value, field (tokens message) 2 (str "content:") = .ok value := by
  constructor
  · rintro ⟨data, hdata⟩
    obtain ⟨service, hservice, hdata⟩ := bind_ok_iff.mp hdata
    obtain ⟨sender, hsender, hdata⟩ := bind_ok_iff.mp hdata
    obtain ⟨destination, hdestination, hdata⟩ := bind_ok_iff.mp hdata
    obtain ⟨content, hcontent, -⟩ := bind_ok_iff.mp hdata
    exact ⟨⟨service, hservice⟩, ⟨sender, hsender⟩, ⟨destination, hdestination⟩, content, hcontent⟩
  · rintro ⟨⟨service, hservice⟩, ⟨sender, hsender⟩, ⟨destination, hdestination⟩, content, hcontent⟩
    refine ⟨entries service sender destination content, ?_⟩
    rw [parse_of_fields hservice hsender hdestination, hcontent]
    rfl

/-! ## The message -/

/-- The first three fields carry their prefixes, and the third also that of the content. -/
def WellFormed (message : Str) : Prop :=
  ∃ service sender destination rest,
    message.splitOn comma = service :: sender :: destination :: rest ∧
      Found (str "service:") service ∧ Found (str "from:") sender ∧
      Found (str "to:") destination ∧ Found (str "content:") destination

/-- No field is longer than the message. -/
theorem length_le_of_mem_splitOn {message token : Str} (h : token ∈ message.splitOn comma) :
    token.length ≤ message.length := by
  induction message generalizing token with
  | nil =>
      rw [List.splitOn_nil] at h
      rw [List.mem_singleton.mp h]
  | cons b rest ih =>
      rw [List.splitOn_cons_eq_if_modifyHead] at h
      rw [List.length_cons]
      split_ifs at h
      · rcases List.mem_cons.mp h with rfl | hrest
        · exact Nat.zero_le _
        · exact Nat.le_succ_of_le (ih hrest)
      · cases hsplit : rest.splitOn comma with
        | nil => exact absurd hsplit (List.splitOn_ne_nil comma rest)
        | cons f fs =>
            rw [hsplit] at h
            rcases List.mem_cons.mp h with rfl | hfs
            · have hf : f ∈ rest.splitOn comma := hsplit ▸ List.mem_cons_self
              rw [List.length_cons]
              exact Nat.succ_le_succ (ih hf)
            · have hrest : token ∈ rest.splitOn comma := hsplit ▸ List.mem_cons_of_mem f hfs
              exact Nat.le_succ_of_le (ih hrest)

/-- A token is the field at its position. -/
theorem prefix_of_tokens (message : Str) : tokens message <+: message.splitOn comma := by
  unfold tokens
  dsimp only
  split_ifs
  · exact List.dropLast_prefix _
  · exact List.prefix_refl _

/-- A list with three entries. -/
theorem eq_cons_three {l : List Str} {a b c : Str} (ha : l[0]? = some a) (hb : l[1]? = some b)
    (hc : l[2]? = some c) : ∃ rest, l = a :: b :: c :: rest := by
  match l with
  | [] | [_] | [_, _] => simp at hc
  | x :: y :: z :: rest =>
      obtain rfl := Option.some.inj ha
      obtain rfl := Option.some.inj hb
      obtain rfl := Option.some.inj hc
      exact ⟨rest, rfl⟩

/-- A field in which something is found is not empty. -/
theorem Found.ne_nil {pat token : Str} (hpat : pat ≠ []) (h : Found pat token) : token ≠ [] := by
  rintro rfl
  obtain ⟨k, hk, -⟩ := h
  unfold find at hk
  rw [if_neg (by simpa using hpat)] at hk
  exact absurd hk (by simp)

/-- The decoder succeeds exactly on the well-formed messages. -/
theorem parse_ok_iff_wellFormed {message : Str} (hlen : message.length < 2 ^ 63) :
    (∃ data, parse message = .ok data) ↔ WellFormed message := by
  have htokens : ∀ token ∈ tokens message, token.length < 2 ^ 63 := by
    intro token hmem
    have hle := length_le_of_mem_splitOn ((prefix_of_tokens message).subset hmem)
    omega
  rw [parse_ok_iff, field_ok_iff htokens, field_ok_iff htokens, field_ok_iff htokens,
    field_ok_iff htokens]
  constructor
  · rintro ⟨⟨service, h₀, hservice⟩, ⟨sender, h₁, hsender⟩, ⟨destination, h₂, hdestination⟩,
      content, h₃, hcontent⟩
    obtain rfl : destination = content := Option.some.inj (h₂.symm.trans h₃)
    obtain ⟨rest, hrest⟩ := eq_cons_three h₀ h₁ h₂
    obtain ⟨last, hlast⟩ := prefix_of_tokens message
    rw [hrest] at hlast
    exact ⟨service, sender, destination, rest ++ last, hlast.symm, hservice, hsender, hdestination,
      hcontent⟩
  · rintro ⟨service, sender, destination, rest, hfields, hservice, hsender, hdestination, hcontent⟩
    obtain ⟨rest', hrest'⟩ := tokens_of_fields hfields fun _ => hdestination.ne_nil (by decide)
    rw [hrest']
    exact ⟨⟨service, rfl, hservice⟩, ⟨sender, rfl, hsender⟩, ⟨destination, rfl, hdestination⟩,
      destination, rfl, hcontent⟩

/-! ## Main result -/

/-- `parse` reads no token past the end of the vector, starts no `substr` past the end of a
token, and what it returns has the four entries. -/
structure ParsesSafely (message : Str) : Prop where
  inBounds : parse message ≠ .error .index
  inRange : parse message ≠ .error .outOfRange
  complete : ∀ data, parse message = .ok data →
    ∀ name ∈ [str "service", str "from", str "to", str "content"],
      ∃ value, data.find? name = some value

/-- What `parse` returns has the four entries. -/
theorem find?_of_parse {message : Str} {data : OrderedMap Str Str} (h : parse message = .ok data) :
    ∀ name ∈ [str "service", str "from", str "to", str "content"],
      ∃ value, data.find? name = some value := by
  obtain ⟨service, -, h⟩ := bind_ok_iff.mp h
  obtain ⟨sender, -, h⟩ := bind_ok_iff.mp h
  obtain ⟨destination, -, h⟩ := bind_ok_iff.mp h
  obtain ⟨content, -, h⟩ := bind_ok_iff.mp h
  obtain rfl := Except.ok.inj h
  obtain ⟨hservice, hsender, hdestination, hcontent⟩ :=
    find?_entries service sender destination content
  intro name hname
  simp only [List.mem_cons, List.not_mem_nil, or_false] at hname
  rcases hname with rfl | rfl | rfl | rfl
  · exact ⟨service, hservice⟩
  · exact ⟨sender, hsender⟩
  · exact ⟨destination, hdestination⟩
  · exact ⟨content, hcontent⟩

/-- **The messages the decoder reads.**  `parse` stays inside the tokens exactly on the
well-formed messages; a string is shorter than `2 ^ 63`. -/
theorem parse_safe_iff {message : Str} (hlen : message.length < 2 ^ 63) :
    ParsesSafely message ↔ WellFormed message := by
  rw [← parse_ok_iff_wellFormed hlen]
  constructor
  · rintro ⟨hindex, hrange, -⟩
    cases hparse : parse message with
    | ok data => exact ⟨data, rfl⟩
    | error fault =>
        cases fault with
        | index => exact absurd hparse hindex
        | outOfRange => exact absurd hparse hrange
  · rintro ⟨data, hdata⟩
    refine ⟨?_, ?_, fun _ h => find?_of_parse h⟩
    · simp [hdata]
    · simp [hdata]

/-- A message whose destination carries the content. -/
theorem parse_safe_nested :
    ParsesSafely (str "service:a,from:b,to:content:c,content:d") ↔
      WellFormed (str "service:a,from:b,to:content:c,content:d") :=
  parse_safe_iff (by decide)

/-- A message of one field: the second token is read past the end of the vector. -/
theorem parse_unsafe : parse (str "service:x") = .error .index ∧
    ¬∀ message, ParsesSafely message := by
  have hindex : parse (str "service:x") = .error .index := by
    rfl
  exact ⟨hindex, fun h => (h (str "service:x")).inBounds hindex⟩

end Protocol
