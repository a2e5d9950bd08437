/-
# The text protocol (`class Protocol` in `src/tcppipe.hpp`)

`build` writes four strings into one message, separated by commas and each behind
its prefix; `parse` splits a message at the commas and looks the prefixes up in
the first three tokens.  The lookup result goes through an `int`, and `substr`
starts at the prefix, not behind it.

`parse_message` says what the decoder makes of an encoded message.  It is never what
went in: the prefix stays in front of every entry, and the entry `content` is
looked up in the token of the destination.
-/
import CppShared.Bytes
import CppShared.OrderedMap

namespace Protocol

/-- What can go wrong in `parse` and `build`. -/
inductive Fault
  /-- `operator[]` past the end of a vector, which is undefined behaviour. -/
  | index
  /-- `std::out_of_range` from `substr`. -/
  | outOfRange
  deriving DecidableEq, Repr

/-- The separator. -/
def comma : UInt8 := 44

/-- `v[i]`. -/
def index (v : List Str) (i : ℕ) : Except Fault Str :=
  match v[i]? with
  | some s => .ok s
  | none => .error .index

/-- `s.substr(pos)`. -/
def substr (s : Str) (pos : ℕ) : Except Fault Str :=
  if s.length < pos then .error .outOfRange else .ok (s.drop pos)

/-- `std::sregex_token_iterator` over the text between the commas: an empty text
behind the last comma gives no token. -/
def tokens (message : Str) : List Str :=
  let fields := message.splitOn comma
  if 1 < fields.length ∧ fields.getLast? = some [] then fields.dropLast else fields

/-- `int start = token.find(prefix)`, used as an offset. -/
def start (token pat : Str) : ℕ := toSize (toInt ((find pat token).getD npos))

/-- One entry: the `i`-th token from the prefix on. -/
def field (dataVec : List Str) (i : ℕ) (pat : Str) : Except Fault Str := do
  let token ← index dataVec i
  substr token (start token pat)

/-- The four assignments to `data`. -/
def entries (service sender destination content : Str) : OrderedMap Str Str :=
  (((OrderedMap.empty.assign (str "service") service).assign (str "from") sender).assign
    (str "to") destination).assign (str "content") content

/-- `Protocol::parse`. -/
def parse (message : Str) : Except Fault (OrderedMap Str Str) := do
  let dataVec := tokens message
  let service ← field dataVec 0 (str "service:")
  let sender ← field dataVec 1 (str "from:")
  let destination ← field dataVec 2 (str "to:")
  let content ← field dataVec 2 (str "content:")
  return entries service sender destination content

/-- `Protocol::build`. -/
def build (data : List Str) : Except Fault Str := do
  let service ← index data 0
  let sender ← index data 1
  let destination ← index data 2
  let content ← index data 3
  return str "service:" ++ service ++ [comma] ++ (str "from:" ++ sender ++ [comma]) ++
    (str "to:" ++ destination ++ [comma]) ++ (str "content:" ++ content)

/-! ## The decoder on a built message -/

/-- The first three fields are tokens, unless the third is empty and the last. -/
theorem tokens_of_fields {message a b c : Str} {rest : List Str}
    (h : message.splitOn comma = a :: b :: c :: rest) (hlast : rest = [] → c ≠ []) :
    ∃ rest', tokens message = a :: b :: c :: rest' := by
  unfold tokens
  rw [h]
  cases rest with
  | nil =>
      have hnot : ¬(1 < [a, b, c].length ∧ [a, b, c].getLast? = some []) := by
        rintro ⟨-, hc⟩
        exact hlast rfl (Option.some.inj hc)
      exact ⟨[], if_neg hnot⟩
  | cons f fs =>
      dsimp only
      split_ifs
      · exact ⟨(f :: fs).dropLast, rfl⟩
      · exact ⟨f :: fs, rfl⟩

/-- The text up to the first three commas gives the first three tokens. -/
theorem tokens_three {a b c : Str} (d : Str) (ha : comma ∉ a) (hb : comma ∉ b) (hc : comma ∉ c) :
    ∃ rest, tokens (a ++ comma :: (b ++ comma :: (c ++ comma :: d))) = a :: b :: c :: rest := by
  have hfields : (a ++ comma :: (b ++ comma :: (c ++ comma :: d))).splitOn comma =
      a :: b :: c :: d.splitOn comma := by
    rw [List.splitOn_append_cons_self_of_not_mem ha, List.splitOn_append_cons_self_of_not_mem hb,
      List.splitOn_append_cons_self_of_not_mem hc]
  exact tokens_of_fields hfields fun hnil => absurd hnil (List.splitOn_ne_nil comma d)

/-- A computation that succeeded goes on with its value. -/
theorem ok_bind {α β : Type} (a : α) (f : α → Except Fault β) : (Except.ok a >>= f) = f a :=
  rfl

/-- An entry taken from a token that exists. -/
theorem field_eq {dataVec : List Str} {i : ℕ} {token : Str} (pat : Str)
    (h : dataVec[i]? = some token) : field dataVec i pat = substr token (start token pat) := by
  have hindex : index dataVec i = .ok token := by
    unfold index
    rw [h]
  simp only [field, hindex, bind, Except.bind]

/-- A token that begins with its prefix is the entry, prefix included. -/
theorem field_of_front {dataVec : List Str} {i : ℕ} {pat value : Str}
    (h : dataVec[i]? = some (pat ++ value)) : field dataVec i pat = .ok (pat ++ value) := by
  have hstart : start (pat ++ value) pat = 0 := by
    rw [start, find_append, Option.getD_some, toSize_toInt (by decide)]
  have hsub : substr (pat ++ value) 0 = .ok (pat ++ value) := by
    unfold substr
    rw [if_neg (Nat.not_lt_zero _), List.drop_zero]
  rw [field_eq pat h, hstart, hsub]

/-- What `parse` returns once its first three lookups succeeded. -/
theorem parse_of_fields {message service sender destination : Str}
    (hservice : field (tokens message) 0 (str "service:") = .ok service)
    (hsender : field (tokens message) 1 (str "from:") = .ok sender)
    (hdestination : field (tokens message) 2 (str "to:") = .ok destination) :
    parse message =
      (field (tokens message) 2 (str "content:")).map (entries service sender destination) := by
  unfold parse
  simp only [hservice, hsender, hdestination, ok_bind]
  cases field (tokens message) 2 (str "content:") with
  | error fault => rfl
  | ok content => rfl

/-- The message `build` writes. -/
def message (service sender destination content : Str) : Str :=
  str "service:" ++ service ++ comma :: (str "from:" ++ sender ++ comma ::
    (str "to:" ++ destination ++ comma :: (str "content:" ++ content)))

theorem build_eq (service sender destination content : Str) :
    build [service, sender, destination, content] =
      .ok (message service sender destination content) := by
  simp [build, index, message, bind, Except.bind, pure, Except.pure]

/-- **What the decoder returns.**  Three entries keep their prefix; the entry
`content` is the text of the destination's token from `content:` on, and there is
none when the destination does not contain that text. -/
theorem parse_message {service sender destination : Str} (content : Str)
    (hservice : comma ∉ service) (hsender : comma ∉ sender) (hdestination : comma ∉ destination) :
    parse (message service sender destination content) =
      (substr (str "to:" ++ destination) (start (str "to:" ++ destination) (str "content:"))).map
        (entries (str "service:" ++ service) (str "from:" ++ sender)
          (str "to:" ++ destination)) := by
  have hfront : ∀ (pat : String) {value : Str}, comma ∉ str pat → comma ∉ value →
      comma ∉ str pat ++ value := by
    intro pat value hpat hvalue hmem
    exact (List.mem_append.mp hmem).elim hpat hvalue
  obtain ⟨rest, htokens⟩ := tokens_three (str "content:" ++ content)
    (hfront "service:" (by decide) hservice) (hfront "from:" (by decide) hsender)
    (hfront "to:" (by decide) hdestination)
  have hget : ∀ i : ℕ, (tokens (message service sender destination content))[i]? =
      ((str "service:" ++ service) :: (str "from:" ++ sender) :: (str "to:" ++ destination) ::
        rest)[i]? := by
    intro i
    rw [message, htokens]
  rw [parse_of_fields (field_of_front (hget 0)) (field_of_front (hget 1)) (field_of_front (hget 2)),
    field_eq _ (hget 2)]

/-- Without the text `content:` in the destination the decoder throws. -/
theorem parse_message_throws {service sender destination : Str} (content : Str)
    (hservice : comma ∉ service) (hsender : comma ∉ sender) (hdestination : comma ∉ destination)
    (hfind : find (str "content:") (str "to:" ++ destination) = none)
    (hlen : (str "to:" ++ destination).length < npos) :
    parse (message service sender destination content) = .error .outOfRange := by
  have hstart : start (str "to:" ++ destination) (str "content:") = npos := by
    rw [start, hfind, Option.getD_none, toSize_toInt_npos]
  rw [parse_message content hservice hsender hdestination, hstart, substr, if_pos hlen]
  rfl

/-! ## The round trip -/

/-- The four entries of a map. -/
theorem find?_entries (service sender destination content : Str) :
    (entries service sender destination content).find? (str "service") = some service ∧
    (entries service sender destination content).find? (str "from") = some sender ∧
    (entries service sender destination content).find? (str "to") = some destination ∧
    (entries service sender destination content).find? (str "content") = some content := by
  have hkeys : str "service" ≠ str "from" ∧ str "service" ≠ str "to" ∧
      str "service" ≠ str "content" ∧ str "from" ≠ str "to" ∧ str "from" ≠ str "content" ∧
      str "to" ≠ str "content" := by
    decide
  obtain ⟨h₁, h₂, h₃, h₄, h₅, h₆⟩ := hkeys
  unfold entries
  simp only [OrderedMap.find?_assign, h₁, h₂, h₃, h₄, h₅, h₆, if_true, if_false, and_self]

/-- Decoding the encoding gives back the four strings. -/
def RoundTrips (service sender destination content : Str) : Prop :=
  ∃ data, (build [service, sender, destination, content]).bind parse = .ok data ∧
    data.find? (str "service") = some service ∧ data.find? (str "from") = some sender ∧
    data.find? (str "to") = some destination ∧ data.find? (str "content") = some content

/-- **No round trip.**  Four strings never survive `build` and `parse`: either the
decoder throws, or the entry `service` has its prefix in front. -/
theorem not_roundTrips {service sender destination : Str} (content : Str)
    (hservice : comma ∉ service) (hsender : comma ∉ sender) (hdestination : comma ∉ destination) :
    ¬RoundTrips service sender destination content := by
  rintro ⟨data, hdata, hentry, -⟩
  rw [build_eq] at hdata
  replace hdata : parse (message service sender destination content) = .ok data := hdata
  rw [parse_message content hservice hsender hdestination] at hdata
  cases hsub : substr (str "to:" ++ destination)
      (start (str "to:" ++ destination) (str "content:")) with
  | error fault =>
      rw [hsub] at hdata
      exact absurd hdata (by simp [Except.map])
  | ok text =>
      rw [hsub] at hdata
      obtain rfl := Except.ok.inj hdata
      rw [(find?_entries _ _ _ _).1] at hentry
      have hlen := congrArg List.length (Option.some.inj hentry)
      rw [List.length_append] at hlen
      have hpos : 0 < (str "service:").length := by decide
      omega

/-- The message of a client that sends `hello` to another one. -/
theorem not_roundTrips_hello :
    ¬RoundTrips (str "forward") (str "127.0.0.1:9000") (str "127.0.0.1:9001") (str "hello") :=
  not_roundTrips (str "hello") (by decide) (by decide) (by decide)

/-- On that message the decoder throws. -/
theorem parse_hello_throws :
    (build [str "forward", str "127.0.0.1:9000", str "127.0.0.1:9001", str "hello"]).bind parse =
      .error .outOfRange ∧
    ¬RoundTrips (str "forward") (str "127.0.0.1:9000") (str "127.0.0.1:9001") (str "hello") := by
  have hthrows : (build [str "forward", str "127.0.0.1:9000", str "127.0.0.1:9001",
      str "hello"]).bind parse = .error .outOfRange := by
    rfl
  refine ⟨hthrows, ?_⟩
  rintro ⟨data, hdata, -⟩
  rw [hthrows] at hdata
  exact absurd hdata (by simp)

end Protocol
