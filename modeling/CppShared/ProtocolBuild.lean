/-
# Which messages are the same

`build` escapes nothing.  With the service and the address of the sender fixed, a message
is a destination and a text around `,content:`, and either may contain `,content:` itself.
`sent_eq_iff` says which two calls of `TcpClient::send` make the same message; two
destinations without `,content:` never do.
-/
import CppShared.Protocol
import CppShared.Separator
import CppShared.TcpPipeEpoll

namespace Protocol

/-- What `TcpClient::send(destination, data)` hands to `sendMessage`. -/
def sent (socket : Socket) (destination data : Str) : Except Fault Str :=
  build [str "forward", Epoll.getAddress socket, destination, data]

/-- What stands in front of the destination. -/
def front (service sender : Str) : Str :=
  str "service:" ++ service ++ comma :: (str "from:" ++ sender ++ comma :: str "to:")

/-- A message is its front, the destination, the separator and the content. -/
theorem message_eq (service sender destination content : Str) :
    message service sender destination content =
      front service sender ++ (destination ++ (str ",content:" ++ content)) := by
  have hsep : str ",content:" = comma :: str "content:" := by decide
  rw [hsep]
  simp [message, front, List.append_assoc]

/-- The comma does not come again in the separator. -/
theorem comma_notMem_content : comma ∉ str "content:" := by
  decide

/-- Two calls send the same message exactly if what follows the front is the same. -/
theorem sent_eq_iff_append (socket : Socket) {destination data destination' data' : Str} :
    sent socket destination data = sent socket destination' data' ↔
      destination ++ (str ",content:" ++ data) = destination' ++ (str ",content:" ++ data') := by
  unfold sent
  rw [build_eq, build_eq, message_eq, message_eq, Except.ok.injEq, List.append_right_inj]

/-- **The calls that send the same message.**  Apart from equal calls, it happens exactly
if one destination goes on behind `,content:` where the content of the other one begins;
so destinations without `,content:` are told apart, whatever the contents. -/
theorem sent_eq_iff (socket : Socket) (destination data destination' data' : Str) :
    (sent socket destination data = sent socket destination' data' ↔
      (destination = destination' ∧ data = data') ∨
        ∃ text,
          (destination' = destination ++ (str ",content:" ++ text) ∧
            data = text ++ (str ",content:" ++ data')) ∨
          (destination = destination' ++ (str ",content:" ++ text) ∧
            data' = text ++ (str ",content:" ++ data))) ∧
      (¬str ",content:" <:+: destination → ¬str ",content:" <:+: destination' →
        sent socket destination data = sent socket destination' data' →
          destination = destination' ∧ data = data') := by
  rw [sent_eq_iff_append]
  exact ⟨Separator.append_separator_eq_iff comma_notMem_content,
    Separator.append_separator_inj comma_notMem_content⟩

/-- Two different calls that send the same message. -/
theorem sent_ambiguous : ¬∀ (socket : Socket) (destination data destination' data' : Str),
    sent socket destination data = sent socket destination' data' →
      destination = destination' ∧ data = data' := by
  intro h
  have hsame := h ⟨3, 9000, str "127.0.0.1"⟩ (str "a,content:b") (str "c") (str "a")
    (str "b,content:c") (by rw [sent_eq_iff_append]; rfl)
  exact absurd hsame.1 (by decide)

end Protocol
