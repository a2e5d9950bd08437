/-
# The client (`class TcpClient` in `tcpserver/src/tcpclient.cpp`)

The receiving thread of the client: `run` clears its buffer, receives into it and
hands the buffer, cast to a packet, to the handler of its type.  The environment is
the list of results of `recv`, one for each turn that `isRunning` lets start.

`delivers_iff` is the condition on the results under which `run` passes on exactly
the packets that the server has written.
-/
import CppShared.OrderedMap
import CppShared.Packet
import CppShared.Socket

namespace TcpClient

/-! ## The receiving thread -/

/-- The handlers of `router`. -/
inductive Handler
  | show
  deriving DecidableEq, Repr

/-- The buffer of `run`, the packets it has looked up in `router`, and the texts the
handlers have printed. -/
structure Sys where
  buf : Packet
  passed : List Packet
  printed : List Str

/-- `router`, filled by the constructor. -/
def router : OrderedMap ℕ Handler := OrderedMap.empty.insert tcpMessageShow .show

/-- The text `TcpClient_Show` prints. -/
def showText (packet : Packet) : Str := str "client recv:" ++ packet.cstr 70 ++ str "\n"

/-- `router.find(type)` and the call of the handler. -/
def handle (packet : Packet) : List Str :=
  match router.find? packet.type with
  | none => []
  | some .show => [showText packet]

/-- One turn of the loop of `run`. -/
def receive (s : Sys) : Received → Sys
  | .fails => { s with buf := Packet.zero }
  | .data bytes =>
      let packet := Packet.zero.write 0 bytes
      { buf := packet
        passed := s.passed ++ [packet]
        printed := s.printed ++ handle packet }

/-- `run`, with what the buffer holds at first. -/
def run (buf : Packet) (results : List Received) : Sys := results.foldl receive ⟨buf, [], []⟩

/-! ## What is passed on -/

/-- The bytes of a result. -/
def chunk? : Received → Option Str
  | .fails => none
  | .data bytes => some bytes

/-- A turn passes on what it has received as one packet. -/
theorem receive_passed (s : Sys) (r : Received) :
    (receive s r).passed = s.passed ++ ((chunk? r).map Packet.ofBytes).toList := by
  cases r with
  | fails => exact (List.append_nil _).symm
  | data bytes => rfl

/-- `run` passes on one packet for each result with bytes. -/
theorem run_passed (buf : Packet) (results : List Received) :
    (run buf results).passed = (results.filterMap chunk?).map Packet.ofBytes := by
  have hloop : ∀ s : Sys, (results.foldl receive s).passed =
      s.passed ++ (results.filterMap chunk?).map Packet.ofBytes := by
    induction results with
    | nil =>
        intro s
        exact (List.append_nil _).symm
    | cons r rest ih =>
        intro s
        rw [List.foldl_cons, ih, receive_passed, List.append_assoc]
        cases r <;> rfl
  rw [run, hloop, List.nil_append]

/-- Whenever the bytes arrive in these chunks, with failed calls in between, `run`
passes on these packets. -/
def Delivers (chunks : List Str) (ps : List Packet) : Prop :=
  ∀ buf results, results.filterMap chunk? = chunks →
    (run buf results).passed.Forall₂ Packet.SameButSrc ps

/-- The client gets the packets of a stream exactly when no packet is cut. -/
theorem delivers_iff {chunks : List Str} {ps : List Packet}
    (hchunks : ∀ chunk ∈ chunks, chunk.length ≤ maxBufferLen)
    (hstream : chunks.flatten = Packet.wire ps) :
    Delivers chunks ps ↔ ∀ chunk ∈ chunks, chunk.length = maxBufferLen := by
  have hmade : (chunks.map Packet.ofBytes).Forall₂
      (fun q chunk => Packet.SameButSrc q (Packet.ofBytes chunk)) chunks := by
    rw [List.forall₂_map_left_iff]
    exact List.forall₂_same.mpr fun chunk _ => Packet.SameButSrc.refl _
  rw [← Packet.forall₂_sameButSrc_iff hchunks hstream hmade]
  constructor
  · intro hall
    have hdata : (chunks.map Received.data).filterMap chunk? = chunks := by
      rw [List.filterMap_map]
      exact List.filterMap_some
    have hpassed := hall Packet.zero _ hdata
    rwa [run_passed, hdata] at hpassed
  · intro hall buf results hresults
    rw [run_passed, hresults]
    exact hall

end TcpClient
