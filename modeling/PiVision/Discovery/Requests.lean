import PiVision.Lib.Decimal

/-!
# Requests for a service

A client asks where a service is with the text `WHERE_IS_` and the number of the service's
port; the client in C sends the NUL behind it as well. Both servers look for more bytes than
the text has, and both read the number with `atoi`, which takes more for a number than a
client sends. The server in C++ compares the text, the one in C does not.
-/

namespace PiVision

open Decimal

/-- `WHERE_IS_`, the header of a request. -/
def serviceDiscoveryHeader : List UInt8 := [87, 72, 69, 82, 69, 95, 73, 83, 95]

/-- A request as the clients in C++, Java and Python build it. -/
def serviceDiscoveryRequest (portNo : ℕ) : List UInt8 := serviceDiscoveryHeader ++ decimal portNo

/-- The requests of the clients. -/
def IsRequest (portNo : ℕ) (message : List UInt8) : Prop :=
  message = serviceDiscoveryRequest portNo ∨ message = serviceDiscoveryRequest portNo ++ [0]

/-- A datagram, or the answer to one, with the other end's address. -/
structure Datagram where
  addr : ℕ
  bytes : List UInt8
  deriving DecidableEq, Repr

/-- `sizeof(messageBuf)`. -/
def messageBufSize : ℕ := 50

/-- What `recvfrom` puts into `messageBuf`. -/
def Datagram.messageBuf (d : Datagram) : List UInt8 := d.bytes.take messageBufSize

/-- The port number behind the header, as an `unsigned int`. The NUL that the servers put
behind the message ends the number as its last byte does. -/
def requestedPortNo (longBits : ℕ) (messageBuf : List UInt8) : ℕ :=
  (atoi longBits (messageBuf.drop serviceDiscoveryHeader.length) % 2 ^ 32).toNat

section Servers

variable (longBits : ℕ)

/-- `handleNewServiceDiscoveryRequests` of the server in C for one of its contexts, with what
`recvfrom` receives: the answer it sends. -/
def Server.handleNewServiceDiscoveryRequests (connected : Bool) (servedPortNo : ℕ)
    (ownIpAddress : List UInt8) (received : Option Datagram) : Option Datagram :=
  if connected then none
  else
    received.bind fun d =>
      if serviceDiscoveryHeader.length < d.messageBuf.length then
        if servedPortNo = requestedPortNo longBits d.messageBuf then some ⟨d.addr, ownIpAddress⟩
        else none
      else none

/-- `handleNewServiceDiscoveryRequests` of the server in C++, with the datagrams that have
arrived: the answer it sends, and the datagrams it has left. -/
def ServiceListener.handleNewServiceDiscoveryRequests (serviceNo : ℕ)
    (ownIpAddress : List UInt8) : List Datagram → Option Datagram × List Datagram
  | [] => (none, [])
  | d :: queue =>
    if serviceDiscoveryHeader.length < d.messageBuf.length then
      if d.messageBuf.take serviceDiscoveryHeader.length = serviceDiscoveryHeader then
        if serviceNo = requestedPortNo longBits d.messageBuf then
          (some ⟨d.addr, ownIpAddress⟩, queue)
        else (none, queue)
      -- it is called again for unknown data
      else handleNewServiceDiscoveryRequests serviceNo ownIpAddress queue
    else (none, queue)

/-- The server in C answers the datagram. -/
def Server.Answers (servedPortNo : ℕ) (ownIpAddress : List UInt8) (d : Datagram) : Prop :=
  handleNewServiceDiscoveryRequests longBits false servedPortNo ownIpAddress (some d) =
    some ⟨d.addr, ownIpAddress⟩

/-- The server in C++ answers the datagram, with these behind it. -/
def ServiceListener.Answers (serviceNo : ℕ) (ownIpAddress : List UInt8) (d : Datagram)
    (queue : List Datagram) : Prop :=
  handleNewServiceDiscoveryRequests longBits serviceNo ownIpAddress (d :: queue) =
    (some ⟨d.addr, ownIpAddress⟩, queue)

instance (servedPortNo : ℕ) (ownIpAddress : List UInt8) (d : Datagram) :
    Decidable (Server.Answers longBits servedPortNo ownIpAddress d) :=
  inferInstanceAs (Decidable (_ = _))

instance (serviceNo : ℕ) (ownIpAddress : List UInt8) (d : Datagram) (queue : List Datagram) :
    Decidable (ServiceListener.Answers longBits serviceNo ownIpAddress d queue) :=
  inferInstanceAs (Decidable (_ = _))

/-- The datagram is answered by both servers if it is a request for the port, and by neither
if it is not. -/
structure RecognisedExactly (portNo : ℕ) (ownIpAddress : List UInt8) (d : Datagram) : Prop where
  server : Server.Answers longBits portNo ownIpAddress d ↔ IsRequest portNo d.bytes
  serviceListener : ∀ queue,
    ServiceListener.Answers longBits portNo ownIpAddress d queue ↔ IsRequest portNo d.bytes

/-- Behind nine bytes of any kind stands a number with the port's low 32 bits: white space, a
sign or none, any digits, and anything that is not a digit. -/
def HasPortNo (portNo : ℕ) (message : List UInt8) : Prop :=
  ∃ front blanks sign digits rest,
    message = front ++ (blanks ++ (sign ++ (digits ++ rest))) ∧
      front.length = serviceDiscoveryHeader.length ∧ IsNumber blanks sign digits rest ∧
      nearestLong longBits (sign == [45]) (value digits) % 2 ^ 32 = portNo

end Servers

/-! ## The number -/

section Numbers

variable {longBits portNo : ℕ} {message : List UInt8}

theorem requestedPortNo_eq (longBits : ℕ) (message : List UInt8) :
    (requestedPortNo longBits message : ℤ) =
      strtol longBits (message.drop serviceDiscoveryHeader.length) % 2 ^ 32 := by
  have hmod : atoi longBits (message.drop serviceDiscoveryHeader.length) % 2 ^ 32 =
      strtol longBits (message.drop serviceDiscoveryHeader.length) % 2 ^ 32 := Int.bmod_emod
  rw [requestedPortNo, hmod]
  exact Int.toNat_of_nonneg (Int.emod_nonneg _ (by decide))

/-- The servers find the numbers that stand behind nine bytes of any kind. -/
theorem requestedPortNo_eq_iff (pos : 0 < portNo) :
    serviceDiscoveryHeader.length < message.length ∧ portNo = requestedPortNo longBits message ↔
      HasPortNo longBits portNo message := by
  constructor
  · intro ⟨hlength, hport⟩
    have hread := requestedPortNo_eq longBits message
    have hfound : strtol longBits (message.drop serviceDiscoveryHeader.length) ≠ 0 := by
      intro hzero
      rw [hzero, ← hport] at hread
      omega
    obtain ⟨blanks, sign, digits, rest, hsplit, hnumber⟩ := exists_isNumber longBits hfound
    refine ⟨message.take serviceDiscoveryHeader.length, blanks, sign, digits, rest, ?_, ?_, hnumber,
      ?_⟩
    · rw [← hsplit, List.take_append_drop]
    · rw [List.length_take, Nat.min_eq_left hlength.le]
    · rw [← strtol_of_isNumber longBits hnumber, ← hsplit, ← hread, hport]
  · rintro ⟨front, blanks, sign, digits, rest, rfl, hfront, hnumber, hport⟩
    have hdrop : (front ++ (blanks ++ (sign ++ (digits ++ rest)))).drop
        serviceDiscoveryHeader.length = blanks ++ (sign ++ (digits ++ rest)) := by
      rw [← hfront, List.drop_left]
    have hread := requestedPortNo_eq longBits (front ++ (blanks ++ (sign ++ (digits ++ rest))))
    rw [hdrop, strtol_of_isNumber longBits hnumber, hport] at hread
    have hdigits := List.length_pos_iff.mpr hnumber.nonempty
    refine ⟨?_, (Int.ofNat_inj.mp hread).symm⟩
    simp only [List.length_append]
    omega

/-- A request has the number of its port. -/
theorem hasPortNo_of_isRequest (wide : 32 ≤ longBits) (fits : portNo < 2 ^ 31)
    (request : IsRequest portNo message) : HasPortNo longBits portNo message := by
  obtain ⟨rest, hrest, hstops⟩ : ∃ rest, message = serviceDiscoveryRequest portNo ++ rest ∧
      ∀ b, rest.head? = some b → isDigit b = false := by
    rcases request with rfl | rfl
    · exact ⟨[], by simp, nofun⟩
    · refine ⟨[0], rfl, fun b hb => ?_⟩
      cases hb
      rfl
  refine ⟨serviceDiscoveryHeader, [], [], decimal portNo, rest, ?_, rfl,
    ⟨nofun, .inl rfl, fun b => isDigit_of_mem_decimal, decimal_ne_nil portNo, hstops⟩, ?_⟩
  · rw [hrest, serviceDiscoveryRequest, List.append_assoc]
    rfl
  · have hlong : (2 : ℤ) ^ 31 ≤ 2 ^ (longBits - 1) := by
      exact_mod_cast Nat.pow_le_pow_right (by decide) (by omega : 31 ≤ longBits - 1)
    rw [value_decimal, nearestLong, if_neg (by decide), min_eq_left (by omega)]
    omega

end Numbers

/-! ## The answers -/

section Answers

variable {longBits portNo : ℕ} {ownIpAddress : List UInt8} {d : Datagram}

/-- A datagram that `messageBuf` has room for is received as it is. -/
theorem messageBuf_of_fits (fits : d.bytes.length < messageBufSize) : d.messageBuf = d.bytes :=
  List.take_of_length_le fits.le

/-- The server in C answers whatever has the number of its port. -/
theorem Server.answers_iff (fits : d.bytes.length < messageBufSize) (pos : 0 < portNo) :
    Server.Answers longBits portNo ownIpAddress d ↔ HasPortNo longBits portNo d.bytes := by
  rw [← requestedPortNo_eq_iff pos, Server.Answers, handleNewServiceDiscoveryRequests,
    if_neg (by decide), Option.bind_some, messageBuf_of_fits fits]
  split_ifs with hlength hport
  · exact iff_of_true rfl ⟨hlength, hport⟩
  · exact iff_of_false nofun fun h => hport h.2
  · exact iff_of_false nofun fun h => hlength h.1

/-- A call that answers has fewer datagrams left. -/
theorem ServiceListener.length_lt_of_answer {serviceNo : ℕ} {queue rest : List Datagram}
    {answer : Datagram}
    (call : handleNewServiceDiscoveryRequests longBits serviceNo ownIpAddress queue =
      (some answer, rest)) : rest.length < queue.length := by
  induction queue with
  | nil => cases call
  | cons d queue ih =>
    rw [handleNewServiceDiscoveryRequests] at call
    split_ifs at call
    · obtain ⟨-, rfl⟩ := Prod.mk_inj.mp call
      exact Nat.lt_succ_self _
    · cases call
    · exact (ih call).trans (Nat.lt_succ_self _)
    · cases call

/-- The server in C++ answers what has the header as well. -/
theorem ServiceListener.answers_iff (fits : d.bytes.length < messageBufSize) (pos : 0 < portNo)
    (queue : List Datagram) :
    ServiceListener.Answers longBits portNo ownIpAddress d queue ↔
      d.bytes.take serviceDiscoveryHeader.length = serviceDiscoveryHeader ∧
        HasPortNo longBits portNo d.bytes := by
  rw [← requestedPortNo_eq_iff pos, ServiceListener.Answers, handleNewServiceDiscoveryRequests,
    messageBuf_of_fits fits]
  split_ifs with hlength hheader hport
  · exact iff_of_true rfl ⟨hheader, hlength, hport⟩
  · exact iff_of_false (fun h => nomatch (Prod.mk_inj.mp h).1) fun h => hport h.2.2
  · -- an answer to a datagram behind it takes that one from the queue
    refine iff_of_false (fun call => ?_) fun h => hheader h.1
    exact absurd (length_lt_of_answer call) (Nat.lt_irrefl _)
  · exact iff_of_false (fun h => nomatch (Prod.mk_inj.mp h).1) fun h => hlength h.2.1

theorem take_header_of_isRequest {message : List UInt8} (request : IsRequest portNo message) :
    message.take serviceDiscoveryHeader.length = serviceDiscoveryHeader := by
  rcases request with rfl | rfl
  · rw [serviceDiscoveryRequest, List.take_left]
  · rw [serviceDiscoveryRequest, List.append_assoc, List.take_left]

/-- **Requests are recognised exactly** in the datagrams that are requests of the clients, and
in those that have no number of the port behind nine bytes of any kind. -/
theorem recognisedExactly_iff (wide : 32 ≤ longBits) (fits : d.bytes.length < messageBufSize)
    (pos : 0 < portNo) (max : portNo < 65536) :
    RecognisedExactly longBits portNo ownIpAddress d ↔
      IsRequest portNo d.bytes ∨ ¬HasPortNo longBits portNo d.bytes := by
  have hport : IsRequest portNo d.bytes → HasPortNo longBits portNo d.bytes :=
    hasPortNo_of_isRequest wide (by omega)
  constructor
  · intro exact
    by_cases hrequest : IsRequest portNo d.bytes
    · exact .inl hrequest
    · refine .inr fun has => hrequest ?_
      exact exact.server.mp ((Server.answers_iff fits pos).mpr has)
  · intro condition
    have hsame : HasPortNo longBits portNo d.bytes → IsRequest portNo d.bytes :=
      fun has => condition.resolve_right (not_not.mpr has)
    constructor
    · rw [Server.answers_iff fits pos]
      exact ⟨hsame, hport⟩
    · intro queue
      rw [ServiceListener.answers_iff fits pos]
      exact ⟨fun h => hsame h.2, fun request => ⟨take_header_of_isRequest request, hport request⟩⟩

/-- A request of the client in C. -/
theorem recognisedExactly_3070 :
    RecognisedExactly 64 3070 [] ⟨0, [87, 72, 69, 82, 69, 95, 73, 83, 95, 51, 48, 55, 48, 0]⟩ :=
  (recognisedExactly_iff (by decide) (by decide) (by decide) (by decide)).mpr (.inl (.inr rfl))

/-- Nine bytes of any kind are a header to the server in C, and a plus belongs to the number
for both servers. -/
theorem not_recognisedExactly :
    (Server.Answers 64 3380 [] ⟨0, [0, 0, 0, 0, 0, 0, 0, 0, 0, 51, 51, 56, 48]⟩ ∧
      ¬ServiceListener.Answers 64 3380 [] ⟨0, [0, 0, 0, 0, 0, 0, 0, 0, 0, 51, 51, 56, 48]⟩ []) ∧
    ¬RecognisedExactly 64 3380 [] ⟨0, [0, 0, 0, 0, 0, 0, 0, 0, 0, 51, 51, 56, 48]⟩ ∧
    ¬RecognisedExactly 64 3380 []
      ⟨0, [87, 72, 69, 82, 69, 95, 73, 83, 95, 43, 51, 51, 56, 48]⟩ := by
  refine ⟨by decide, fun exact => ?_, fun exact => ?_⟩
  · have hrequest := exact.server.mp (by decide)
    revert hrequest
    unfold IsRequest
    decide
  · have hrequest := (exact.serviceListener []).mp (by decide)
    revert hrequest
    unfold IsRequest
    decide

end Answers

end PiVision
