import PiVision.Discovery.Replies
import PiVision.Discovery.Requests

/-!
# Where the discovery receivers store their NULs

Each of the four receivers offers the whole of its array to `recv` or `recvfrom`, and stores
a NUL at the index that the call returns. That index is behind the array for a datagram that
fills it, as every reply of the servers in C and C++ fills the arrays of both clients. Three
of the receivers look at the index before they store; the listener in C++ looks at it behind
the store, so that the -1 of a receive that fails or times out is an index in front of its
array. It also calls itself again for unknown data, with an array of its own in each call.
-/

namespace PiVision

/-- What `recv` and `recvfrom` return for an array of this size; nothing comes in a receive
that fails or times out. -/
def bytesReceived (size : ℕ) : Option (List UInt8) → ℤ
  | none => -1
  | some bytes => min bytes.length size

/-- A receiver that stores a NUL behind more than `least` bytes: the indices of its stores. -/
def terminatorsAbove (least : ℤ) (size : ℕ) (received : Option (List UInt8)) : List ℤ :=
  if least < bytesReceived size received then [bytesReceived size received] else []

/-- Data that is too long for an empty request and has another header. -/
def Datagram.isUnknown (d : Datagram) : Bool :=
  decide (serviceDiscoveryHeader.length < d.messageBuf.length) &&
    decide (d.messageBuf.take serviceDiscoveryHeader.length ≠ serviceDiscoveryHeader)

/-- The stores of `handleNewServiceDiscoveryRequests` of the server in C for one of its
contexts. -/
def Server.terminators (connected : Bool) (received : Option Datagram) : List ℤ :=
  if connected then []
  else
    terminatorsAbove serviceDiscoveryHeader.length messageBufSize (received.map Datagram.bytes)

/-- The stores of `serviceDiscovery` of the client in C. -/
def ClientState.terminators (reply : Option (List UInt8)) : List ℤ :=
  terminatorsAbove 0 ipAddressLength reply

/-- What `recvfrom` returns in a call of `handleNewServiceDiscoveryRequests` of the server in
C++ and in the calls that this one makes of itself. -/
def ServiceListener.heard : List (Option Datagram) → List (Option Datagram)
  | [] => []
  | received :: later => received :: if received.any Datagram.isUnknown then heard later else []

/-- The stores of `handleNewServiceDiscoveryRequests` of the server in C++, one for each
`recvfrom`. -/
def ServiceListener.terminators (results : List (Option Datagram)) : List ℤ :=
  (heard results).map fun received => bytesReceived messageBufSize (received.map Datagram.bytes)

/-- The stores of `FindService`. -/
def EthTermConnectService.terminators (reply : Option (List UInt8)) : List ℤ :=
  terminatorsAbove 0 ipAddressLength reply

/-- What the receivers receive: the server in C for a context, the client in C, the listener
in C++ with the results of `recvfrom` in their order, and `FindService`. -/
inductive DiscoveryReceive
  | server (connected : Bool) (received : Option Datagram)
  | client (reply : Option (List UInt8))
  | serviceListener (results : List (Option Datagram))
  | connectService (reply : Option (List UInt8))
  deriving DecidableEq, Repr

namespace DiscoveryReceive

/-- The size of `messageBuf`, `serverAddress` or `serverAddressArray`. -/
def arraySize : DiscoveryReceive → ℕ
  | server _ _ => messageBufSize
  | client _ => ipAddressLength
  | serviceListener _ => messageBufSize
  | connectService _ => ipAddressLength

def terminators : DiscoveryReceive → List ℤ
  | server connected received => Server.terminators connected received
  | client reply => ClientState.terminators reply
  | serviceListener results => ServiceListener.terminators results
  | connectService reply => EthTermConnectService.terminators reply

/-- Every NUL is stored inside the array. -/
def InBounds (r : DiscoveryReceive) : Prop := ∀ i ∈ r.terminators, 0 ≤ i ∧ i < r.arraySize

/-- What is received, if anything is, leaves a byte of the array free. -/
def Short (size : ℕ) (received : Option (List UInt8)) : Prop :=
  ∀ bytes, received = some bytes → bytes.length < size

/-- The receiver is connected and receives nothing, or what it receives is short; the listener
in C++ receives something in each of its calls, and all of it is short. -/
def LeavesRoom : DiscoveryReceive → Prop
  | server connected received =>
    connected = false → Short messageBufSize (received.map Datagram.bytes)
  | client reply => Short ipAddressLength reply
  | serviceListener results =>
    ∀ received ∈ ServiceListener.heard results,
      ∃ d, received = some d ∧ d.bytes.length < messageBufSize
  | connectService reply => Short ipAddressLength reply

/-! ## One receive -/

section Receive

variable {least : ℤ} {size : ℕ} {received : Option (List UInt8)}

theorem bytesReceived_nonneg_iff :
    0 ≤ bytesReceived size received ↔ ∃ bytes, received = some bytes := by
  cases received with
  | none => exact iff_of_false (by rw [bytesReceived]; omega) nofun
  | some bytes => exact iff_of_true (by rw [bytesReceived]; omega) ⟨bytes, rfl⟩

theorem bytesReceived_lt_iff (bytes : List UInt8) :
    bytesReceived size (some bytes) < size ↔ bytes.length < size := by
  rw [bytesReceived]
  omega

theorem short_some_iff {bytes : List UInt8} : Short size (some bytes) ↔ bytes.length < size :=
  ⟨fun short => short bytes rfl, fun hlt _ hsome => Option.some.inj hsome ▸ hlt⟩

/-- A receiver that looks at the length first stores inside its array unless the array is full. -/
theorem forall_mem_terminatorsAbove_iff (nonneg : 0 ≤ least) (fits : least < size) :
    (∀ i ∈ terminatorsAbove least size received, 0 ≤ i ∧ i < size) ↔ Short size received := by
  cases received with
  | none =>
    have hnone : ¬least < bytesReceived size none := Int.not_lt.mpr (by rw [bytesReceived]; omega)
    rw [terminatorsAbove, if_neg hnone]
    exact iff_of_true (List.forall_mem_nil _) nofun
  | some bytes =>
    rw [short_some_iff, terminatorsAbove]
    split
    · rw [List.forall_mem_singleton, bytesReceived_lt_iff]
      exact and_iff_right (bytesReceived_nonneg_iff.mpr ⟨bytes, rfl⟩)
    · rename_i hfew
      -- too few bytes for a store are fewer than the array has room for
      rw [bytesReceived] at hfew
      exact iff_of_true (List.forall_mem_nil _) (by omega)

end Receive

/-! ## The receivers -/

/-- **NULs are stored in bounds** by a receiver exactly if what it receives leaves room for
them, and the listener in C++ does receive something. -/
theorem inBounds_iff (r : DiscoveryReceive) : r.InBounds ↔ r.LeavesRoom := by
  cases r with
  | server connected received =>
    cases connected with
    | true => exact iff_of_true (List.forall_mem_nil _) nofun
    | false =>
      have hserver : (server false received).InBounds ↔
          Short messageBufSize (received.map Datagram.bytes) :=
        forall_mem_terminatorsAbove_iff (by decide) (by decide)
      exact hserver.trans ⟨fun short _ => short, fun short => short rfl⟩
  | client reply => exact forall_mem_terminatorsAbove_iff (by decide) (by decide)
  | serviceListener results =>
    refine List.forall_mem_map.trans (forall₂_congr fun received _ => ?_)
    cases received with
    | none => exact iff_of_false (fun h => absurd h.1 (by decide)) nofun
    | some d =>
      have hlt : bytesReceived messageBufSize (some d.bytes) < messageBufSize ↔
          d.bytes.length < messageBufSize := bytesReceived_lt_iff d.bytes
      refine ⟨fun h => ⟨d, rfl, hlt.mp h.2⟩, ?_⟩
      rintro ⟨_, ⟨rfl⟩, hshort⟩
      exact ⟨bytesReceived_nonneg_iff.mpr ⟨d.bytes, rfl⟩, hlt.mpr hshort⟩
  | connectService reply => exact forall_mem_terminatorsAbove_iff (by decide) (by decide)

/-- Neither client has room for a reply of the servers in C and C++. -/
theorem not_inBounds_of_ownIpAddress {address rest : List UInt8}
    (whole : (address ++ 0 :: rest).length = ipAddressLength) :
    ¬(client (some (address ++ 0 :: rest))).InBounds ∧
      ¬(connectService (some (address ++ 0 :: rest))).InBounds := by
  have hfull : ¬Short ipAddressLength (some (address ++ 0 :: rest)) :=
    fun short => absurd (short _ rfl) (Nat.not_lt.mpr whole.ge)
  exact ⟨fun inside => hfull ((inBounds_iff _).mp inside),
    fun inside => hfull ((inBounds_iff _).mp inside)⟩

/-- The reply of a server at `10.0.0.1` to both clients, and a receive of the listener in C++
that times out. -/
theorem not_inBounds :
    IsReply (dotted 10 0 0 1) (dotted 10 0 0 1 ++ 0 :: .replicate 7 0) ∧
      ¬(client (some (dotted 10 0 0 1 ++ 0 :: .replicate 7 0))).InBounds ∧
      ¬(connectService (some (dotted 10 0 0 1 ++ 0 :: .replicate 7 0))).InBounds ∧
      ¬(serviceListener [none]).InBounds := by
  have hfull := @not_inBounds_of_ownIpAddress (dotted 10 0 0 1) (.replicate 7 0) (by decide)
  refine ⟨.ownIpAddress _ (by decide), hfull.1, hfull.2, fun inside => ?_⟩
  exact absurd (inside (-1) List.mem_cons_self).1 (by decide)

end DiscoveryReceive

end PiVision
