import PiVision.Lib.Framing
import Mathlib.Data.Int.Notation

/-!
# The Java client

`PiVisClient.connected` reads a length of four bytes and, if it is positive, as many bytes
as it says, answers with an ack and hands the payload on unless it has four bytes. A read
that waits for a second ends in a `SocketTimeoutException`; what it has consumed of a
header or payload is gone then, the client sends an ack all the same, and the next call of
`run` reads a length again.

A state is a point at which the client waits: in a read, or before it sends an ack. No
socket call fails but by a timeout or at the end of the stream.
-/

namespace PiVision

open LittleEndian

/-- `PiVisClientState`. -/
inductive PiVisClientState
  | initServiceDiscoverySocket
  | findService
  | connectService
  | connected
  deriving DecidableEq, Repr

/-- Where `connected` stands: in `readInt` or in `readFully`, with the bytes consumed so far,
or before `sendAckMessage`, for a payload or for a timeout. -/
inductive ConnectedPoint
  | readInt (got : List UInt8)
  | readFully (numBytesToReceive : ℕ) (payload : List UInt8)
  | payloadRead (payload : List UInt8)
  | timedOut
  deriving DecidableEq, Repr

/-- `PiVisClient`, connected or not any more, and what it has passed to
`dataReceiver.update`. -/
structure JavaClient where
  state : PiVisClientState
  point : ConnectedPoint
  updates : List (List UInt8)
  deriving DecidableEq, Repr

namespace JavaClient

/-- The client when `connectService` has succeeded. -/
def init : JavaClient := ⟨.connected, .readInt [], []⟩

/-- `Integer.reverseBytes(networkInput.readInt())`. -/
def numBytesToReceive (header : List UInt8) : ℤ := Int.bmod (leValue header) (2 ^ 32)

/-- What `sendAckMessage` puts on the stream. -/
def ackMessage : List UInt8 := leBytes 4 4 ++ leBytes 4 0xDEADBEEF

/-- The number of bytes that the read in progress still waits for. -/
def missing (c : JavaClient) : ℕ :=
  match c.point with
  | .readInt got => 4 - got.length
  | .readFully n payload => n - payload.length
  | .payloadRead _ | .timedOut => 0

/-- The read in progress has got a chunk. -/
def receive (c : JavaClient) (chunk : List UInt8) : JavaClient :=
  match c.point with
  | .readInt got =>
    if (got ++ chunk).length < 4 then { c with point := .readInt (got ++ chunk) }
    else if 0 < numBytesToReceive (got ++ chunk) then
      { c with point := .readFully (numBytesToReceive (got ++ chunk)).toNat [] }
    -- zero or negative: `connected` returns, and the next call of `run` reads a length
    else { c with point := .readInt [] }
  | .readFully n payload =>
    if (payload ++ chunk).length < n then { c with point := .readFully n (payload ++ chunk) }
    else { c with point := .payloadRead (payload ++ chunk) }
  | .payloadRead _ | .timedOut => c

/-- The read in progress throws a `SocketTimeoutException`. -/
def timeout (c : JavaClient) : JavaClient :=
  match c.point with
  -- the bytes consumed so far are kept nowhere
  | .readInt _ | .readFully _ _ => { c with point := .timedOut }
  | .payloadRead _ | .timedOut => c

/-- `sendAckMessage`, and what follows it up to the next call of `run`: the client, and what
it has sent. -/
def acknowledge (c : JavaClient) : JavaClient × List UInt8 :=
  match c.point with
  | .payloadRead payload =>
    ({ c with
        point := .readInt []
        updates := if 4 ≠ payload.length then c.updates ++ [payload] else c.updates },
      ackMessage)
  | .timedOut => ({ c with point := .readInt [] }, ackMessage)
  | .readInt _ | .readFully _ _ => (c, [])

/-- The read in progress throws an `EOFException`. -/
def endOfStream (c : JavaClient) : JavaClient :=
  match c.point with
  | .readInt _ | .readFully _ _ =>
    { c with state := .initServiceDiscoverySocket, point := .readInt [] }
  | .payloadRead _ | .timedOut => c

/-- The bytes of the frame being read that have been consumed. -/
def consumed (c : JavaClient) : List UInt8 :=
  match c.point with
  | .readInt got => got
  | .readFully n payload => leBytes 4 n ++ payload
  | .payloadRead _ | .timedOut => []

section Reads

variable {c : JavaClient} {got chunk : List UInt8} {n : ℕ}

theorem missing_of_readInt (point : c.point = .readInt got) : c.missing = 4 - got.length := by
  simp only [missing, point]

theorem missing_of_readFully (point : c.point = .readFully n got) :
    c.missing = n - got.length := by
  simp only [missing, point]

/-- A read of a length that has got a part of it. -/
theorem receive_of_short (point : c.point = .readInt got) (short : (got ++ chunk).length < 4) :
    c.receive chunk = { c with point := .readInt (got ++ chunk) } := by
  simp only [receive, point, short, if_true]

/-- A read of a payload that has got a part of it. -/
theorem receive_of_part (point : c.point = .readFully n got) (short : (got ++ chunk).length < n) :
    c.receive chunk = { c with point := .readFully n (got ++ chunk) } := by
  simp only [receive, point, short, if_true]

/-- A read of a payload that has got the last of it. -/
theorem receive_of_whole (point : c.point = .readFully n got)
    (whole : (got ++ chunk).length = n) :
    c.receive chunk = { c with point := .payloadRead (got ++ chunk) } := by
  have hdone : ¬(got ++ chunk).length < n := Nat.not_lt.mpr (Nat.le_of_eq whole.symm)
  simp only [receive, point, hdone, if_false]

end Reads

/-- A length below `2 ^ 31` is the same as an `int`. -/
theorem numBytesToReceive_of_lt {header : List UInt8} (small : leValue header < 2 ^ 31) :
    numBytesToReceive header = leValue header :=
  Int.bmod_eq_of_le_mul_two (by omega) (by omega)

/-- A word from `2 ^ 31` on is a negative `int`. -/
theorem bmod_neg_of_le {word : ℕ} (large : 2 ^ 31 ≤ word) (range : word < 2 ^ 32) :
    Int.bmod word (2 ^ 32) < 0 := by
  have hwrap : Int.bmod word (2 ^ 32) = (word : ℤ) - 4294967296 := by
    rw [Int.bmod_eq_iff (by decide)]
    exact ⟨by omega, by omega, -1, by omega⟩
  omega

theorem leValue_lt_of_length {header : List UInt8} (hlength : header.length = 4) :
    leValue header < 2 ^ 32 := by
  have hlt := leValue_lt header
  rwa [hlength] at hlt

/-- A length is positive as an `int` if it is not zero and below `2 ^ 31`. -/
theorem numBytesToReceive_pos {header : List UInt8} (hlength : header.length = 4) :
    0 < numBytesToReceive header ↔ 0 < leValue header ∧ leValue header < 2 ^ 31 := by
  by_cases hsmall : leValue header < 2 ^ 31
  · rw [numBytesToReceive_of_lt hsmall]
    omega
  · have hneg : numBytesToReceive header < 0 :=
      bmod_neg_of_le (Nat.not_lt.mp hsmall) (leValue_lt_of_length hlength)
    omega

section Lengths

variable {c : JavaClient} {got chunk : List UInt8}

/-- A length from `1` to `2 ^ 31 - 1` is followed by a payload. -/
theorem receive_of_positive (point : c.point = .readInt got)
    (hlength : (got ++ chunk).length = 4) (positive : 0 < leValue (got ++ chunk))
    (small : leValue (got ++ chunk) < 2 ^ 31) :
    c.receive chunk = { c with point := .readFully (leValue (got ++ chunk)) [] } := by
  have hdone : ¬(got ++ chunk).length < 4 := by omega
  have hint : 0 < numBytesToReceive (got ++ chunk) :=
    (numBytesToReceive_pos hlength).mpr ⟨positive, small⟩
  have hcount : (numBytesToReceive (got ++ chunk)).toNat = leValue (got ++ chunk) := by
    rw [numBytesToReceive_of_lt small]
    exact Int.toNat_natCast _
  simp only [receive, point, hdone, if_false, hint, if_true, hcount]

/-- Any other length is followed by a length. -/
theorem receive_of_not_positive (point : c.point = .readInt got)
    (hlength : (got ++ chunk).length = 4)
    (other : ¬(0 < leValue (got ++ chunk) ∧ leValue (got ++ chunk) < 2 ^ 31)) :
    c.receive chunk = { c with point := .readInt [] } := by
  have hdone : ¬(got ++ chunk).length < 4 := by omega
  have hint : ¬0 < numBytesToReceive (got ++ chunk) := by
    rwa [numBytesToReceive_pos hlength]
  simp only [receive, point, hdone, if_false, hint]

end Lengths

end JavaClient

end PiVision
