import PiVision.EthTerm.Connection
import PiVision.Lib.ScriptLoop

/-!
# Receiving

`Receive` collects a requested number of bytes from the socket in chunks of at most
`maxChunk`. Its environment answers each attempt with a `RecvOutcome`; a
`PIVISION_EVENT_STOP` handled on another thread can clear `active` between any two
attempts, so it is an answer of the script too.

The specification of the loop is `receive_spec`: what it collected is what it took
from the wire, in order, never more than it was asked for, and if it returns short
the connection is no longer active.
-/

namespace PiVision

open ScriptLoop

/-- What one attempt meets at the socket: a pending `SO_ERROR`, a `recv` that fails
or finds the stream closed, or a `recv` that delivers some bytes. `chunk k` delivers
`k + 1` bytes, or as many as were requested and have arrived if these are fewer. -/
inductive RecvOutcome
  | pendingError
  | failed
  | closed
  | chunk (k : ℕ)
  deriving DecidableEq, Repr

/-- One entry of the receive loop's script. -/
inductive RecvInput
  | stop
  | attempt (outcome : RecvOutcome)
  deriving DecidableEq, Repr

namespace EthTermConnection

def maxChunkSize : ℕ := 4096

def maxReceiveAttempts : ℕ := 10

/-- The locals of `Receive`, with the connection and the bytes the peer has put on
the wire that have not been received yet. -/
structure ReceiveState where
  conn : EthTermConnection
  wire : List UInt8
  dataBuf : PiVisionData
  numReceiveAttempts : ℕ
  numBytesReceived : ℕ

/-- The bytes `recv` stores in the chunk buffer; none if the attempt fails. -/
def recvChunk (numBytesToGet : ℕ) (s : ReceiveState) : RecvOutcome → List UInt8
  | .chunk k => s.wire.take (min (k + 1) (min maxChunkSize (numBytesToGet - s.numBytesReceived)))
  | _ => []

/-- One round of the loop in `Receive`. -/
def receiveBody (numBytesToGet : ℕ) (s : ReceiveState) : RecvInput → Flow ReceiveState
  | .stop => .next { s with conn := s.conn.handleStop }
  | .attempt outcome =>
    -- the attempt is counted before `SO_ERROR` is looked at
    let numReceiveAttempts := s.numReceiveAttempts + 1
    let conn := if outcome = .pendingError then s.conn.deactivate else s.conn
    let chunk := recvChunk numBytesToGet s outcome
    if 0 < chunk.length then
      .next { s with
        conn := conn
        wire := s.wire.drop chunk.length
        dataBuf := s.dataBuf.append chunk
        numReceiveAttempts := 0
        numBytesReceived := s.numBytesReceived + chunk.length }
    -- empty-handed, and a stop or the error of this very attempt has cleared `active`
    else if !conn.active then
      .leave { s with conn := conn, numReceiveAttempts := numReceiveAttempts }
    else if maxReceiveAttempts < numReceiveAttempts then
      .leave { s with conn := conn.deactivate, numReceiveAttempts := numReceiveAttempts }
    else
      .next { s with conn := conn, numReceiveAttempts := numReceiveAttempts }

/-- The loop condition of `Receive`. -/
def receiveGuard (numBytesToGet : ℕ) (s : ReceiveState) : Bool :=
  decide (s.numBytesReceived < numBytesToGet)

/-- `Receive` into an empty buffer of the requested capacity, as both of its calls in
`Execute` make it. -/
def receive (numBytesToGet : ℕ) (script : List RecvInput) (conn : EthTermConnection)
    (wire : List UInt8) : Ending ReceiveState RecvInput :=
  loop (receiveGuard numBytesToGet) (receiveBody numBytesToGet) script
    ⟨conn, wire, PiVisionData.new numBytesToGet, 0, 0⟩

/-! ## The loop invariant -/

/-- What holds at every moment of a `Receive` that started with `conn` and `wire`. -/
structure ReceiveInv (numBytesToGet : ℕ) (conn : EthTermConnection) (wire : List UInt8)
    (s : ReceiveState) : Prop where
  capacity : s.dataBuf.capacity = numBytesToGet
  bytes : s.dataBuf.bytes = wire.take s.numBytesReceived
  size : s.dataBuf.size = s.numBytesReceived
  bounded : s.numBytesReceived ≤ numBytesToGet
  rest : s.wire = wire.drop s.numBytesReceived
  conn_eq : s.conn = conn ∨ s.conn = conn.deactivate

theorem recvChunk_length_le (numBytesToGet : ℕ) (s : ReceiveState) (outcome : RecvOutcome) :
    (recvChunk numBytesToGet s outcome).length ≤ numBytesToGet - s.numBytesReceived := by
  cases outcome <;> simp only [recvChunk, List.length_nil, List.length_take] <;> omega

/-- A chunk is the front of the wire. -/
theorem recvChunk_eq_take (numBytesToGet : ℕ) (s : ReceiveState) (outcome : RecvOutcome) :
    recvChunk numBytesToGet s outcome =
      s.wire.take (recvChunk numBytesToGet s outcome).length := by
  cases outcome with
  | chunk k =>
    unfold recvChunk
    rw [List.length_take, ← List.take_eq_take_min]
  | pendingError | failed | closed => simp [recvChunk]

/-- What one attempt can do: move a chunk into the buffer, give the connection up, or
count a failure that is one of ten in a row. -/
theorem receiveBody_attempt_cases (numBytesToGet : ℕ) (s : ReceiveState) (outcome : RecvOutcome) :
    (0 < (recvChunk numBytesToGet s outcome).length ∧
      receiveBody numBytesToGet s (.attempt outcome) = .next { s with
        wire := s.wire.drop (recvChunk numBytesToGet s outcome).length
        dataBuf := s.dataBuf.append (recvChunk numBytesToGet s outcome)
        numReceiveAttempts := 0
        numBytesReceived :=
          s.numBytesReceived + (recvChunk numBytesToGet s outcome).length }) ∨
    (recvChunk numBytesToGet s outcome = [] ∧
      ∃ conn, (conn = s.conn ∨ conn = s.conn.deactivate) ∧ conn.active = false ∧
        receiveBody numBytesToGet s (.attempt outcome) = .leave { s with
          conn := conn
          numReceiveAttempts := s.numReceiveAttempts + 1 }) ∨
    (recvChunk numBytesToGet s outcome = [] ∧ s.numReceiveAttempts + 1 ≤ maxReceiveAttempts ∧
      receiveBody numBytesToGet s (.attempt outcome) = .next { s with
        numReceiveAttempts := s.numReceiveAttempts + 1 }) := by
  by_cases hpending : outcome = .pendingError
  · subst hpending
    -- `recv` is not called, so the chunk is empty and the `!active` branch leaves the loop
    exact .inr (.inl ⟨rfl, s.conn.deactivate, .inr rfl, rfl, by simp [receiveBody, recvChunk]⟩)
  · by_cases hchunk : 0 < (recvChunk numBytesToGet s outcome).length
    · exact .inl ⟨hchunk, by simp [receiveBody, hpending, hchunk]⟩
    · have hempty : recvChunk numBytesToGet s outcome = [] :=
        List.eq_nil_of_length_eq_zero (Nat.eq_zero_of_not_pos hchunk)
      refine .inr ?_
      by_cases hactive : s.conn.active = true
      · by_cases hlimit : maxReceiveAttempts < s.numReceiveAttempts + 1
        · exact .inl ⟨hempty, s.conn.deactivate, .inr rfl, rfl, by
            simp [receiveBody, hpending, hchunk, hactive, hlimit]⟩
        · exact .inr ⟨hempty, Nat.not_lt.mp hlimit, by
            simp [receiveBody, hpending, hchunk, hactive, hlimit]⟩
      · exact .inl ⟨hempty, s.conn, .inl rfl, by simpa using hactive, by
          simp [receiveBody, hpending, hchunk, hactive]⟩

/-- What one round can do: handle a stop, move a chunk into the buffer, give the
connection up, or count a failed attempt. -/
theorem receiveBody_cases (numBytesToGet : ℕ) (s : ReceiveState) (input : RecvInput) :
    receiveBody numBytesToGet s input = .next { s with conn := s.conn.deactivate } ∨
    (∃ outcome, 0 < (recvChunk numBytesToGet s outcome).length ∧
      receiveBody numBytesToGet s input = .next { s with
        wire := s.wire.drop (recvChunk numBytesToGet s outcome).length
        dataBuf := s.dataBuf.append (recvChunk numBytesToGet s outcome)
        numReceiveAttempts := 0
        numBytesReceived :=
          s.numBytesReceived + (recvChunk numBytesToGet s outcome).length }) ∨
    (∃ conn, (conn = s.conn ∨ conn = s.conn.deactivate) ∧ conn.active = false ∧
      receiveBody numBytesToGet s input = .leave { s with
        conn := conn
        numReceiveAttempts := s.numReceiveAttempts + 1 }) ∨
    receiveBody numBytesToGet s input = .next { s with
      numReceiveAttempts := s.numReceiveAttempts + 1 } := by
  cases input with
  | stop => exact .inl rfl
  | attempt outcome =>
    refine .inr ?_
    rcases receiveBody_attempt_cases numBytesToGet s outcome with
      ⟨hchunk, hbody⟩ | ⟨-, conn, hconn, hactive, hbody⟩ | ⟨-, -, hbody⟩
    · exact .inl ⟨outcome, hchunk, hbody⟩
    · exact .inr (.inl ⟨conn, hconn, hactive, hbody⟩)
    · exact .inr (.inr hbody)

theorem receiveInv_body {numBytesToGet : ℕ} {conn : EthTermConnection} {wire : List UInt8}
    (range : numBytesToGet < uint32Range) (s : ReceiveState) (input : RecvInput)
    (inv : ReceiveInv numBytesToGet conn wire s) :
    ReceiveInv numBytesToGet conn wire (receiveBody numBytesToGet s input).state := by
  have hdeactivate : s.conn.deactivate = conn.deactivate := by
    rcases inv.conn_eq with h | h <;> rw [h]
    rfl
  -- a stop, a chunk, a give-up, a counted failure
  rcases receiveBody_cases numBytesToGet s input with
    h | ⟨outcome, -, h⟩ | ⟨c, hc, -, h⟩ | h <;> rw [h]
  · exact { inv with conn_eq := .inr hdeactivate }
  · have hle := recvChunk_length_le numBytesToGet s outcome
    have hbounded := inv.bounded
    have hfits : s.dataBuf.size + (recvChunk numBytesToGet s outcome).length ≤
        s.dataBuf.capacity := by
      rw [inv.size, inv.capacity]; omega
    have hrange : s.dataBuf.capacity < uint32Range := by rw [inv.capacity]; exact range
    constructor
    · rw [Flow.state_next, PiVisionData.capacity_append, inv.capacity]
    · simp only [Flow.state_next]
      -- the buffer and the chunk are adjacent parts of the wire the call started with
      rw [PiVisionData.bytes_append hfits hrange, inv.bytes, List.take_add, ← inv.rest,
        ← recvChunk_eq_take]
    · simp only [Flow.state_next]
      rw [PiVisionData.size_append hfits hrange, inv.size]
    · simp only [Flow.state_next]; omega
    · simp only [Flow.state_next]
      rw [inv.rest, List.drop_drop]
    · exact inv.conn_eq
  · refine { inv with conn_eq := ?_ }
    rcases hc with rfl | rfl
    · exact inv.conn_eq
    · exact .inr hdeactivate
  · exact { inv with }

/-- Leaving the loop early clears `active`. -/
theorem receiveBody_leave {numBytesToGet : ℕ} (s : ReceiveState) (input : RecvInput)
    (s' : ReceiveState) (h : receiveBody numBytesToGet s input = .leave s') :
    s'.conn.active = false := by
  rcases receiveBody_cases numBytesToGet s input with
    hb | ⟨_, -, hb⟩ | ⟨c, -, hactive, hb⟩ | hb <;> rw [hb] at h
  · cases h
  · cases h
  · cases h; exact hactive
  · cases h

/-- **Specification of `Receive`.** Whatever the socket does, the buffer holds the
bytes taken off the wire, in order and at most as many as requested, no `append` was
refused, and a short result means the connection was given up. -/
theorem receive_spec {numBytesToGet : ℕ} (range : numBytesToGet < uint32Range)
    {script rest : List RecvInput} {conn : EthTermConnection} {wire : List UInt8}
    {s : ReceiveState} (h : receive numBytesToGet script conn wire = .returned s rest) :
    ReceiveInv numBytesToGet conn wire s ∧
      (s.dataBuf.size < numBytesToGet → s.conn.active = false) := by
  have hinit : ReceiveInv numBytesToGet conn wire
      ⟨conn, wire, PiVisionData.new numBytesToGet, 0, 0⟩ :=
    ⟨rfl, by simp, rfl, Nat.zero_le _, by simp, .inl rfl⟩
  have hinv : ReceiveInv numBytesToGet conn wire (receive numBytesToGet script conn wire).state :=
    loop_invariant (fun s a _ => receiveInv_body range s a) script hinit
  rw [h] at hinv
  refine ⟨hinv, fun hshort => ?_⟩
  -- the loop ended at its condition, or by a `break`
  rcases loop_returned (fun s a s' => receiveBody_leave s a s') h with hdone | hleft
  · have hfull : ¬ s.numBytesReceived < numBytesToGet := by simpa [receiveGuard] using hdone
    have hsize : s.dataBuf.size = s.numBytesReceived := hinv.size
    omega
  · exact hleft

/-! ## Termination under a fair socket -/

/-- An attempt that delivers bytes. -/
def RecvInput.Delivers (input : RecvInput) : Prop := ∃ k, input = .attempt (.chunk k)

/-- An attempt that comes back empty without a pending error. -/
def RecvInput.Fails (input : RecvInput) : Prop :=
  input = .attempt .failed ∨ input = .attempt .closed

/-- The receive loop is a retrying loop as long as the wire holds what is asked for. -/
theorem retries_receive {numBytesToGet : ℕ} {conn : EthTermConnection} {wire : List UInt8}
    (range : numBytesToGet < uint32Range) (active : conn.active = true)
    (arrived : numBytesToGet ≤ wire.length) :
    Retries (receiveGuard numBytesToGet) (receiveBody numBytesToGet) RecvInput.Delivers
      RecvInput.Fails maxReceiveAttempts
      (fun s => ReceiveInv numBytesToGet conn wire s ∧ s.conn = conn)
      (fun s => numBytesToGet - s.numBytesReceived) (fun s => s.numReceiveAttempts) where
  progress := by
    rintro s _ ⟨inv, hconn⟩ hguard ⟨k, rfl⟩
    have hless : s.numBytesReceived < numBytesToGet := by simpa [receiveGuard] using hguard
    have hpos : 0 < (recvChunk numBytesToGet s (.chunk k)).length := by
      simp only [recvChunk, inv.rest, List.length_take, List.length_drop, maxChunkSize]
      omega
    have hbody : receiveBody numBytesToGet s (.attempt (.chunk k)) = .next { s with
        conn := s.conn
        wire := s.wire.drop (recvChunk numBytesToGet s (.chunk k)).length
        dataBuf := s.dataBuf.append (recvChunk numBytesToGet s (.chunk k))
        numReceiveAttempts := 0
        numBytesReceived :=
          s.numBytesReceived + (recvChunk numBytesToGet s (.chunk k)).length } := by
      simp [receiveBody, hpos]
    have hinv := receiveInv_body range s (.attempt (.chunk k)) inv
    rw [hbody] at hinv
    exact ⟨_, hbody, ⟨hinv, hconn⟩, rfl, by simp only; omega⟩
  retry := by
    rintro s _ ⟨inv, hconn⟩ hguard (rfl | rfl) hfail htries <;>
    · refine ⟨{ s with numReceiveAttempts := s.numReceiveAttempts + 1 }, ?_,
        ⟨⟨inv.capacity, inv.bytes, inv.size, inv.bounded, inv.rest, inv.conn_eq⟩, hconn⟩,
        rfl, rfl⟩
      have hlimit : ¬ maxReceiveAttempts < s.numReceiveAttempts + 1 := by omega
      simp [receiveBody, recvChunk, hconn, active, hlimit]

/-- Under a socket that fails at most ten times in a row, `Receive` returns all the
bytes asked for, and the connection stays as it was. -/
theorem receive_of_fair {numBytesToGet : ℕ} {conn : EthTermConnection} {wire : List UInt8}
    (range : numBytesToGet < uint32Range) (active : conn.active = true)
    (arrived : numBytesToGet ≤ wire.length) {answers : ℕ → RecvInput}
    (fair : Fair RecvInput.Delivers RecvInput.Fails maxReceiveAttempts answers) :
    ∃ n s, (∀ tail, receive numBytesToGet (firstAnswers answers n ++ tail) conn wire =
        .returned s tail) ∧ s.dataBuf.bytes = wire.take numBytesToGet ∧
      s.dataBuf.size = numBytesToGet ∧ s.wire = wire.drop numBytesToGet ∧ s.conn = conn := by
  obtain ⟨n, s, ⟨inv, hconn⟩, hdone, hrun⟩ :=
    loop_returns_of_fair (retries_receive range active arrived) fair
      (s := ⟨conn, wire, PiVisionData.new numBytesToGet, 0, 0⟩)
      ⟨⟨rfl, by simp, rfl, Nat.zero_le _, by simp, .inl rfl⟩, rfl⟩ rfl
  have hall : s.numBytesReceived = numBytesToGet := by
    have hnot : ¬ s.numBytesReceived < numBytesToGet := by simpa [receiveGuard] using hdone
    have hbounded := inv.bounded
    omega
  exact ⟨n, s, hrun, by rw [inv.bytes, hall], by rw [inv.size, hall],
    by rw [inv.rest, hall], hconn⟩

end EthTermConnection

end PiVision
