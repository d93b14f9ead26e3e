import PiVision.EthTerm.Receive
import PiVision.EthTerm.Send
import PiVision.Lib.Run

/-!
# The loop of a connection

`Execute` reads one frame a round: the length, then that many bytes. It looks at the
outcome of neither `Receive`, so a round whose reception was cut short still goes on
to classify what arrived. A payload that no control word claims is raised on the
service's event and acknowledged.

The loop is run against the answers of the socket, kept in the state until they are
used, and against one flag a round that says whether `PIVISION_EVENT_STOP` has been
handled just before the loop condition is tested. A stop inside a round is an entry of
the receive script; a `Send` on another thread that gives the connection up has the
same effect on it as a stop.
-/

namespace PiVision

open ScriptLoop LittleEndian

namespace EthTermConnection

def payloadSizeHeaderSize : ℕ := 4

/-! ## Reading one frame -/

/-- What the two `Receive` calls of a round collected. -/
structure FrameRead where
  header : PiVisionData
  payloadLength : ℕ
  dataBuf : PiVisionData
  deriving DecidableEq

/-- A round's reception: what it collected, and the connection and the wire after it. -/
structure ReadState where
  conn : EthTermConnection
  wire : List UInt8
  read : FrameRead

/-- The length the header bytes that arrived stand for. -/
def decodeLength (header : PiVisionData) : ℕ := header.getWord 0 header.size

/-- The reading half of a round: the header, its length, and the payload. -/
def readFrame (script : List RecvInput) (conn : EthTermConnection) (wire : List UInt8) :
    Ending ReadState RecvInput :=
  match receive payloadSizeHeaderSize script conn wire with
  -- blocked inside the header, of which no length has been computed yet
  | .waiting s => .waiting ⟨s.conn, s.wire, s.dataBuf, 0, .new 0⟩
  | .returned h script =>
    let payloadLength := decodeLength h.dataBuf
    match receive payloadLength script h.conn h.wire with
    | .waiting s => .waiting ⟨s.conn, s.wire, h.dataBuf, payloadLength, s.dataBuf⟩
    | .returned s rest => .returned ⟨s.conn, s.wire, h.dataBuf, payloadLength, s.dataBuf⟩ rest

/-- Both `Receive` calls of the round got all they asked for. -/
def FrameRead.Whole (read : FrameRead) : Prop :=
  read.header.size = payloadSizeHeaderSize ∧ read.dataBuf.size = read.payloadLength

/-- The reading half, in terms of the wire: the header bytes and the payload bytes are
adjacent parts of it, and a short part means that the connection was given up. -/
structure ReadSpec (conn : EthTermConnection) (wire : List UInt8) (r : ReadState) : Prop where
  header : r.read.header.bytes = wire.take r.read.header.size
  length : r.read.payloadLength = leValue (wire.take r.read.header.size)
  payload : r.read.dataBuf.bytes = (wire.drop r.read.header.size).take r.read.dataBuf.size
  rest : r.wire = wire.drop (r.read.header.size + r.read.dataBuf.size)
  header_le : r.read.header.size ≤ payloadSizeHeaderSize
  payload_le : r.read.dataBuf.size ≤ r.read.payloadLength
  conn_eq : r.conn = conn ∨ r.conn = conn.deactivate
  whole : r.conn.active = true → r.read.Whole

/-- Four bytes stand for a 32-bit number. -/
theorem leValue_lt_uint32Range {bs : List UInt8} (short : bs.length ≤ payloadSizeHeaderSize) :
    leValue bs < uint32Range := by
  have hlt := leValue_lt bs
  have hpow : 256 ^ bs.length ≤ 256 ^ 4 := Nat.pow_le_pow_right (by norm_num) short
  calc leValue bs < 256 ^ bs.length := hlt
    _ ≤ 256 ^ 4 := hpow
    _ = uint32Range := by norm_num [uint32Range]

theorem decodeLength_eq (header : PiVisionData) : decodeLength header = leValue header.bytes := by
  rw [decodeLength, PiVisionData.getWord_eq, List.drop_zero,
    List.take_of_length_le (by simp)]

/-- **Specification of a round's reception.** -/
theorem readFrame_spec {script rest : List RecvInput} {conn : EthTermConnection}
    {wire : List UInt8} {r : ReadState}
    (h : readFrame script conn wire = .returned r rest) : ReadSpec conn wire r := by
  unfold readFrame at h
  cases hheader : receive payloadSizeHeaderSize script conn wire with
  | waiting s => rw [hheader] at h; cases h
  | returned s₁ rest₁ =>
    rw [hheader] at h
    obtain ⟨inv₁, hshort₁⟩ := receive_spec (by decide) hheader
    have hlt : decodeLength s₁.dataBuf < uint32Range := by
      rw [decodeLength_eq]
      apply leValue_lt_uint32Range
      rw [PiVisionData.length_bytes, inv₁.size]
      exact inv₁.bounded
    cases hpayload : receive (decodeLength s₁.dataBuf) rest₁ s₁.conn s₁.wire with
    | waiting s => simp only [hpayload] at h; cases h
    | returned s₂ rest₂ =>
      simp only [hpayload] at h
      cases h
      obtain ⟨inv₂, hshort₂⟩ := receive_spec hlt hpayload
      refine ⟨?_, ?_, ?_, ?_, ?_, ?_, ?_, ?_⟩
      · rw [inv₁.bytes, inv₁.size]
      · rw [decodeLength_eq, inv₁.bytes, inv₁.size]
      · rw [inv₂.bytes, inv₁.rest, inv₁.size, inv₂.size]
      · rw [inv₂.rest, inv₁.rest, List.drop_drop, inv₁.size, inv₂.size]
      · rw [inv₁.size]; exact inv₁.bounded
      · rw [inv₂.size]; exact inv₂.bounded
      -- giving up twice is giving up once
      · rcases inv₁.conn_eq with h₁ | h₁ <;> rcases inv₂.conn_eq with h₂ | h₂ <;> simp [h₁, h₂]
      · intro hactive
        -- a reception that came back short would have cleared `active` for good
        have hnot₂ : ¬ s₂.dataBuf.size < decodeLength s₁.dataBuf := fun hlt => by
          rw [hshort₂ hlt] at hactive
          cases hactive
        have hnot₁ : ¬ s₁.dataBuf.size < payloadSizeHeaderSize := fun hlt => by
          have hgone := hshort₁ hlt
          rcases inv₂.conn_eq with hconn | hconn <;> rw [hconn] at hactive
          · rw [hgone] at hactive; cases hactive
          · cases hactive
        have hle₁ := inv₁.bounded
        have hle₂ := inv₂.bounded
        have hsize₁ := inv₁.size
        have hsize₂ := inv₂.size
        constructor <;> simp only <;> omega

/-- Under a socket that fails at most ten times in a row, a round reads the frame at
the front of the wire and leaves the connection as it was. -/
theorem readFrame_of_fair {conn : EthTermConnection} (active : conn.active = true)
    {payload : List UInt8} (fits : payload.length < uint32Range) {answers : ℕ → RecvInput}
    (fair : Fair RecvInput.Delivers RecvInput.Fails maxReceiveAttempts answers)
    (rest : List UInt8) :
    ∃ n r, (∀ tail, readFrame (firstAnswers answers n ++ tail) conn
        (Framing.encodeFrame 4 payload ++ rest) = .returned r tail) ∧
      r.conn = conn ∧ r.wire = rest ∧ r.read.dataBuf.bytes = payload := by
  have harrived : payloadSizeHeaderSize ≤ (Framing.encodeFrame 4 payload ++ rest).length := by
    simp only [payloadSizeHeaderSize, List.length_append, Framing.length_encodeFrame]
    omega
  -- the header first; the answers it leaves over serve the payload
  obtain ⟨n₁, s₁, hrun₁, hbytes₁, hsize₁, hwire₁, hconn₁⟩ :=
    receive_of_fair (by decide) active harrived fair
  have hlength : decodeLength s₁.dataBuf = payload.length := by
    rw [decodeLength_eq, hbytes₁]
    exact Framing.leValue_take_encodeFrame 4 (by simpa [uint32Range] using fits) rest
  have hleft : s₁.wire = payload ++ rest := by
    rw [hwire₁, Framing.encodeFrame, List.append_assoc]
    exact List.drop_left' (by simp [payloadSizeHeaderSize])
  have harrived' : payload.length ≤ s₁.wire.length := by simp [hleft]
  obtain ⟨n₂, s₂, hrun₂, hbytes₂, hsize₂, hwire₂, hconn₂⟩ :=
    receive_of_fair fits active harrived' (fair.shift n₁)
  refine ⟨n₁ + n₂, ⟨s₂.conn, s₂.wire, s₁.dataBuf, payload.length, s₂.dataBuf⟩, fun tail => ?_,
    hconn₂, ?_, ?_⟩
  · unfold readFrame
    rw [firstAnswers_add, List.append_assoc, hrun₁]
    simp only [hlength, hconn₁, hrun₂]
  · rw [hwire₂, hleft, List.drop_left' rfl]
  · rw [hbytes₂, hleft, List.take_left' rfl]

/-! ## The rounds -/

/-- Where the loop stands: between two rounds, inside a round with every answer used
up, or left. Leaving it raises the service's disconnection and closes the socket. -/
inductive ExecuteStatus
  | running
  | blocked
  | finished
  deriving DecidableEq, Repr

/-- The state of `Execute`: the connection, the two streams, the answers ahead of the
socket calls, and what the rounds so far have read, raised and acknowledged. -/
structure ExecuteState where
  conn : EthTermConnection
  wire : List UInt8
  recvs : List RecvInput
  stream : List UInt8
  gaveUp : Bool
  sends : List SendOutcome
  reads : List FrameRead
  raised : List FrameRead
  acked : List FrameRead
  status : ExecuteStatus

/-- `Send(ackMsgBuf)` for the payload of a round. -/
def sendAck (read : FrameRead) (s : ExecuteState) : ExecuteState :=
  match send ackMsgBuf s.sends ⟨s.conn, s.stream, s.gaveUp, 0, 0⟩ with
  | .waiting t =>
    { s with
      conn := t.conn
      stream := t.stream
      gaveUp := t.gaveUp
      sends := []
      acked := s.acked ++ [read]
      status := .blocked }
  | .returned t rest =>
    { s with
      conn := t.conn
      stream := t.stream
      gaveUp := t.gaveUp
      sends := rest
      acked := s.acked ++ [read] }

/-- The second half of a round: what is done with the payload. -/
def handlePayload (ownPid : ℕ) (read : FrameRead) (s : ExecuteState) : ExecuteState :=
  match classify read.payloadLength read.dataBuf with
  -- raised first, and acknowledged whether or not both receptions were whole
  | .data =>
    let s := { s with raised := s.raised ++ [read] }
    if s.conn.ackEnabled then sendAck read s else s
  | .ack => { s with conn := { s.conn with receivedAck := true, ackEnabled := true } }
  | .pid => { s with conn := { s.conn with
      isInSameProcess := decide (otherPid read.dataBuf = ownPid) } }
  -- a heartbeat, or a length of zero: nothing is done
  | .heartbeat | .empty => s

/-- The state between the two halves of a round. -/
def ExecuteState.afterRead (s : ExecuteState) (r : ReadState) (rest : List RecvInput) :
    ExecuteState :=
  { s with conn := r.conn, wire := r.wire, recvs := rest, reads := s.reads ++ [r.read] }

/-- A round of `Execute`, preceded by a stop if `stop` is set. A round that finds
`active` cleared leaves the loop. -/
def executeRound (ownPid : ℕ) (s : ExecuteState) (stop : Bool) : ExecuteState :=
  match s.status with
  | .running =>
    let conn := if stop then s.conn.handleStop else s.conn
    if conn.active then
      match readFrame s.recvs conn s.wire with
      | .waiting r => { s with conn := r.conn, wire := r.wire, recvs := [], status := .blocked }
      | .returned r rest => handlePayload ownPid r.read (s.afterRead r rest)
    else { s with conn := conn.deactivate, status := .finished }
  | .blocked | .finished => s

/-- The loop before its first round. -/
def ExecuteState.start (conn : EthTermConnection) (wire : List UInt8) (recvs : List RecvInput)
    (sends : List SendOutcome) : ExecuteState where
  conn := conn
  wire := wire
  recvs := recvs
  stream := []
  gaveUp := false
  sends := sends
  reads := []
  raised := []
  acked := []
  status := .running

/-! ## What the second half of a round does -/

theorem sendAck_record (read : FrameRead) (s : ExecuteState) :
    (sendAck read s).wire = s.wire ∧ (sendAck read s).reads = s.reads ∧
      (sendAck read s).raised = s.raised ∧ (sendAck read s).acked = s.acked ++ [read] := by
  unfold sendAck
  split <;> exact ⟨rfl, rfl, rfl, rfl⟩

/-- The ack does nothing to the connection but, at worst, give it up. -/
theorem sendAck_conn (read : FrameRead) (s : ExecuteState) :
    (sendAck read s).conn = s.conn ∨ (sendAck read s).conn = s.conn.deactivate := by
  have hsame : SameConn s.conn
      (send ackMsgBuf s.sends ⟨s.conn, s.stream, s.gaveUp, 0, 0⟩).state :=
    sameConn_send s.sends (.inl rfl)
  unfold sendAck
  split <;> rename_i hrun <;> rw [hrun] at hsame <;> exact hsame

/-- What is done with a payload: data is raised, and acknowledged if acks are enabled;
anything else leaves the record as it is. -/
theorem handlePayload_cases (ownPid : ℕ) (read : FrameRead) (s : ExecuteState) :
    (handlePayload ownPid read s).wire = s.wire ∧
      (handlePayload ownPid read s).reads = s.reads ∧
      ((classify read.payloadLength read.dataBuf = .data ∧
          (handlePayload ownPid read s).raised = s.raised ++ [read] ∧
          (handlePayload ownPid read s).acked =
            if s.conn.ackEnabled then s.acked ++ [read] else s.acked) ∨
        (classify read.payloadLength read.dataBuf ≠ .data ∧
          (handlePayload ownPid read s).raised = s.raised ∧
          (handlePayload ownPid read s).acked = s.acked ∧
          (handlePayload ownPid read s).conn.active = s.conn.active)) := by
  unfold handlePayload
  cases hkind : classify read.payloadLength read.dataBuf with
  | data =>
    by_cases hack : s.conn.ackEnabled = true
    · obtain ⟨hwire, hreads, hraised, hacked⟩ :=
        sendAck_record read { s with raised := s.raised ++ [read] }
      simp [hack, hwire, hreads, hraised, hacked]
    · simp [hack]
  | ack | pid | heartbeat | empty => simp

/-- Raising and acknowledging data changes no control flag. -/
theorem handlePayload_data_flags {ownPid : ℕ} {read : FrameRead} {s : ExecuteState}
    (data : classify read.payloadLength read.dataBuf = .data) :
    (handlePayload ownPid read s).conn.receivedAck = s.conn.receivedAck ∧
      (handlePayload ownPid read s).conn.isInSameProcess = s.conn.isInSameProcess := by
  unfold handlePayload
  rw [data]
  by_cases hack : s.conn.ackEnabled = true
  · rcases sendAck_conn read { s with raised := s.raised ++ [read] } with h | h <;> simp [hack, h]
  · simp [hack]

theorem mem_raised_handlePayload {ownPid : ℕ} {read x : FrameRead} {s : ExecuteState}
    (hmem : x ∈ (handlePayload ownPid read s).raised) : x ∈ s.raised ∨ x = read := by
  obtain ⟨-, -, ⟨-, hraised, -⟩ | ⟨-, hraised, -⟩⟩ := handlePayload_cases ownPid read s <;>
    rw [hraised] at hmem
  · simpa using hmem
  · exact .inl hmem

theorem mem_acked_handlePayload {ownPid : ℕ} {read x : FrameRead} {s : ExecuteState}
    (hmem : x ∈ (handlePayload ownPid read s).acked) : x ∈ s.acked ∨ x = read := by
  obtain ⟨-, -, ⟨-, -, hacked⟩ | ⟨-, -, hacked, -⟩⟩ := handlePayload_cases ownPid read s <;>
    rw [hacked] at hmem
  · split at hmem
    · simpa using hmem
    · exact .inl hmem
  · exact .inl hmem

end EthTermConnection

end PiVision
