import PiVision.EthTerm.ControlWords
import PiVision.EthTerm.Execute

/-!
# Two connections joined by a link

Two `PiVisionEthTermConnection` objects, one at each end of a pair of byte streams. At
each end two threads are at work: one handles the events delivered to the object, one
at a time, and one runs `Execute`. They share the members of the connection and
`sendMutex`, and a step of either is an access to one of these or to a stream, so the
interleavings of the steps are the interleavings of the threads.

No socket call fails: a `send` accepts some of the bytes left of the frame, a `recv`
delivers some of the bytes that have arrived, and a thread waits where there are none.
The steps are those of `Send`, `Receive` and `Execute`: see the last section.
-/

namespace PiVision

open LittleEndian Framing

/-- A payload that the connection may be asked to send as data: not empty, not
beginning with a control word, and of a size that a buffer can have. -/
structure DataPayload where
  bytes : List UInt8
  isData : EthTermConnection.IsData bytes
  short : bytes.length < uint32Range

/-- The two threads of an end. -/
inductive LinkThread
  | handler
  | execute
  deriving DecidableEq, Repr

/-- Where the handler thread stands in `HandleEvent`. -/
inductive HandlerPc
  | idle
  | dataChecked (data : DataPayload)
  | dataCleared (data : DataPayload)
  | sendingData
  | pidDue
  | sendingPid
  | heartbeatDue
  | sendingHeartbeat

/-- Where the other thread stands in `Execute`. While a frame is being received, the
bytes of it that have been collected; after that, its payload. -/
inductive ExecutePc
  | atLoop
  | readingHeader (got : List UInt8)
  | readingPayload (header got : List UInt8)
  | received (payload : List UInt8)
  | ackDue
  | sendingAck
  | finished

/-- One end of the link. `sendMutex` holds the thread that has locked it and the bytes
of its frame that the socket has not accepted yet; `raised` lists the payloads raised
on the service's event. -/
structure LinkEnd where
  conn : EthTermConnection
  ownPid : ℕ
  handler : HandlerPc
  exec : ExecutePc
  sendMutex : Option (LinkThread × List UInt8)
  raised : List (List UInt8)

/-- The two ends and the bytes on their way. -/
structure Link where
  a : LinkEnd
  b : LinkEnd
  ab : List UInt8
  ba : List UInt8

/-- What can happen at an end: an event is delivered to its handler thread, one of its
threads takes its next step, or its socket moves some bytes. -/
inductive LinkInput
  | dataEvent (connType : ConnectionType) (data : DataPayload)
  | heartbeatTimeout (id : ℤ)
  | stopEvent
  | handlerStep
  | executeStep
  | sendChunk (k : ℕ)
  | recvChunk (k : ℕ)

inductive Side
  | a
  | b
  deriving DecidableEq, Repr

open EthTermConnection

namespace LinkEnd

/-- The connection as constructed, in a process of the given id. -/
def new (connType : ConnectionType) (serviceNo : ℕ) (socketFd : ℤ) (ownPid : ℕ) : LinkEnd where
  conn := .new connType serviceNo socketFd
  ownPid := ownPid
  handler := .idle
  exec := .atLoop
  sendMutex := none
  raised := []

/-- Locking `sendMutex` for a frame. A thread that finds it locked waits. -/
def lock (e : LinkEnd) (thread : LinkThread) (data : PiVisionData) (next : LinkEnd → LinkEnd) :
    LinkEnd :=
  match e.sendMutex with
  | none => next { e with sendMutex := some (thread, frameOf data) }
  | some _ => e

/-- Unlocking `sendMutex` when the whole frame has been accepted. -/
def unlock (e : LinkEnd) (thread : LinkThread) (next : LinkEnd → LinkEnd) : LinkEnd :=
  if e.sendMutex = some (thread, []) then next { e with sendMutex := none } else e

/-- Delivery of a data event: whether the object may send, whether the event is for its
side of the service, and whether the peer is in the same process. -/
def dataEvent (e : LinkEnd) (connType : ConnectionType) (data : DataPayload) : LinkEnd :=
  match e.handler with
  | .idle =>
    -- a data event that arrives while the last data is unacknowledged is lost
    if e.conn.receivedAck || !e.conn.ackEnabled || e.conn.isInSameProcess then
      if e.conn.connType = connType then
        if !e.conn.isInSameProcess then { e with handler := .dataChecked data }
        else { e with raised := e.raised ++ [data.bytes] }
      else e
    else e
  | _ => e

/-- Delivery of `HEARTBEAT_TIMEOUT`. -/
def heartbeatTimeout (e : LinkEnd) (id : ℤ) : LinkEnd :=
  match e.handler with
  | .idle =>
    if id = e.conn.socketFd then
      if e.conn.active then
        if !e.conn.sentPid && decide (e.conn.connType = .client) then
          -- the client's first timeout: the pid goes out in front of the heartbeat
          { e with conn := { e.conn with sentPid := true }, handler := .pidDue }
        else { e with handler := .heartbeatDue }
      -- no timeout follows this one
      else { e with conn := { e.conn with lastHeartbeatReceived := true } }
    else e
  | _ => e

/-- Delivery of `PIVISION_EVENT_STOP`. -/
def stopEvent (e : LinkEnd) : LinkEnd :=
  match e.handler with
  | .idle => { e with conn := e.conn.handleStop }
  | _ => e

/-- The handler thread's next step. -/
def handlerStep (e : LinkEnd) : LinkEnd :=
  match e.handler with
  | .idle => e
  | .dataChecked data =>
    { e with conn := { e.conn with receivedAck := false }, handler := .dataCleared data }
  | .dataCleared data =>
    e.lock .handler (.ofBytes data.bytes) fun e => { e with handler := .sendingData }
  | .sendingData => e.unlock .handler fun e => { e with handler := .idle }
  | .pidDue => e.lock .handler (pidMsgBuf e.ownPid) fun e => { e with handler := .sendingPid }
  | .sendingPid => e.unlock .handler fun e => { e with handler := .heartbeatDue }
  | .heartbeatDue =>
    e.lock .handler heartbeatMsgBuf fun e => { e with handler := .sendingHeartbeat }
  | .sendingHeartbeat => e.unlock .handler fun e => { e with handler := .idle }

/-- What `Execute` does with a received payload. -/
def dispatch (e : LinkEnd) (payload : List UInt8) : LinkEnd :=
  match classify payload.length (.ofBytes payload) with
  | .data =>
    { e with
      raised := e.raised ++ [payload]
      -- the ack waits for `sendMutex`, which the handler thread may hold
      exec := if e.conn.ackEnabled then .ackDue else .atLoop }
  | .ack =>
    { e with conn := { e.conn with receivedAck := true, ackEnabled := true }, exec := .atLoop }
  | .pid =>
    { e with
      conn := { e.conn with isInSameProcess := decide (otherPid (.ofBytes payload) = e.ownPid) }
      exec := .atLoop }
  | .heartbeat | .empty => { e with exec := .atLoop }

/-- The next step of the thread in `Execute`, bytes from the socket apart. -/
def executeStep (e : LinkEnd) : LinkEnd :=
  match e.exec with
  | .atLoop =>
    if e.conn.active then { e with exec := .readingHeader [] }
    else { e with conn := e.conn.deactivate, exec := .finished }
  | .readingHeader got =>
    -- the header is complete and names the payload's length
    if got.length = 4 then { e with exec := .readingPayload got [] } else e
  | .readingPayload header got =>
    if got.length = leValue header then { e with exec := .received got } else e
  | .received payload => e.dispatch payload
  | .ackDue => e.lock .execute ackMsgBuf fun e => { e with exec := .sendingAck }
  | .sendingAck => e.unlock .execute fun e => { e with exec := .atLoop }
  | .finished => e

/-- The number of bytes the `Receive` in progress still asks for. -/
def requested (e : LinkEnd) : ℕ :=
  match e.exec with
  | .readingHeader got => 4 - got.length
  | .readingPayload header got => leValue header - got.length
  | _ => 0

/-- The bytes a `recv` takes off the wire. -/
def arriving (e : LinkEnd) (wire : List UInt8) (k : ℕ) : List UInt8 :=
  wire.take (min (k + 1) (min 4096 e.requested))

/-- A `recv` puts what it took behind what has been collected. -/
def collect (e : LinkEnd) (chunk : List UInt8) : LinkEnd :=
  match e.exec with
  | .readingHeader got => { e with exec := .readingHeader (got ++ chunk) }
  | .readingPayload header got => { e with exec := .readingPayload header (got ++ chunk) }
  | _ => e

/-- The bytes a `send` puts on the wire. -/
def departing (e : LinkEnd) (k : ℕ) : List UInt8 :=
  match e.sendMutex with
  | some (_, bytes) => bytes.take (min (k + 1) 4096)
  | none => []

/-- What a `send` leaves of the frame. -/
def accepted (e : LinkEnd) (k : ℕ) : LinkEnd :=
  { e with sendMutex := e.sendMutex.map fun (thread, bytes) =>
      (thread, bytes.drop (min (k + 1) 4096)) }

end LinkEnd

namespace Link

/-- The link seen from the other end. -/
def swap (l : Link) : Link := ⟨l.b, l.a, l.ba, l.ab⟩

@[simp] theorem swap_swap (l : Link) : l.swap.swap = l := rfl

/-- A step at end `a`. -/
def stepA (l : Link) : LinkInput → Link
  | .dataEvent connType data => { l with a := l.a.dataEvent connType data }
  | .heartbeatTimeout id => { l with a := l.a.heartbeatTimeout id }
  | .stopEvent => { l with a := l.a.stopEvent }
  | .handlerStep => { l with a := l.a.handlerStep }
  | .executeStep => { l with a := l.a.executeStep }
  | .sendChunk k => { l with a := l.a.accepted k, ab := l.ab ++ l.a.departing k }
  | .recvChunk k =>
    { l with
      a := l.a.collect (l.a.arriving l.ba k)
      ba := l.ba.drop (l.a.arriving l.ba k).length }

/-- A step at either end. -/
def step (l : Link) : Side × LinkInput → Link
  | (.a, input) => l.stepA input
  | (.b, input) => (l.swap.stepA input).swap

/-- Two connections of one service, just constructed, in two processes. -/
def start (typeA typeB : ConnectionType) (serviceNo : ℕ) (fdA fdB : ℤ) (pidA pidB : ℕ) : Link where
  a := .new typeA serviceNo fdA pidA
  b := .new typeB serviceNo fdB pidB
  ab := []
  ba := []

end Link

/-! ## The steps are those of the connection's functions -/

namespace LinkEnd

variable {e : LinkEnd}

/-- What a `recv` takes, it takes from the front of the wire. -/
theorem arriving_append_drop (wire : List UInt8) (k : ℕ) :
    e.arriving wire k ++ wire.drop (e.arriving wire k).length = wire :=
  Framing.take_append_drop_length_take _ _

/-- A `recv` takes no more than is asked for. -/
theorem length_arriving_le (wire : List UInt8) (k : ℕ) :
    (e.arriving wire k).length ≤ e.requested := by
  rw [arriving, List.length_take]
  omega

theorem arriving_eq_nil (wire : List UInt8) (k : ℕ) (nothing : e.requested = 0) :
    e.arriving wire k = [] := by
  have hlen := e.length_arriving_le wire k
  exact List.eq_nil_of_length_eq_zero (by omega)

/-- A round of `SendPayload` in which the socket accepts bytes is a `sendChunk`. Behind
the buffer stands what `Send` has still to send: the payload if the buffer is the
header, nothing if it is the payload. -/
theorem sendChunk_of_sendBody (data : PiVisionData) (s : SendState) (k : ℕ) (thread : LinkThread)
    (behind : List UInt8) (unsent : s.numBytesSent < data.size)
    (hmutex : e.sendMutex = some (thread, data.bytes.drop s.numBytesSent ++ behind)) :
    ∃ j, e.departing j = (sendBuffer data s).take (k + 1) ∧
      (e.accepted j).sendMutex = some (thread,
        data.bytes.drop (s.numBytesSent + ((sendBuffer data s).take (k + 1)).length) ++
          behind) := by
  have hlength : ((sendBuffer data s).take (k + 1)).length =
      min (k + 1) (min 4096 (data.size - s.numBytesSent)) := by
    rw [List.length_take, length_sendBuffer]
  obtain ⟨m, hm⟩ : ∃ m, min (k + 1) (min 4096 (data.size - s.numBytesSent)) = m := ⟨_, rfl⟩
  have hleft : m ≤ (data.bytes.drop s.numBytesSent).length := by
    rw [List.length_drop, PiVisionData.length_bytes]
    omega
  have hmoved : min (m - 1 + 1) 4096 = m := by omega
  -- at least one byte is unsent, so the number moved is positive
  refine ⟨m - 1, ?_, ?_⟩
  · rw [departing, hmutex, sendBuffer_eq, List.take_take, hm]
    simp only [hmoved]
    exact List.take_append_of_le_length hleft
  · rw [hlength, hm, accepted, hmutex]
    simp only [Option.map_some, hmoved]
    rw [List.drop_append_of_le_length hleft, List.drop_drop]

/-- A round of `Receive` in which bytes arrive is a `recvChunk`. -/
theorem arriving_eq_recvChunk (numBytesToGet : ℕ) (s : ReceiveState) (k : ℕ)
    (same : e.requested = numBytesToGet - s.numBytesReceived) :
    e.arriving s.wire k = recvChunk numBytesToGet s (.chunk k) := by
  rw [arriving, recvChunk, same, maxChunkSize]

/-- What `Execute` does with a payload, up to the ack that it then sends: data is raised,
and the ack is due when `Execute` would send it. -/
theorem dispatch_handlePayload (s : ExecuteState) (read : FrameRead) {payload : List UInt8}
    (hconn : s.conn = e.conn) (hlength : read.payloadLength = payload.length)
    (hbuf : read.dataBuf = .ofBytes payload) :
    ((e.dispatch payload).raised = e.raised ++ [payload] ↔
        (handlePayload e.ownPid read s).raised = s.raised ++ [read]) ∧
      ((e.dispatch payload).exec = .ackDue ↔
        (handlePayload e.ownPid read s).acked = s.acked ++ [read]) ∧
      ((handlePayload e.ownPid read s).conn = (e.dispatch payload).conn ∨
        (handlePayload e.ownPid read s).conn = (e.dispatch payload).conn.deactivate) := by
  simp only [dispatch, handlePayload, hlength, hbuf]
  cases hkind : classify payload.length (.ofBytes payload) with
  | data =>
    by_cases hack : e.conn.ackEnabled = true
    · obtain ⟨-, -, hraised, hacked⟩ := sendAck_record read { s with raised := s.raised ++ [read] }
      have hsame := sendAck_conn read { s with raised := s.raised ++ [read] }
      simp only [hconn] at hraised hacked hsame
      simp only [hconn, hack, if_true]
      exact ⟨iff_of_true trivial hraised, iff_of_true trivial hacked, hsame⟩
    · simp [hconn, hack]
  | ack | pid | heartbeat | empty => simp [hconn]

end LinkEnd

end PiVision
