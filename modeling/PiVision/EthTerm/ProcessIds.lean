import PiVision.EthTerm.Heartbeat
import PiVision.EthTerm.WholeFrames

/-!
# Which process the peer is in

An end takes its peer for one of its own process when a message tells it the id of that
process, and from then on raises its data there instead of sending it. The message is
any payload that begins with the pid word; the id in it is not unique across hosts, and
the payload may be data.

Here the peer is anything that writes bytes. What an end does is given call by call, a
round of `Execute` or the handling of an event, each against the answers of the socket.
-/

namespace PiVision

open LittleEndian Machine ScriptLoop

/-- One end of a connection: `Execute` with the two streams, the data events that it
handled while it might send, and those of them that it gave to `Send` and that it raised
in its own process. -/
structure RemoteEnd where
  exec : EthTermConnection.ExecuteState
  accepted : List PiVisionData
  written : List PiVisionData
  diverted : List PiVisionData

/-- What can happen at an end: bytes of the peer arrive, `Execute` goes round once, an
event is handled. A call comes with the answers of the socket. -/
inductive RemoteAction
  | arrive (bytes : List UInt8)
  | round (recvs : List RecvInput) (sends : List SendOutcome) (stop : Bool)
  | dataEvent (connType : ConnectionType) (data : PiVisionData) (sends : List SendOutcome)
  | heartbeatTimeout (id : ℤ) (sends : List SendOutcome)
  | stopEvent

namespace EthTermConnection

variable {conn : EthTermConnection}

/-- A call that only sends leaves the flag. -/
theorem SameConn.isInSameProcess {s : SendState} (same : SameConn conn s) :
    s.conn.isInSameProcess = conn.isInSameProcess := by
  obtain h | h := same
  · rw [h]
  · rw [h, isInSameProcess_deactivate]

end EthTermConnection

namespace RemoteEnd

open EthTermConnection

/-- The connection as constructed, nothing received. -/
def start (connType : ConnectionType) (serviceNo : ℕ) (socketFd : ℤ) : RemoteEnd where
  exec := .start (.new connType serviceNo socketFd) [] [] []
  accepted := []
  written := []
  diverted := []

def conn (e : RemoteEnd) : EthTermConnection := e.exec.conn

/-- The loop with the answers for its next round. -/
def facing (e : RemoteEnd) (recvs : List RecvInput) (sends : List SendOutcome) : ExecuteState :=
  { e.exec with recvs := recvs, sends := sends }

/-- The socket's side of the end, for a call of `Send` on the given connection. -/
def sender (e : RemoteEnd) (conn : EthTermConnection) : SendState :=
  ⟨conn, e.exec.stream, e.exec.gaveUp, 0, 0⟩

/-- What a call of `Send` leaves. -/
def sent (e : RemoteEnd) (s : SendState) : RemoteEnd :=
  { e with exec := { e.exec with conn := s.conn, stream := s.stream, gaveUp := s.gaveUp } }

/-- A round of `Execute`. One that has not come to its end is none. -/
def round (ownPid : ℕ) (e : RemoteEnd) (recvs : List RecvInput) (sends : List SendOutcome)
    (stop : Bool) : RemoteEnd :=
  if (executeRound ownPid (e.facing recvs sends) stop).status = .blocked then e
  else { e with exec := executeRound ownPid (e.facing recvs sends) stop }

/-- The end may send, and the event is for its side of the service. -/
def accepts (e : RemoteEnd) (connType : ConnectionType) : Bool :=
  e.conn.dataSubscribed &&
    (e.conn.receivedAck || !e.conn.ackEnabled || e.conn.isInSameProcess) &&
      decide (e.conn.connType = connType)

/-- The handler of a data event. -/
def dataEvent (e : RemoteEnd) (connType : ConnectionType) (data : PiVisionData)
    (sends : List SendOutcome) : RemoteEnd :=
  if e.accepts connType then
    if !e.conn.isInSameProcess then
      match send data sends (e.sender { e.conn with receivedAck := false }) with
      | .waiting _ => e
      | .returned s _ =>
        { e.sent s with accepted := e.accepted ++ [data], written := e.written ++ [data] }
    else { e with accepted := e.accepted ++ [data], diverted := e.diverted ++ [data] }
  else e

/-- The handler of a timeout. -/
def heartbeatTimeout (ownPid : ℕ) (e : RemoteEnd) (id : ℤ) (sends : List SendOutcome) :
    RemoteEnd :=
  let outcome := e.conn.handleHeartbeatTimeout ownPid id
  match sendAll outcome.2.1 sends (e.sender outcome.1) with
  | .waiting _ => e
  | .returned s _ => e.sent s

def step (ownPid : ℕ) (e : RemoteEnd) : RemoteAction → RemoteEnd
  | .arrive bytes => { e with exec := { e.exec with wire := e.exec.wire ++ bytes } }
  | .round recvs sends stop => e.round ownPid recvs sends stop
  | .dataEvent connType data sends => e.dataEvent connType data sends
  | .heartbeatTimeout id sends => e.heartbeatTimeout ownPid id sends
  | .stopEvent => { e with exec := { e.exec with conn := e.exec.conn.handleStop } }

variable {e : RemoteEnd} {ownPid : ℕ}

/-- The id that is read out of a payload, however much of it has arrived. -/
theorem otherPid_eq (d : PiVisionData) : otherPid d = leValue ((d.bytes.drop 4).take 4) :=
  PiVisionData.getWord_eq d 4 4

section Different

variable {own peer : ProcessId}

end Different

end RemoteEnd

end PiVision
