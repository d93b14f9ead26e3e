import PiVision.Data

/-!
# A connection of the network terminal

The state of one `PiVisionEthTermConnection`, its constructor, and the three
control messages it exchanges in band with the data: the acknowledgement, the
heartbeat, and the process-id message. They are told apart from data, and from each
other, by the first four bytes of the payload only.
-/

namespace PiVision

open LittleEndian

/-- Which side of a service a connection serves. -/
inductive ConnectionType
  | server
  | client
  deriving DecidableEq, Repr

/-- The mutable members of a connection, with the three it is constructed from.
`dataSubscribed` is its subscription to the data event `serviceNo + 1`. -/
structure EthTermConnection where
  active : Bool
  connType : ConnectionType
  serviceNo : ℕ
  socketFd : ℤ
  receivedAck : Bool
  ackEnabled : Bool
  lastHeartbeatReceived : Bool
  isInSameProcess : Bool
  sentPid : Bool
  dataSubscribed : Bool
  deriving DecidableEq, Repr

namespace EthTermConnection

/-- The constructor. -/
def new (connType : ConnectionType) (serviceNo : ℕ) (socketFd : ℤ) : EthTermConnection where
  active := true
  connType := connType
  serviceNo := serviceNo
  socketFd := socketFd
  receivedAck := true
  ackEnabled := true
  lastHeartbeatReceived := false
  isInSameProcess := false
  sentPid := false
  dataSubscribed := true

/-- What every path that gives the connection up does: unsubscribe from the data
event and clear `active`. `PIVISION_EVENT_STOP` is handled by exactly this. -/
def deactivate (c : EthTermConnection) : EthTermConnection :=
  { c with active := false, dataSubscribed := false }

@[simp] theorem active_deactivate (c : EthTermConnection) : c.deactivate.active = false := rfl

@[simp] theorem ackEnabled_deactivate (c : EthTermConnection) :
    c.deactivate.ackEnabled = c.ackEnabled := rfl

@[simp] theorem receivedAck_deactivate (c : EthTermConnection) :
    c.deactivate.receivedAck = c.receivedAck := rfl

@[simp] theorem isInSameProcess_deactivate (c : EthTermConnection) :
    c.deactivate.isInSameProcess = c.isInSameProcess := rfl

@[simp] theorem deactivate_deactivate (c : EthTermConnection) :
    c.deactivate.deactivate = c.deactivate := rfl

/-- The handler of `PIVISION_EVENT_STOP`. -/
def handleStop (c : EthTermConnection) : EthTermConnection := c.deactivate

/-! ## Control messages -/

def ackMsg : ℕ := 0xDEADBEEF

def heartbeatMsg : ℕ := 0xBEA1BEA1

def pidMsg : ℕ := 0x61D61D61

/-- `ackMsgBuf`, as the constructor fills it. -/
def ackMsgBuf : PiVisionData := (PiVisionData.new 4).appendWord ackMsg

/-- `heartbeatMsgBuf`, as the constructor fills it. -/
def heartbeatMsgBuf : PiVisionData := (PiVisionData.new 4).appendWord heartbeatMsg

/-- `pidMsgBuf`: the message word followed by the id of the own process. -/
def pidMsgBuf (ownPid : ℕ) : PiVisionData :=
  ((PiVisionData.new 8).appendWord pidMsg).appendWord ownPid

theorem bytes_ackMsgBuf : ackMsgBuf.bytes = [0xEF, 0xBE, 0xAD, 0xDE] := by decide

theorem bytes_heartbeatMsgBuf : heartbeatMsgBuf.bytes = [0xA1, 0xBE, 0xA1, 0xBE] := by decide

theorem bytes_pidMsgBuf (ownPid : ℕ) :
    (pidMsgBuf ownPid).bytes = [0x61, 0x1D, 0xD6, 0x61] ++ leBytes 4 ownPid := by
  have hrange : (PiVisionData.new 8).capacity < uint32Range := by decide
  obtain ⟨hbytes, hsize, hcap⟩ :=
    PiVisionData.appendWord_of_fits (d := .new 8) (by decide) hrange pidMsg
  have hword := (PiVisionData.appendWord_of_fits (d := (PiVisionData.new 8).appendWord pidMsg)
    (by rw [hsize, hcap]; decide) (by rw [hcap]; exact hrange) ownPid).1
  rw [pidMsgBuf, hword, hbytes]
  rfl

/-- The comparison `Execute` makes for each of the three words: the payload is at
least four bytes long and its first four bytes are the word's. -/
def startsWithWord (word : PiVisionData) (payloadLength : ℕ) (dataBuf : PiVisionData) : Bool :=
  decide (4 ≤ payloadLength) &&
    (dataBuf.getElementAt 0 == word.getElementAt 0 &&
      dataBuf.getElementAt 1 == word.getElementAt 1 &&
      dataBuf.getElementAt 2 == word.getElementAt 2 &&
      dataBuf.getElementAt 3 == word.getElementAt 3)

/-- What a received payload is taken for. -/
inductive PayloadKind
  | empty
  | data
  | ack
  | pid
  | heartbeat
  deriving DecidableEq, Repr

/-- The classification in `Execute`, in the order of its tests. Only the first four
bytes of the pid message matter, so any own pid gives the same answer. -/
def classify (payloadLength : ℕ) (dataBuf : PiVisionData) : PayloadKind :=
  if 0 < payloadLength then
    let isAck := startsWithWord ackMsgBuf payloadLength dataBuf
    let isHeartbeat := startsWithWord heartbeatMsgBuf payloadLength dataBuf
    let isPid := startsWithWord (pidMsgBuf 0) payloadLength dataBuf
    if !isAck && !isHeartbeat && !isPid then .data
    else if isAck then .ack
    else if isPid then .pid
    else .heartbeat
  else .empty

/-- The process id a received pid message carries. -/
def otherPid (dataBuf : PiVisionData) : ℕ := dataBuf.getWord 4 4

end EthTermConnection

end PiVision
