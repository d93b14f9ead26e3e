import PiVision.Lib.Block
import PiVision.Lib.Framing

/-!
# The image data transport

`PiVisImageDataTL` sends an image behind its length and then waits for an ack, nine
bytes of which the last one is the number of the frame. Every call of `run` receives
into `ackBuf` from its start and compares its last byte with `frameNo`, however many
bytes have come.
-/

namespace PiVision

open LittleEndian

def ackBufSize : ℕ := 9

/-- `ACK_BUF_FRAME_NO_OFFSET`. -/
def ackBufFrameNoOffset : Fin ackBufSize := ⟨8, by decide⟩

def bufHeaderSize : ℕ := 4

/-- `PiVisImageDataTLState`. -/
inductive DataTLState
  | sendData
  | waitForAck
  deriving DecidableEq, Repr

/-- The statics of `PiVisImageDataTL.c`. -/
structure DataTL where
  state : DataTLState
  numDroppedFrames : UInt32
  numDroppedFramesAck : UInt32
  frameNo : UInt8
  ackBuf : List.Vector UInt8 ackBufSize

namespace DataTL

/-- `IMGDATATL_init`. -/
def init : DataTL := ⟨.sendData, 0, 0, 0, .replicate _ 0⟩

/-- `run`, for what `SERVER_receive` returns: `none` for `-1`, or the bytes that it has
put into `ackBuf`. -/
def run (s : DataTL) : Option (List UInt8) → DataTL
  | none => s
  | some received =>
    let ackBuf := Block.write s.ackBuf 0 received
    -- neither the number of bytes received nor the state is looked at
    if ackBuf.get ackBufFrameNoOffset = s.frameNo then
      { s with ackBuf := ackBuf, state := .sendData, frameNo := s.frameNo + 1 }
    else { s with ackBuf := ackBuf }

/-- What is sent for an image. -/
def bufToSend (buf : List UInt8) : List UInt8 := Framing.encodeFrame bufHeaderSize buf

/-- `IMGDATATL_sendGrayscaleImage`: the statics after it, and what `SERVER_send` puts on
the stream. Without a connection `SERVER_send` returns `-1`. -/
def sendGrayscaleImage (s : DataTL) (buf : List UInt8) (connected : Bool) :
    DataTL × List UInt8 :=
  if s.state = .sendData then
    -- the frame number goes up when the ack comes, not here
    if connected then ({ s with state := .waitForAck }, bufToSend buf)
    else ({ s with numDroppedFramesAck := s.numDroppedFramesAck + 1 }, [])
  else ({ s with numDroppedFrames := s.numDroppedFrames + 1 }, [])

variable (s : DataTL) {received : List UInt8}

/-- The last byte of `ackBuf` is the one that a call has received there, if it has
received a whole ack, and the old one if it has not. -/
theorem get_write (short : received.length ≤ ackBufSize) :
    (Block.write s.ackBuf 0 received).get ackBufFrameNoOffset =
      received.getD ackBufFrameNoOffset (s.ackBuf.get ackBufFrameNoOffset) := by
  have hfits : Block.Fits ackBufSize 0 received := by rwa [Block.Fits, Nat.zero_add]
  exact Block.get_write_zero s.ackBuf hfits ackBufFrameNoOffset

/-- What a call that has received does to the mode and to the number. -/
theorem run_some (short : received.length ≤ ackBufSize) :
    ((s.run (some received)).state, (s.run (some received)).frameNo) =
      if received.getD ackBufFrameNoOffset (s.ackBuf.get ackBufFrameNoOffset) = s.frameNo then
        (.sendData, s.frameNo + 1)
      else (s.state, s.frameNo) := by
  simp only [run, s.get_write short]
  by_cases haccept : received.getD ackBufFrameNoOffset (s.ackBuf.get ackBufFrameNoOffset) =
    s.frameNo
  · simp only [haccept, if_true]
  · simp only [haccept, if_false]

/-- What it leaves in the last byte of `ackBuf`. -/
theorem ackBuf_run (short : received.length ≤ ackBufSize) :
    (s.run (some received)).ackBuf.get ackBufFrameNoOffset =
      received.getD ackBufFrameNoOffset (s.ackBuf.get ackBufFrameNoOffset) := by
  rw [← s.get_write short]
  simp only [run]
  split <;> rfl

/-- The end of a stream: the byte compared is the one that has been there. -/
theorem run_nil : s.run (some []) =
    if s.ackBuf.get ackBufFrameNoOffset = s.frameNo then
      { s with state := .sendData, frameNo := s.frameNo + 1 }
    else s := by
  simp only [run, Block.write_nil]

/-- A whole ack with the current frame number. -/
theorem run_of_ack (whole : received.length = ackBufSize)
    (current : received.getD ackBufFrameNoOffset 0 = s.frameNo) :
    (s.run (some received)).state = .sendData ∧
      (s.run (some received)).frameNo = s.frameNo + 1 := by
  have hlt : (ackBufFrameNoOffset : ℕ) < received.length := by rw [whole]; decide
  have htested : received.getD ackBufFrameNoOffset (s.ackBuf.get ackBufFrameNoOffset) =
      s.frameNo := by
    rw [← current, List.getD_eq_getElem _ _ hlt, List.getD_eq_getElem _ _ hlt]
  have hrun := s.run_some (Nat.le_of_eq whole)
  rw [if_pos htested] at hrun
  exact Prod.mk_inj.mp hrun

/-- Data are sent in `SEND_DATA` only. -/
theorem sendGrayscaleImage_of_waiting (waiting : s.state = .waitForAck) (buf : List UInt8)
    (connected : Bool) :
    s.sendGrayscaleImage buf connected =
      ({ s with numDroppedFrames := s.numDroppedFrames + 1 }, []) := by
  simp [sendGrayscaleImage, waiting]

end DataTL

end PiVision
