import PiVision.Lib.Block
import Mathlib.Data.Int.Notation

/-!
# The camera client

`PiVisClient` is a state machine whose `run` performs one state's function. Connected,
it collects an image in two phases, the header and the pixels, each resumed from call
to call through its own index; with the pixels complete it enters `PROCESSING_FRAME`
and stays there until `CLIENT_receive` has handed the whole buffer out.

The arrays are blocks of a fixed size. A `socket_receive` whose bytes would pass the
end of its array, or a `memcpy` that would read past the end of `buffer`, is noted in
the state; the bytes outside the array are then left out.
-/

namespace PiVision

def imageXSize : ℕ := 640

def imageYSize : ℕ := 480

def cameraBufHeaderSize : ℕ := 8

def colorImageSize : ℕ := imageXSize * imageYSize * 3

def grayscaleImageSize : ℕ := imageXSize * imageYSize

def ipAddressLength : ℕ := 16

theorem colorImageSize_pos : 0 < colorImageSize := by decide

/-- The statics of `PiVisClient.c`. `overrun` and `overread` note that a
`socket_receive` has written, or a `memcpy` read, outside its array. -/
structure ClientState where
  currState : ℕ
  serverAddress : List.Vector UInt8 ipAddressLength
  socketFd : ℤ
  camBufHeader : List.Vector UInt8 cameraBufHeaderSize
  buffer : List.Vector UInt8 colorImageSize
  bufferIndex : ℕ
  headerIndex : ℕ
  overrun : Bool
  overread : Bool

/-- What the environment answers to a call of `run`: the reply to the discovery request
(`none` if none comes), the descriptor of a new connection (`-1` if it fails), and the
bytes that `recv` finds (`none` if it fails, no bytes if the peer has closed). -/
structure ClientInput where
  reply : Option (List UInt8)
  connection : ℤ
  arrived : Option (List UInt8)

namespace ClientState

/-- The statics before the first call, in the given state of the machine. -/
def init (currState : ℕ) (socketFd : ℤ) : ClientState where
  currState := currState
  serverAddress := .replicate _ 0
  socketFd := socketFd
  camBufHeader := .replicate _ 0
  buffer := .replicate _ 0
  bufferIndex := 0
  headerIndex := 0
  overrun := false
  overread := false

/-- `socket_receive`: at most `maxSize` of the bytes that have arrived. -/
def socketReceive (arrived : Option (List UInt8)) (maxSize : ℕ) : Option (List UInt8) :=
  arrived.map (List.take maxSize)

/-- `serviceDiscovery`. A failing `sendto` exits the process and is no step. -/
def serviceDiscovery (s : ClientState) (reply : Option (List UInt8)) : ClientState :=
  match socketReceive reply ipAddressLength with
  | some (b :: bs) =>
    { s with
      -- the terminator falls outside for a reply of sixteen bytes, and is then left out
      serverAddress := Block.write s.serverAddress 0 (b :: bs ++ [0])
      currState := s.currState + 1 }
  | _ => s

def stateDisconnected (s : ClientState) : ClientState := { s with currState := s.currState + 1 }

def stateConnecting (s : ClientState) (connection : ℤ) : ClientState :=
  -- a descriptor of `-1` is stored all the same
  if connection ≠ -1 then { s with socketFd := connection, currState := s.currState + 1 }
  else { s with socketFd := connection }

/-- The header phase of `stateConnected`. Every call asks for a whole header, whatever
part of it has been received. -/
def receiveHeader (s : ClientState) (arrived : Option (List UInt8)) : ClientState :=
  match socketReceive arrived cameraBufHeaderSize with
  | some bytes =>
    { s with
      camBufHeader := Block.write s.camBufHeader s.headerIndex bytes
      headerIndex := s.headerIndex + bytes.length
      overrun := s.overrun || decide (cameraBufHeaderSize < s.headerIndex + bytes.length) }
  | none => s

/-- The pixel phase of `stateConnected`, up to the test for a complete image. -/
def receivePixels (s : ClientState) (arrived : Option (List UInt8)) : ClientState :=
  match socketReceive arrived (colorImageSize - s.bufferIndex) with
  | some bytes =>
    { s with
      buffer := Block.write s.buffer s.bufferIndex bytes
      bufferIndex := s.bufferIndex + bytes.length
      overrun := s.overrun || decide (colorImageSize < s.bufferIndex + bytes.length) }
  -- back to the search for a server: `buffer` is cleared, the indices stay as they are
  | none => { s with currState := 0, buffer := .replicate _ 0 }

/-- The test for a complete image. -/
def completeImage (s : ClientState) : ClientState :=
  if s.bufferIndex = colorImageSize then
    { s with bufferIndex := 0, headerIndex := 0, currState := s.currState + 1 }
  else s

def stateConnected (s : ClientState) (arrived : Option (List UInt8)) : ClientState :=
  if s.headerIndex < cameraBufHeaderSize then s.receiveHeader arrived
  else (s.receivePixels arrived).completeImage

def processingFrame (s : ClientState) : ClientState :=
  -- `CLIENT_receive` has moved `bufferIndex` to the end of the buffer
  if s.bufferIndex = colorImageSize then
    { s with bufferIndex := 0, currState := s.currState - 1 }
  else s

/-- `run`: the function of the current state. The table has no entry from index five
on. -/
def run (s : ClientState) (input : ClientInput) : ClientState :=
  match s.currState with
  | 0 => s.serviceDiscovery input.reply
  | 1 => s.stateDisconnected
  | 2 => s.stateConnecting input.connection
  | 3 => s.stateConnected input.arrived
  | 4 => s.processingFrame
  | _ => s

/-- `CLIENT_receive`: what it returns, the caller's buffer, and the state after it. -/
def receive {n : ℕ} (s : ClientState) (buf : List.Vector UInt8 n) (bufSize : ℕ) :
    ℕ × List.Vector UInt8 n × ClientState :=
  if s.currState = 4 then
    (bufSize, Block.write buf 0 (Block.read s.buffer s.bufferIndex bufSize),
      { s with
        bufferIndex := s.bufferIndex + bufSize
        overread := s.overread || decide (colorImageSize < s.bufferIndex + bufSize) })
  else (0, buf, s)

/-! ## What a call of `run` can do -/

/-- The pixel phase asks for what is missing, so its bytes stay inside the buffer. -/
theorem receivePixels_cases (s : ClientState) (arrived : Option (List UInt8))
    (inside : s.bufferIndex < colorImageSize) :
    (∃ bytes, socketReceive arrived (colorImageSize - s.bufferIndex) = some bytes ∧
      Block.Fits colorImageSize s.bufferIndex bytes ∧
      s.receivePixels arrived = { s with
        buffer := Block.write s.buffer s.bufferIndex bytes
        bufferIndex := s.bufferIndex + bytes.length }) ∨
    (arrived = none ∧
      s.receivePixels arrived = { s with currState := 0, buffer := .replicate _ 0 }) := by
  cases arrived with
  | none => exact .inr ⟨rfl, rfl⟩
  | some arrived =>
    have hfits : Block.Fits colorImageSize s.bufferIndex
        (arrived.take (colorImageSize - s.bufferIndex)) := by
      rw [Block.Fits, List.length_take]
      omega
    have hinside : decide (colorImageSize <
        s.bufferIndex + (arrived.take (colorImageSize - s.bufferIndex)).length) = false :=
      decide_eq_false (Nat.not_lt.mpr hfits)
    refine .inl ⟨arrived.take (colorImageSize - s.bufferIndex), rfl, hfits, ?_⟩
    simp only [receivePixels, socketReceive, Option.map_some, hinside, Bool.or_false]

/-- Before it is connected the client looks for a server, and leaves its buffers alone. -/
theorem run_unconnected (s : ClientState) (input : ClientInput) (unconnected : s.currState < 3) :
    ∃ currState serverAddress socketFd, currState < 4 ∧ s.run input = { s with
      currState := currState
      serverAddress := serverAddress
      socketFd := socketFd } := by
  obtain h | h | h : s.currState = 0 ∨ s.currState = 1 ∨ s.currState = 2 := by omega
  · have hrun : s.run input = s.serviceDiscovery input.reply := by simp [run, h]
    rw [hrun, serviceDiscovery]
    split
    · exact ⟨s.currState + 1, _, s.socketFd, by omega, rfl⟩
    · exact ⟨s.currState, s.serverAddress, s.socketFd, by omega, rfl⟩
  · have hrun : s.run input = s.stateDisconnected := by simp [run, h]
    exact ⟨s.currState + 1, s.serverAddress, s.socketFd, by omega, hrun⟩
  · have hrun : s.run input = s.stateConnecting input.connection := by simp [run, h]
    rw [hrun, stateConnecting]
    split
    · exact ⟨s.currState + 1, s.serverAddress, input.connection, by omega, rfl⟩
    · exact ⟨s.currState, s.serverAddress, input.connection, by omega, rfl⟩

/-- Outside `PROCESSING_FRAME` and with the buffer incomplete, a call of `run` keeps it
so, or completes the buffer and enters `PROCESSING_FRAME`. -/
theorem run_cases (s : ClientState) (input : ClientInput) (waiting : s.currState < 4)
    (inside : s.bufferIndex < colorImageSize) :
    (s.run input).overread = s.overread ∧
      (((s.run input).currState < 4 ∧ (s.run input).bufferIndex < colorImageSize) ∨
        ((s.run input).currState = 4 ∧ (s.run input).bufferIndex = 0)) := by
  rcases Nat.lt_or_eq_of_le (Nat.le_of_lt_succ waiting) with hlt | heq
  · obtain ⟨currState, _, _, hstate, hrun⟩ := s.run_unconnected input hlt
    rw [hrun]
    exact ⟨rfl, .inl ⟨hstate, inside⟩⟩
  have hrun : s.run input = s.stateConnected input.arrived := by simp [run, heq]
  rw [hrun, stateConnected]
  split
  · rw [receiveHeader]
    split <;> exact ⟨rfl, .inl ⟨waiting, inside⟩⟩
  · rcases receivePixels_cases s input.arrived inside with
      ⟨bytes, -, hfits, hpixels⟩ | ⟨-, hpixels⟩
    · rw [hpixels, completeImage]
      split
      · exact ⟨rfl, .inr ⟨by simp [heq], rfl⟩⟩
      · rename_i hmissing
        exact ⟨rfl, .inl ⟨waiting, Nat.lt_of_le_of_ne hfits hmissing⟩⟩
    -- the connection is lost with the buffer still incomplete
    · rw [hpixels, completeImage, if_neg (Nat.ne_of_lt inside)]
      exact ⟨rfl, .inl ⟨Nat.succ_pos 3, inside⟩⟩

/-- In `PROCESSING_FRAME`, with the buffer handed out, the client goes back to reading. -/
theorem run_processing (s : ClientState) (input : ClientInput) (processing : s.currState = 4)
    (taken : s.bufferIndex = colorImageSize) :
    s.run input = { s with bufferIndex := 0, currState := 3 } := by
  simp [run, processing, processingFrame, taken]

end ClientState

end PiVision
