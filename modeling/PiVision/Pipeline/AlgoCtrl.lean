import PiVision.Pipeline.Client

/-!
# The image provider and algorithm control

`PiVisImageProvider` asks the client for an image in each of its calls and keeps the
answer for the next caller of `IMGPROVIDER_getPixelData`. `PiVisAlgoCtrl` is that
caller: it copies the image into its own `recBuffer`, and then, unless the algorithm is
still running, makes `recBuffer` the algorithm's input and schedules it.
-/

namespace PiVision

/-- The statics of `PiVisImageProvider.c`. -/
structure ImageProviderState where
  recBuffer : List.Vector UInt8 colorImageSize
  recBufferSize : ℕ

namespace ImageProviderState

/-- `IMGPROVIDER_init`. -/
def init : ImageProviderState := ⟨.replicate _ 0, 0⟩

/-- `run`: both modules' states after it. -/
def run (s : ImageProviderState) (client : ClientState) : ImageProviderState × ClientState :=
  let (size, buf, client) := client.receive s.recBuffer colorImageSize
  (⟨buf, size⟩, client)

/-- `IMGPROVIDER_getPixelData`: what it returns, and the caller's buffer after it. -/
def getPixelData {n : ℕ} (s : ImageProviderState) (buf : List.Vector UInt8 n) (bufSize : ℕ) :
    ℕ × List.Vector UInt8 n :=
  if s.recBufferSize ≠ 0 then
    let bytesToCopy := if s.recBufferSize < bufSize then s.recBufferSize else bufSize
    (bytesToCopy, Block.write buf 0 (Block.read s.recBuffer 0 bytesToCopy))
  else (0, buf)

/-- Outside `PROCESSING_FRAME` the client hands nothing out. -/
theorem run_of_other (s : ImageProviderState) {client : ClientState}
    (other : client.currState ≠ 4) : s.run client = (⟨s.recBuffer, 0⟩, client) := by
  simp [run, ClientState.receive, other]

/-- On entry into `PROCESSING_FRAME` the client hands its whole buffer out. -/
theorem run_of_processing (s : ImageProviderState) {client : ClientState}
    (processing : client.currState = 4) (fresh : client.bufferIndex = 0) :
    s.run client =
      (⟨client.buffer, colorImageSize⟩, { client with bufferIndex := colorImageSize }) := by
  have hcopy : Block.write s.recBuffer 0 (Block.read client.buffer 0 colorImageSize) =
      client.buffer := by
    apply List.Vector.eq
    rw [Block.read_full]
    exact Block.toList_write_full s.recBuffer (List.Vector.toList_length _)
  simp [run, ClientState.receive, processing, fresh, hcopy]

/-- With nothing received there is nothing to copy. -/
theorem getPixelData_of_empty {n : ℕ} {s : ImageProviderState} (empty : s.recBufferSize = 0)
    (buf : List.Vector UInt8 n) (bufSize : ℕ) : s.getPixelData buf bufSize = (0, buf) := by
  simp [getPixelData, empty]

/-- With an image received the caller's buffer becomes the image. -/
theorem getPixelData_of_full {s : ImageProviderState} (full : s.recBufferSize = colorImageSize)
    (buf : List.Vector UInt8 colorImageSize) :
    s.getPixelData buf colorImageSize = (colorImageSize, s.recBuffer) := by
  have hpos := colorImageSize_pos
  have hcopy : Block.write buf 0 (Block.read s.recBuffer 0 colorImageSize) = s.recBuffer := by
    apply List.Vector.eq
    rw [Block.read_full]
    exact Block.toList_write_full buf (List.Vector.toList_length _)
  simp only [getPixelData, full, Nat.lt_irrefl, if_false, hcopy]
  rw [if_pos (Nat.pos_iff_ne_zero.mp hpos)]

end ImageProviderState

/-- `PiVisAlgoState`. -/
inductive AlgoState
  | init
  | running
  | complete
  deriving DecidableEq, Repr

/-- The statics of `PiVisAlgoCtrl.c`: its frame buffer, which `inputData` of the first
algorithm points to from the first scheduling on, and the state of that algorithm. -/
structure AlgoCtrlState where
  recBuffer : List.Vector UInt8 colorImageSize
  algoState : AlgoState

/-- What a call of `run` does outside the module: whether it hands the algorithm's
output to the data transport, the frame it obtains, and whether it schedules a job. -/
structure AlgoCtrlEffect where
  sendsOutput : Bool
  obtained : Option (List.Vector UInt8 colorImageSize)
  schedules : Bool

namespace AlgoCtrlState

/-- `ALGOCTRL_init`. -/
def init : AlgoCtrlState := ⟨.replicate _ 0, .init⟩

/-- `run`. The frame is copied before the state of the algorithm is looked at. -/
def run (s : AlgoCtrlState) (provider : ImageProviderState) : AlgoCtrlState × AlgoCtrlEffect :=
  let sendsOutput := decide (s.algoState = .complete)
  let (size, recBuffer) := provider.getPixelData s.recBuffer colorImageSize
  -- `recBuffer` holds the frame already, whichever branch is taken
  if colorImageSize = size then
    if s.algoState ≠ .running then
      (⟨recBuffer, .running⟩, ⟨sendsOutput, some recBuffer, true⟩)
    -- the frame is dropped: it is in `recBuffer`, but no job is scheduled for it
    else (⟨recBuffer, s.algoState⟩, ⟨sendsOutput, some recBuffer, false⟩)
  else (⟨recBuffer, s.algoState⟩, ⟨sendsOutput, none, false⟩)

/-- Without a frame the module's state stays as it is. -/
theorem run_of_empty (s : AlgoCtrlState) {provider : ImageProviderState}
    (empty : provider.recBufferSize = 0) :
    s.run provider = (s, ⟨decide (s.algoState = .complete), none, false⟩) := by
  have hpos : colorImageSize ≠ 0 := Nat.pos_iff_ne_zero.mp colorImageSize_pos
  simp [run, ImageProviderState.getPixelData_of_empty empty, hpos]

/-- With a frame, the frame is copied whatever the algorithm does, and the algorithm is
scheduled unless it is running. -/
theorem run_of_full (s : AlgoCtrlState) {provider : ImageProviderState}
    (full : provider.recBufferSize = colorImageSize) :
    s.run provider = (⟨provider.recBuffer, .running⟩,
      ⟨decide (s.algoState = .complete), some provider.recBuffer,
        decide (s.algoState ≠ .running)⟩) := by
  by_cases hrunning : s.algoState = .running <;>
    simp [run, ImageProviderState.getPixelData_of_full full, hrunning]

end AlgoCtrlState

end PiVision
