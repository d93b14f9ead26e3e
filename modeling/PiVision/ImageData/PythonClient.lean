import PiVision.Lib.LittleEndian

/-!
# The Python client

`PiVisClient.receive` reads a length of four bytes, then as many bytes as it says unless
it is 0 or 1, and answers with an ack that carries its own count of the frames. Both
reads are `__receiveInternal`, which calls `recv` for what is missing until nothing is.

A state is a point at which the loop waits: in `recv`, or before it sends the ack.
-/

namespace PiVision

open LittleEndian

/-- `GRAY_SCALE_IMAGE_TYPE`. -/
def grayScaleImageType : UInt8 := 0

/-- Where the loop of `receive` stands. -/
inductive ReceivePoint
  | header
  | image
  | ack
  deriving DecidableEq, Repr

/-- `PiVisClient` with the local variables of `receive`. -/
structure PythonClient where
  frameNo : ℕ
  data : List UInt8
  point : ReceivePoint
  header : List UInt8
  receiveBuf : List UInt8

namespace PythonClient

/-- `PiVisClient.__init__`, and the loop of `receive` entered. -/
def init : PythonClient := ⟨0, [], .header, [], []⟩

def headerSize : ℕ := 4

/-- `imageSize`, once the header is complete. -/
def imageSize (c : PythonClient) : ℕ := leValue c.header

/-- The test in front of the second read. The small numbers are single objects, so that
`is not` compares their values. -/
def ReadsImage (imageSize : ℕ) : Prop := 0 ≠ imageSize ∧ 1 ≠ imageSize

instance (imageSize : ℕ) : Decidable (ReadsImage imageSize) :=
  inferInstanceAs (Decidable (_ ∧ _))

/-- The number of bytes that the next call asks `recv` for. -/
def missing (c : PythonClient) : ℕ :=
  match c.point with
  | .header => headerSize - c.header.length
  | .image => c.imageSize - c.receiveBuf.length
  | .ack => 0

/-- `recv` has returned a packet; the loop goes on to the next point at which it waits. -/
def receive (c : PythonClient) (packet : List UInt8) : PythonClient :=
  match c.point with
  | .header =>
    let c := { c with header := c.header ++ packet }
    if c.header.length < headerSize then c
    else if ReadsImage c.imageSize then { c with point := .image }
    -- a length of 0 or 1 is followed by no data
    else { c with point := .ack }
  | .image =>
    let c := { c with receiveBuf := c.receiveBuf ++ packet }
    if c.receiveBuf.length < c.imageSize then c
    else { c with data := grayScaleImageType :: c.receiveBuf, point := .ack }
  | .ack => c

/-- `ackData` for a frame. -/
def ackData (frameNo : ℕ) : List UInt8 :=
  leBytes 4 5 ++ leBytes 4 0xDEADBEEF ++ [UInt8.ofNat frameNo]

/-- The end of the loop's body: the client behind it, and what it has sent. -/
def sendAck (c : PythonClient) : PythonClient × List UInt8 :=
  let frameNo := c.frameNo + 1
  ({ c with
      frameNo := if frameNo > 255 then 0 else frameNo
      point := .header
      header := []
      receiveBuf := [] },
    ackData c.frameNo)

/-- What the loop has read of the current frame. -/
def consumed (c : PythonClient) : List UInt8 := c.header ++ c.receiveBuf

/-- The length of what is read for an image of the given size. -/
def readSize (imageSize : ℕ) : ℕ := if ReadsImage imageSize then imageSize else 0

/-- The point that the loop has reached is that of the bytes read. -/
structure WellFormed (c : PythonClient) : Prop where
  at_header : c.point = .header → c.header.length < headerSize ∧ c.receiveBuf = []
  at_image : c.point = .image → c.header.length = headerSize ∧ ReadsImage c.imageSize ∧
    c.receiveBuf.length < c.imageSize
  at_ack : c.point = .ack → c.header.length = headerSize ∧
    c.receiveBuf.length = readSize c.imageSize
  frameNo_lt : c.frameNo < 256

theorem wellFormed_init : init.WellFormed where
  at_header _ := ⟨by decide, rfl⟩
  at_image h := nomatch h
  at_ack h := nomatch h
  frameNo_lt := by decide

variable {c : PythonClient} {packet : List UInt8}

/-- A packet of at most what is missing keeps the state well formed. -/
theorem WellFormed.receive (wf : c.WellFormed) (fits : packet.length ≤ c.missing) :
    (c.receive packet).WellFormed := by
  cases hpoint : c.point with
  | header =>
    obtain ⟨hshort, hempty⟩ := wf.at_header hpoint
    simp only [missing, hpoint] at fits
    by_cases hmore : (c.header ++ packet).length < headerSize
    · simp only [PythonClient.receive, hpoint, hmore, if_true]
      exact ⟨fun _ => ⟨hmore, hempty⟩, nofun, nofun, wf.frameNo_lt⟩
    · have hheader : (c.header ++ packet).length = headerSize := by
        rw [List.length_append] at hmore ⊢
        omega
      by_cases hreads : ReadsImage (leValue (c.header ++ packet))
      · simp only [PythonClient.receive, hpoint, hmore, if_false, imageSize, hreads, if_true]
        refine ⟨nofun, fun _ => ⟨hheader, hreads, ?_⟩, nofun, wf.frameNo_lt⟩
        rw [hempty]
        exact Nat.pos_of_ne_zero hreads.1.symm
      · simp only [PythonClient.receive, hpoint, hmore, if_false, imageSize, hreads]
        refine ⟨nofun, nofun, fun _ => ⟨hheader, ?_⟩, wf.frameNo_lt⟩
        show c.receiveBuf.length = readSize (leValue (c.header ++ packet))
        rw [hempty, readSize, if_neg hreads]
        rfl
  | image =>
    obtain ⟨hheader, hreads, hshort⟩ := wf.at_image hpoint
    simp only [missing, hpoint] at fits
    by_cases hmore : (c.receiveBuf ++ packet).length < leValue c.header
    · simp only [PythonClient.receive, hpoint, imageSize, hmore, if_true]
      exact ⟨nofun, fun _ => ⟨hheader, hreads, hmore⟩, nofun, wf.frameNo_lt⟩
    · simp only [PythonClient.receive, hpoint, imageSize, hmore, if_false]
      refine ⟨nofun, nofun, fun _ => ⟨hheader, ?_⟩, wf.frameNo_lt⟩
      show (c.receiveBuf ++ packet).length = readSize c.imageSize
      rw [readSize, if_pos hreads]
      rw [List.length_append] at hmore ⊢
      unfold imageSize at fits hshort ⊢
      omega
  | ack =>
    simp only [PythonClient.receive, hpoint]
    exact wf

/-- Where the loop reads, there is something to read. -/
theorem WellFormed.missing_pos (wf : c.WellFormed) (reading : c.point ≠ .ack) :
    0 < c.missing := by
  cases hpoint : c.point with
  | header =>
    simp only [missing, hpoint]
    exact Nat.sub_pos_of_lt (wf.at_header hpoint).1
  | image =>
    simp only [missing, hpoint]
    exact Nat.sub_pos_of_lt (wf.at_image hpoint).2.2
  | ack => exact absurd hpoint reading

theorem wellFormed_sendAck (c : PythonClient) : c.sendAck.1.WellFormed where
  at_header _ := ⟨show 0 < headerSize from Nat.succ_pos 3, rfl⟩
  at_image h := nomatch h
  at_ack h := nomatch h
  frameNo_lt := by
    show (if c.frameNo + 1 > 255 then 0 else c.frameNo + 1) < 256
    split <;> omega

/-- The packet joins what has been read. -/
theorem consumed_receive (wf : c.WellFormed) (reading : c.point ≠ .ack) (packet : List UInt8) :
    (c.receive packet).consumed = c.consumed ++ packet := by
  cases hpoint : c.point with
  | header =>
    obtain ⟨-, hempty⟩ := wf.at_header hpoint
    simp only [receive, hpoint, consumed]
    split
    · simp [hempty]
    · split <;> simp [hempty]
  | image =>
    simp only [receive, hpoint, consumed]
    split <;> simp
  | ack => exact absurd hpoint reading

theorem frameNo_receive (c : PythonClient) (packet : List UInt8) :
    (c.receive packet).frameNo = c.frameNo := by
  unfold receive
  split
  · dsimp only
    split
    · rfl
    · split <;> rfl
  · dsimp only
    split <;> rfl
  · rfl

/-- The client counts modulo 256. -/
theorem frameNo_sendAck (wf : c.WellFormed) : c.sendAck.1.frameNo = (c.frameNo + 1) % 256 := by
  have hlt := wf.frameNo_lt
  show (if c.frameNo + 1 > 255 then 0 else c.frameNo + 1) = _
  split <;> omega

theorem length_ackData (frameNo : ℕ) : (ackData frameNo).length = 9 := by simp [ackData]

/-- The last byte of an ack is the number of its frame. -/
theorem getD_ackData (frameNo : ℕ) (byte : UInt8) :
    (ackData frameNo).getD 8 byte = UInt8.ofNat frameNo := by
  rw [ackData, List.getD_append_right _ _ _ _ (by simp)]
  simp

end PythonClient

end PiVision
