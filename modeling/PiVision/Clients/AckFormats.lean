import PiVision.Clients.JavaClient
import PiVision.EthTerm.Link
import PiVision.ImageData.AckRecognition
import PiVision.ImageData.PythonClient
import Mathlib.Logic.Function.Iterate

/-!
# The formats of an ack

Two clients write an ack and two servers of the grayscale service read it. The Python
client puts the number of the frame behind the word `0xDEADBEEF`, the Java client does not;
the connection looks at the word alone, the data transport at the number alone. An ack
without a number leaves the number of the ack before it in `ackBuf`, so the data transport
takes it for the very first frame and for no other.
-/

namespace PiVision

open Machine LittleEndian Framing ScriptLoop

/-- The implementations of a client that acknowledges what it reads. -/
inductive AckClient
  | python
  | java
  deriving DecidableEq, Repr

namespace AckClient

/-- What the client sends for the next frame when it has acknowledged `n` frames. -/
def ack : AckClient → ℕ → List UInt8
  | .python, n => ((fun c : PythonClient => c.sendAck.1)^[n] .init).sendAck.2
  | .java, _ => JavaClient.ackMessage

/-- The payload of it. -/
def payload : AckClient → ℕ → List UInt8
  | .python, n => leBytes 4 EthTermConnection.ackMsg ++ [UInt8.ofNat n]
  | .java, _ => leBytes 4 EthTermConnection.ackMsg

/-- The Python client counts the frames modulo 256. -/
theorem frameNo_iterate_sendAck (n : ℕ) :
    ((fun c : PythonClient => c.sendAck.1)^[n] .init).frameNo = n % 256 := by
  induction n with
  | zero => rfl
  | succ n ih =>
    have hwf : ((fun c : PythonClient => c.sendAck.1)^[n] .init).WellFormed := by
      cases n with
      | zero => exact PythonClient.wellFormed_init
      | succ n =>
        rw [Function.iterate_succ_apply']
        exact PythonClient.wellFormed_sendAck _
    rw [Function.iterate_succ_apply', PythonClient.frameNo_sendAck hwf, ih]
    omega

theorem ack_python (n : ℕ) : ack .python n = PythonClient.ackData (n % 256) := by
  rw [ack, ← frameNo_iterate_sendAck n]
  rfl

/-- An ack is a frame. -/
theorem ack_eq (client : AckClient) (n : ℕ) : client.ack n = encodeFrame 4 (client.payload n) := by
  cases client with
  | java => rfl
  | python =>
    have hbyte : UInt8.ofNat (n % 256) = UInt8.ofNat n := by
      apply UInt8.toNat_inj.mp
      simp
    rw [ack_python, PythonClient.ackData, payload, encodeFrame, hbyte, List.append_assoc]
    rfl

theorem length_ack_le (client : AckClient) (n : ℕ) : (client.ack n).length ≤ ackBufSize := by
  cases client with
  | python =>
    rw [ack_python, PythonClient.length_ackData]
    exact Nat.le_refl 9
  | java =>
    have hlength : JavaClient.ackMessage.length = 8 := rfl
    exact hlength ▸ Nat.le_succ 8

end AckClient

/-! ## The data transport -/

namespace DataTL

/-- The data transport sends the next image. -/
def Sends (s : DataTL) : Prop :=
  ∀ image, (s.sendGrayscaleImage image true).2 = bufToSend image

theorem sends_iff (s : DataTL) : s.Sends ↔ s.state = .sendData := by
  constructor
  · intro hsends
    by_contra hstate
    have hnothing := hsends []
    rw [sendGrayscaleImage, if_neg hstate] at hnothing
    have hheader : bufToSend [] ≠ [] := by decide
    exact hheader hnothing.symm
  · intro hstate image
    rw [sendGrayscaleImage, if_pos hstate]
    rfl

/-- Bytes that are received are taken for the ack that is waited for. -/
def AcceptsAck (s : DataTL) : AckAction → Prop
  | .run (some chunk) => s.state = .waitForAck ∧ (s.run (some chunk.bytes)).state = .sendData
  | .run none | .sendGrayscaleImage _ _ => True

/-- The acks received in a run. -/
def acksReceived (actions : List AckAction) : ℕ :=
  actions.countP fun
    | .run (some _) => true
    | .run none | .sendGrayscaleImage _ _ => false

/-- What holds when `n` acks have been received and each has been accepted: `frameNo` has
counted them, and the last byte of `ackBuf` is the number of the last one. -/
structure Counted (n : ℕ) (s : DataTL) : Prop where
  frameNo : s.frameNo = UInt8.ofNat n
  last : s.ackBuf.get ackBufFrameNoOffset = UInt8.ofNat (n - 1)

theorem counted_init : Counted 0 init := ⟨rfl, rfl⟩

/-- The next number is that of the next ack. -/
theorem ofNat_succ (n : ℕ) : UInt8.ofNat (n + 1) = UInt8.ofNat n + 1 := by
  apply UInt8.toNat_inj.mp
  simp [UInt8.toNat_add]

variable {n : ℕ} {s : DataTL}

/-- An ack that is accepted has the current number. -/
theorem tested_of_accepted {received : List UInt8} (fits : received.length ≤ ackBufSize)
    (waiting : s.state = .waitForAck) :
    (s.run (some received)).state = .sendData ↔
      received.getD ackBufFrameNoOffset (s.ackBuf.get ackBufFrameNoOffset) = s.frameNo := by
  have hrun := s.run_some fits
  by_cases htested :
      received.getD ackBufFrameNoOffset (s.ackBuf.get ackBufFrameNoOffset) = s.frameNo
  · rw [if_pos htested] at hrun
    exact iff_of_true (Prod.mk.inj hrun).1 htested
  · rw [if_neg htested] at hrun
    have hstate := (Prod.mk.inj hrun).1
    refine iff_of_false ?_ htested
    rw [hstate, waiting]
    simp

theorem counted_step (counted : Counted n s) (action : AckAction) (accepts : s.AcceptsAck action) :
    Counted (n + acksReceived [action]) (AckRecognition.tlStep s action) := by
  cases action with
  | sendGrayscaleImage image connected =>
    show Counted n (s.sendGrayscaleImage image connected).1
    rw [sendGrayscaleImage]
    split
    · split <;> exact ⟨counted.frameNo, counted.last⟩
    · exact ⟨counted.frameNo, counted.last⟩
  | run received =>
    cases received with
    | none => exact counted
    | some chunk =>
      obtain ⟨hwaiting, haccepted⟩ := accepts
      rw [tested_of_accepted chunk.fits hwaiting] at haccepted
      have hrun := s.run_some chunk.fits
      rw [if_pos haccepted] at hrun
      refine ⟨(Prod.mk.inj hrun).2.trans ?_, (s.ackBuf_run chunk.fits).trans ?_⟩
      · rw [counted.frameNo]
        exact (ofNat_succ n).symm
      · exact haccepted.trans counted.frameNo

theorem counted_run (actions : List AckAction) (counted : Counted n s)
    (accepts : Along AckRecognition.tlStep AcceptsAck s actions) :
    Counted (n + acksReceived actions) (Machine.run AckRecognition.tlStep s actions) := by
  induction actions generalizing n s with
  | nil => exact counted
  | cons action actions ih =>
    have hcount : acksReceived (action :: actions) =
        acksReceived [action] + acksReceived actions := by
      rw [← List.singleton_append, acksReceived, List.countP_append]
      rfl
    rw [hcount, ← Nat.add_assoc]
    exact ih (counted_step counted action accepts.1) accepts.2

/-- What a client sends for the next frame is accepted unless it is the Java client's and a
frame has been acknowledged before. -/
theorem sends_ack_iff (counted : Counted n s) (waiting : s.state = .waitForAck)
    (client : AckClient) :
    (s.run (some (client.ack n))).Sends ↔ ¬(client = .java ∧ n ≠ 0) := by
  rw [sends_iff, tested_of_accepted (client.length_ack_le n) waiting, counted.frameNo]
  cases client with
  | python =>
    refine iff_of_true ?_ (by simp)
    have hlt : 8 < (PythonClient.ackData (n % 256)).length := by
      rw [PythonClient.length_ackData]
      decide
    have hbyte := PythonClient.getD_ackData (n % 256) (s.ackBuf.get ackBufFrameNoOffset)
    rw [AckClient.ack_python]
    refine hbyte.trans ?_
    apply UInt8.toNat_inj.mp
    simp
  | java =>
    -- the ack ends in front of the byte that is compared
    have hbyte : (AckClient.ack .java n).getD ackBufFrameNoOffset
        (s.ackBuf.get ackBufFrameNoOffset) = s.ackBuf.get ackBufFrameNoOffset := rfl
    rw [hbyte, counted.last]
    cases n with
    | zero => exact iff_of_true rfl (by simp)
    | succ n =>
      refine iff_of_false (fun h => ?_) (by simp)
      rw [Nat.add_sub_cancel, ofNat_succ] at h
      simp at h

end DataTL

/-! ## The connection -/

namespace EthTermConnection

/-- The connection sends the next data event of its side of the service. -/
def Sends (c : EthTermConnection) : Prop :=
  ∀ (e : LinkEnd) (data : DataPayload), e.conn = c → e.handler = .idle →
    (e.dataEvent c.connType data).handler = .dataChecked data

/-- A `Receive` whose `recv` delivers all it asks for. -/
theorem receive_of_chunk {n k : ℕ} {wire : List UInt8} (positive : 0 < n) (small : n ≤ 4096)
    (delivered : n ≤ k + 1) (arrived : n ≤ wire.length) (rest : List RecvInput)
    (conn : EthTermConnection) :
    ∃ dataBuf : PiVisionData, dataBuf.bytes = wire.take n ∧ dataBuf.size = n ∧
      receive n (.attempt (.chunk k) :: rest) conn wire =
        .returned ⟨conn, wire.drop n, dataBuf, 0, n⟩ rest := by
  have hchunk : recvChunk n ⟨conn, wire, .new n, 0, 0⟩ (.chunk k) = wire.take n := by
    have hcount : min (k + 1) (min maxChunkSize (n - 0)) = n := by
      simp only [maxChunkSize]
      omega
    simp only [recvChunk, hcount]
  have hlength : (wire.take n).length = n := List.length_take_of_le arrived
  have hfits :
      (PiVisionData.new n).size + (wire.take n).length ≤ (PiVisionData.new n).capacity := by
    rw [hlength, PiVisionData.size_new, PiVisionData.capacity_new, Nat.zero_add]
  have hrange : (PiVisionData.new n).capacity < uint32Range := by
    rw [PiVisionData.capacity_new, uint32Range]
    omega
  have hbody : receiveBody n ⟨conn, wire, .new n, 0, 0⟩ (.attempt (.chunk k)) =
      .next ⟨conn, wire.drop n, (PiVisionData.new n).append (wire.take n), 0, n⟩ := by
    simp [receiveBody, hchunk, hlength, positive]
  refine ⟨(PiVisionData.new n).append (wire.take n), ?_, ?_, ?_⟩
  · rw [PiVisionData.bytes_append hfits hrange, PiVisionData.bytes_new, List.nil_append]
  · rw [PiVisionData.size_append hfits hrange, PiVisionData.size_new, hlength, Nat.zero_add]
  · rw [receive, loop_cons_next (by simp [receiveGuard, positive]) hbody]
    exact loop_of_not_guard (by simp [receiveGuard]) rest

/-- A round that finds a short frame delivered in one piece reads it. -/
theorem readFrame_of_chunk {k : ℕ} {payload : List UInt8} (nonempty : 0 < payload.length)
    (small : payload.length ≤ 4096) (delivered : 4 + payload.length ≤ k) (rest : List RecvInput)
    (conn : EthTermConnection) (behind : List UInt8) :
    ∃ read : FrameRead, read.payloadLength = payload.length ∧ read.dataBuf.bytes = payload ∧
      readFrame (.attempt (.chunk k) :: .attempt (.chunk k) :: rest) conn
        (encodeFrame 4 payload ++ behind) = .returned ⟨conn, behind, read⟩ rest := by
  have harrived : 4 ≤ (encodeFrame 4 payload ++ behind).length := by
    rw [List.length_append, length_encodeFrame]
    omega
  obtain ⟨header, hheader, -, hfirst⟩ := receive_of_chunk (by decide) (by decide)
    (show 4 ≤ k + 1 by omega) harrived (.attempt (.chunk k) :: rest) conn
  have hlength : decodeLength header = payload.length := by
    rw [decodeLength_eq, hheader]
    exact leValue_take_encodeFrame 4 (by omega) behind
  have hleft : (encodeFrame 4 payload ++ behind).drop 4 = payload ++ behind := by
    rw [encodeFrame, List.append_assoc]
    exact List.drop_left' (length_leBytes _ _)
  obtain ⟨dataBuf, hbytes, -, hsecond⟩ := receive_of_chunk nonempty small
    (show payload.length ≤ k + 1 by omega)
    (show payload.length ≤ (payload ++ behind).length by simp) rest conn
  refine ⟨⟨header, payload.length, dataBuf⟩, rfl, ?_, ?_⟩
  · rw [hbytes, List.take_left' rfl]
  · simp only [readFrame, payloadSizeHeaderSize, hfirst, hlength, hleft, hsecond,
      List.drop_left' rfl]

/-- A payload that begins with the ack word is an ack. -/
theorem classify_of_ack {payloadLength : ℕ} {d : PiVisionData} (long : 4 ≤ payloadLength)
    (begins : leBytes 4 ackMsg <+: d.bytes) : classify payloadLength d = .ack := by
  have hack := (startsWithWord_ack payloadLength d).mpr ⟨long, begins⟩
  have hpositive : 0 < payloadLength := by omega
  simp [classify, hpositive, hack]

/-- A round of `Execute` that finds an ack delivered in one piece takes it. -/
theorem sends_of_ack {s : ExecuteState} (running : s.status = .running)
    (active : s.conn.active = true) (other : s.conn.isInSameProcess = false) (client : AckClient)
    (n k ownPid : ℕ) (delivered : ackBufSize ≤ k) {behind : List UInt8}
    (arrived : s.wire = client.ack n ++ behind) {rest : List RecvInput}
    (answers : s.recvs = .attempt (.chunk k) :: .attempt (.chunk k) :: rest) :
    Sends (executeRound ownPid s false).conn := by
  have hack : leBytes 4 ackMsg <+: client.payload n ∧ 4 ≤ (client.payload n).length ∧
      (client.payload n).length ≤ 5 := by
    cases client with
    | python =>
      refine ⟨List.prefix_append _ _, ?_⟩
      simp [AckClient.payload]
    | java =>
      refine ⟨List.prefix_rfl, ?_⟩
      simp [AckClient.payload]
  obtain ⟨hbegins, hlong, hshort⟩ := hack
  simp only [ackBufSize] at delivered
  obtain ⟨read, hlength, hbytes, hread⟩ := readFrame_of_chunk (show 0 < _ by omega)
    (show (client.payload n).length ≤ 4096 by omega) (show 4 + _ ≤ k by omega) rest s.conn behind
  have hkind : classify read.payloadLength read.dataBuf = .ack :=
    classify_of_ack (hlength ▸ hlong) (hbytes ▸ hbegins)
  have hconn : (executeRound ownPid s false).conn =
      { s.conn with receivedAck := true, ackEnabled := true } := by
    rw [AckClient.ack_eq] at arrived
    simp only [executeRound, running, active, answers, arrived, hread, handlePayload, hkind,
      ExecuteState.afterRead, if_true, Bool.false_eq_true, if_false]
  intro e data hsame hidle
  rw [hconn] at hsame ⊢
  simp [LinkEnd.dataEvent, hidle, hsame, other]

end EthTermConnection

open DataTL EthTermConnection in
/-- **Ack formats.** Behind `n` acks that have each been accepted, what a client sends for the
next frame makes the data transport send the next image unless the client is the Java client
and `n` is not zero; and it makes the connection send the next image in any case. -/
theorem ackFormats_iff (client : AckClient) (n : ℕ) :
    (∀ actions, Along AckRecognition.tlStep AcceptsAck DataTL.init actions →
      acksReceived actions = n → (run AckRecognition.tlStep DataTL.init actions).state =
        .waitForAck →
        (((run AckRecognition.tlStep DataTL.init actions).run (some (client.ack n))).Sends ↔
          ¬(client = .java ∧ n ≠ 0))) ∧
    (∀ (s : ExecuteState) (ownPid k : ℕ) (behind : List UInt8) (rest : List RecvInput),
      s.status = .running → s.conn.active = true → s.conn.isInSameProcess = false →
        ackBufSize ≤ k → s.wire = client.ack n ++ behind →
          s.recvs = .attempt (.chunk k) :: .attempt (.chunk k) :: rest →
            (executeRound ownPid s false).conn.Sends) := by
  refine ⟨fun actions hacks hcount hwaiting => ?_,
    fun s ownPid k behind rest hrunning hactive hother hdelivered harrived hanswers => ?_⟩
  · have hcounted := counted_run actions counted_init hacks
    rw [Nat.zero_add, hcount] at hcounted
    exact sends_ack_iff hcounted hwaiting client
  · exact sends_of_ack hrunning hactive hother client n k ownPid hdelivered harrived hanswers

namespace AckClient

/-- An image is sent, the client's ack for it is received, and the next image is sent. -/
def secondImage (client : AckClient) : List AckAction :=
  [.sendGrayscaleImage [7] true, .run (some ⟨client.ack 0, client.length_ack_le 0⟩),
    .sendGrayscaleImage [7] true]

/-- The Python client's second ack is accepted. -/
theorem ackFormats_python :
    ((run AckRecognition.tlStep DataTL.init (secondImage .python)).run
      (some (ack .python 1))).Sends :=
  ((ackFormats_iff .python 1).1 (secondImage .python) ⟨trivial, ⟨rfl, rfl⟩, trivial, trivial⟩ rfl
    rfl).mpr (by simp)

/-- The Java client's second ack is not. -/
theorem ackFormats_broken_java :
    ¬((run AckRecognition.tlStep DataTL.init (secondImage .java)).run
      (some (ack .java 1))).Sends := by
  rw [DataTL.sends_iff]
  decide

end AckClient

end PiVision
