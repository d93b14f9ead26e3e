import PiVision.Lib.Run
import PiVision.ImageData.DataTL

/-!
# The recognition of an ack

A recogniser of acks reads the stream nine bytes at a time, wherever `recv` has cut it,
and looks at the last byte of each. The data transport looks at the last byte of
`ackBuf` in every call that has received, no bytes included. That byte is the last one
of a chunk of nine, and what an earlier call has left there otherwise.

So what it takes for an ack depends on how the stream is cut. The two agree as long as no
chunk has the number where only one of them looks, and always if every ack comes in one piece.
-/

namespace PiVision

open Machine

/-- What a call of `SERVER_receive` can put into `ackBuf`. -/
structure AckChunk where
  bytes : List UInt8
  fits : bytes.length ≤ ackBufSize

/-- A call of `run`, for what `SERVER_receive` returns in it, or a call of
`IMGDATATL_sendGrayscaleImage`, with or without a connection. -/
inductive AckAction
  | run (received : Option AckChunk)
  | sendGrayscaleImage (buf : List UInt8) (connected : Bool)

/-- The recogniser: its mode, the number it waits for, and the stream so far. -/
structure AckReader where
  state : DataTLState
  frameNo : UInt8
  stream : List UInt8

namespace AckReader

def init : AckReader := ⟨.sendData, 0, []⟩

/-- The last byte of the ack that a chunk completes. The stream before it ends inside
that ack. -/
def completedAck (s : AckReader) (chunk : List UInt8) : Option UInt8 :=
  (s.stream ++ chunk)[s.stream.length / ackBufSize * ackBufSize + ackBufFrameNoOffset]?

/-- The chunk completes the ack that is waited for. -/
def Completes (s : AckReader) (chunk : List UInt8) : Prop :=
  s.state = .waitForAck ∧ s.completedAck chunk = some s.frameNo

instance (s : AckReader) (chunk : List UInt8) : Decidable (s.Completes chunk) :=
  inferInstanceAs (Decidable (_ ∧ _))

def step (s : AckReader) : AckAction → AckReader
  -- `SERVER_receive` has returned `-1`
  | .run none => s
  | .run (some chunk) =>
    if s.Completes chunk.bytes then
      ⟨.sendData, s.frameNo + 1, s.stream ++ chunk.bytes⟩
    else { s with stream := s.stream ++ chunk.bytes }
  | .sendGrayscaleImage _ connected =>
    if s.state = .sendData ∧ connected then { s with state := .waitForAck } else s

/-- Where the last byte of the ack is in the chunk that completes it. -/
theorem completedAck_eq (s : AckReader) (chunk : List UInt8) :
    s.completedAck chunk = chunk[ackBufFrameNoOffset - s.stream.length % ackBufSize]? := by
  have hsplit := Nat.div_add_mod' s.stream.length ackBufSize
  have hinside : s.stream.length % ackBufSize ≤ ackBufFrameNoOffset :=
    Nat.le_of_lt_succ (Nat.mod_lt _ (by decide))
  have hindex : s.stream.length / ackBufSize * ackBufSize + ackBufFrameNoOffset - s.stream.length =
      ackBufFrameNoOffset - s.stream.length % ackBufSize := by omega
  rw [completedAck, List.getElem?_append_right (by omega), hindex]

/-- The stream is what has been received, whatever is made of it. -/
theorem stream_run_some (s : AckReader) (chunk : AckChunk) :
    (s.step (.run (some chunk))).stream = s.stream ++ chunk.bytes := by
  rw [step]
  split <;> rfl

end AckReader

/-- The data transport and the recogniser on the same stream. -/
structure AckRecognition where
  tl : DataTL
  reader : AckReader

namespace AckRecognition

def start : AckRecognition := ⟨.init, .init⟩

/-- A step of the data transport. -/
def tlStep (s : DataTL) : AckAction → DataTL
  | .run received => s.run (received.map AckChunk.bytes)
  | .sendGrayscaleImage buf connected => (s.sendGrayscaleImage buf connected).1

def step (s : AckRecognition) (action : AckAction) : AckRecognition :=
  ⟨tlStep s.tl action, s.reader.step action⟩

/-- The data transport is in the mode of the recogniser and waits for its number. -/
def Agree (s : AckRecognition) : Prop :=
  s.tl.state = s.reader.state ∧ s.tl.frameNo = s.reader.frameNo

/-- The data transport and the recogniser agree behind every step. -/
def RecognisesAcks (actions : List AckAction) : Prop :=
  Along step (fun s action => (s.step action).Agree) start actions

/-- The byte that a call of `run` compares with `frameNo`. -/
def testedByte (s : DataTL) (chunk : List UInt8) : UInt8 :=
  chunk.getD ackBufFrameNoOffset (s.ackBuf.get ackBufFrameNoOffset)

/-- A call that has received compares a byte equal to `frameNo` if and only if what it has
received completes the ack that is waited for. -/
def TestsAck (s : AckRecognition) : AckAction → Prop
  | .run (some chunk) =>
    testedByte s.tl chunk.bytes = s.tl.frameNo ↔ s.reader.Completes chunk.bytes
  | _ => True

/-- What a call can receive without harm. Where an ack ends is counted from the start of the
stream. -/
structure Harmless (s : AckRecognition) (chunk : List UInt8) : Prop where
  /-- the zero that `ackBuf` was born with is not compared -/
  begun : chunk.length < ackBufSize → s.reader.stream ≠ []
  /-- nine bytes that nobody waits for do not end in the number -/
  idle : chunk.length = ackBufSize → s.tl.state = .sendData →
    chunk[(ackBufFrameNoOffset : ℕ)]? ≠ some s.tl.frameNo
  /-- less than nine bytes do not end an ack with the number -/
  short : chunk.length < ackBufSize → s.tl.state = .waitForAck →
    chunk[ackBufFrameNoOffset - s.reader.stream.length % ackBufSize]? ≠ some s.tl.frameNo
  /-- nine bytes have the number both where an ack ends and at their own end, or at neither -/
  across : chunk.length = ackBufSize → s.tl.state = .waitForAck →
    (chunk[(ackBufFrameNoOffset : ℕ)]? = some s.tl.frameNo ↔
      chunk[ackBufFrameNoOffset - s.reader.stream.length % ackBufSize]? = some s.tl.frameNo)

/-- A call that has received has received what does no harm. -/
def ReceivesHarmless (s : AckRecognition) : AckAction → Prop
  | .run (some chunk) => s.Harmless chunk.bytes
  | _ => True

/-- A call that has received has received nine bytes, and while they were waited for. -/
def ReceivesWhole (s : AckRecognition) : AckAction → Prop
  | .run (some chunk) => s.tl.state = .waitForAck ∧ chunk.bytes.length = ackBufSize
  | _ => True

/-- What a call of `run` that has received does to the recogniser. -/
theorem reader_run_some (s : AckReader) (chunk : AckChunk) :
    ((s.step (.run (some chunk))).state, (s.step (.run (some chunk))).frameNo) =
      if s.Completes chunk.bytes then (.sendData, s.frameNo + 1) else (s.state, s.frameNo) := by
  simp only [AckReader.step]
  split <;> rfl

/-- **One step** keeps the two in agreement if and only if it tests for the ack. -/
theorem agree_step_iff (s : AckRecognition) (action : AckAction) (agree : s.Agree) :
    (s.step action).Agree ↔ s.TestsAck action := by
  obtain ⟨hstate, hframeNo⟩ := agree
  cases action with
  | sendGrayscaleImage buf connected =>
    refine iff_of_true ?_ trivial
    simp only [Agree, step, tlStep, AckReader.step, DataTL.sendGrayscaleImage]
    by_cases hsend : s.tl.state = .sendData
    · cases connected <;> simp [hsend, ← hstate, hframeNo]
    · simp [hsend, ← hstate, hframeNo]
  | run received =>
    cases received with
    | none => exact iff_of_true ⟨hstate, hframeNo⟩ trivial
    | some chunk =>
      have htl : ((s.tl.run (some chunk.bytes)).state, (s.tl.run (some chunk.bytes)).frameNo) =
          if testedByte s.tl chunk.bytes = s.tl.frameNo then (.sendData, s.tl.frameNo + 1)
          else (s.tl.state, s.tl.frameNo) := s.tl.run_some chunk.fits
      have hreader := reader_run_some s.reader chunk
      have hagree : (s.step (.run (some chunk))).Agree ↔
          ((s.tl.run (some chunk.bytes)).state, (s.tl.run (some chunk.bytes)).frameNo) =
            ((s.reader.step (.run (some chunk))).state,
              (s.reader.step (.run (some chunk))).frameNo) := Prod.mk_inj.symm
      -- modulo 256 the next number is a different one
      have hnext : s.reader.frameNo + 1 ≠ s.reader.frameNo := by simp
      rw [hagree, htl, hreader, TestsAck, hstate, hframeNo]
      -- the number goes up in one of the two and stays in the other, or they decide alike
      by_cases htests : testedByte s.tl chunk.bytes = s.reader.frameNo <;>
        by_cases hcompletes : s.reader.Completes chunk.bytes <;>
          simp [htests, hcompletes, hnext, hnext.symm]

/-- The two agree, and the number in `ackBuf` is `frameNo` only until something is received. -/
structure Inv (s : AckRecognition) : Prop where
  agree : s.Agree
  left : s.tl.ackBuf.get ackBufFrameNoOffset = s.tl.frameNo ↔ s.reader.stream = []

theorem inv_start : start.Inv := ⟨⟨rfl, rfl⟩, iff_of_true rfl rfl⟩

section Steps

variable {s : AckRecognition} {chunk : AckChunk} {action : AckAction}

/-- Less than nine bytes leave the last byte of `ackBuf` alone. -/
theorem testedByte_of_short (tl : DataTL) {bytes : List UInt8}
    (short : bytes.length < ackBufSize) :
    testedByte tl bytes = tl.ackBuf.get ackBufFrameNoOffset :=
  List.getD_eq_default _ _ (Nat.le_of_lt_succ short)

theorem getElem?_of_whole (tl : DataTL) {bytes : List UInt8}
    (whole : bytes.length = ackBufSize) :
    bytes[(ackBufFrameNoOffset : ℕ)]? = some (testedByte tl bytes) := by
  have hlt : (ackBufFrameNoOffset : ℕ) < bytes.length := by rw [whole]; decide
  rw [testedByte, List.getElem?_eq_getElem hlt, List.getD_eq_getElem _ _ hlt]

/-- Less than nine bytes are tested as they should be if the stream has begun, and if they
do not complete the ack that is waited for. -/
theorem Inv.testsAck_iff_of_short (inv : s.Inv) (short : chunk.bytes.length < ackBufSize) :
    s.TestsAck (.run (some chunk)) ↔
      s.reader.stream ≠ [] ∧ ¬s.reader.Completes chunk.bytes := by
  rw [TestsAck, testedByte_of_short s.tl short, inv.left]
  by_cases hstream : s.reader.stream = []
  · -- the first ack does not end in them
    have hcompleted : s.reader.completedAck chunk.bytes = none := by
      rw [AckReader.completedAck_eq, hstream]
      exact List.getElem?_eq_none (Nat.le_of_lt_succ short)
    have hcompletes : ¬s.reader.Completes chunk.bytes := fun h => by
      rw [AckReader.Completes, hcompleted] at h
      exact absurd h.2 (Option.some_ne_none _).symm
    simp [hstream, hcompletes]
  · simp [hstream]

theorem Inv.testsAck_iff (inv : s.Inv) : s.TestsAck action ↔ s.ReceivesHarmless action := by
  obtain ⟨hstate, hframeNo⟩ := inv.agree
  cases action with
  | sendGrayscaleImage => exact Iff.rfl
  | run received =>
    cases received with
    | none => exact Iff.rfl
    | some chunk =>
      have hcompletes : s.reader.Completes chunk.bytes ↔ s.tl.state = .waitForAck ∧
          chunk.bytes[ackBufFrameNoOffset - s.reader.stream.length % ackBufSize]? =
            some s.tl.frameNo := by
        rw [AckReader.Completes, AckReader.completedAck_eq, hstate, hframeNo]
      rcases Nat.lt_or_eq_of_le chunk.fits with hshort | hwhole
      · have hne := Nat.ne_of_lt hshort
        rw [inv.testsAck_iff_of_short hshort, hcompletes]
        constructor
        · rintro ⟨hbegun, hnot⟩
          exact ⟨fun _ => hbegun, fun h => absurd h hne, fun _ hwait hlast => hnot ⟨hwait, hlast⟩,
            fun h => absurd h hne⟩
        · intro harmless
          exact ⟨harmless.begun hshort, fun h => harmless.short hshort h.1 h.2⟩
      · have hnot : ¬chunk.bytes.length < ackBufSize := by rw [hwhole]; exact Nat.lt_irrefl _
        have htested : testedByte s.tl chunk.bytes = s.tl.frameNo ↔
            chunk.bytes[(ackBufFrameNoOffset : ℕ)]? = some s.tl.frameNo := by
          rw [getElem?_of_whole s.tl hwhole, Option.some_inj]
        rw [TestsAck, htested, hcompletes]
        constructor
        · intro htests
          refine ⟨fun h => absurd h hnot, fun _ hidle hlast => ?_, fun h => absurd h hnot,
            fun _ hwait => ?_⟩
          · have hwait := (htests.mp hlast).1
            rw [hidle] at hwait
            cases hwait
          · rw [htests]
            exact and_iff_right hwait
        · intro harmless
          cases hmode : s.tl.state with
          | sendData =>
            refine iff_of_false (harmless.idle hwhole hmode) ?_
            rintro ⟨h, -⟩
            cases h
          | waitForAck =>
            rw [harmless.across hwhole hmode]
            exact (and_iff_right rfl).symm

/-- The number of the next ack is not the byte that has been compared. -/
theorem testedByte_ne_frameNo (tl : DataTL) (chunk : AckChunk) :
    testedByte tl chunk.bytes ≠ (tl.run (some chunk.bytes)).frameNo := by
  have hrun := tl.run_some chunk.fits
  -- modulo 256 the next number is a different one
  have hnext : tl.frameNo + 1 ≠ tl.frameNo := by simp
  by_cases htested : testedByte tl chunk.bytes = tl.frameNo
  · have hframeNo := (Prod.mk_inj.mp (hrun.trans (if_pos htested))).2
    rw [hframeNo, htested]
    exact hnext.symm
  · have hframeNo := (Prod.mk_inj.mp (hrun.trans (if_neg htested))).2
    rw [hframeNo]
    exact htested

theorem Inv.step (inv : s.Inv) (tests : s.TestsAck action) : (s.step action).Inv := by
  refine ⟨(agree_step_iff s action inv.agree).mpr tests, ?_⟩
  cases action with
  | sendGrayscaleImage buf connected =>
    have htl : (s.tl.sendGrayscaleImage buf connected).1.ackBuf = s.tl.ackBuf ∧
        (s.tl.sendGrayscaleImage buf connected).1.frameNo = s.tl.frameNo := by
      rw [DataTL.sendGrayscaleImage]
      split
      · cases connected <;> exact ⟨rfl, rfl⟩
      · exact ⟨rfl, rfl⟩
    have hreader : (s.reader.step (.sendGrayscaleImage buf connected)).stream =
        s.reader.stream := by
      rw [AckReader.step]
      split <;> rfl
    show (s.tl.sendGrayscaleImage buf connected).1.ackBuf.get _ =
      (s.tl.sendGrayscaleImage buf connected).1.frameNo ↔
        (s.reader.step (.sendGrayscaleImage buf connected)).stream = []
    rw [htl.1, htl.2, hreader]
    exact inv.left
  | run received =>
    cases received with
    | none => exact inv.left
    | some chunk =>
      have hcompared : (s.tl.run (some chunk.bytes)).ackBuf.get ackBufFrameNoOffset =
          testedByte s.tl chunk.bytes := s.tl.ackBuf_run chunk.fits
      have hreceived : s.reader.stream ++ chunk.bytes ≠ [] := by
        intro hnil
        obtain ⟨hstream, hchunk⟩ := List.append_eq_nil_iff.mp hnil
        have hshort : chunk.bytes.length < ackBufSize := by rw [hchunk]; decide
        exact ((inv.testsAck_iff_of_short hshort).mp tests).1 hstream
      show (s.tl.run (some chunk.bytes)).ackBuf.get _ = (s.tl.run (some chunk.bytes)).frameNo ↔
        (s.reader.step (.run (some chunk))).stream = []
      rw [hcompared, AckReader.stream_run_some]
      exact iff_of_false (testedByte_ne_frameNo s.tl chunk) hreceived

/-- Nine bytes that are waited for, at the beginning of an ack, do no harm. -/
theorem receivesHarmless_of_whole (between : s.reader.stream.length % ackBufSize = 0)
    (whole : s.ReceivesWhole action) : s.ReceivesHarmless action := by
  cases action with
  | sendGrayscaleImage => trivial
  | run received =>
    cases received with
    | none => trivial
    | some chunk =>
      obtain ⟨hwait, hlength⟩ := whole
      have hnot : ¬chunk.bytes.length < ackBufSize := by rw [hlength]; exact Nat.lt_irrefl _
      refine ⟨fun h => absurd h hnot, fun _ hidle => ?_, fun h => absurd h hnot, fun _ _ => ?_⟩
      · rw [hwait] at hidle
        cases hidle
      · rw [between, Nat.sub_zero]

theorem between_step (between : s.reader.stream.length % ackBufSize = 0)
    (whole : s.ReceivesWhole action) :
    (s.step action).reader.stream.length % ackBufSize = 0 := by
  show (s.reader.step action).stream.length % ackBufSize = 0
  cases action with
  | sendGrayscaleImage buf connected =>
    rw [AckReader.step]
    split <;> exact between
  | run received =>
    cases received with
    | none => exact between
    | some chunk =>
      rw [AckReader.stream_run_some, List.length_append, whole.2, Nat.add_mod_right]
      exact between

end Steps

/-- **Ack recognition.** In every run, the data transport takes for an ack what the
recogniser does, at every moment, if and only if all that is received does no harm; so it
does if each ack comes in one piece, while it is waited for. -/
theorem recognisesAcks_iff_receivesHarmless (actions : List AckAction) :
    (RecognisesAcks actions ↔ Along step ReceivesHarmless start actions) ∧
      (Along step ReceivesWhole start actions → RecognisesAcks actions) := by
  have htests : RecognisesAcks actions ↔ Along step TestsAck start actions :=
    along_next_iff agree_step_iff inv_start.agree actions
  have hharmless : Along step TestsAck start actions ↔ Along step ReceivesHarmless start actions :=
    along_congr (fun _ _ inv => inv.testsAck_iff)
      (fun _ _ inv harmless => inv.step (inv.testsAck_iff.mpr harmless)) inv_start actions
  refine ⟨htests.trans hharmless, fun whole => (htests.trans hharmless).mpr ?_⟩
  exact along_imp_of_invariant (fun _ _ => between_step) (fun _ _ => receivesHarmless_of_whole)
    rfl whole

/-- The first image has been sent and the peer closes: `recv` returns no bytes, and the
zero that `ackBuf` was born with is taken for the ack. -/
theorem endOfStream_taken_for_ack :
    ¬RecognisesAcks [.sendGrayscaleImage (.replicate 307200 0) true,
      .run (some ⟨[], Nat.zero_le _⟩)] := by
  intro recognises
  have hframeNo := recognises.2.1.2
  revert hframeNo
  decide

end AckRecognition

end PiVision
