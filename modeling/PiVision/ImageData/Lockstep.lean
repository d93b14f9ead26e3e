import PiVision.Lib.Run
import PiVision.ImageData.DataTL
import PiVision.ImageData.PythonClient
import PiVision.Pipeline.Normalizer

/-!
# The data transport and the Python client

The two ends of one connection, interleaved at will: calls of
`IMGDATATL_sendGrayscaleImage`, calls of `run`, and the client's loop, one `recv` or one
ack at a time. `SERVER_send` puts its buffer on the wire as it is, `SERVER_receive`
returns `-1` or one ack, and `recv` hands out any part of what is missing.

Neither end looks at more than one byte of the other's count. That the counts agree
follows from the order of images and acks alone.
-/

namespace PiVision

open Machine LittleEndian

/-- An image that the data transport can send: the total size is a 32-bit word, and the
length is not the one that the client takes for the end of a frame. -/
structure SendableImage where
  bytes : List UInt8
  fits : bytes.length + bufHeaderSize < 2 ^ 32
  not_one : bytes.length ≠ 1

/-- What algorithm control sends. -/
def SendableImage.ofGrayscale (image : GrayscaleImage) : SendableImage where
  bytes := image.toList
  fits := by rw [image.toList_length]; decide
  not_one := by rw [image.toList_length]; decide

/-- Both ends, and the bytes on the wire in either direction. -/
structure ImageLink where
  tl : DataTL
  toClient : List UInt8
  client : PythonClient
  toServer : List UInt8

/-- A step: a call of `IMGDATATL_sendGrayscaleImage`, a call of `run`, which may find an
ack, or a step of the client's loop, whose `recv` is ready to hand out so many bytes
beyond the first one. -/
inductive ImageAction
  | sendGrayscaleImage (image : SendableImage)
  | run (ready : Bool)
  | client (extra : ℕ)

namespace ImageLink

/-- Both ends with the connection made. -/
def start : ImageLink := ⟨.init, [], .init, []⟩

/-- The client's loop. With nothing on the wire `recv` does not return. -/
def clientStep (link : ImageLink) (extra : ℕ) : ImageLink :=
  if link.client.point = .ack then
    { link with
      client := link.client.sendAck.1
      toServer := link.toServer ++ link.client.sendAck.2 }
  else if link.toClient = [] then link
  else
    -- a part of what is missing, and at least one byte of it
    let count := min link.client.missing (extra + 1)
    { link with
      client := link.client.receive (link.toClient.take count)
      toClient := link.toClient.drop count }

def step (link : ImageLink) : ImageAction → ImageLink
  | .sendGrayscaleImage image =>
    { link with
      tl := (link.tl.sendGrayscaleImage image.bytes true).1
      toClient := link.toClient ++ (link.tl.sendGrayscaleImage image.bytes true).2 }
  | .run ready =>
    if ready ∧ ackBufSize ≤ link.toServer.length then
      { link with
        tl := link.tl.run (some (link.toServer.take ackBufSize))
        toServer := link.toServer.drop ackBufSize }
    else { link with tl := link.tl.run none }
  | .client extra => link.clientStep extra

/-! ## The three phases -/

/-- Nothing is in flight. -/
structure Idle (link : ImageLink) : Prop where
  state : link.tl.state = .sendData
  no_image : link.toClient = [] ∧ link.client.consumed = []
  no_ack : link.toServer = []
  frameNo : link.client.frameNo = link.tl.frameNo.toNat

/-- One image is in flight: a part of it may have been read, the rest is on the wire. -/
structure ImageInFlight (link : ImageLink) : Prop where
  state : link.tl.state = .waitForAck
  image : ∃ image : SendableImage,
    link.client.consumed ++ link.toClient = DataTL.bufToSend image.bytes
  no_ack : link.toServer = []
  frameNo : link.client.frameNo = link.tl.frameNo.toNat

/-- One ack is in flight, for the server's current frame; the client counts the next. -/
structure AckInFlight (link : ImageLink) : Prop where
  state : link.tl.state = .waitForAck
  no_image : link.toClient = [] ∧ link.client.consumed = []
  ack : link.toServer = PythonClient.ackData link.tl.frameNo.toNat
  frameNo : link.client.frameNo = (link.tl.frameNo.toNat + 1) % 256

inductive Phase
  | idle
  | imageInFlight
  | ackInFlight

/-- The link is in the phase. -/
def In (link : ImageLink) : Phase → Prop
  | .idle => link.Idle
  | .imageInFlight => link.ImageInFlight
  | .ackInFlight => link.AckInFlight

/-- The law of the exchange. -/
structure Lockstep (link : ImageLink) : Prop where
  /-- The link is in exactly one phase. -/
  phase : ∃! phase, link.In phase
  /-- An image is sent only with no other one unacknowledged. -/
  sends_idle : ∀ image : SendableImage,
    (link.tl.sendGrayscaleImage image.bytes true).2 ≠ [] → link.Idle
  /-- An ack that the server receives is accepted. -/
  accepts : ackBufSize ≤ link.toServer.length →
    (link.step (.run true)).tl.state = .sendData ∧
      (link.step (.run true)).tl.frameNo = link.tl.frameNo + 1

/-- What holds between two steps. -/
structure LinkInv (link : ImageLink) : Prop where
  wf : link.client.WellFormed
  phase : link.Idle ∨ link.ImageInFlight ∨ link.AckInFlight

theorem linkInv_start : start.LinkInv where
  wf := PythonClient.wellFormed_init
  phase := .inl ⟨rfl, ⟨rfl, rfl⟩, rfl, rfl⟩

/-! ## The steps -/

section Steps

variable {link : ImageLink}

/-- With no ack on the wire a call of `run` receives nothing. -/
theorem step_run_of_no_ack (none : link.toServer = []) (ready : Bool) :
    link.step (.run ready) = link := by
  have hempty : ¬(ready = true ∧ ackBufSize ≤ link.toServer.length) := by
    rw [none]
    rintro ⟨-, h⟩
    exact absurd h (by decide)
  simp only [step, if_neg hempty]
  rfl

/-- Before the end of a frame the client has nothing to acknowledge. -/
theorem clientStep_of_no_image (none : link.toClient = [] ∧ link.client.consumed = [])
    (wf : link.client.WellFormed) (extra : ℕ) : link.clientStep extra = link := by
  have hpoint : link.client.point ≠ .ack := by
    intro h
    have hheader := (wf.at_ack h).1
    rw [(List.append_eq_nil_iff.mp none.2).1] at hheader
    exact absurd hheader (by decide)
  rw [clientStep, if_neg hpoint, if_pos none.1]

/-- The client's loop leaves the server alone. -/
theorem tl_clientStep (link : ImageLink) (extra : ℕ) : (link.clientStep extra).tl = link.tl := by
  unfold clientStep
  split
  · rfl
  · split <;> rfl

theorem linkInv_send (inv : link.LinkInv) (image : SendableImage) :
    (link.step (.sendGrayscaleImage image)).LinkInv := by
  refine ⟨inv.wf, ?_⟩
  rcases inv.phase with idle | inFlight | inFlight
  · -- the image goes out
    have hsend : link.tl.sendGrayscaleImage image.bytes true =
        ({ link.tl with state := .waitForAck }, DataTL.bufToSend image.bytes) := by
      simp [DataTL.sendGrayscaleImage, idle.state]
    simp only [step, hsend]
    refine .inr (.inl ⟨rfl, ⟨image, ?_⟩, idle.no_ack, idle.frameNo⟩)
    simp only [idle.no_image.1, idle.no_image.2, List.nil_append]
  -- an image that meets `WAIT_FOR_ACK` is dropped
  · simp only [step, DataTL.sendGrayscaleImage_of_waiting _ inFlight.state, List.append_nil]
    exact .inr (.inl ⟨inFlight.state, inFlight.image, inFlight.no_ack, inFlight.frameNo⟩)
  · simp only [step, DataTL.sendGrayscaleImage_of_waiting _ inFlight.state, List.append_nil]
    exact .inr (.inr ⟨inFlight.state, inFlight.no_image, inFlight.ack, inFlight.frameNo⟩)

/-- The ack in flight is accepted. -/
theorem step_run_of_ack (inFlight : link.AckInFlight) :
    (link.step (.run true)).tl.state = .sendData ∧
      (link.step (.run true)).tl.frameNo = link.tl.frameNo + 1 ∧
      (link.step (.run true)).toServer = [] := by
  have hlength : link.toServer.length = ackBufSize := by
    rw [inFlight.ack]
    exact PythonClient.length_ackData _
  have hstep : link.step (.run true) =
      { link with tl := link.tl.run (some link.toServer), toServer := [] } := by
    simp [step, ← hlength]
  have hcurrent : link.toServer.getD ackBufFrameNoOffset 0 = link.tl.frameNo := by
    rw [inFlight.ack]
    show (PythonClient.ackData link.tl.frameNo.toNat).getD 8 0 = _
    rw [PythonClient.getD_ackData]
    exact UInt8.ofNat_toNat
  obtain ⟨hstate, hframeNo⟩ := link.tl.run_of_ack hlength hcurrent
  rw [hstep]
  exact ⟨hstate, hframeNo, rfl⟩

theorem linkInv_run (inv : link.LinkInv) (ready : Bool) : (link.step (.run ready)).LinkInv := by
  rcases inv.phase with idle | inFlight | inFlight
  · rw [step_run_of_no_ack idle.no_ack]
    exact inv
  · rw [step_run_of_no_ack inFlight.no_ack]
    exact inv
  · cases ready with
    | false =>
      have hnone : link.step (.run false) = link := by simp [step, DataTL.run]
      rw [hnone]
      exact inv
    | true =>
      obtain ⟨hstate, hframeNo, hwire⟩ := step_run_of_ack inFlight
      have hclient : (link.step (.run true)).client = link.client ∧
          (link.step (.run true)).toClient = link.toClient := by
        simp only [step]
        split <;> exact ⟨rfl, rfl⟩
      refine ⟨by rw [hclient.1]; exact inv.wf, .inl ⟨hstate, ?_, hwire, ?_⟩⟩
      · rw [hclient.1, hclient.2]
        exact inFlight.no_image
      · -- the 8-bit count has wrapped where the client's count has been put back
        rw [hclient.1, inFlight.frameNo, hframeNo, UInt8.toNat_add]
        rfl

/-- Of an image in flight the client has the server's header, once it has a whole one. -/
theorem imageSize_of_image {image : SendableImage}
    (himage : link.client.consumed ++ link.toClient = DataTL.bufToSend image.bytes)
    (hheader : link.client.header.length = PythonClient.headerSize) :
    link.client.imageSize = image.bytes.length := by
  have hfront : link.client.header = leBytes bufHeaderSize image.bytes.length := by
    have htake := congrArg (List.take bufHeaderSize) himage
    rw [PythonClient.consumed, List.append_assoc, DataTL.bufToSend, Framing.encodeFrame,
      List.take_left' (length_leBytes _ _)] at htake
    exact (List.take_left' hheader).symm.trans htake
  have hfits := image.fits
  rw [PythonClient.imageSize, hfront]
  exact leValue_leBytes _ _ (by simp only [bufHeaderSize] at hfits ⊢; omega)

/-- What has been read of an image in flight and what is on the wire make up the frame. -/
theorem length_consumed_add {image : SendableImage}
    (himage : link.client.consumed ++ link.toClient = DataTL.bufToSend image.bytes) :
    link.client.header.length + link.client.receiveBuf.length + link.toClient.length =
      PythonClient.headerSize + image.bytes.length := by
  have hlength := congrArg List.length himage
  rwa [PythonClient.consumed, List.length_append, List.length_append, DataTL.bufToSend,
    Framing.length_encodeFrame] at hlength

/-- At the end of a frame all of it has been read. -/
theorem toClient_of_ack (wf : link.client.WellFormed) (inFlight : link.ImageInFlight)
    (hpoint : link.client.point = .ack) : link.toClient = [] := by
  obtain ⟨hheader, hread⟩ := wf.at_ack hpoint
  obtain ⟨image, himage⟩ := inFlight.image
  -- the client's header is the server's, so it has read as many bytes as were sent
  have hsize := imageSize_of_image himage hheader
  have hreadSize : PythonClient.readSize image.bytes.length = image.bytes.length := by
    have hone := image.not_one
    by_cases hreads : PythonClient.ReadsImage image.bytes.length
    · exact if_pos hreads
    · rw [PythonClient.readSize, if_neg hreads]
      unfold PythonClient.ReadsImage at hreads
      omega
  have hlength := length_consumed_add himage
  rw [hheader, hread, hsize, hreadSize] at hlength
  apply List.eq_nil_of_length_eq_zero
  omega

/-- Before the end of a frame a part of it is on the wire. -/
theorem toClient_of_reading (wf : link.client.WellFormed) (inFlight : link.ImageInFlight)
    (reading : link.client.point ≠ .ack) : link.toClient ≠ [] := by
  intro hempty
  obtain ⟨image, himage⟩ := inFlight.image
  have hlength := length_consumed_add himage
  rw [hempty, List.length_nil, Nat.add_zero] at hlength
  cases hpoint : link.client.point with
  | header =>
    obtain ⟨hshort, hnone⟩ := wf.at_header hpoint
    rw [hnone, List.length_nil] at hlength
    omega
  | image =>
    obtain ⟨hheader, -, hshort⟩ := wf.at_image hpoint
    rw [imageSize_of_image himage hheader] at hshort
    omega
  | ack => exact reading hpoint

theorem linkInv_client (inv : link.LinkInv) (extra : ℕ) : (link.clientStep extra).LinkInv := by
  rcases inv.phase with idle | inFlight | inFlight
  · rw [clientStep_of_no_image idle.no_image inv.wf]
    exact inv
  · by_cases hpoint : link.client.point = .ack
    -- the image has been read to its end, and its ack takes its place
    · have hempty := toClient_of_ack inv.wf inFlight hpoint
      rw [clientStep, if_pos hpoint, inFlight.no_ack, List.nil_append]
      refine ⟨link.client.wellFormed_sendAck, .inr (.inr ⟨inFlight.state, ⟨hempty, rfl⟩, ?_, ?_⟩)⟩
      · show PythonClient.ackData link.client.frameNo = _
        rw [inFlight.frameNo]
      · show link.client.sendAck.1.frameNo = _
        rw [PythonClient.frameNo_sendAck inv.wf, inFlight.frameNo]
    · by_cases hwire : link.toClient = []
      · rw [clientStep, if_neg hpoint, if_pos hwire]
        exact inv
      · obtain ⟨image, himage⟩ := inFlight.image
        rw [clientStep, if_neg hpoint, if_neg hwire]
        refine ⟨inv.wf.receive ?_, .inr (.inl ⟨inFlight.state, ⟨image, ?_⟩, inFlight.no_ack, ?_⟩)⟩
        · rw [List.length_take]
          omega
        · show (link.client.receive _).consumed ++ List.drop _ link.toClient = _
          rw [PythonClient.consumed_receive inv.wf hpoint, List.append_assoc,
            List.take_append_drop, himage]
        · show (link.client.receive _).frameNo = _
          rw [PythonClient.frameNo_receive, inFlight.frameNo]
  · rw [clientStep_of_no_image inFlight.no_image inv.wf]
    exact inv

/-- **One step** keeps the exchange in one of its phases. -/
theorem linkInv_step (link : ImageLink) (action : ImageAction) (inv : link.LinkInv) :
    (link.step action).LinkInv := by
  cases action with
  | sendGrayscaleImage image => exact linkInv_send inv image
  | run ready => exact linkInv_run inv ready
  | client extra => exact linkInv_client inv extra

/-- A step of the client behind which there is still an image in flight has read of it. -/
theorem length_toClient_lt (inv : link.LinkInv) (inFlight : link.ImageInFlight)
    (reading : link.client.point ≠ .ack) (extra : ℕ) :
    (link.clientStep extra).toClient.length < link.toClient.length := by
  have hwire := toClient_of_reading inv.wf inFlight reading
  rw [clientStep, if_neg reading, if_neg hwire]
  have hmissing := inv.wf.missing_pos reading
  have hpos := List.length_pos_iff.mpr hwire
  show (link.toClient.drop _).length < _
  rw [List.length_drop]
  omega

end Steps

/-! ## The law -/

/-- Two phases differ in the state, or in what is on the wire to the server. -/
theorem phase_unique {link : ImageLink} {phase phase' : Phase} (h : link.In phase)
    (h' : link.In phase') : phase = phase' := by
  have hack : PythonClient.ackData link.tl.frameNo.toNat ≠ [] := by
    intro h
    have hlength := PythonClient.length_ackData link.tl.frameNo.toNat
    rw [h] at hlength
    exact absurd hlength (by decide)
  -- idle differs in the state; the other two differ in whether an ack is on the wire
  cases phase <;> cases phase' <;> first | rfl | skip
  · exact absurd (h.state.symm.trans h'.state) (by decide)
  · exact absurd (h.state.symm.trans h'.state) (by decide)
  · exact absurd (h.state.symm.trans h'.state) (by decide)
  · exact absurd (h'.ack.symm.trans h.no_ack) hack
  · exact absurd (h.state.symm.trans h'.state) (by decide)
  · exact absurd (h.ack.symm.trans h'.no_ack) hack

theorem LinkInv.lockstep {link : ImageLink} (inv : link.LinkInv) : link.Lockstep := by
  refine ⟨?_, fun image hsent => ?_, fun hack => ?_⟩
  · rcases inv.phase with idle | inFlight | inFlight
    · exact ⟨.idle, idle, fun phase h => phase_unique h idle⟩
    · exact ⟨.imageInFlight, inFlight, fun phase h => phase_unique h inFlight⟩
    · exact ⟨.ackInFlight, inFlight, fun phase h => phase_unique h inFlight⟩
  · rcases inv.phase with idle | inFlight | inFlight
    · exact idle
    · exact absurd (by rw [DataTL.sendGrayscaleImage_of_waiting _ inFlight.state]) hsent
    · exact absurd (by rw [DataTL.sendGrayscaleImage_of_waiting _ inFlight.state]) hsent
  · rcases inv.phase with idle | inFlight | inFlight
    · rw [idle.no_ack] at hack
      exact absurd hack (by decide)
    · rw [inFlight.no_ack] at hack
      exact absurd hack (by decide)
    · obtain ⟨hstate, hframeNo, -⟩ := step_run_of_ack inFlight
      exact ⟨hstate, hframeNo⟩

/-- The client, which goes on by itself, can send what the server then takes for the ack. -/
def Answerable (link : ImageLink) : Prop :=
  ∃ extras : List ℕ, ((Machine.run clientStep link extras).step (.run true)).tl.state = .sendData

/-- What is waited for is in flight, or will be when the image in flight has been read. -/
theorem LinkInv.answerable {link : ImageLink} (inv : link.LinkInv)
    (waiting : link.tl.state = .waitForAck) : link.Answerable := by
  -- by induction on what is on the wire to the client
  induction hlength : link.toClient.length using Nat.strong_induction_on generalizing link with
  | _ length ih =>
    subst hlength
    have hnext := linkInv_client inv 0
    rcases inv.phase with idle | inFlight | inFlight
    · exact absurd (idle.state.symm.trans waiting) (by decide)
    · by_cases hpoint : link.client.point = .ack
      · -- the next step sends the ack
        have hack : (link.clientStep 0).AckInFlight := by
          rcases hnext.phase with idle | image | ack
          · exact absurd (idle.state.symm.trans (by rw [tl_clientStep, waiting])) (by decide)
          · have hnone := image.no_ack
            rw [clientStep, if_pos hpoint, inFlight.no_ack] at hnone
            exact absurd (congrArg List.length hnone) (by
              show ([] ++ PythonClient.ackData link.client.frameNo).length ≠ 0
              rw [List.nil_append, PythonClient.length_ackData]
              decide)
          · exact ack
        exact ⟨[0], (step_run_of_ack hack).1⟩
      · have hshorter := length_toClient_lt inv inFlight hpoint 0
        have hwaiting : (link.clientStep 0).tl.state = .waitForAck := by rw [tl_clientStep, waiting]
        obtain ⟨extras, hanswer⟩ := ih _ hshorter hnext hwaiting rfl
        exact ⟨0 :: extras, hanswer⟩
    · exact ⟨[], (step_run_of_ack inFlight).1⟩

/-- **Lockstep.** In every state that an interleaving of the two ends can reach. -/
theorem lockstep_run (actions : List ImageAction) :
    (Machine.run step start actions).Lockstep :=
  (run_invariant step linkInv_step linkInv_start actions).lockstep

end ImageLink

end PiVision
