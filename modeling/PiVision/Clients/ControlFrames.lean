import PiVision.Clients.Alignment
import PiVision.Clients.PythonStream
import PiVision.EthTerm.Send

/-!
# Images and control frames

A server-side connection writes data, heartbeats and acks, and tells control messages by
their contents. The Java client passes on what does not have four bytes, the Python client
stores what is longer than one byte; a control message has four. So the one loses images of
four bytes, and the other stores every control message and stumbles over an image of one.
-/

namespace PiVision

open Machine LittleEndian Framing

/-- A payload that the server may be asked to send as data. -/
structure ImageBytes where
  bytes : List UInt8
  nonempty : bytes ≠ []
  fits : bytes.length < 2 ^ 32

/-- What a server-side connection sends. -/
inductive ServerFrame
  | data (image : ImageBytes)
  | heartbeat
  | ack

namespace ServerFrame

/-- The argument of `Send`. -/
def dataBuf : ServerFrame → PiVisionData
  | .data image => .ofBytes image.bytes
  | .heartbeat => EthTermConnection.heartbeatMsgBuf
  | .ack => EthTermConnection.ackMsgBuf

/-- The image that the frame carries. -/
def image : ServerFrame → Option (List UInt8)
  | .data image => some image.bytes
  | .heartbeat | .ack => none

/-- The payloads on the stream. -/
def payloads (frames : List ServerFrame) : List (List UInt8) :=
  frames.map fun frame => frame.dataBuf.bytes

/-- The images among them. -/
def images (frames : List ServerFrame) : List (List UInt8) := frames.filterMap image

@[simp] theorem payloads_cons (frame : ServerFrame) (frames : List ServerFrame) :
    payloads (frame :: frames) = frame.dataBuf.bytes :: payloads frames := rfl

/-- The stream is what the `Send` calls put on it. -/
theorem encodeFrames_payloads (frames : List ServerFrame) :
    encodeFrames 4 (payloads frames) = EthTermConnection.framesOf (frames.map dataBuf) := by
  rw [payloads, EthTermConnection.framesOf, List.map_map]
  rfl

/-- A control message has four bytes. -/
theorem length_of_not_image {frame : ServerFrame} (control : frame.image = none) :
    frame.dataBuf.bytes.length = 4 := by
  cases frame with
  | data image => cases control
  | heartbeat | ack => rfl

theorem bytes_of_image {frame : ServerFrame} {bytes : List UInt8}
    (data : frame.image = some bytes) :
    frame.dataBuf.bytes = bytes ∧ bytes ≠ [] ∧ bytes.length < 2 ^ 32 := by
  cases frame with
  | data image =>
    obtain rfl : image.bytes = bytes := Option.some.inj data
    exact ⟨PiVisionData.bytes_ofBytes _, image.nonempty, image.fits⟩
  | heartbeat | ack => cases data

theorem length_payload_lt {frames : List ServerFrame} :
    ∀ payload ∈ payloads frames, payload.length < 256 ^ 4 := by
  intro payload hmem
  obtain ⟨frame, -, rfl⟩ := List.mem_map.mp hmem
  cases himage : frame.image with
  | none =>
    rw [length_of_not_image himage]
    decide
  | some bytes =>
    obtain ⟨heq, -, hlt⟩ := bytes_of_image himage
    rw [heq]
    exact hlt

/-- A payload is an image or has four bytes. -/
theorem mem_payloads {frames : List ServerFrame} {payload : List UInt8}
    (hmem : payload ∈ payloads frames) : payload ∈ images frames ∨ payload.length = 4 := by
  obtain ⟨frame, hframe, rfl⟩ := List.mem_map.mp hmem
  cases himage : frame.image with
  | none => exact .inr (length_of_not_image himage)
  | some bytes =>
    rw [(bytes_of_image himage).1]
    exact .inl (List.mem_filterMap.mpr ⟨frame, hframe, himage⟩)

end ServerFrame

open ServerFrame

/-! ## The Java client -/

namespace JavaStream

/-- The images that the client passes on: not of four bytes, and of a size that an `int`
holds. -/
def JavaReads (frames : List ServerFrame) : Prop :=
  ∀ bytes ∈ images frames, bytes.length ≠ 4 ∧ bytes.length < 2 ^ 31

/-- A timeout strikes between two frames. -/
def Undisturbed (s : JavaStream) (action : JavaAction) : Prop :=
  action = .timeout → s.client.consumed = []

/-- The client is connected, has read the stream to its end, and waits for more. -/
structure Finished (s : JavaStream) : Prop where
  connected : s.client.state = .connected
  nothing_left : s.rest = []
  reading : 0 < s.client.missing

/-- What is to be passed on of the frames are the images, if each is of a size that is. -/
theorem toUpdate_payloads {frames : List ServerFrame} (reads : JavaReads frames) :
    toUpdate (payloads frames) = images frames := by
  induction frames with
  | nil => rfl
  | cons frame frames ih =>
    cases himage : frame.image with
    | none =>
      have hrest : images (frame :: frames) = images frames := List.filterMap_cons_none himage
      have hskip : ¬IsUpdate frame.dataBuf.bytes := fun h =>
        h.2.1 (length_of_not_image himage)
      rw [JavaReads, hrest] at reads
      rw [hrest, payloads_cons, toUpdate, List.filter_cons_of_neg (by simpa using hskip)]
      exact ih reads
    | some bytes =>
      have hcons : images (frame :: frames) = bytes :: images frames :=
        List.filterMap_cons_some himage
      obtain ⟨heq, hnonempty, -⟩ := bytes_of_image himage
      rw [JavaReads, hcons, List.forall_mem_cons] at reads
      have hupdate : IsUpdate frame.dataBuf.bytes := by
        rw [heq]
        exact ⟨fun h => hnonempty (List.eq_nil_of_length_eq_zero h), reads.1⟩
      rw [hcons, payloads_cons, toUpdate, List.filter_cons_of_pos (by simpa using hupdate), heq]
      exact congrArg (bytes :: ·) (ih reads.2)

/-- A client at the end of the stream has dealt with every frame. -/
theorem Aligned.updates_of_finished {payloads : List (List UInt8)} {s : JavaStream}
    (aligned : Aligned payloads s) (finished : s.Finished) :
    s.client.updates = toUpdate payloads := by
  obtain ⟨done, todo, rfl, hupdates, hposition⟩ := aligned
  have hreading := finished.reading
  cases hposition with
  | closed hstate => exact absurd finished.connected hstate
  | read _ hpoint | timedOut hpoint =>
    simp only [JavaClient.missing, hpoint] at hreading
    exact absurd hreading (Nat.lt_irrefl 0)
  | header _ hshort hahead =>
    have hlength := congrArg List.length hahead
    rw [finished.nothing_left, List.append_nil] at hlength
    cases todo with
    | nil => rw [hupdates, List.append_nil]
    | cons payload others =>
      rw [length_encodeFrames_cons] at hlength
      omega
  | payload _ _ _ _ hshort hahead =>
    have hlength := congrArg List.length hahead
    rw [finished.nothing_left, List.append_nil, List.length_append] at hlength
    omega

/-- The lengths of images that the client reads keep it aligned. -/
theorem keeps_of_undisturbed {frames : List ServerFrame} (reads : JavaReads frames)
    {s : JavaStream} (action : JavaAction) (aligned : Aligned (payloads frames) s)
    (undisturbed : s.Undisturbed action) : s.Keeps action := by
  intro hconnected
  cases action with
  | endOfStream | acknowledge => trivial
  | timeout => exact undisturbed rfl
  | read extra =>
    intro got hpoint hwhole
    obtain ⟨payload, hmem, hvalue⟩ :=
      leValue_of_aligned length_payload_lt aligned hconnected hpoint hwhole
    rw [hvalue]
    rcases mem_payloads hmem with himage | hfour
    · exact (reads payload himage).2
    · omega

/-- What the client passes on, and what it is reading, is of a size that it passes on or
that it drops. -/
structure Sized (c : JavaClient) : Prop where
  updates : ∀ payload ∈ c.updates, IsUpdate payload
  header : ∀ got, c.point = .readInt got → got.length < 4
  payload : ∀ n got, c.point = .readFully n got → got.length < n ∧ n < 2 ^ 31
  read : ∀ payload, c.point = .payloadRead payload →
    payload.length ≠ 0 ∧ payload.length < 2 ^ 31

/-- A client that begins a length is reading nothing of a size yet. -/
theorem sized_of_header {c : JavaClient} (updates : ∀ payload ∈ c.updates, IsUpdate payload)
    (point : c.point = .readInt []) : Sized c where
  updates := updates
  header got h := by
    obtain rfl := ConnectedPoint.readInt.inj (point.symm.trans h)
    decide
  payload n got h := absurd (point.symm.trans h) (by simp)
  read payload h := absurd (point.symm.trans h) (by simp)

theorem sized_init : Sized .init := sized_of_header (List.forall_mem_nil _) rfl

theorem sized_receive {c : JavaClient} {chunk : List UInt8} (sized : Sized c)
    (fits : chunk.length ≤ c.missing) : Sized (c.receive chunk) := by
  cases hpoint : c.point with
  | readInt got =>
    have hshort := sized.header got hpoint
    rw [JavaClient.missing_of_readInt hpoint] at fits
    by_cases hmore : (got ++ chunk).length < 4
    · rw [JavaClient.receive_of_short hpoint hmore]
      refine ⟨sized.updates, fun got' h => ?_, nofun, nofun⟩
      obtain rfl := ConnectedPoint.readInt.inj h
      exact hmore
    have hwhole : (got ++ chunk).length = 4 :=
      length_append_of_missing (Nat.le_of_lt hshort) fits hmore
    by_cases hpositive : 0 < leValue (got ++ chunk) ∧ leValue (got ++ chunk) < 2 ^ 31
    · rw [JavaClient.receive_of_positive hpoint hwhole hpositive.1 hpositive.2]
      refine ⟨sized.updates, nofun, fun n got' h => ?_, nofun⟩
      obtain ⟨rfl, rfl⟩ := ConnectedPoint.readFully.inj h
      exact hpositive
    · rw [JavaClient.receive_of_not_positive hpoint hwhole hpositive]
      exact sized_of_header sized.updates rfl
  | readFully n got =>
    obtain ⟨hshort, hsmall⟩ := sized.payload n got hpoint
    rw [JavaClient.missing_of_readFully hpoint] at fits
    by_cases hmore : (got ++ chunk).length < n
    · rw [JavaClient.receive_of_part hpoint hmore]
      refine ⟨sized.updates, nofun, fun n' got' h => ?_, nofun⟩
      obtain ⟨rfl, rfl⟩ := ConnectedPoint.readFully.inj h
      exact ⟨hmore, hsmall⟩
    · have hwhole : (got ++ chunk).length = n :=
        length_append_of_missing (Nat.le_of_lt hshort) fits hmore
      rw [JavaClient.receive_of_whole hpoint hwhole]
      refine ⟨sized.updates, nofun, nofun, fun payload h => ?_⟩
      obtain rfl := ConnectedPoint.payloadRead.inj h
      rw [hwhole]
      exact ⟨by omega, hsmall⟩
  | payloadRead payload | timedOut =>
    simp only [JavaClient.receive, hpoint]
    exact sized

theorem sized_acknowledge {c : JavaClient} (sized : Sized c) : Sized c.acknowledge.1 := by
  cases hpoint : c.point with
  | readInt got | readFully n got =>
    simp only [JavaClient.acknowledge, hpoint]
    exact sized
  | timedOut =>
    simp only [JavaClient.acknowledge, hpoint]
    exact sized_of_header sized.updates rfl
  | payloadRead payload =>
    obtain ⟨hzero, hsmall⟩ := sized.read payload hpoint
    simp only [JavaClient.acknowledge, hpoint]
    refine sized_of_header (fun update hmem => ?_) rfl
    dsimp only at hmem
    split at hmem
    · rename_i hfour
      rcases List.mem_append.mp hmem with hold | hnew
      · exact sized.updates update hold
      · rw [List.mem_singleton.mp hnew]
        exact ⟨hzero, Ne.symm hfour, hsmall⟩
    · exact sized.updates update hmem

theorem sized_step (s : JavaStream) (action : JavaAction) (sized : Sized s.client) :
    Sized (s.step action).client := by
  rw [step]
  split
  swap
  · exact sized
  cases action with
  | read extra => exact sized_receive sized (s.length_chunk_le extra)
  | acknowledge => exact sized_acknowledge sized
  | timeout =>
    simp only [connectedStep, JavaClient.timeout]
    split
    · exact ⟨sized.updates, by simp, by simp, by simp⟩
    · exact ⟨sized.updates, by simp, by simp, by simp⟩
    · exact sized
    · exact sized
  | endOfStream =>
    simp only [connectedStep, JavaClient.endOfStream]
    split
    · exact sized_of_header sized.updates rfl
    · exact sized_of_header sized.updates rfl
    · exact sized
    · exact sized

/-- The Java client that has read the stream to its end has passed on exactly the images if
and only if it reads images of their sizes. -/
theorem updates_eq_images_iff (frames : List ServerFrame) (actions : List JavaAction)
    (undisturbed : Along step Undisturbed (start (payloads frames)) actions)
    (finished : (run step (start (payloads frames)) actions).Finished) :
    (run step (start (payloads frames)) actions).client.updates = images frames ↔
      JavaReads frames := by
  constructor
  · intro hequal bytes hmem
    have hsized : Sized (run step (start (payloads frames)) actions).client :=
      run_invariant step sized_step sized_init actions
    rw [← hequal] at hmem
    exact (hsized.updates bytes hmem).2
  · intro reads
    have hpreserved (s : JavaStream) (action : JavaAction) (aligned : Aligned (payloads frames) s)
        (undisturbed : s.Undisturbed action) : Aligned (payloads frames) (s.step action) :=
      aligned_step length_payload_lt action aligned
        (keeps_of_undisturbed reads action aligned undisturbed)
    have haligned := run_invariant_along hpreserved (aligned_start _) undisturbed
    rw [haligned.updates_of_finished finished, toUpdate_payloads reads]

end JavaStream

/-! ## The Python client -/

namespace PythonStream

/-- The frames that the client reads as images: no control message, and no image of one
byte. -/
def PythonReads (frames : List ServerFrame) : Prop :=
  (∀ frame ∈ frames, frame.image ≠ none) ∧ ∀ bytes ∈ images frames, bytes.length ≠ 1

/-- Without images of one byte every payload is stored. -/
theorem toStore_payloads {frames : List ServerFrame}
    (not_one : ∀ bytes ∈ images frames, bytes.length ≠ 1) :
    toStore (payloads frames) = payloads frames := by
  apply List.filter_eq_self.mpr
  intro payload hmem
  rw [decide_eq_true_iff]
  rcases mem_payloads hmem with himage | hfour
  · obtain ⟨frame, -, hframe⟩ := List.mem_filterMap.mp himage
    have hnonempty := List.length_pos_iff.mpr (bytes_of_image hframe).2.1
    exact ⟨Nat.ne_of_lt hnonempty, Ne.symm (not_one payload himage)⟩
  · rw [hfour]
    decide

theorem length_ne_one_of_images {frames : List ServerFrame}
    (not_one : ∀ bytes ∈ images frames, bytes.length ≠ 1) :
    ∀ payload ∈ payloads frames, payload.length ≠ 1 := by
  intro payload hmem
  rcases mem_payloads hmem with himage | hfour
  · exact not_one payload himage
  · omega

/-- The payloads are the images if and only if there is no control message. -/
theorem payloads_eq_images_iff (frames : List ServerFrame) :
    payloads frames = images frames ↔ ∀ frame ∈ frames, frame.image ≠ none := by
  induction frames with
  | nil => exact iff_of_true rfl (fun _ h => nomatch h)
  | cons frame frames ih =>
    rw [List.forall_mem_cons, ← ih]
    cases himage : frame.image with
    | none =>
      have hskip : images (frame :: frames) = images frames := List.filterMap_cons_none himage
      -- one payload more than there can be images
      refine iff_of_false (fun h => ?_) (fun h => h.1 rfl)
      have hlength := congrArg List.length h
      have hle : (images frames).length ≤ frames.length := List.length_filterMap_le _ _
      rw [hskip, payloads, List.length_map, List.length_cons] at hlength
      omega
    | some bytes =>
      have hcons : images (frame :: frames) = bytes :: images frames :=
        List.filterMap_cons_some himage
      rw [hcons, payloads_cons, (bytes_of_image himage).1, List.cons_inj_right]
      simp

/-- The Python client that has read the stream to its end has stored exactly the images if
and only if it reads all frames as images. -/
theorem stored_eq_images_iff (frames : List ServerFrame) (extras : List ℕ)
    (finished : (run step (start (payloads frames)) extras).Finished) :
    (run step (start (payloads frames)) extras).stored = images frames ↔ PythonReads frames := by
  have hstored (not_one : ∀ bytes ∈ images frames, bytes.length ≠ 1) :
      (run step (start (payloads frames)) extras).stored = payloads frames := by
    have haligned := run_invariant step
      (aligned_step length_payload_lt (length_ne_one_of_images not_one)) (aligned_start _) extras
    rw [haligned.stored_of_finished finished, toStore_payloads not_one]
  constructor
  · intro hequal
    have hsized : StoredSized (run step (start (payloads frames)) extras) :=
      run_invariant step storedSized_step
        ⟨PythonClient.wellFormed_init, fun _ h => absurd h List.not_mem_nil⟩ extras
    have hone : ∀ bytes ∈ images frames, bytes.length ≠ 1 := by
      intro bytes hmem
      rw [← hequal] at hmem
      exact Ne.symm (hsized.stored bytes hmem).2
    refine ⟨?_, hone⟩
    rw [← payloads_eq_images_iff, ← hequal]
    exact (hstored hone).symm
  · intro reads
    rw [hstored reads.2, (payloads_eq_images_iff frames).mpr reads.1]

end PythonStream

/-! ## Both clients -/

/-- **Images and control frames.** On every sequence of frames of a server, a client that has
read it to its end has taken exactly the images for images if and only if, for the Java
client, no image is of four bytes or of `2 ^ 31` bytes or more, and for the Python client,
there is no control message and no image of one byte. -/
theorem separates_iff (frames : List ServerFrame) :
    (∀ actions, Along JavaStream.step JavaStream.Undisturbed (.start (payloads frames)) actions →
      (run JavaStream.step (.start (payloads frames)) actions).Finished →
        ((run JavaStream.step (.start (payloads frames)) actions).client.updates =
          images frames ↔ JavaStream.JavaReads frames)) ∧
    (∀ extras, (run PythonStream.step (.start (payloads frames)) extras).Finished →
      ((run PythonStream.step (.start (payloads frames)) extras).stored = images frames ↔
        PythonStream.PythonReads frames)) :=
  ⟨JavaStream.updates_eq_images_iff frames, PythonStream.stored_eq_images_iff frames⟩

/-- An image of two bytes. -/
def twoBytes : ServerFrame := .data ⟨[1, 2], by simp, by decide⟩

/-- Both clients take an image of two bytes for one. -/
theorem separates_twoBytes :
    (run JavaStream.step (.start (payloads [twoBytes]))
        [.read 3, .read 1, .acknowledge]).client.updates = images [twoBytes] ∧
      (run PythonStream.step (.start (payloads [twoBytes])) [3, 1, 0]).stored =
        images [twoBytes] :=
  ⟨((separates_iff [twoBytes]).1 [.read 3, .read 1, .acknowledge]
      ⟨nofun, nofun, nofun, trivial⟩ ⟨rfl, by decide, by decide⟩).mpr
      (by simp [JavaStream.JavaReads, images, image, twoBytes]),
    ((separates_iff [twoBytes]).2 [3, 1, 0] ⟨by decide, by decide⟩).mpr
      (by simp [PythonStream.PythonReads, images, image, twoBytes])⟩

/-- An image of four bytes. -/
def fourBytes : ServerFrame := .data ⟨[1, 2, 3, 4], by simp, by decide⟩

/-- The Java client drops the image of four bytes, the Python client stores a heartbeat. -/
theorem separates_broken :
    ((run JavaStream.step (.start (payloads [fourBytes]))
        [.read 3, .read 3, .acknowledge]).Finished ∧
      (run JavaStream.step (.start (payloads [fourBytes]))
        [.read 3, .read 3, .acknowledge]).client.updates ≠ images [fourBytes]) ∧
    (run PythonStream.step (.start (payloads [.heartbeat])) [3, 3, 0]).Finished ∧
      (run PythonStream.step (.start (payloads [.heartbeat])) [3, 3, 0]).stored ≠
        images [.heartbeat] := by
  refine ⟨⟨⟨rfl, by decide, by decide⟩, by decide⟩, ⟨by decide, by decide⟩, by decide⟩

end PiVision
