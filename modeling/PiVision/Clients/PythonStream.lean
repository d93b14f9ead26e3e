import PiVision.ImageData.PythonClient
import PiVision.Lib.Framing
import PiVision.Lib.Run

/-!
# The Python client on a stream of frames

The client stores what follows a length other than 0 and 1. On a stream of frames without a
payload of one byte it stays at the frame boundaries, whatever parts `recv` returns, and
stores every payload that is not empty, control messages among them.
-/

namespace PiVision

open Machine LittleEndian Framing

/-- The client, the bytes of the server's stream that it has not read, and the images that
it has stored in `data`, without the type in front of each. -/
structure PythonStream where
  client : PythonClient
  rest : List UInt8
  stored : List (List UInt8)

namespace PythonStream

/-- The client connected, and the frames that the server writes. -/
def start (payloads : List (List UInt8)) : PythonStream := ⟨.init, encodeFrames 4 payloads, []⟩

/-- What `recv` returns, if it is ready to return so many bytes beyond the first one. -/
def packet (s : PythonStream) (extra : ℕ) : List UInt8 :=
  s.rest.take (min s.client.missing (extra + 1))

/-- A step of the client: an ack, or a `recv`. With nothing left `recv` does not return. -/
def step (s : PythonStream) (extra : ℕ) : PythonStream :=
  if s.client.point = .ack then { s with client := s.client.sendAck.1 }
  else if s.rest = [] then s
  else
    { client := s.client.receive (s.packet extra)
      rest := s.rest.drop (s.packet extra).length
      stored :=
        if s.client.point = .image ∧ (s.client.receive (s.packet extra)).point = .ack then
          s.stored ++ [(s.client.receive (s.packet extra)).receiveBuf]
        else s.stored }

/-- The payloads that the client stores. -/
def toStore (payloads : List (List UInt8)) : List (List UInt8) :=
  payloads.filter fun payload => PythonClient.ReadsImage payload.length

/-- Where a client at the frame boundaries stands in the frames that are left. -/
inductive Position (s : PythonStream) (todo : List (List UInt8)) : Prop
  | header (point : s.client.point = .header)
      (ahead : s.client.header ++ s.rest = encodeFrames 4 todo)
  | image {payload : List UInt8} {others : List (List UInt8)} (frames : todo = payload :: others)
      (point : s.client.point = .image) (size : s.client.imageSize = payload.length)
      (ahead : s.client.receiveBuf ++ s.rest = payload ++ encodeFrames 4 others)
  | ack (point : s.client.point = .ack) (ahead : s.rest = encodeFrames 4 todo)

/-- What holds between two steps of a client at the frame boundaries. -/
structure Aligned (payloads : List (List UInt8)) (s : PythonStream) : Prop where
  wf : s.client.WellFormed
  position : ∃ done todo, payloads = done ++ todo ∧ s.stored = toStore done ∧ Position s todo

theorem aligned_start (payloads : List (List UInt8)) : Aligned payloads (start payloads) :=
  ⟨PythonClient.wellFormed_init, [], payloads, rfl, rfl, .header rfl rfl⟩

/-! ## The steps -/

section Steps

variable {s : PythonStream}

/-- What `recv` returns, it takes from the front of the stream. -/
theorem packet_append_drop (s : PythonStream) (extra : ℕ) :
    s.packet extra ++ s.rest.drop (s.packet extra).length = s.rest :=
  take_append_drop_length_take _ _

theorem length_packet_le (s : PythonStream) (extra : ℕ) :
    (s.packet extra).length ≤ s.client.missing := by
  rw [packet, List.length_take]
  omega

theorem step_of_ack (point : s.client.point = .ack) (extra : ℕ) :
    s.step extra = { s with client := s.client.sendAck.1 } := if_pos point

theorem step_of_empty (reading : s.client.point ≠ .ack) (empty : s.rest = []) (extra : ℕ) :
    s.step extra = s := by
  rw [step, if_neg reading, if_pos empty]

/-- A `recv` in the header stores nothing. -/
theorem step_of_header (point : s.client.point = .header) (left : s.rest ≠ []) (extra : ℕ) :
    s.step extra = { s with
      client := s.client.receive (s.packet extra)
      rest := s.rest.drop (s.packet extra).length } := by
  have hreading : s.client.point ≠ .ack := by simp [point]
  have hother : ¬(s.client.point = .image ∧
      (s.client.receive (s.packet extra)).point = .ack) := by simp [point]
  rw [step, if_neg hreading, if_neg left, if_neg hother]

/-- A `recv` in the image stores the image when it is complete. -/
theorem step_of_image (point : s.client.point = .image) (left : s.rest ≠ []) (extra : ℕ) :
    s.step extra =
      { client := s.client.receive (s.packet extra)
        rest := s.rest.drop (s.packet extra).length
        stored :=
          if (s.client.receive (s.packet extra)).point = .ack then
            s.stored ++ [(s.client.receive (s.packet extra)).receiveBuf]
          else s.stored } := by
  have hreading : s.client.point ≠ .ack := by simp [point]
  rw [step, if_neg hreading, if_neg left]
  simp only [point, true_and]

/-- What a `recv` in the header does. -/
theorem receive_of_header {c : PythonClient} (point : c.point = .header) (packet : List UInt8) :
    c.receive packet = { c with
      header := c.header ++ packet
      point := if (c.header ++ packet).length < PythonClient.headerSize then .header
        else if PythonClient.ReadsImage (leValue (c.header ++ packet)) then .image else .ack } := by
  simp only [PythonClient.receive, point]
  by_cases hmore : (c.header ++ packet).length < PythonClient.headerSize
  · simp only [hmore, if_true]
  · by_cases hreads : PythonClient.ReadsImage (leValue (c.header ++ packet))
    · simp only [hmore, if_false, PythonClient.imageSize, hreads, if_true]
    · simp only [hmore, if_false, PythonClient.imageSize, hreads]

/-- A `recv` in the image that does not complete it. -/
theorem receive_of_part {c : PythonClient} (point : c.point = .image) {packet : List UInt8}
    (short : (c.receiveBuf ++ packet).length < c.imageSize) :
    c.receive packet = { c with receiveBuf := c.receiveBuf ++ packet } := by
  have hshort : (c.receiveBuf ++ packet).length < leValue c.header := short
  simp only [PythonClient.receive, point, PythonClient.imageSize, hshort, if_true]

/-- A `recv` in the image that completes it. -/
theorem receive_of_whole {c : PythonClient} (point : c.point = .image) {packet : List UInt8}
    (whole : (c.receiveBuf ++ packet).length = c.imageSize) :
    c.receive packet = { c with
      receiveBuf := c.receiveBuf ++ packet
      data := grayScaleImageType :: (c.receiveBuf ++ packet)
      point := .ack } := by
  have hdone : ¬(c.receiveBuf ++ packet).length < leValue c.header :=
    Nat.not_lt.mpr (Nat.le_of_eq whole.symm)
  simp only [PythonClient.receive, point, PythonClient.imageSize, hdone, if_false]

/-- A payload joins what is to be stored if its length is followed by an image. -/
theorem toStore_concat (done : List (List UInt8)) (payload : List UInt8) :
    toStore (done ++ [payload]) =
      if PythonClient.ReadsImage payload.length then toStore done ++ [payload]
      else toStore done := by
  by_cases hreads : PythonClient.ReadsImage payload.length <;> simp [toStore, hreads]

variable {payloads : List (List UInt8)}

/-- A step in the header, in frames none of which has a payload of one byte. -/
theorem aligned_step_header {done todo : List (List UInt8)}
    (fits : ∀ p ∈ todo, p.length < 256 ^ 4) (not_one : ∀ p ∈ todo, p.length ≠ 1)
    (wf : s.client.WellFormed) (stored : s.stored = toStore done)
    (point : s.client.point = .header) (ahead : s.client.header ++ s.rest = encodeFrames 4 todo)
    (left : s.rest ≠ []) (extra : ℕ) :
    ∃ done' todo', done ++ todo = done' ++ todo' ∧ (s.step extra).stored = toStore done' ∧
      Position (s.step extra) todo' := by
  have hbound := s.length_packet_le extra
  obtain ⟨hshort, hempty⟩ := wf.at_header point
  simp only [PythonClient.missing, point] at hbound
  rw [← s.packet_append_drop extra, ← List.append_assoc] at ahead
  rw [step_of_header point left, receive_of_header point]
  by_cases hmore : (s.client.header ++ s.packet extra).length < PythonClient.headerSize
  · rw [if_pos hmore]
    exact ⟨done, todo, rfl, stored, .header rfl ahead⟩
  rw [if_neg hmore]
  have hlength : (s.client.header ++ s.packet extra).length = 4 :=
    length_append_of_missing (Nat.le_of_lt hshort) hbound hmore
  obtain ⟨payload, others, rfl, hvalue, hrest⟩ :=
    encodeFrames_eq_header 4 hlength fits (by decide) ahead
  by_cases hreads : PythonClient.ReadsImage payload.length
  · rw [hvalue, if_pos hreads]
    refine ⟨done, payload :: others, rfl, stored, .image rfl rfl hvalue ?_⟩
    show s.client.receiveBuf ++ _ = _
    rw [hempty, List.nil_append, hrest]
  · -- a length of zero: the frame is complete
    have hzero : payload = [] := by
      have hone := not_one payload (by simp)
      apply List.eq_nil_of_length_eq_zero
      by_contra hpositive
      exact hreads ⟨Ne.symm hpositive, Ne.symm hone⟩
    rw [hvalue, if_neg hreads]
    refine ⟨done ++ [payload], others, by simp, ?_, .ack rfl ?_⟩
    · rw [toStore_concat, if_neg hreads]
      exact stored
    · show List.drop _ s.rest = _
      rw [hrest, hzero]
      rfl

/-- A step in the image. -/
theorem aligned_step_image {done others : List (List UInt8)} {payload : List UInt8}
    (wf : s.client.WellFormed) (stored : s.stored = toStore done)
    (point : s.client.point = .image) (size : s.client.imageSize = payload.length)
    (ahead : s.client.receiveBuf ++ s.rest = payload ++ encodeFrames 4 others)
    (left : s.rest ≠ []) (extra : ℕ) :
    ∃ done' todo', done ++ payload :: others = done' ++ todo' ∧
      (s.step extra).stored = toStore done' ∧ Position (s.step extra) todo' := by
  have hbound := s.length_packet_le extra
  obtain ⟨-, hreads, hshort⟩ := wf.at_image point
  simp only [PythonClient.missing, point] at hbound
  rw [← s.packet_append_drop extra, ← List.append_assoc] at ahead
  rw [step_of_image point left]
  by_cases hmore : (s.client.receiveBuf ++ s.packet extra).length < s.client.imageSize
  · rw [receive_of_part point hmore]
    have hpoint : ¬s.client.point = .ack := by simp [point]
    rw [if_neg hpoint]
    exact ⟨done, payload :: others, rfl, stored, .image rfl point size ahead⟩
  · have hwhole : (s.client.receiveBuf ++ s.packet extra).length = s.client.imageSize :=
      length_append_of_missing (Nat.le_of_lt hshort) hbound hmore
    obtain ⟨hpayload, hrest⟩ := List.append_inj ahead (hwhole.trans size)
    rw [size] at hreads
    rw [receive_of_whole point hwhole, if_pos rfl]
    refine ⟨done ++ [payload], others, by simp, ?_, .ack rfl hrest⟩
    rw [toStore_concat, if_pos hreads, ← stored, ← hpayload]

/-- **One step** in frames none of which has a payload of one byte. -/
theorem aligned_step (fits : ∀ p ∈ payloads, p.length < 256 ^ 4)
    (not_one : ∀ p ∈ payloads, p.length ≠ 1) (s : PythonStream) (extra : ℕ)
    (aligned : Aligned payloads s) : Aligned payloads (s.step extra) := by
  obtain ⟨wf, done, todo, rfl, hstored, hposition⟩ := aligned
  have hstay : Aligned (done ++ todo) s := ⟨wf, done, todo, rfl, hstored, hposition⟩
  by_cases hack : s.client.point = .ack
  · rw [step_of_ack hack]
    refine ⟨s.client.wellFormed_sendAck, done, todo, rfl, hstored, .header rfl ?_⟩
    cases hposition with
    | header hpoint | image _ hpoint => exact absurd (hpoint.symm.trans hack) (by simp)
    | ack _ hahead => exact hahead
  by_cases hempty : s.rest = []
  · rw [step_of_empty hack hempty]
    exact hstay
  have hwf : (s.step extra).client.WellFormed := by
    rw [step, if_neg hack, if_neg hempty]
    exact wf.receive (s.length_packet_le extra)
  refine ⟨hwf, ?_⟩
  cases hposition with
  | ack hpoint => exact absurd hpoint hack
  | header hpoint hahead =>
    exact aligned_step_header (fun p hp => fits p (List.mem_append_right _ hp))
      (fun p hp => not_one p (List.mem_append_right _ hp)) wf hstored hpoint hahead hempty extra
  | image hframes hpoint hsize hahead =>
    subst hframes
    exact aligned_step_image wf hstored hpoint hsize hahead hempty extra

/-- What is stored is what a length other than 0 and 1 is followed by. -/
structure StoredSized (s : PythonStream) : Prop where
  wf : s.client.WellFormed
  stored : ∀ payload ∈ s.stored, PythonClient.ReadsImage payload.length

theorem storedSized_step (s : PythonStream) (extra : ℕ) (sized : StoredSized s) :
    StoredSized (s.step extra) := by
  obtain ⟨wf, hstored⟩ := sized
  by_cases hack : s.client.point = .ack
  · rw [step_of_ack hack]
    exact ⟨s.client.wellFormed_sendAck, hstored⟩
  by_cases hempty : s.rest = []
  · rw [step_of_empty hack hempty]
    exact ⟨wf, hstored⟩
  have hwf : (s.client.receive (s.packet extra)).WellFormed :=
    wf.receive (s.length_packet_le extra)
  cases hpoint : s.client.point with
  | ack => exact absurd hpoint hack
  | header =>
    rw [step_of_header hpoint hempty]
    exact ⟨hwf, hstored⟩
  | image =>
    obtain ⟨-, hreads, hshort⟩ := wf.at_image hpoint
    have hbound := s.length_packet_le extra
    simp only [PythonClient.missing, hpoint] at hbound
    rw [step_of_image hpoint hempty]
    refine ⟨hwf, fun payload hmem => ?_⟩
    by_cases hmore : (s.client.receiveBuf ++ s.packet extra).length < s.client.imageSize
    · rw [receive_of_part hpoint hmore, if_neg (by simp [hpoint])] at hmem
      exact hstored payload hmem
    · have hwhole : (s.client.receiveBuf ++ s.packet extra).length = s.client.imageSize :=
        length_append_of_missing (Nat.le_of_lt hshort) hbound hmore
      rw [receive_of_whole hpoint hwhole, if_pos rfl] at hmem
      rcases List.mem_append.mp hmem with hold | hnew
      · exact hstored payload hold
      · rw [List.mem_singleton.mp hnew, hwhole]
        exact hreads

end Steps

/-- The client has read the stream to its end and waits for more. -/
structure Finished (s : PythonStream) : Prop where
  nothing_left : s.rest = []
  reading : s.client.point ≠ .ack

/-- A client at the end of the stream has stored everything that is to be stored. -/
theorem Aligned.stored_of_finished {payloads : List (List UInt8)} {s : PythonStream}
    (aligned : Aligned payloads s) (finished : s.Finished) : s.stored = toStore payloads := by
  obtain ⟨wf, done, todo, rfl, hstored, hposition⟩ := aligned
  cases hposition with
  | ack hpoint => exact absurd hpoint finished.reading
  | header hpoint hahead =>
    have hshort := (wf.at_header hpoint).1
    have hlength := congrArg List.length hahead
    rw [finished.nothing_left, List.append_nil] at hlength
    simp only [PythonClient.headerSize] at hshort
    cases todo with
    | nil => rw [hstored, List.append_nil]
    | cons payload others =>
      rw [length_encodeFrames_cons] at hlength
      omega
  | image _ hpoint hsize hahead =>
    have hshort := (wf.at_image hpoint).2.2
    have hlength := congrArg List.length hahead
    rw [finished.nothing_left, List.append_nil, List.length_append] at hlength
    omega

end PythonStream

end PiVision
