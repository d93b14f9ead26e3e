import PiVision.Clients.Alignment
import PiVision.Clients.PythonStream
import PiVision.Clients.ReadUnits

/-!
# The acks of the Python client

What the client stores and sends in a session is one sequence of events: for each pass of
its loop an image, if it reads one, and an ack with the number of the pass. The passes are
the units of the stream, however its bytes arrive; so the events are those of the frames if
and only if the units have the images of the frames.
-/

namespace PiVision

open Machine LittleEndian Framing PrefixCode PythonClient

/-- What the client does outside of its stream: it stores in `data`, or sends an ack. -/
inductive ClientEvent
  | stored (data : List UInt8)
  | acked (ackData : List UInt8)
  deriving DecidableEq

/-- The client on its stream, and what it has done. -/
structure PythonSession where
  stream : PythonStream
  log : List ClientEvent

namespace PythonSession

/-- The client connected, and the frames that the server writes. -/
def start (payloads : List (List UInt8)) : PythonSession := ⟨.start payloads, []⟩

/-- A step of the client, with what it does. -/
def step (s : PythonSession) (extra : ℕ) : PythonSession where
  stream := s.stream.step extra
  log :=
    if s.stream.client.point = .ack then s.log ++ [.acked s.stream.client.sendAck.2]
    else if s.stream.client.point = .image ∧ (s.stream.step extra).client.point = .ack then
      s.log ++ [.stored (s.stream.step extra).client.data]
    else s.log

/-- The events of passes from a number on. -/
def eventsFrom : ℕ → List (Option (List UInt8)) → List ClientEvent
  | _, [] => []
  | frameNo, image :: images =>
    (image.map fun content => .stored (grayScaleImageType :: content)).toList ++
      .acked (ackData (frameNo % 256)) :: eventsFrom (frameNo + 1) images

/-- The events that the frames are meant to lead to. -/
def expected (payloads : List (List UInt8)) : List ClientEvent :=
  eventsFrom 0 (payloads.map frameImage)

/-- An ack has been sent. -/
def IsAck : ClientEvent → Bool
  | .stored _ => false
  | .acked _ => true

/-- The number of acks sent. -/
def acks (s : PythonSession) : ℕ := s.log.countP IsAck

/-- What is to hold at every moment: the events are those of the frames, all of them when the
stream has been read, and nothing is read behind the frame that the next ack is for. -/
structure Law (payloads : List (List UInt8)) (s : PythonSession) : Prop where
  in_order : s.log <+: expected payloads
  complete : s.stream.Finished → s.log = expected payloads
  within : (encodeFrames 4 payloads).length ≤
    s.stream.rest.length + (encodeFrames 4 (payloads.take (s.acks + 1))).length

/-! ## The events of passes -/

section Events

variable {n : ℕ} {images : List (Option (List UInt8))}

theorem eventsFrom_append (n : ℕ) (images later : List (Option (List UInt8))) :
    eventsFrom n (images ++ later) =
      eventsFrom n images ++ eventsFrom (n + images.length) later := by
  induction images generalizing n with
  | nil => rfl
  | cons image images ih =>
    rw [List.cons_append, eventsFrom, eventsFrom, ih, List.length_cons, List.append_assoc,
      List.cons_append, Nat.add_assoc, Nat.add_comm 1]

theorem countP_eventsFrom (n : ℕ) (images : List (Option (List UInt8))) :
    (eventsFrom n images).countP IsAck = images.length := by
  induction images generalizing n with
  | nil => rfl
  | cons image images ih =>
    have hstored : ((image.map fun content =>
        ClientEvent.stored (grayScaleImageType :: content)).toList).countP IsAck = 0 := by
      cases image <;> rfl
    rw [eventsFrom, List.countP_append, hstored, List.countP_cons, ih, Nat.zero_add]
    rfl

/-- The events tell the images, and to which pass each belongs. -/
theorem eventsFrom_inj {others : List (Option (List UInt8))}
    (same : eventsFrom n images = eventsFrom n others) : images = others := by
  induction images generalizing n others with
  | nil =>
    cases others with
    | nil => rfl
    | cons other others => cases other <;> simp [eventsFrom] at same
  | cons image images ih =>
    cases others with
    | nil => cases image <;> simp [eventsFrom] at same
    | cons other others =>
      cases image with
      | none =>
        cases other with
        | none =>
          simp only [eventsFrom, Option.map_none, Option.toList_none, List.nil_append,
            List.cons.injEq, true_and] at same
          rw [ih same]
        | some content => simp [eventsFrom] at same
      | some content =>
        cases other with
        | none => simp [eventsFrom] at same
        | some otherContent =>
          simp only [eventsFrom, Option.map_some, Option.toList_some, List.cons_append,
            List.nil_append, List.cons.injEq, ClientEvent.stored.injEq, true_and] at same
          rw [same.1, ih same.2]

end Events

/-! ## The passes -/

/-- The event of the pass that is not over, if its image has been stored. -/
def pending (c : PythonClient) : List ClientEvent :=
  if c.point = .ack then
    ((unitImage c.consumed).map fun content =>
      ClientEvent.stored (grayScaleImageType :: content)).toList
  else []

/-- The passes that are over, and what has been read and done since. -/
structure Reading (bytes : List UInt8) (done : List (List UInt8)) (s : PythonSession) : Prop where
  wf : s.stream.client.WellFormed
  units : ∀ u ∈ done, IsUnit u
  read : done.flatten ++ (s.stream.client.consumed ++ s.stream.rest) = bytes
  frameNo : s.stream.client.frameNo = done.length % 256
  log : s.log = eventsFrom 0 (done.map unitImage) ++ pending s.stream.client

section Passes

variable {s : PythonSession} {bytes : List UInt8} {done : List (List UInt8)}

theorem reading_start (payloads : List (List UInt8)) :
    Reading (encodeFrames 4 payloads) [] (start payloads) where
  wf := wellFormed_init
  units := List.forall_mem_nil _
  read := rfl
  frameNo := rfl
  log := rfl

theorem pending_of_reading {c : PythonClient} (reading : c.point ≠ .ack) : pending c = [] :=
  if_neg reading

/-- Before its ack the client has read a unit. -/
theorem isUnit_consumed {c : PythonClient} (wf : c.WellFormed) (point : c.point = .ack) :
    IsUnit c.consumed := by
  obtain ⟨hheader, hcontent⟩ := wf.at_ack point
  exact isUnit_append hheader hcontent

/-- While it reads, it has not. -/
theorem ended_consumed {c : PythonClient} (wf : c.WellFormed) (reading : c.point ≠ .ack) :
    Ended IsUnit c.consumed := by
  cases hpoint : c.point with
  | ack => exact absurd hpoint reading
  | header =>
    obtain ⟨hshort, hempty⟩ := wf.at_header hpoint
    refine ended_of_header ?_
    rwa [consumed, hempty, List.append_nil]
  | image =>
    obtain ⟨hheader, hreads, hshort⟩ := wf.at_image hpoint
    refine ended_of_image hheader ?_
    have hsize : readSize (leValue c.header) = c.imageSize := if_pos hreads
    rwa [hsize]

/-- A pass ends with its ack. -/
theorem reading_step_of_ack (holds : Reading bytes done s)
    (point : s.stream.client.point = .ack) (extra : ℕ) :
    Reading bytes (done ++ [s.stream.client.consumed]) (s.step extra) := by
  have hstream := PythonStream.step_of_ack point extra
  refine ⟨?_, ?_, ?_, ?_, ?_⟩
  · show (s.stream.step extra).client.WellFormed
    rw [hstream]
    exact s.stream.client.wellFormed_sendAck
  · intro u hu
    rcases List.mem_append.mp hu with hold | hnew
    · exact holds.units u hold
    · rw [List.mem_singleton.mp hnew]
      exact isUnit_consumed holds.wf point
  · show _ ++ ((s.stream.step extra).client.consumed ++ (s.stream.step extra).rest) = bytes
    rw [hstream, List.flatten_append, List.flatten_singleton, List.append_assoc]
    exact holds.read
  · show (s.stream.step extra).client.frameNo = _
    rw [hstream, List.length_append, List.length_singleton]
    show s.stream.client.sendAck.1.frameNo = _
    rw [frameNo_sendAck holds.wf, holds.frameNo]
    omega
  · have hreading : (s.stream.step extra).client.point ≠ .ack := by
      rw [hstream]
      exact fun h => ReceivePoint.noConfusion h
    have hnone : pending (s.step extra).stream.client = [] := pending_of_reading hreading
    have hack : s.stream.client.sendAck.2 = ackData (done.length % 256) :=
      congrArg ackData holds.frameNo
    have hlog : (s.step extra).log = s.log ++ [.acked s.stream.client.sendAck.2] := if_pos point
    rw [hlog, hnone, List.append_nil, holds.log, hack, pending, if_pos point, List.map_append,
      List.map_singleton, eventsFrom_append, List.append_assoc, List.length_map, Nat.zero_add]
    rfl

theorem unitImage_consumed {c : PythonClient} (wf : c.WellFormed) (point : c.point = .ack) :
    unitImage c.consumed = if ReadsImage c.imageSize then some c.receiveBuf else none :=
  unitImage_append (wf.at_ack point).1

/-- A pass that ends with its header reads no image. -/
theorem not_readsImage_of_header {c : PythonClient} {packet : List UInt8}
    (point : c.point = .header) (next : (c.receive packet).point = .ack) :
    ¬ReadsImage (c.receive packet).imageSize := by
  intro hreads
  rw [PythonStream.receive_of_header point] at next hreads
  by_cases hmore : (c.header ++ packet).length < headerSize
  · rw [if_pos hmore] at next
    exact ReceivePoint.noConfusion next
  · rw [if_neg hmore, if_pos (show ReadsImage (leValue (c.header ++ packet)) from hreads)] at next
    exact ReceivePoint.noConfusion next

/-- A pass that ends with an image has stored it. -/
theorem data_of_image {c : PythonClient} {packet : List UInt8} (wf : c.WellFormed)
    (point : c.point = .image) (fits : packet.length ≤ c.missing)
    (next : (c.receive packet).point = .ack) :
    (c.receive packet).data = grayScaleImageType :: (c.receive packet).receiveBuf ∧
      ReadsImage (c.receive packet).imageSize := by
  obtain ⟨-, hreads, hshort⟩ := wf.at_image point
  simp only [missing, point] at fits
  by_cases hmore : (c.receiveBuf ++ packet).length < c.imageSize
  · rw [PythonStream.receive_of_part point hmore] at next
    exact ReceivePoint.noConfusion (point.symm.trans next)
  · have hwhole := length_append_of_missing (Nat.le_of_lt hshort) fits hmore
    rw [PythonStream.receive_of_whole point hwhole]
    exact ⟨rfl, hreads⟩

/-- A packet belongs to the pass, and its image is stored when it is complete. -/
theorem reading_step_of_read (holds : Reading bytes done s)
    (reading : s.stream.client.point ≠ .ack) (left : s.stream.rest ≠ []) (extra : ℕ) :
    Reading bytes done (s.step extra) := by
  have hfits := s.stream.length_packet_le extra
  have hnext : s.stream.step extra = { s.stream.step extra with
      client := s.stream.client.receive (s.stream.packet extra)
      rest := s.stream.rest.drop (s.stream.packet extra).length } := by
    rw [PythonStream.step, if_neg reading, if_neg left]
  have hwf : (s.stream.client.receive (s.stream.packet extra)).WellFormed :=
    holds.wf.receive hfits
  have hconsumed := consumed_receive holds.wf reading (s.stream.packet extra)
  refine ⟨?_, holds.units, ?_, ?_, ?_⟩
  · show (s.stream.step extra).client.WellFormed
    rw [hnext]
    exact hwf
  · show _ ++ ((s.stream.step extra).client.consumed ++ (s.stream.step extra).rest) = bytes
    rw [hnext]
    show _ ++ ((s.stream.client.receive (s.stream.packet extra)).consumed ++ _) = bytes
    rw [hconsumed, List.append_assoc, s.stream.packet_append_drop extra]
    exact holds.read
  · show (s.stream.step extra).client.frameNo = _
    rw [hnext]
    exact (frameNo_receive _ _).trans holds.frameNo
  · have hclient : (s.stream.step extra).client =
        s.stream.client.receive (s.stream.packet extra) := by rw [hnext]
    have hbefore := holds.log
    rw [pending_of_reading reading, List.append_nil] at hbefore
    have hlog : (s.step extra).log =
        if s.stream.client.point = .image ∧ (s.stream.step extra).client.point = .ack then
          s.log ++ [.stored (s.stream.step extra).client.data]
        else s.log := if_neg reading
    show (s.step extra).log = _ ++ pending (s.stream.step extra).client
    rw [hlog, hclient, ← hbefore]
    by_cases hdone : (s.stream.client.receive (s.stream.packet extra)).point = .ack
    · rw [pending, if_pos hdone, unitImage_consumed hwf hdone]
      cases hpoint : s.stream.client.point with
      | ack => exact absurd hpoint reading
      | header =>
        rw [if_neg (fun h => ReceivePoint.noConfusion h.1),
          if_neg (not_readsImage_of_header hpoint hdone)]
        exact (List.append_nil _).symm
      | image =>
        obtain ⟨hdata, hreads⟩ := data_of_image holds.wf hpoint hfits hdone
        rw [if_pos ⟨rfl, hdone⟩, if_pos hreads, hdata]
        rfl
    · rw [pending_of_reading hdone, if_neg fun h => hdone h.2, List.append_nil]

/-- **One step** of the client. -/
theorem reading_step (holds : Reading bytes done s) (extra : ℕ) :
    ∃ done', Reading bytes done' (s.step extra) := by
  by_cases hack : s.stream.client.point = .ack
  · exact ⟨_, reading_step_of_ack holds hack extra⟩
  by_cases hempty : s.stream.rest = []
  · refine ⟨done, ?_⟩
    have hstep : s.step extra = s := by
      have hstream := PythonStream.step_of_empty hack hempty extra
      rw [step, hstream, if_neg hack, if_neg fun h => hack h.2]
    rwa [hstep]
  · exact ⟨done, reading_step_of_read holds hack hempty extra⟩

theorem reading_run (payloads : List (List UInt8)) (extras : List ℕ) :
    ∃ done, Reading (encodeFrames 4 payloads) done (run step (start payloads) extras) := by
  have hstep : ∀ (s : PythonSession) (extra : ℕ),
      (∃ done, Reading (encodeFrames 4 payloads) done s) →
        ∃ done, Reading (encodeFrames 4 payloads) done (s.step extra) := by
    rintro s extra ⟨done, holds⟩
    exact reading_step holds extra
  exact run_invariant step hstep ⟨[], reading_start payloads⟩ extras

/-! ## The end of the stream -/

/-- What is left to do, until the client waits for more. -/
def remaining (s : PythonSession) : ℕ :=
  2 * s.stream.rest.length + if s.stream.client.point = .ack then 1 else 0

/-- Every step gets on with it. -/
theorem remaining_step (holds : Reading bytes done s) (going : ¬s.stream.Finished) (extra : ℕ) :
    (s.step extra).remaining < s.remaining := by
  by_cases hack : s.stream.client.point = .ack
  · have hreading : (s.step extra).stream.client.point ≠ .ack := by
      show (s.stream.step extra).client.point ≠ .ack
      rw [PythonStream.step_of_ack hack]
      exact fun h => ReceivePoint.noConfusion h
    have hrest : (s.step extra).stream.rest = s.stream.rest := by
      show (s.stream.step extra).rest = _
      rw [PythonStream.step_of_ack hack]
    rw [remaining, remaining, if_neg hreading, if_pos hack, hrest]
    omega
  · have hleft : s.stream.rest ≠ [] := fun hempty => going ⟨hempty, hack⟩
    have hlength := List.length_pos_iff.mpr hleft
    have hmissing := holds.wf.missing_pos hack
    have hpacket : 0 < (s.stream.packet extra).length := by
      rw [PythonStream.packet, List.length_take]
      omega
    have hrest : (s.step extra).stream.rest =
        s.stream.rest.drop (s.stream.packet extra).length := by
      show (s.stream.step extra).rest = _
      rw [PythonStream.step, if_neg hack, if_neg hleft]
    rw [remaining, remaining, if_neg hack, hrest, List.length_drop]
    split <;> omega

/-- The client reads its stream to the end. -/
theorem exists_finished (holds : Reading bytes done s) :
    ∃ extras, (run step s extras).stream.Finished := by
  induction hremaining : s.remaining using Nat.strongRecOn generalizing s done with
  | ind n ih =>
    by_cases finished : s.stream.Finished
    · exact ⟨[], finished⟩
    · obtain ⟨done', holds'⟩ := reading_step holds 0
      have hless := remaining_step holds finished 0
      obtain ⟨extras, hfinished⟩ := ih _ (hremaining ▸ hless) holds' rfl
      exact ⟨0 :: extras, hfinished⟩

/-- Where the stream has been read, the passes that are over are all of its units. -/
theorem ended_of_finished (holds : Reading bytes done s) (finished : s.stream.Finished) :
    Ended IsUnit s.stream.client.consumed ∧
      done.flatten ++ s.stream.client.consumed = bytes ∧
      s.log = eventsFrom 0 (done.map unitImage) := by
  have hread := holds.read
  have hlog := holds.log
  rw [finished.nothing_left, List.append_nil] at hread
  rw [pending_of_reading finished.reading, List.append_nil] at hlog
  exact ⟨ended_consumed holds.wf finished.reading, hread, hlog⟩

/-! ## The law -/

/-- The acks sent are those of the passes that are over. -/
theorem acks_of_reading (holds : Reading bytes done s) : s.acks = done.length := by
  have hpending : (pending s.stream.client).countP IsAck = 0 := by
    rw [pending]
    split
    · cases unitImage s.stream.client.consumed <;> rfl
    · rfl
  rw [acks, holds.log, List.countP_append, countP_eventsFrom, hpending, List.length_map,
    Nat.add_zero]

section Law

variable {payloads units : List (List UInt8)} {tail : List UInt8}
  (holds : Reading (encodeFrames 4 payloads) done s) (all : ∀ u ∈ units, IsUnit u)
  (ended : Ended IsUnit tail) (stream : units.flatten ++ tail = encodeFrames 4 payloads)
  (images : units.map unitImage = payloads.map frameImage)

include holds all ended stream

/-- The passes that are over are the first units of the stream, and the next unit is not
shorter than what has been read since. -/
theorem exists_later : ∃ later, units = done ++ later ∧
    (s.stream.client.point = .ack → ∃ others, later = s.stream.client.consumed :: others) ∧
    ∀ u others, later = u :: others → s.stream.client.consumed.length ≤ u.length := by
  have hsame := stream.trans holds.read.symm
  obtain ⟨later, rfl⟩ := prefixFree_isUnit.words_begin all holds.units ended hsame
  rw [List.flatten_append, List.append_assoc] at hsame
  have hlater := List.append_cancel_left hsame
  have hall : ∀ u ∈ later, IsUnit u := fun u hu => all u (List.mem_append_right _ hu)
  refine ⟨later, rfl, fun point => ?_, ?_⟩
  · obtain ⟨others, hothers, -⟩ := prefixFree_isUnit.words_cons hall ended
      (isUnit_consumed holds.wf point) hlater
    exact ⟨others, hothers⟩
  · rintro u others rfl
    by_contra hlonger
    have hu := hall u List.mem_cons_self
    rw [List.flatten_cons, List.append_assoc] at hlater
    have hfront : s.stream.client.consumed <+: u ++ (others.flatten ++ tail) := by
      rw [hlater]
      exact List.prefix_append _ _
    have hbegins : u <+: s.stream.client.consumed :=
      List.prefix_of_prefix_length_le (List.prefix_append _ _) hfront (by omega)
    by_cases point : s.stream.client.point = .ack
    · have heq := prefixFree_isUnit u _ hu (isUnit_consumed holds.wf point) hbegins
      exact hlonger (Nat.le_of_eq (congrArg List.length heq.symm))
    · exact ended_consumed holds.wf point u hu hbegins

include images

/-- Units with the images of the frames lead to the events of the frames. -/
theorem law_of_images_eq : Law payloads s := by
  obtain ⟨later, rfl, hack, hlength⟩ := exists_later holds all ended stream
  have hexpected : expected payloads = eventsFrom 0 (done.map unitImage) ++
      eventsFrom done.length (later.map unitImage) := by
    rw [expected, ← images, List.map_append, eventsFrom_append, List.length_map, Nat.zero_add]
  refine ⟨?_, fun finished => ?_, ?_⟩
  · rw [holds.log, hexpected, List.prefix_append_right_inj]
    by_cases point : s.stream.client.point = .ack
    · obtain ⟨others, rfl⟩ := hack point
      rw [pending, if_pos point, List.map_cons, eventsFrom]
      exact List.prefix_append _ _
    · rw [pending_of_reading point]
      exact List.nil_prefix
  · obtain ⟨hended, hread, hlog⟩ := ended_of_finished holds finished
    have hdone := prefixFree_isUnit.words_eq all holds.units ended hended
      (stream.trans hread.symm)
    rw [hlog, hdone, images]
    rfl
  · have htotal := congrArg List.length holds.read
    rw [List.length_append, List.length_append] at htotal
    rw [acks_of_reading holds]
    cases later with
    | nil =>
      -- the last frame is over, and there is nothing behind it
      have hcount := congrArg List.length images
      rw [List.length_map, List.length_map, List.append_nil] at hcount
      rw [List.take_of_length_le (by omega)]
      exact Nat.le_add_left _ _
    | cons u others =>
      have hfirst : (done ++ u :: others).take (done.length + 1) = done ++ [u] := by
        rw [List.take_length_add_append]
        rfl
      have himages := congrArg (List.take (done.length + 1)) images
      rw [← List.map_take, ← List.map_take, hfirst] at himages
      have hunits : ∀ v ∈ done ++ [u], IsUnit v := by
        intro v hv
        rw [← hfirst] at hv
        exact all v (List.mem_of_mem_take hv)
      have hle := length_flatten_le hunits himages
      have hconsumed := hlength u others rfl
      rw [List.flatten_append, List.length_append, List.flatten_singleton] at hle
      omega

end Law

/-- **The acks and the images** are those of the frames, at every moment and however their
bytes arrive, if and only if the frames behind a payload of one byte are read as they are
meant. -/
theorem law_iff_inStep (frames : List FramePayload) :
    (∀ extras : List ℕ, Law (frames.map FramePayload.bytes)
        (run step (start (frames.map FramePayload.bytes)) extras)) ↔
      InStep (frames.map FramePayload.bytes) := by
  have hfits : ∀ p ∈ frames.map FramePayload.bytes, p.length < 256 ^ 4 := by
    intro p hp
    obtain ⟨frame, -, rfl⟩ := List.mem_map.mp hp
    exact frame.fits
  generalize frames.map FramePayload.bytes = payloads at hfits ⊢
  -- a run to the end of the stream tells the units
  obtain ⟨extras, finished⟩ := exists_finished (reading_start payloads)
  obtain ⟨units, holds⟩ := reading_run payloads extras
  obtain ⟨hended, hstream, hlog⟩ := ended_of_finished holds finished
  rw [← images_eq_iff hfits holds.units hended hstream]
  constructor
  · intro law
    have hcomplete := (law extras).complete finished
    exact eventsFrom_inj (hlog.symm.trans hcomplete)
  · intro images extras
    obtain ⟨done, hdone⟩ := reading_run payloads extras
    exact law_of_images_eq hdone holds.units hended hstream images

/-- Behind a payload of one byte the client takes the length of the next frame for more than
it is: it waits for 517 bytes, and the second ack is not sent. -/
theorem ack_missing :
    ¬Law [[5], [9, 9]] (run step (start [[5], [9, 9]]) [3, 0, 3, 3]) := by
  intro law
  have hcomplete := law.complete ⟨by decide, by decide⟩
  exact absurd hcomplete (by decide)

end Passes

end PythonSession

end PiVision
