import PiVision.Camera.Stream
import PiVision.Pipeline.HandOff

/-!
# The client on the camera's stream

The client's process runs while the wire to its connection holds what the camera has
written. Each call of `recv` takes a nonempty front part of the wire, as long as the
environment likes and at most as long as requested; with nothing on the wire the call
does not return. It never fails and the camera never closes.

The pixel phase asks for what is missing, the header phase for a whole header every
time. So the images come out right as long as no call of the header phase is given more
than is missing, and only then.
-/

namespace PiVision

open Machine

/-- The client's process and the bytes of its connection that `recv` has not handed
out. -/
structure CameraLink where
  process : Process
  wire : List UInt8

namespace CameraLink

/-- What the environment does in a round: the client's answers before it is connected,
how many bytes beyond the first one `recv` is ready to hand out, and whether the worker
completes. -/
structure Input where
  reply : Option (List UInt8)
  connection : ℤ
  extra : ℕ
  workerCompletes : Bool

/-- The number of bytes that the client's next call asks `recv` for. -/
def requested (client : ClientState) : ℕ :=
  if client.currState = 3 then
    -- the header phase asks for all of it, also when a part has been received
    if client.headerIndex < cameraBufHeaderSize then cameraBufHeaderSize
    else colorImageSize - client.bufferIndex
  else 0

/-- The round with the given bytes arrived. -/
def Input.toRound (input : Input) (arrived : List UInt8) : RoundInput :=
  ⟨⟨input.reply, input.connection, some arrived⟩, input.workerCompletes⟩

/-- A round. Connected to an empty wire, the client is blocked in `recv`. -/
def step (link : CameraLink) (input : Input) : CameraLink :=
  if link.process.client.currState = 3 ∧ link.wire = [] then link
  else
    { process := link.process.round (input.toRound (link.wire.take (input.extra + 1)))
      wire := link.wire.drop (min (requested link.process.client) (input.extra + 1)) }

/-- The process as `main` starts it, and a connection on which the camera writes the
images. -/
def start (images : List ColorImage) : CameraLink := ⟨Process.start, PiVisCamera.stream images⟩

/-- The contents of `buffer` each time the client has entered `PROCESSING_FRAME`. -/
def entered (link : CameraLink) : List (List UInt8) := link.process.entered.filterMap id

/-- The images whose last byte has been handed out have each been entered, in order and
byte for byte, and no `socket_receive` has written outside its array. -/
structure Reassembled (images : List ColorImage) (link : CameraLink) : Prop where
  entered_eq : link.entered =
    (images.take (((PiVisCamera.stream images).length - link.wire.length) /
      PiVisCamera.writtenSize)).map List.Vector.toList
  inside : link.process.client.overrun = false

/-- A call of the header phase is given at most what is missing of the header. -/
def HeaderFits (link : CameraLink) (input : Input) : Prop :=
  link.process.client.currState = 3 → link.process.client.headerIndex < cameraBufHeaderSize →
    link.process.client.headerIndex +
      (link.wire.take (min cameraBufHeaderSize (input.extra + 1))).length ≤ cameraBufHeaderSize

/-! ## The client's calls -/

section Client

variable {client : ClientState} {input : ClientInput} {arrived : List UInt8}

/-- The header phase stores what it is given. -/
theorem run_header (connected : client.currState = 3)
    (missing : client.headerIndex < cameraBufHeaderSize) (harrived : input.arrived = some arrived) :
    client.run input = { client with
      camBufHeader := Block.write client.camBufHeader client.headerIndex
        (arrived.take cameraBufHeaderSize)
      headerIndex := client.headerIndex + (arrived.take cameraBufHeaderSize).length
      overrun := client.overrun ||
        decide (cameraBufHeaderSize <
          client.headerIndex + (arrived.take cameraBufHeaderSize).length) } := by
  simp [ClientState.run, connected, ClientState.stateConnected, missing,
    ClientState.receiveHeader, ClientState.socketReceive, harrived]

/-- The pixel phase stores what it is given, and with the image complete enters
`PROCESSING_FRAME`. -/
theorem run_pixels (connected : client.currState = 3)
    (complete : client.headerIndex = cameraBufHeaderSize)
    (inside : client.bufferIndex < colorImageSize) (harrived : input.arrived = some arrived)
    {bytes : List UInt8} (hbytes : arrived.take (colorImageSize - client.bufferIndex) = bytes) :
    client.run input =
      if client.bufferIndex + bytes.length = colorImageSize then
        { client with
          buffer := Block.write client.buffer client.bufferIndex bytes
          bufferIndex := 0
          headerIndex := 0
          currState := 4 }
      else
        { client with
          buffer := Block.write client.buffer client.bufferIndex bytes
          bufferIndex := client.bufferIndex + bytes.length } := by
  have hreceived : ClientState.socketReceive input.arrived (colorImageSize - client.bufferIndex) =
      some bytes := by
    rw [harrived, ← hbytes]
    rfl
  have hconnected : client.run input = (client.receivePixels input.arrived).completeImage := by
    simp [ClientState.run, connected, ClientState.stateConnected, complete]
  obtain ⟨bytes', hbytes', -, hpixels⟩ | ⟨hnone, -⟩ :=
    client.receivePixels_cases input.arrived inside
  · obtain rfl : bytes = bytes' := Option.some.inj (hreceived.symm.trans hbytes')
    rw [hconnected, hpixels, ClientState.completeImage]
    split <;> simp [connected]
  · rw [harrived] at hnone
    cases hnone

/-- A call that leaves no note of an overrun has found none, and has not made one in the
header phase. -/
theorem not_overrun_of_run (h : (client.run input).overrun = false) :
    client.overrun = false ∧ (client.currState = 3 →
      client.headerIndex < cameraBufHeaderSize → input.arrived = some arrived →
        client.headerIndex + (arrived.take cameraBufHeaderSize).length ≤ cameraBufHeaderSize) := by
  obtain hlt | heq | hgt : client.currState < 3 ∨ client.currState = 3 ∨ 3 < client.currState := by
    omega
  · obtain ⟨_, _, _, -, hrun⟩ := client.run_unconnected input hlt
    rw [hrun] at h
    exact ⟨h, fun h => by omega⟩
  · by_cases hmissing : client.headerIndex < cameraBufHeaderSize
    · cases harrived : input.arrived with
      | none =>
        refine ⟨?_, fun _ _ h => by cases h⟩
        simpa [ClientState.run, heq, ClientState.stateConnected, hmissing,
          ClientState.receiveHeader, ClientState.socketReceive, harrived] using h
      | some bytes =>
        rw [run_header heq hmissing harrived, Bool.or_eq_false_iff, decide_eq_false_iff_not,
          Nat.not_lt] at h
        refine ⟨h.1, fun _ _ hbytes => ?_⟩
        obtain rfl : bytes = arrived := Option.some.inj hbytes
        exact h.2
    · refine ⟨?_, fun _ h => absurd h hmissing⟩
      have hconnected : client.run input = (client.receivePixels input.arrived).completeImage := by
        simp [ClientState.run, heq, ClientState.stateConnected, hmissing]
      rw [hconnected, ClientState.completeImage] at h
      have hpixels : (client.receivePixels input.arrived).overrun = false := by
        split at h <;> exact h
      rw [ClientState.receivePixels] at hpixels
      split at hpixels
      · exact (Bool.or_eq_false_iff.mp hpixels).1
      · exact hpixels
  · refine ⟨?_, fun h => by omega⟩
    obtain heq | hgt : client.currState = 4 ∨ 4 < client.currState := by omega
    · have hrun : client.run input = client.processingFrame := by simp [ClientState.run, heq]
      rw [hrun, ClientState.processingFrame] at h
      split at h <;> exact h
    · have hrun : client.run input = client := by
        -- the table has no such entry, and nothing leads here
        obtain ⟨n, hn⟩ : ∃ n, client.currState = n + 5 := ⟨client.currState - 5, by omega⟩
        simp [ClientState.run, hn]
      rwa [hrun] at h

end Client

/-! ## A round with every call inside its array -/

/-- Where the client and the wire stand in the images that are left: `header` and
`pixels` within the first one, `processing` behind the last byte of the one before. -/
inductive Position (client : ClientState) (wire : List UInt8) : List ColorImage → Prop
  | header {todo : List ColorImage} (waiting : client.currState < 4)
      (missing : client.headerIndex < cameraBufHeaderSize) (empty : client.bufferIndex = 0)
      (written : client.headerIndex ≤ (PiVisCamera.stream todo).length)
      (ahead : wire = (PiVisCamera.stream todo).drop client.headerIndex) : Position client wire todo
  | pixels {image : ColorImage} {todo : List ColorImage} (connected : client.currState = 3)
      (complete : client.headerIndex = cameraBufHeaderSize)
      (inside : client.bufferIndex < colorImageSize)
      (stored : client.buffer.toList.take client.bufferIndex =
        image.toList.take client.bufferIndex)
      (ahead : wire = image.toList.drop client.bufferIndex ++ PiVisCamera.stream todo) :
      Position client wire (image :: todo)
  | processing {todo : List ColorImage} (processing : client.currState = 4)
      (fresh : client.headerIndex = 0) (ahead : wire = PiVisCamera.stream todo) :
      Position client wire todo

/-- What holds between two rounds. -/
structure Aligned (images : List ColorImage) (link : CameraLink) : Prop where
  handOff : link.process.HandOffInv
  inside : link.process.client.overrun = false
  position : ∃ done todo, images = done ++ todo ∧
    link.entered = done.map List.Vector.toList ∧ Position link.process.client link.wire todo

section Round

variable (link : CameraLink) (input : Input)

/-- The provider leaves the client's note of an overrun as it is. -/
theorem round_overrun (p : Process) (input : RoundInput) :
    (p.round input).client.overrun = (p.client.run input.client).overrun := by
  have hclient := congrArg Prod.snd (p.round_modules input)
  simp only [ImageProviderState.run, ClientState.receive] at hclient
  rw [hclient]
  split <;> rfl

/-- A round after which no overrun is noted. -/
theorem headerFits_of_step (h : (link.step input).process.client.overrun = false) :
    link.process.client.overrun = false ∧ link.HeaderFits input := by
  unfold step at h
  split at h
  · rename_i hblocked
    refine ⟨h, fun _ hmissing => ?_⟩
    simp only [hblocked.2, List.take_nil, List.length_nil]
    omega
  · rw [round_overrun] at h
    obtain ⟨hbefore, hfits⟩ := not_overrun_of_run h
    refine ⟨hbefore, fun hconnected hmissing => ?_⟩
    have hcall := hfits hconnected hmissing rfl
    rwa [List.take_take] at hcall

variable {link input} {images : List ColorImage}

/-- What a round does to the record of the contents entered. -/
theorem entered_append {link' : CameraLink} {frame : Option (List UInt8)}
    (h : link'.process.entered = link.process.entered ++ [frame]) :
    link'.entered = link.entered ++ frame.toList := by
  rw [entered, h, List.filterMap_append, entered]
  cases frame <;> rfl

/-- The client after its call in a round that is not blocked. -/
def called (link : CameraLink) (input : Input) : ClientState :=
  link.process.client.run (input.toRound (link.wire.take (input.extra + 1))).client

/-- What is on the wire after a round that is not blocked. -/
def ahead (link : CameraLink) (input : Input) : List UInt8 :=
  link.wire.drop (min (requested link.process.client) (input.extra + 1))

/-- A round whose call does not enter `PROCESSING_FRAME`. -/
theorem aligned_of_other (aligned : link.Aligned images)
    (free : ¬(link.process.client.currState = 3 ∧ link.wire = []))
    (other : (link.called input).currState ≠ 4) (inside : (link.called input).overrun = false)
    {done todo : List ColorImage} (himages : images = done ++ todo)
    (hentered : link.entered = done.map List.Vector.toList)
    (position : Position (link.called input) (link.ahead input) todo) :
    (link.step input).Aligned images := by
  obtain ⟨-, hclient, hrecord⟩ := Process.round_of_other _ other
  have hround := link.process.handOffInv_round
    (input.toRound (link.wire.take (input.extra + 1))) aligned.handOff
  rw [step, if_neg free]
  refine ⟨hround, ?_, done, todo, himages, ?_, ?_⟩
  · rw [hclient]; exact inside
  · rw [entered_append hrecord, hentered, Option.toList_none, List.append_nil]
  · rw [hclient]; exact position

/-- A round whose call completes an image. -/
theorem aligned_of_entering (aligned : link.Aligned images)
    (connected : link.process.client.currState = 3) (free : link.wire ≠ [])
    (entering : (link.called input).currState = 4) (fresh : (link.called input).bufferIndex = 0)
    (inside : (link.called input).overrun = false) (header : (link.called input).headerIndex = 0)
    {done todo : List ColorImage} {image : ColorImage} (himages : images = done ++ image :: todo)
    (hentered : link.entered = done.map List.Vector.toList)
    (complete : (link.called input).buffer = image)
    (rest : link.ahead input = PiVisCamera.stream todo) :
    (link.step input).Aligned images := by
  have hother : link.process.client.currState ≠ 4 := by omega
  obtain ⟨-, hclient, hrecord⟩ := Process.round_of_entering _ hother entering fresh
  have hround := link.process.handOffInv_round
    (input.toRound (link.wire.take (input.extra + 1))) aligned.handOff
  rw [step, if_neg (fun h => free h.2)]
  refine ⟨hround, ?_, done ++ [image], todo, ?_, ?_, ?_⟩
  · rw [hclient]; exact inside
  · rw [himages, List.append_assoc, List.singleton_append]
  · rw [entered_append hrecord, hentered, Option.toList_some, List.map_append, List.map_singleton,
      ← complete]
    rfl
  · rw [hclient]
    exact .processing entering header rest

theorem aligned_step_unconnected (aligned : link.Aligned images)
    {done todo : List ColorImage} (himages : images = done ++ todo)
    (hentered : link.entered = done.map List.Vector.toList)
    (unconnected : link.process.client.currState < 3)
    (missing : link.process.client.headerIndex < cameraBufHeaderSize)
    (empty : link.process.client.bufferIndex = 0)
    (written : link.process.client.headerIndex ≤ (PiVisCamera.stream todo).length)
    (hwire : link.wire = (PiVisCamera.stream todo).drop link.process.client.headerIndex) :
    (link.step input).Aligned images := by
  obtain ⟨_, _, _, hstate, hrun⟩ := link.process.client.run_unconnected
    (input.toRound (link.wire.take (input.extra + 1))).client unconnected
  have hcalled : link.called input = _ := hrun
  have hahead : link.ahead input = link.wire := by
    rw [ahead, requested, if_neg (Nat.ne_of_lt unconnected), Nat.zero_min, List.drop_zero]
  refine aligned_of_other aligned (by omega) ?_ ?_ himages hentered ?_
  · rw [hcalled]; exact Nat.ne_of_lt hstate
  · rw [hcalled]; exact aligned.inside
  · rw [hahead, hcalled]
    exact .header hstate missing empty written hwire

/-- The header phase, given at most what is missing. -/
theorem aligned_step_header (aligned : link.Aligned images) (fits : link.HeaderFits input)
    {done todo : List ColorImage} (himages : images = done ++ todo)
    (hentered : link.entered = done.map List.Vector.toList)
    (connected : link.process.client.currState = 3) (free : link.wire ≠ [])
    (missing : link.process.client.headerIndex < cameraBufHeaderSize)
    (empty : link.process.client.bufferIndex = 0)
    (hwire : link.wire = (PiVisCamera.stream todo).drop link.process.client.headerIndex) :
    (link.step input).Aligned images := by
  -- something is on the wire, so a whole image is still to be read
  obtain ⟨image, rest, rfl⟩ : ∃ image rest, todo = image :: rest := by
    cases todo with
    | nil => exact absurd (by rw [hwire, PiVisCamera.stream_nil, List.drop_nil]) free
    | cons image rest => exact ⟨image, rest, rfl⟩
  have hlength := congrArg List.length hwire
  rw [List.length_drop, PiVisCamera.length_stream, List.length_cons, Nat.succ_mul,
    PiVisCamera.writtenSize] at hlength
  have hsize : cameraBufHeaderSize ≤ colorImageSize := by decide
  have hgiven : (link.wire.take (min cameraBufHeaderSize (input.extra + 1))).length =
      min cameraBufHeaderSize (input.extra + 1) := by
    rw [List.length_take]
    omega
  have hfits := fits connected missing
  rw [hgiven] at hfits
  have hcalled : link.called input = _ := run_header connected missing rfl
  rw [List.take_take, hgiven] at hcalled
  have hahead : link.ahead input = (PiVisCamera.stream (image :: rest)).drop
      (link.process.client.headerIndex + min cameraBufHeaderSize (input.extra + 1)) := by
    rw [ahead, requested, if_pos connected, if_pos missing, hwire, List.drop_drop]
  have hinside : (link.called input).overrun = false := by
    rw [hcalled, Bool.or_eq_false_iff]
    exact ⟨aligned.inside, decide_eq_false (Nat.not_lt.mpr hfits)⟩
  have hwritten : link.process.client.headerIndex +
      min cameraBufHeaderSize (input.extra + 1) ≤ (PiVisCamera.stream (image :: rest)).length := by
    rw [PiVisCamera.length_stream, List.length_cons, Nat.succ_mul, PiVisCamera.writtenSize]
    omega
  have hother : (link.called input).currState ≠ 4 := by
    rw [hcalled]
    show link.process.client.currState ≠ 4
    omega
  refine aligned_of_other aligned (fun h => free h.2) hother hinside himages hentered ?_
  rw [hahead, hcalled]
  -- the header is still incomplete, or exactly complete
  rcases Nat.lt_or_eq_of_le hfits with hlt | heq
  · exact .header (Nat.lt_of_le_of_lt (Nat.le_of_eq connected) (by decide)) hlt empty hwritten rfl
  · refine .pixels connected heq ?_ ?_ ?_
    · show link.process.client.bufferIndex < colorImageSize
      rw [empty]
      exact colorImageSize_pos
    · simp only [empty, List.take_zero]
    · simp only [heq, empty, List.drop_zero]
      rw [PiVisCamera.stream_cons, List.drop_left' PiVisCamera.length_header]

/-- The pixel phase. -/
theorem aligned_step_pixels (aligned : link.Aligned images)
    {done todo : List ColorImage} {image : ColorImage} (himages : images = done ++ image :: todo)
    (hentered : link.entered = done.map List.Vector.toList)
    (connected : link.process.client.currState = 3) (free : link.wire ≠ [])
    (complete : link.process.client.headerIndex = cameraBufHeaderSize)
    (inside : link.process.client.bufferIndex < colorImageSize)
    (stored : link.process.client.buffer.toList.take link.process.client.bufferIndex =
      image.toList.take link.process.client.bufferIndex)
    (hwire : link.wire =
      image.toList.drop link.process.client.bufferIndex ++ PiVisCamera.stream todo) :
    (link.step input).Aligned images := by
  have hlen := image.toList_length
  obtain ⟨n, hn⟩ : ∃ n, min (colorImageSize - link.process.client.bufferIndex)
    (input.extra + 1) = n := ⟨_, rfl⟩
  obtain ⟨bytes, hbytes⟩ : ∃ bytes, (image.toList.drop link.process.client.bufferIndex).take n =
    bytes := ⟨_, rfl⟩
  have hcount : bytes.length = n := by
    rw [← hbytes, List.length_take, List.length_drop]
    omega
  have hgiven : (link.wire.take (input.extra + 1)).take
      (colorImageSize - link.process.client.bufferIndex) = bytes := by
    rw [List.take_take, hn, hwire, List.take_append_of_le_length, hbytes]
    rw [List.length_drop]
    omega
  have hcalled : link.called input = _ := run_pixels connected complete inside rfl hgiven
  rw [hcount] at hcalled
  have hahead : link.ahead input =
      image.toList.drop (link.process.client.bufferIndex + n) ++ PiVisCamera.stream todo := by
    rw [ahead, requested, if_pos connected, if_neg (by omega), hn, hwire,
      List.drop_append_of_le_length, List.drop_drop]
    rw [List.length_drop]
    omega
  have hfits : Block.Fits colorImageSize link.process.client.bufferIndex bytes := by
    rw [Block.Fits, hcount]
    omega
  have hstored : (Block.write link.process.client.buffer link.process.client.bufferIndex
      bytes).toList.take (link.process.client.bufferIndex + n) =
        image.toList.take (link.process.client.bufferIndex + n) := by
    rw [← hcount, Block.take_toList_write _ hfits, stored, hcount, List.take_add, hbytes]
  -- the bytes given complete the image, or they do not
  by_cases hlast : link.process.client.bufferIndex + n = colorImageSize
  · rw [if_pos hlast] at hcalled
    refine aligned_of_entering aligned connected free ?_ ?_ ?_ ?_ himages hentered ?_ ?_
    · rw [hcalled]
    · rw [hcalled]
    · rw [hcalled]; exact aligned.inside
    · rw [hcalled]
    · rw [hcalled]
      apply List.Vector.eq
      rw [hlast, List.take_of_length_le (by simp), List.take_of_length_le (by simp)] at hstored
      exact hstored
    · rw [hahead, hlast, List.drop_of_length_le (Nat.le_of_eq hlen), List.nil_append]
  · rw [if_neg hlast] at hcalled
    have hother : (link.called input).currState ≠ 4 := by
      rw [hcalled]
      show link.process.client.currState ≠ 4
      omega
    refine aligned_of_other aligned (fun h => free h.2) hother ?_ himages hentered ?_
    · rw [hcalled]; exact aligned.inside
    · rw [hahead, hcalled]
      refine .pixels connected complete ?_ hstored rfl
      show link.process.client.bufferIndex + n < colorImageSize
      omega

/-- With the buffer handed out, the client goes back to the header of the next image. -/
theorem aligned_step_processing (aligned : link.Aligned images)
    {done todo : List ColorImage} (himages : images = done ++ todo)
    (hentered : link.entered = done.map List.Vector.toList)
    (processing : link.process.client.currState = 4)
    (fresh : link.process.client.headerIndex = 0)
    (hwire : link.wire = PiVisCamera.stream todo) : (link.step input).Aligned images := by
  -- the provider has taken the buffer in the round that completed it
  have htaken : link.process.client.bufferIndex = colorImageSize := by
    rcases aligned.handOff.phase with ⟨h, -⟩ | ⟨-, h, -⟩
    · omega
    · exact h
  have hcalled : link.called input = _ := link.process.client.run_processing _ processing htaken
  have hahead : link.ahead input = link.wire := by
    rw [ahead, requested, if_neg (by omega), Nat.zero_min, List.drop_zero]
  refine aligned_of_other aligned (by omega) ?_ ?_ himages hentered ?_
  · rw [hcalled]; simp
  · rw [hcalled]; exact aligned.inside
  · rw [hahead, hcalled]
    refine .header (show 3 < 4 by decide) ?_ rfl ?_ ?_
    · show link.process.client.headerIndex < cameraBufHeaderSize
      rw [fresh]; decide
    · show link.process.client.headerIndex ≤ _
      rw [fresh]; exact Nat.zero_le _
    · show link.wire = List.drop link.process.client.headerIndex _
      rw [fresh, List.drop_zero]; exact hwire

/-- **One round** keeps the client aligned with the images if its header call fits. -/
theorem aligned_step (link : CameraLink) (input : Input) (aligned : link.Aligned images)
    (fits : link.HeaderFits input) : (link.step input).Aligned images := by
  by_cases hblocked : link.process.client.currState = 3 ∧ link.wire = []
  · rw [step, if_pos hblocked]
    exact aligned
  obtain ⟨done, todo, himages, hentered, position⟩ := aligned.position
  cases position with
  | header waiting missing empty written hwire =>
    rcases Nat.lt_or_eq_of_le (Nat.le_of_lt_succ waiting) with hlt | heq
    · exact aligned_step_unconnected aligned himages hentered hlt missing empty written hwire
    · exact aligned_step_header aligned fits himages hentered heq (fun h => hblocked ⟨heq, h⟩)
        missing empty hwire
  | pixels connected complete inside stored hwire =>
    exact aligned_step_pixels aligned himages hentered connected
      (fun h => hblocked ⟨connected, h⟩) complete inside stored hwire
  | processing processing fresh hwire =>
    exact aligned_step_processing aligned himages hentered processing fresh hwire

end Round

theorem aligned_start (images : List ColorImage) : (start images).Aligned images where
  handOff := Process.handOffInv_start
  inside := rfl
  position := ⟨[], images, rfl, rfl,
    .header (show 0 < 4 by decide) (show 0 < 8 by decide) rfl (Nat.zero_le _) rfl⟩

/-- An aligned client has entered the images whose bytes have all been handed out. -/
theorem Aligned.reassembled {link : CameraLink} {images : List ColorImage}
    (aligned : link.Aligned images) : link.Reassembled images := by
  obtain ⟨done, todo, rfl, hentered, position⟩ := aligned.position
  have hpos : 0 < PiVisCamera.writtenSize := by decide
  have hsize : cameraBufHeaderSize + colorImageSize = PiVisCamera.writtenSize := rfl
  refine ⟨?_, aligned.inside⟩
  -- what has been handed out: the images entered, and less than a whole one
  obtain ⟨offset, hoffset, hread⟩ : ∃ offset < PiVisCamera.writtenSize,
      (PiVisCamera.stream (done ++ todo)).length - link.wire.length =
        offset + done.length * PiVisCamera.writtenSize := by
    rw [PiVisCamera.length_stream, List.length_append, Nat.add_mul]
    cases position with
    | header waiting missing empty written hwire =>
      refine ⟨link.process.client.headerIndex, by omega, ?_⟩
      rw [hwire, List.length_drop, PiVisCamera.length_stream]
      rw [PiVisCamera.length_stream] at written
      omega
    | @pixels image todo connected complete inside stored hwire =>
      refine ⟨cameraBufHeaderSize + link.process.client.bufferIndex, by omega, ?_⟩
      have hlen := image.toList_length
      rw [hwire, List.length_append, List.length_drop, PiVisCamera.length_stream,
        List.length_cons, Nat.succ_mul]
      omega
    | processing processing fresh hwire =>
      refine ⟨0, hpos, ?_⟩
      rw [hwire, PiVisCamera.length_stream]
      omega
  rw [hread, Nat.add_mul_div_right _ _ hpos, Nat.div_eq_of_lt hoffset, Nat.zero_add,
    List.take_left' rfl, hentered]

/-- **Reassembly.** Over every run, the client has entered the images whose bytes have
all been handed out, in order and byte for byte, and has stayed inside its arrays, if
and only if no call of the header phase was given more than was missing. -/
theorem reassembled_iff_headerFits (images : List ColorImage) (inputs : List Input) :
    (run step (start images) inputs).Reassembled images ↔
      Along step HeaderFits (start images) inputs := by
  constructor
  · intro reassembled
    -- an overrun stays on record, so the last state tells of every call
    exact (along_of_final (Q := fun link => link.process.client.overrun = false)
      (fun link input h => headerFits_of_step link input h) reassembled.inside).2
  · intro fits
    exact (run_invariant_along aligned_step (aligned_start images) fits).reassembled

/-- A header that comes as four bytes and then eight: the second call writes behind
`camBufHeader`. -/
theorem overrun_shortHeader :
    ¬(run step (start [.replicate _ 0])
      [⟨some [49], -1, 0, false⟩, ⟨none, -1, 0, false⟩, ⟨none, 7, 0, false⟩,
        ⟨none, -1, 3, false⟩, ⟨none, -1, 7, false⟩]).Reassembled [.replicate _ 0] := by
  intro reassembled
  have hinside := reassembled.inside
  revert hinside
  decide +kernel

end CameraLink

end PiVision
