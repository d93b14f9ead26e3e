import PiVision.Camera.Reassembly

/-!
# The client behind a lost peer

Connected, the client learns from `recv` that its peer is gone: an error, or no bytes from
a peer that has closed. The header phase takes no notice of either, the pixel phase of the
first one only, and the indices stay where they are in any case. So the next connection is
read from the middle of an image, and its header goes into the buffer.
-/

namespace PiVision

open Machine

namespace ClientState

/-- What `recv` reports of a peer that is gone. -/
def PeerLost (input : ClientInput) : Prop := input.arrived = none ∨ input.arrived = some []

/-- Back in `SERVICE_DISCOVERY`, with nothing of a frame collected. -/
def Recovered (s : ClientState) : Prop :=
  s.currState = 0 ∧ s.headerIndex = 0 ∧ s.bufferIndex = 0

/-- The bytes that a call of `run` takes from the connection. -/
def received (s : ClientState) (input : ClientInput) : List UInt8 :=
  (socketReceive input.arrived (CameraLink.requested s)).getD []

/-- The bytes that a sequence of calls takes. -/
def receivedBy : ClientState → List ClientInput → List UInt8
  | _, [] => []
  | s, input :: inputs => s.received input ++ receivedBy (s.run input) inputs

/-- No error of `recv` while the client is connected. -/
def KeepsPeer (s : ClientState) (input : ClientInput) : Prop :=
  s.currState = 3 → input.arrived ≠ none

section Lost

variable {s : ClientState} {input : ClientInput}

theorem run_of_connected (connected : s.currState = 3) :
    s.run input = s.stateConnected input.arrived := by
  simp [run, connected]

/-- What a lost peer does to the connected client: nothing at all, or, for an error in the
pixel phase, the client goes back to the search and keeps its indices. -/
theorem run_of_lost (connected : s.currState = 3) (inside : s.bufferIndex < colorImageSize)
    (lost : PeerLost input) :
    s.run input = s ∨ (cameraBufHeaderSize ≤ s.headerIndex ∧
      s.run input = { s with currState := 0, buffer := .replicate _ 0 }) := by
  have hmore : ¬s.bufferIndex = colorImageSize := Nat.ne_of_lt inside
  rw [run_of_connected connected, stateConnected]
  by_cases hmissing : s.headerIndex < cameraBufHeaderSize
  · have hfits : decide (cameraBufHeaderSize < s.headerIndex) = false :=
      decide_eq_false (Nat.not_lt.mpr (Nat.le_of_lt hmissing))
    rw [if_pos hmissing]
    -- zero bytes are written behind the header and counted, an error is not looked at
    rcases lost with hnone | hclosed
    · exact .inl (by simp [receiveHeader, socketReceive, hnone])
    · exact .inl (by simp [receiveHeader, socketReceive, hclosed, hfits])
  rw [if_neg hmissing]
  rcases lost with hnone | hclosed
  · have hpixels : s.receivePixels input.arrived =
        { s with currState := 0, buffer := .replicate _ 0 } := by
      rw [hnone]
      rfl
    rw [hpixels]
    exact .inr ⟨Nat.not_lt.mp hmissing, if_neg hmore⟩
  · have hfits : decide (colorImageSize < s.bufferIndex) = false :=
      decide_eq_false (Nat.not_lt.mpr (Nat.le_of_lt inside))
    have hpixels : s.receivePixels input.arrived = s := by
      simp [receivePixels, socketReceive, hclosed, hfits]
    rw [hpixels]
    exact .inl (if_neg hmore)

theorem not_recovered_of_lost (connected : s.currState = 3)
    (inside : s.bufferIndex < colorImageSize) (lost : PeerLost input) :
    ¬(s.run input).Recovered := by
  rintro ⟨hstate, hheader, -⟩
  have hpos : 0 < cameraBufHeaderSize := by decide
  rcases run_of_lost connected inside lost with hrun | ⟨hcomplete, hrun⟩
  · rw [hrun, connected] at hstate
    exact absurd hstate (by decide)
  · rw [hrun] at hheader
    exact absurd hheader (Nat.ne_of_gt (Nat.lt_of_lt_of_le hpos hcomplete))

end Lost

/-! ## The frame behind a lost peer -/

/-- The client behind an error that struck with `k` bytes of an image stored, and the bytes
it has received since: they are stored behind the first `k`, which have been cleared. -/
inductive Resumed (k : ℕ) (bytes : List UInt8) (s : ClientState) : Prop
  | collecting (waiting : s.currState < 4) (complete : cameraBufHeaderSize ≤ s.headerIndex)
      (inside : s.bufferIndex < colorImageSize) (index : s.bufferIndex = k + bytes.length)
      (stored : s.buffer.toList.take s.bufferIndex = List.replicate k 0 ++ bytes)
  | processing (processing : s.currState = 4) (fresh : s.bufferIndex = 0)
      (stored : s.buffer.toList = List.replicate k 0 ++ bytes)

/-- **One step.** What a call receives goes behind what is stored, a header or not. -/
theorem resumed_run {k : ℕ} {bytes : List UInt8} {s : ClientState} {input : ClientInput}
    (resumed : Resumed k bytes s) (keeps : s.KeepsPeer input) :
    Resumed k (bytes ++ s.received input) (s.run input) := by
  cases resumed with
  | processing hprocessing hfresh hstored =>
    have hnothing : s.received input = [] := by
      cases harrived : input.arrived <;>
        simp [received, socketReceive, CameraLink.requested, hprocessing, harrived]
    have hrun : s.run input = s := by
      have hmore : ¬s.bufferIndex = colorImageSize := by
        rw [hfresh]
        exact Nat.ne_of_lt colorImageSize_pos
      simp [run, hprocessing, processingFrame, hmore]
    rw [hnothing, List.append_nil, hrun]
    exact .processing hprocessing hfresh hstored
  | collecting hwaiting hcomplete hinside hindex hstored =>
    rcases Nat.lt_or_eq_of_le (Nat.le_of_lt_succ hwaiting) with hlt | hconnected
    · -- nothing is received before the client is connected again
      obtain ⟨currState, _, _, hstate, hrun⟩ := s.run_unconnected input hlt
      have hnothing : s.received input = [] := by
        cases harrived : input.arrived <;>
          simp [received, socketReceive, CameraLink.requested, Nat.ne_of_lt hlt, harrived]
      rw [hnothing, List.append_nil, hrun]
      exact .collecting hstate hcomplete hinside hindex hstored
    obtain ⟨chunk, hchunk, hfits, hpixels⟩ | ⟨hnone, -⟩ :=
      s.receivePixels_cases input.arrived hinside
    · have hmissing : ¬s.headerIndex < cameraBufHeaderSize := Nat.not_lt.mpr hcomplete
      have hreceived : s.received input = chunk := by
        rw [received, CameraLink.requested, if_pos hconnected, if_neg hmissing, hchunk]
        rfl
      have hbuffer : (Block.write s.buffer s.bufferIndex chunk).toList.take
          (s.bufferIndex + chunk.length) = List.replicate k 0 ++ (bytes ++ chunk) := by
        rw [Block.take_toList_write s.buffer hfits, hstored, List.append_assoc]
      rw [hreceived, run_of_connected hconnected, stateConnected, if_neg hmissing, hpixels,
        completeImage]
      by_cases hdone : s.bufferIndex + chunk.length = colorImageSize
      · rw [if_pos hdone]
        refine .processing (by simp [hconnected]) rfl ?_
        rw [hdone, List.take_of_length_le (by simp)] at hbuffer
        exact hbuffer
      · rw [if_neg hdone]
        refine .collecting hwaiting hcomplete (Nat.lt_of_le_of_ne hfits hdone) ?_ hbuffer
        show s.bufferIndex + chunk.length = k + (bytes ++ chunk).length
        rw [hindex, List.length_append, Nat.add_assoc]
    · exact absurd hnone (keeps hconnected)

theorem resumed_runs {k : ℕ} {bytes : List UInt8} {s : ClientState} (resumed : Resumed k bytes s)
    {inputs : List ClientInput} (keeps : Along run KeepsPeer s inputs) :
    Resumed k (bytes ++ s.receivedBy inputs) (Machine.run run s inputs) := by
  induction inputs generalizing s bytes with
  | nil =>
    rw [receivedBy, List.append_nil]
    exact resumed
  | cons input inputs ih =>
    rw [receivedBy, ← List.append_assoc]
    exact ih (resumed_run resumed keeps.1) keeps.2

/-- What the client has stored behind the error when it enters `PROCESSING_FRAME`. -/
theorem Resumed.buffer_eq {k : ℕ} {bytes : List UInt8} {s : ClientState}
    (resumed : Resumed k bytes s) (processing : s.currState = 4) :
    s.buffer.toList = List.replicate k 0 ++ bytes := by
  cases resumed with
  | collecting hwaiting => omega
  | processing _ _ hstored => exact hstored

/-- The first frame behind an error that struck with `k` bytes of an image stored: `k`
zeros, and the first bytes of the new connection, its header among them. -/
def FrameBehind (k : ℕ) (s : ClientState) : Prop :=
  ∀ (inputs : List ClientInput) (images : List ColorImage), Along run KeepsPeer s inputs →
    s.receivedBy inputs <+: PiVisCamera.stream images →
      (Machine.run run s inputs).currState = 4 →
        (Machine.run run s inputs).buffer.toList =
          List.replicate k 0 ++ (PiVisCamera.stream images).take (colorImageSize - k)

theorem frameBehind_of_resumed {k : ℕ} {s : ClientState} (resumed : Resumed k [] s) :
    FrameBehind k s := by
  intro inputs images hkeeps hstream hprocessing
  have hbuffer := (resumed_runs resumed hkeeps).buffer_eq hprocessing
  rw [List.nil_append] at hbuffer
  -- the buffer is full, so the number of bytes received is what was missing of it
  have hlength := congrArg List.length hbuffer
  rw [List.Vector.toList_length, List.length_append, List.length_replicate] at hlength
  have hreceived : (s.receivedBy inputs).length = colorImageSize - k := by omega
  rw [hbuffer, ← hreceived, ← List.prefix_iff_eq_take.mp hstream]

/-! ## Every reachable state -/

/-- The client as a run of the process has left it. -/
def reached (rounds : List RoundInput) : ClientState :=
  (Machine.run Process.round Process.start rounds).client

theorem inside_of_reached {rounds : List RoundInput} (connected : (reached rounds).currState = 3) :
    (reached rounds).bufferIndex < colorImageSize := by
  have inv := run_invariant Process.round Process.handOffInv_round Process.handOffInv_start rounds
  rcases inv.phase with ⟨-, hinside, -⟩ | ⟨hprocessing, -⟩
  · exact hinside
  · exact absurd (connected.symm.trans hprocessing) (by decide)

/-- **No recovery.** Wherever a run has left the connected client, a lost peer does not take
it back to `SERVICE_DISCOVERY` with nothing collected: it takes no notice, or goes back with
its indices kept, and the next frame begins with zeros and a header. -/
theorem never_recovers (rounds : List RoundInput) (lost : ClientInput)
    (connected : (reached rounds).currState = 3) (peerLost : PeerLost lost) :
    ¬((reached rounds).run lost).Recovered ∧
      ((reached rounds).run lost = reached rounds ∨
        (((reached rounds).run lost).currState = 0 ∧
          FrameBehind (reached rounds).bufferIndex ((reached rounds).run lost))) := by
  have hinside := inside_of_reached connected
  refine ⟨not_recovered_of_lost connected hinside peerLost, ?_⟩
  rcases run_of_lost connected hinside peerLost with hrun | ⟨hcomplete, hrun⟩
  · exact .inl hrun
  · rw [hrun]
    refine .inr ⟨rfl, frameBehind_of_resumed (.collecting (by simp) hcomplete hinside rfl ?_)⟩
    -- the buffer has been cleared
    have hzeros : (List.Vector.replicate colorImageSize (0 : UInt8)).toList =
        List.replicate colorImageSize 0 := rfl
    rw [hzeros, List.take_replicate, Nat.min_eq_left (Nat.le_of_lt hinside), List.append_nil]

/-- The client finds a server, connects, and reads a header and one byte. -/
def toPixels : List RoundInput :=
  [⟨⟨some [1], 0, none⟩, false⟩, ⟨⟨none, 0, none⟩, false⟩, ⟨⟨none, 5, none⟩, false⟩,
    ⟨⟨none, 0, some (.replicate 8 7)⟩, false⟩, ⟨⟨none, 0, some [7]⟩, false⟩]

/-- The peer closes while the client waits for the first byte of a header. -/
theorem never_recovers_closed :
    ¬((reached (toPixels.take 3)).run ⟨none, 0, some []⟩).Recovered :=
  (never_recovers (toPixels.take 3) ⟨none, 0, some []⟩ rfl (.inr rfl)).1

/-- An error behind the first pixel byte. -/
theorem not_recovered_pixels : ¬((reached toPixels).run ⟨none, 0, none⟩).Recovered := by
  have hconnected : (reached toPixels).currState = 3 := by decide +kernel
  exact not_recovered_of_lost hconnected (inside_of_reached hconnected) (.inl rfl)

end ClientState

end PiVision
