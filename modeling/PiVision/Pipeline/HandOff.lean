import PiVision.Pipeline.Scheduler

/-!
# The hand-off of a frame

A frame that the client completes in one round is copied by the image provider in the
same round and obtained by algorithm control in the next one, after the client has left
`PROCESSING_FRAME` and before it can receive a byte. So the frames obtained are the
frames entered, one round later.
-/

namespace PiVision

open Machine

namespace Process

/-- The frame that waits to be obtained. -/
def pending (p : Process) : Option (List UInt8) :=
  if p.client.currState = 4 then some p.client.buffer.toList else none

/-- What holds between two rounds. Either no frame is on its way, or the provider has a
copy of the client's complete buffer. -/
structure HandOffInv (p : Process) : Prop where
  record : p.obtained ++ [p.pending] = none :: p.entered
  no_overread : p.client.overread = false
  phase : (p.client.currState < 4 ∧ p.client.bufferIndex < colorImageSize ∧
      p.provider.recBufferSize = 0) ∨
    (p.client.currState = 4 ∧ p.client.bufferIndex = colorImageSize ∧
      p.provider.recBufferSize = colorImageSize ∧ p.provider.recBuffer = p.client.buffer)
  not_overwritten : ∀ frame, p.obtained.getLast? = some (some frame) →
    p.client.buffer.toList = frame

section Round

variable (p : Process) (input : RoundInput)

/-- The worker's step changes the algorithm's state only. -/
theorem workerStep_frame (completes : Bool) :
    (p.workerStep completes).client = p.client ∧ (p.workerStep completes).provider = p.provider ∧
      (p.workerStep completes).entered = p.entered ∧
      (p.workerStep completes).obtained = p.obtained := by
  unfold workerStep
  split <;> exact ⟨rfl, rfl, rfl, rfl⟩

/-- The image provider meets the client as the client's callback has left it. -/
theorem round_modules :
    ((p.round input).provider, (p.round input).client) =
      p.provider.run (p.client.run input.client) := by
  obtain ⟨hclient, hprovider, -, -⟩ :=
    workerStep_frame (p.clientRun input.client) input.workerCompletes
  simp only [round, providerRun, algoCtrlRun, hclient, hprovider]
  rfl

theorem round_entered :
    (p.round input).entered = p.entered ++
      [if p.client.currState ≠ 4 ∧ (p.client.run input.client).currState = 4
        then some (p.client.run input.client).buffer.toList else none] := by
  obtain ⟨-, -, hentered, -⟩ := workerStep_frame (p.clientRun input.client) input.workerCompletes
  simp only [round, providerRun, algoCtrlRun, hentered]
  rfl

variable {p}

/-- A round whose client call ends outside `PROCESSING_FRAME`. -/
theorem round_of_other (other : (p.client.run input.client).currState ≠ 4) :
    (p.round input).provider = ⟨p.provider.recBuffer, 0⟩ ∧
      (p.round input).client = p.client.run input.client ∧
      (p.round input).entered = p.entered ++ [none] := by
  have hmodules := round_modules p input
  rw [ImageProviderState.run_of_other _ other] at hmodules
  obtain ⟨hprovider, hclient⟩ := Prod.mk.inj hmodules
  refine ⟨hprovider, hclient, ?_⟩
  rw [round_entered]
  simp [other]

/-- A round whose client call enters `PROCESSING_FRAME`: the provider takes a copy. -/
theorem round_of_entering (other : p.client.currState ≠ 4)
    (entering : (p.client.run input.client).currState = 4)
    (fresh : (p.client.run input.client).bufferIndex = 0) :
    (p.round input).provider = ⟨(p.client.run input.client).buffer, colorImageSize⟩ ∧
      (p.round input).client =
        { p.client.run input.client with bufferIndex := colorImageSize } ∧
      (p.round input).entered =
        p.entered ++ [some (p.client.run input.client).buffer.toList] := by
  have hmodules := round_modules p input
  rw [ImageProviderState.run_of_processing _ entering fresh] at hmodules
  obtain ⟨hprovider, hclient⟩ := Prod.mk.inj hmodules
  refine ⟨hprovider, hclient, ?_⟩
  rw [round_entered]
  simp [other, entering]

theorem round_obtained_of_empty (empty : p.provider.recBufferSize = 0) :
    (p.round input).obtained = p.obtained ++ [none] := by
  obtain ⟨-, hprovider, -, hobtained⟩ :=
    workerStep_frame (p.clientRun input.client) input.workerCompletes
  have hempty : ((p.clientRun input.client).workerStep input.workerCompletes).provider.recBufferSize
      = 0 := by rw [hprovider]; exact empty
  simp only [round, providerRun, algoCtrlRun, AlgoCtrlState.run_of_empty _ hempty, hobtained]
  rfl

theorem round_obtained_of_full (full : p.provider.recBufferSize = colorImageSize) :
    (p.round input).obtained = p.obtained ++ [some p.provider.recBuffer.toList] := by
  obtain ⟨-, hprovider, -, hobtained⟩ :=
    workerStep_frame (p.clientRun input.client) input.workerCompletes
  have hfull : ((p.clientRun input.client).workerStep input.workerCompletes).provider.recBufferSize
      = colorImageSize := by rw [hprovider]; exact full
  simp only [round, providerRun, algoCtrlRun, AlgoCtrlState.run_of_full _ hfull, hobtained]
  simp only [hprovider]
  rfl

end Round

/-- A round with no frame on its way: the client may complete one, and the provider then
copies it. -/
theorem handOffInv_round_waiting {p : Process} (input : RoundInput) (inv : p.HandOffInv)
    (waiting : p.client.currState < 4) (inside : p.client.bufferIndex < colorImageSize)
    (empty : p.provider.recBufferSize = 0) : (p.round input).HandOffInv := by
  have hother : p.client.currState ≠ 4 := by omega
  have hrecord : p.obtained ++ [none] = none :: p.entered := by
    simpa [pending, hother] using inv.record
  have hobtained := round_obtained_of_empty input empty
  have hnone : ∀ frame, (p.round input).obtained.getLast? ≠ some (some frame) := by
    intro frame
    simp [hobtained]
  -- the provider had nothing, so algorithm control obtains nothing in this round
  obtain ⟨hoverread, ⟨hstate, hindex⟩ | ⟨hstate, hindex⟩⟩ :=
    p.client.run_cases input.client waiting inside
  · -- the client goes on waiting
    have hstate' : (p.client.run input.client).currState ≠ 4 := by omega
    obtain ⟨hprovider, hclient, hentered⟩ := round_of_other input hstate'
    refine ⟨?_, ?_, .inl ⟨?_, ?_, ?_⟩, fun frame h => absurd h (hnone frame)⟩
    · rw [hobtained, hrecord, hentered, pending, hclient]
      simp [hstate']
    · rw [hclient, hoverread]; exact inv.no_overread
    · rw [hclient]; exact hstate
    · rw [hclient]; exact hindex
    · rw [hprovider]
  · -- the client completes a frame, and the provider takes a copy
    obtain ⟨hprovider, hclient, hentered⟩ := round_of_entering input hother hstate hindex
    refine ⟨?_, ?_, .inr ⟨?_, ?_, ?_, ?_⟩, fun frame h => absurd h (hnone frame)⟩
    · rw [hobtained, hrecord, hentered, pending, hclient]
      simp [hstate]
    · rw [hclient]; exact hoverread.trans inv.no_overread
    · rw [hclient]; exact hstate
    · rw [hclient]
    · rw [hprovider]
    · rw [hprovider, hclient]

/-- A round with a frame on its way: the client goes back to reading, and algorithm
control obtains the copy. -/
theorem handOffInv_round_processing {p : Process} (input : RoundInput) (inv : p.HandOffInv)
    (processing : p.client.currState = 4) (taken : p.client.bufferIndex = colorImageSize)
    (full : p.provider.recBufferSize = colorImageSize)
    (copied : p.provider.recBuffer = p.client.buffer) : (p.round input).HandOffInv := by
  -- the client's callback comes first and leaves its buffer as the provider has copied it
  have hrun := p.client.run_processing input.client processing taken
  have hstate : (p.client.run input.client).currState ≠ 4 := by rw [hrun]; simp
  have hrecord : p.obtained ++ [some p.client.buffer.toList] = none :: p.entered := by
    simpa [pending, processing] using inv.record
  have hobtained := round_obtained_of_full input full
  obtain ⟨hprovider, hclient, hentered⟩ := round_of_other input hstate
  refine ⟨?_, ?_, .inl ⟨?_, ?_, ?_⟩, fun frame h => ?_⟩
  · rw [hobtained, copied, hrecord, hentered, pending, hclient]
    simp [hstate]
  · rw [hclient, hrun]; exact inv.no_overread
  · rw [hclient, hrun]; simp
  · rw [hclient, hrun]; exact colorImageSize_pos
  · rw [hprovider]
  · rw [hobtained] at h
    rw [hclient, hrun, ← copied]
    simpa using h

theorem handOffInv_round (p : Process) (input : RoundInput) (inv : p.HandOffInv) :
    (p.round input).HandOffInv := by
  rcases inv.phase with ⟨hwaiting, hinside, hempty⟩ | ⟨hprocessing, htaken, hfull, hcopied⟩
  · exact handOffInv_round_waiting input inv hwaiting hinside hempty
  · exact handOffInv_round_processing input inv hprocessing htaken hfull hcopied

/-- The process as `main` starts it. -/
def start : Process := .init (.init 0 (-1))

theorem handOffInv_start : start.HandOffInv :=
  ⟨rfl, rfl, .inl ⟨by decide, colorImageSize_pos, rfl⟩, fun frame h => by cases h⟩

/-- The law of the hand-off. `obtained` and `entered` have one entry a round. -/
structure HandOffLaw (p : Process) : Prop where
  /-- What is obtained in a round is what the client entered in the round before. -/
  obtained_eq : p.obtained = (none :: p.entered).take p.entered.length
  /-- A frame is obtained before the client can overwrite its buffer. -/
  not_overwritten : ∀ frame, p.obtained.getLast? = some (some frame) →
    p.client.buffer.toList = frame
  /-- The state indexes the table of states. -/
  in_table : p.client.currState < 5
  /-- Every `memcpy` out of `buffer` has stayed inside it. -/
  no_overread : p.client.overread = false

/-- **Exactly-once hand-off.** In every run of the scheduler, whatever the sockets and
the worker do. -/
theorem handOffLaw_run (inputs : List RoundInput) :
    (run round start inputs).HandOffLaw := by
  have inv := run_invariant round handOffInv_round handOffInv_start inputs
  refine ⟨?_, inv.not_overwritten, ?_, inv.no_overread⟩
  -- the records differ by what is still pending, which stands at the end of one of them
  · have hrecord := inv.record
    have hlength := congrArg List.length hrecord
    simp only [List.length_append, List.length_cons, List.length_nil] at hlength
    rw [← hrecord]
    exact (List.take_left' (by omega)).symm
  · rcases inv.phase with ⟨h, -⟩ | ⟨h, -⟩ <;> omega

end Process

end PiVision
