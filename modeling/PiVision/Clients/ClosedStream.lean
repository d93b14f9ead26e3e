import PiVision.ImageData.PythonClient
import PiVision.Lib.Run
import PiVision.Lib.ScriptLoop

/-!
# The Python client on a closed stream

When the peer has closed, `recv` returns no bytes. `__receiveInternal` takes that for a call
that has come too early and calls `recv` again, as it does behind a timeout; `receive` looks
at `active` between two frames only. So a stream that is closed inside a frame leaves the
client in a loop that nothing ends, `stop` included.
-/

namespace PiVision

open Machine ScriptLoop

/-- What a call of `recv` does: it returns bytes, none of them if the peer has closed, or
raises `socket.timeout`. -/
inductive RecvAnswer
  | packet (bytes : List UInt8)
  | timeout
  deriving DecidableEq, Repr

/-- The number of bytes that the call may bring. -/
def RecvAnswer.amount : RecvAnswer → ℕ
  | .packet bytes => bytes.length
  | .timeout => 0

namespace PythonClient

/-- A round of `__receiveInternal`, which asks `recv` for what is missing. -/
def receiveInternalRound (numBytes : ℕ) (data : List UInt8) : RecvAnswer → Flow (List UInt8)
  | .packet bytes =>
    let packet := bytes.take (numBytes - data.length)
    -- `continue`
    if packet = [] then .next data
    else .next (data ++ packet)
  | .timeout => .next data

/-- `__receiveInternal`. -/
def receiveInternal (numBytes : ℕ) :
    List RecvAnswer → List UInt8 → Ending (List UInt8) RecvAnswer :=
  loop (fun data => decide (data.length < numBytes)) (receiveInternalRound numBytes)

/-- A packet joins the data, be it empty or not. -/
theorem receiveInternalRound_packet (numBytes : ℕ) (data bytes : List UInt8) :
    receiveInternalRound numBytes data (.packet bytes) =
      .next (data ++ bytes.take (numBytes - data.length)) := by
  simp only [receiveInternalRound]
  split
  · rename_i hempty
    rw [hempty, List.append_nil]
  · rfl

/-- The reads of `receive` are rounds of `__receiveInternal`. -/
theorem round_eq_receive (c : PythonClient) (bytes : List UInt8) :
    (c.point = .header → receiveInternalRound headerSize c.header (.packet bytes) =
      .next (c.receive (bytes.take c.missing)).header) ∧
    (c.point = .image → receiveInternalRound c.imageSize c.receiveBuf (.packet bytes) =
      .next (c.receive (bytes.take c.missing)).receiveBuf) := by
  constructor
  · intro hpoint
    simp only [receiveInternalRound_packet, receive, missing, hpoint]
    split
    · rfl
    · split <;> rfl
  · intro hpoint
    simp only [receiveInternalRound_packet, receive, missing, hpoint]
    split <;> rfl

end PythonClient

/-- A number of bytes asked for, and a stream that is closed before so many have come. -/
structure EarlyClose where
  numBytes : ℕ
  answers : ℕ → RecvAnswer
  moment : ℕ
  closed : ∀ m, moment ≤ m → answers m = .packet []
  early : ((firstAnswers answers moment).map RecvAnswer.amount).sum < numBytes

/-- The loop of `receive`, with the client's `active`, and whether the loop has been left. -/
structure ReceiveLoop where
  client : PythonClient
  active : Bool
  left : Bool

/-- What happens in the loop: an answer of `recv`, the ack is sent and `active` looked at, or
`stop` is called in another thread. -/
inductive LoopAction
  | recv (answer : RecvAnswer)
  | sendAck
  | stop

/-- Nothing comes from a stream that is closed. -/
def LoopAction.Closed (action : LoopAction) : Prop :=
  ∀ bytes, action = .recv (.packet bytes) → bytes = []

namespace ReceiveLoop

/-- The client connected. -/
def start : ReceiveLoop := ⟨.init, true, false⟩

def step (s : ReceiveLoop) : LoopAction → ReceiveLoop
  | .recv (.packet bytes) =>
    if s.left then s else { s with client := s.client.receive (bytes.take s.client.missing) }
  | .recv .timeout => s
  | .sendAck =>
    if s.left then s
    else if s.client.point = .ack then
      { s with client := s.client.sendAck.1, left := !s.active }
    else s
  | .stop => { s with active := false }

def WellFormed (s : ReceiveLoop) : Prop := s.client.WellFormed

/-- The loop is inside a frame or in front of one, in a call of `recv`. -/
structure Reading (s : ReceiveLoop) : Prop where
  wf : s.WellFormed
  point : s.client.point ≠ .ack
  running : s.left = false

end ReceiveLoop

/-- A run of the loop on a stream that is closed while the loop is in a call of `recv`. -/
structure ClosedRun where
  before : List LoopAction
  after : List LoopAction
  reading : (run ReceiveLoop.step ReceiveLoop.start before).client.point ≠ .ack
  running : (run ReceiveLoop.step ReceiveLoop.start before).left = false
  closed : ∀ action ∈ after, action.Closed

namespace PythonClient

/-- `__receiveInternal` ends on the stream, and `receive` leaves its loop in the run. -/
def EndsOnClose (c : EarlyClose) (r : ClosedRun) : Prop :=
  (∃ data, Returns (receiveInternal c.numBytes) c.answers [] data) ∧
    (run ReceiveLoop.step ReceiveLoop.start (r.before ++ r.after)).left = true

/-- A client in a call of `recv` that gets no bytes stays as it is. -/
theorem WellFormed.receive_nil {c : PythonClient} (wf : c.WellFormed) (reading : c.point ≠ .ack) :
    c.receive [] = c := by
  cases hpoint : c.point with
  | header =>
    have hshort := (wf.at_header hpoint).1
    simp only [PythonClient.receive, hpoint, List.append_nil, hshort, if_true]
    rw [← hpoint]
  | image =>
    have hshort := (wf.at_image hpoint).2.2
    simp only [imageSize] at hshort
    simp only [PythonClient.receive, hpoint, imageSize, List.append_nil, hshort, if_true]
    rw [← hpoint]
  | ack => exact absurd hpoint reading

/-- `__receiveInternal` waits for ever for what does not come. -/
theorem receiveInternal_waits (c : EarlyClose) :
    WaitsForever (receiveInternal c.numBytes) c.answers [] := by
  intro m
  refine loop_waits_of_amount (fun _ => True) List.length RecvAnswer.amount c.numBytes
    (fun data _ hless => decide_eq_true hless) (fun data answer _ _ => ?_) trivial ?_
  · cases answer with
    | timeout => exact ⟨data, rfl, trivial, Nat.le_refl _⟩
    | packet bytes =>
      refine ⟨_, receiveInternalRound_packet _ data bytes, trivial, ?_⟩
      rw [List.length_append, List.length_take]
      exact Nat.add_le_add_left (Nat.min_le_right _ _) _
  · rw [List.length_nil, Nat.zero_add]
    refine Nat.lt_of_le_of_lt (sum_amount_le _ (fun k hk => ?_) m) c.early
    rw [c.closed k hk]
    rfl

end PythonClient

namespace ReceiveLoop

open PythonClient

variable {s : ReceiveLoop} {action : LoopAction}

theorem wellFormed_step (s : ReceiveLoop) (action : LoopAction) (wf : s.WellFormed) :
    (s.step action).WellFormed := by
  unfold WellFormed at wf ⊢
  cases action with
  | recv answer =>
    cases answer with
    | packet bytes =>
      simp only [step]
      split
      · exact wf
      · exact wf.receive (List.length_take_le _ _)
    | timeout => exact wf
  | sendAck =>
    simp only [step]
    split
    · exact wf
    · split
      · exact s.client.wellFormed_sendAck
      · exact wf
  | stop => exact wf

/-- **One step** on a closed stream: nothing but `active` changes. -/
theorem Reading.step_of_closed (reading : s.Reading) (closed : action.Closed) :
    (s.step action).Reading ∧ (s.step action).client = s.client := by
  cases action with
  | recv answer =>
    cases answer with
    | packet bytes =>
      have hnone : bytes.take s.client.missing = [] := by
        rw [closed bytes rfl, List.take_nil]
      have hsame : s.step (.recv (.packet bytes)) = s := by
        simp only [step, hnone, reading.wf.receive_nil reading.point, ite_self]
      rw [hsame]
      exact ⟨reading, rfl⟩
    | timeout => exact ⟨reading, rfl⟩
  | sendAck =>
    have hsame : s.step .sendAck = s := by
      simp only [step, reading.point, if_false, ite_self]
    rw [hsame]
    exact ⟨reading, rfl⟩
  | stop => exact ⟨⟨reading.wf, reading.point, reading.running⟩, rfl⟩

/-- **A run** on a closed stream: the loop is not left, and nothing is stored. -/
theorem Reading.run_of_closed (reading : s.Reading) {actions : List LoopAction}
    (closed : ∀ action ∈ actions, action.Closed) :
    (run step s actions).left = false ∧ (run step s actions).client = s.client := by
  induction actions generalizing s with
  | nil => exact ⟨reading.running, rfl⟩
  | cons action actions ih =>
    obtain ⟨hnext, hclient⟩ := reading.step_of_closed (closed action List.mem_cons_self)
    obtain ⟨hleft, hsame⟩ := ih hnext fun a ha => closed a (List.mem_cons_of_mem _ ha)
    exact ⟨hleft, hsame.trans hclient⟩

end ReceiveLoop

namespace PythonClient

/-- **The client never ends on a closed stream**: neither does `__receiveInternal`, nor is the
loop of `receive` left, and all that it has stored is from before. -/
theorem not_endsOnClose (c : EarlyClose) (r : ClosedRun) :
    ¬EndsOnClose c r ∧
      (∀ data, ¬Returns (receiveInternal c.numBytes) c.answers [] data) ∧
      (run ReceiveLoop.step ReceiveLoop.start (r.before ++ r.after)).left = false ∧
      (run ReceiveLoop.step ReceiveLoop.start (r.before ++ r.after)).client =
        (run ReceiveLoop.step ReceiveLoop.start r.before).client := by
  have hnever := (receiveInternal_waits c).not_returns
  have hstart : ReceiveLoop.start.WellFormed := wellFormed_init
  have hwf := run_invariant ReceiveLoop.step ReceiveLoop.wellFormed_step hstart r.before
  obtain ⟨hleft, hclient⟩ := ReceiveLoop.Reading.run_of_closed ⟨hwf, r.reading, r.running⟩ r.closed
  rw [← run_append] at hleft hclient
  exact ⟨fun ends => hnever _ ends.1.choose_spec, hnever, hleft, hclient⟩

/-- The stream is closed behind two bytes of a header, and `stop` is called. -/
theorem not_endsOnClose_in_header :
    ¬EndsOnClose
      ⟨4, fun m => if m = 0 then .packet [2, 0] else .packet [], 1,
        fun m hm => if_neg (Nat.one_le_iff_ne_zero.mp hm), by decide⟩
      ⟨[.recv (.packet [2, 0])], [.recv (.packet []), .stop, .recv (.packet [])],
        by decide, by decide, by simp [LoopAction.Closed]⟩ :=
  fun ends => absurd ends.2 (by decide)

end PythonClient

end PiVision
